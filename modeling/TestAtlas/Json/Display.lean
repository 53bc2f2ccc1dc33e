import TestAtlas.Decimal.Notation
import TestAtlas.Json.Value
import TestAtlas.Text.Quoted

/-!
# Showing values in texts

A text is shown as it is; every other value is shown by its literal, in which the texts inside are
quoted.
-/

namespace TestAtlas.Json

/-- Numbers are shown as they are written, but for those without digits. -/
def shownNumberForm : Binary64.NumberForm where
  firstPoint := -3
  lastPoint := 16
  exponentWidth := 2
  infinity := "inf"
  notANumber := "nan"

mutual

/-- The literal of a value. -/
def literal : Json → String
  | .null => "None"
  | .bool true => "True"
  | .bool false => "False"
  | .int n => toString n
  | .float x => Binary64.render shownNumberForm x
  | .str s => Text.Quoted.quoted s
  | .list [] => "[]"
  | .list (item :: items) => "[" ++ literal item ++ literalItems items ++ "]"
  | .object [] => "\x7b\x7d"
  | .object ((name, value) :: members) =>
    "\x7b" ++ Text.Quoted.quoted name ++ ": " ++ literal value ++ literalMembers members ++ "\x7d"

/-- The literals of the items after the first. -/
def literalItems : List Json → String
  | [] => ""
  | item :: items => ", " ++ literal item ++ literalItems items

/-- The literals of the members after the first. -/
def literalMembers : List (String × Json) → String
  | [] => ""
  | (name, value) :: members =>
    ", " ++ Text.Quoted.quoted name ++ ": " ++ literal value ++ literalMembers members

end

/-- A value as it is shown in a text. -/
def shown : Json → String
  | .str s => s
  | value => value.literal

end TestAtlas.Json
