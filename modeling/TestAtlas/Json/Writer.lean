import TestAtlas.Decimal.Notation
import TestAtlas.Json.Token

/-!
# Writing JSON

Strings keep every character but quotes, backslashes and control characters.  Numbers have the
fewest digits that read back.  In the indented form every item and member stands on a line of its
own, four blanks deeper than its container; empty containers stand on one line.  Integers are
written with as many digits as are read and no more, and there is only so much room for containers
inside one another.
-/

namespace TestAtlas.Json

/-- Numbers are written positionally with the point within sixteen digits and at most three zeros
after it, and else with a signed exponent of two digits. -/
def numberForm : Binary64.NumberForm where
  firstPoint := -3
  lastPoint := 16
  exponentWidth := 2
  infinity := "Infinity"
  notANumber := "NaN"

/-- A hexadecimal digit in small letters. -/
def smallHex (n : Nat) : Char := if n < 10 then Char.ofNat (48 + n) else Char.ofNat (87 + n)

/-- The form of one character inside a string. -/
def writeChar (c : Char) : List Char :=
  if c = '"' ∨ c = '\\' then ['\\', c]
  else if c = '\n' then ['\\', 'n']
  else if c = '\r' then ['\\', 'r']
  else if c = '\t' then ['\\', 't']
  else if c = '\x0c' then ['\\', 'f']
  else if c = '\x08' then ['\\', 'b']
  else if c.toNat < 32 then ['\\', 'u', '0', '0', smallHex (c.toNat / 16), smallHex (c.toNat % 16)]
  else [c]

/-- A string between quotes. -/
def writeString (s : String) : String :=
  String.ofList ('"' :: (s.toList.flatMap writeChar ++ ['"']))

/-- How the parts of a container are set apart. -/
structure Style where
  /-- What stands before a part at the given depth. -/
  lineBreak : Nat → String
  /-- What stands after a part that is not the last. -/
  comma : String

/-- Everything on one line. -/
def Style.compact : Style := ⟨fun _ => "", ", "⟩

/-- One part a line, four blanks for each level. -/
def Style.indented : Style :=
  ⟨fun depth => String.ofList ('\n' :: List.replicate (4 * depth) ' '), ","⟩

mutual

/-- The text of a value inside `depth` containers. -/
def writeAt (style : Style) (depth : Nat) : Json → String
  | .null => "null"
  | .bool true => "true"
  | .bool false => "false"
  | .int n => toString n
  | .float x => Binary64.render numberForm x
  | .str s => writeString s
  | .list [] => "[]"
  | .list (item :: items) =>
    "[" ++ style.lineBreak (depth + 1) ++ writeAt style (depth + 1) item
      ++ writeItems style (depth + 1) items ++ style.lineBreak depth ++ "]"
  | .object [] => "\x7b\x7d"
  | .object ((name, value) :: members) =>
    "\x7b" ++ style.lineBreak (depth + 1) ++ writeString name ++ ": "
      ++ writeAt style (depth + 1) value ++ writeMembers style (depth + 1) members
      ++ style.lineBreak depth ++ "\x7d"

/-- The text of the items after the first. -/
def writeItems (style : Style) (depth : Nat) : List Json → String
  | [] => ""
  | item :: items =>
    style.comma ++ style.lineBreak depth ++ writeAt style depth item
      ++ writeItems style depth items

/-- The text of the members after the first. -/
def writeMembers (style : Style) (depth : Nat) : List (String × Json) → String
  | [] => ""
  | (name, value) :: members =>
    style.comma ++ style.lineBreak depth ++ writeString name ++ ": " ++ writeAt style depth value
      ++ writeMembers style depth members

end

mutual

/-- The value holds an integer of more digits than may be written. -/
def hasLongInteger : Json → Bool
  | .int n => maxIntegerDigits < (Nat.toDigits 10 n.natAbs).length
  | .list items => anyLongInteger items
  | .object members => anyLongMember members
  | _ => false

/-- One of the items holds such an integer. -/
def anyLongInteger : List Json → Bool
  | [] => false
  | item :: items => hasLongInteger item || anyLongInteger items

/-- One of the members holds such an integer. -/
def anyLongMember : List (String × Json) → Bool
  | [] => false
  | (_, value) :: members => hasLongInteger value || anyLongMember members

end

/-- Why a value cannot be written to its end. -/
inductive WriteError where
  /-- An integer has too many digits. -/
  | longInteger
  /-- There is no room for a container, or for the conversion of a floating-point number. -/
  | tooDeep
  deriving DecidableEq, Repr

mutual

/-- What is met first that cannot be written, with room for so many containers inside one another.
An empty container needs none. -/
def writeError? (room : Nat) : Json → Option WriteError
  | .int n => if hasLongInteger (.int n) then some .longInteger else none
  | .float _ => if room = 0 then some .tooDeep else none
  | .list items =>
    if room = 0 && !items.isEmpty then some .tooDeep else itemsError? (room - 1) items
  | .object members =>
    if room = 0 && !members.isEmpty then some .tooDeep else membersError? (room - 1) members
  | _ => none

/-- What is met first among some items. -/
def itemsError? (room : Nat) : List Json → Option WriteError
  | [] => none
  | item :: items => (writeError? room item).or (itemsError? room items)

/-- What is met first among some members. -/
def membersError? (room : Nat) : List (String × Json) → Option WriteError
  | [] => none
  | (_, value) :: members => (writeError? room value).or (membersError? room members)

end

/-- The text of a value. -/
def write (style : Style) (value : Json) : String := writeAt style 0 value

end TestAtlas.Json
