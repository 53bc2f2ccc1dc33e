import TestAtlas.Decimal.Binary64

/-!
# JSON values

Integers of any size are kept apart from floating-point numbers.  The members of an object keep
the order in which their names first appeared.
-/

namespace TestAtlas

/-- A JSON value. -/
inductive Json where
  | null
  | bool (b : Bool)
  | int (n : Int)
  | float (x : Binary64)
  | str (s : String)
  | list (items : List Json)
  | object (members : List (String × Json))
  deriving Inhabited

namespace Json

/-- The member of an object with the given name. -/
def member? (name : String) : Json → Option Json
  | .object members => (members.find? (·.1 == name)).map Prod.snd
  | _ => none

/-- The value counts as present: it is neither null, false, zero nor empty. -/
def isTruthy : Json → Bool
  | .null => false
  | .bool b => b
  | .int n => n != 0
  | .float x => !x.isZero
  | .str s => s != ""
  | .list items => !items.isEmpty
  | .object members => !members.isEmpty

/-- The word for the type of a value in messages. -/
def typeWord : Json → String
  | .null => "NoneType"
  | .bool _ => "bool"
  | .int _ => "int"
  | .float _ => "float"
  | .str _ => "str"
  | .list _ => "list"
  | .object _ => "dict"

/-- Writes a member into an object: in place if its name is present, else at the end. -/
def insertMember (name : String) (value : Json) : List (String × Json) → List (String × Json)
  | [] => [(name, value)]
  | (name', value') :: rest =>
    if name' = name then (name, value) :: rest
    else (name', value') :: insertMember name value rest

end Json

end TestAtlas
