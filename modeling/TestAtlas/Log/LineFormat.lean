import TestAtlas.Json.Value
import TestAtlas.Pattern.Parser

/-!
# Lines of the log

A line format is a text with fields such as `%(message)s`.  It has to hold one field at least.  A
line can be made from a format whose fields are the name of the level, the name of the source and
the message.
-/

namespace TestAtlas.Log

/-- Something that was said: by whom, how urgent it is, and what. -/
structure Record where
  source : String
  level : Nat
  message : String
  deriving DecidableEq, Repr

/-- The name of a level. -/
def levelName (level : Nat) : String :=
  match level with
  | 0 => "NOTSET"
  | 10 => "DEBUG"
  | 20 => "INFO"
  | 30 => "WARNING"
  | 40 => "ERROR"
  | 50 => "CRITICAL"
  | n => "Level " ++ toString n

/-- A format for lines, as its text. -/
structure LineFormat where
  text : String
  deriving DecidableEq, Repr

namespace LineFormat

/-- The format of nothing but the message. -/
def message : LineFormat := ⟨"%(message)s"⟩

/-- The form of a field. -/
def fieldForm : String := "(?i)%\\(\\w+\\)[#0+ -]*(\\*|\\d+)?(\\.(\\*|\\d+))?[diouxefgcrsa%]"

/-- The text holds a field. -/
def hasField (text : String) : Bool :=
  match Expression.ofText fieldForm with
  | .ok form => form.occursIn text
  | .error _ => false

/-- The format that a value gives: a value that does not count as present gives the message alone,
and any other has to be a text with a field. -/
def ofValue? (value : Json) : Option LineFormat :=
  if !value.isTruthy then some message
  else
    match value with
    | .str text => if hasField text then some ⟨text⟩ else none
    | _ => none

/-- The value of a field of a record. -/
def field? (r : Record) (name : List Char) : Option (List Char) :=
  if name = "levelname".toList then some (levelName r.level).toList
  else if name = "name".toList then some r.source.toList
  else if name = "message".toList then some r.message.toList
  else none

/-- Splits the name of a field, up to `)s`, from what follows. -/
def fieldName? : List Char → Option (List Char × List Char)
  | ')' :: 's' :: rest => some ([], rest)
  | c :: rest => (fieldName? rest).map fun (name, rest) => (c :: name, rest)
  | [] => none

theorem length_snd_fieldName? {cs : List Char} {r : List Char × List Char}
    (h : fieldName? cs = some r) : r.2.length < cs.length := by
  induction cs generalizing r with
  | nil => simp [fieldName?] at h
  | cons c rest ih =>
    unfold fieldName? at h
    split at h
    · rename_i heq
      simp only [Option.some.injEq] at h
      subst h
      simp only [List.cons.injEq] at heq
      simp only [heq.2, List.length_cons]
      omega
    · rename_i heq
      simp only [List.cons.injEq] at heq
      obtain ⟨p, hp, rfl⟩ := Option.map_eq_some_iff.mp h
      rw [← heq.2] at hp
      have hlt : p.2.length < rest.length := ih hp
      exact Nat.lt_succ_of_lt hlt
    · rename_i heq
      exact absurd heq (by simp)

/-- Fills a record into a format; fails at a field that is not known. -/
def fill (r : Record) : List Char → Option (List Char)
  | [] => some []
  | '%' :: '%' :: cs => (fill r cs).map ('%' :: ·)
  | '%' :: '(' :: cs =>
    match _h : fieldName? cs with
    | none => none
    | some (name, rest) =>
      match field? r name, fill r rest with
      | some value, some text => some (value ++ text)
      | _, _ => none
  | c :: cs => if c = '%' then none else (fill r cs).map (c :: ·)
termination_by cs => cs.length
decreasing_by
  · simp only [List.length_cons]; omega
  · exact Nat.lt_succ_of_lt (Nat.lt_succ_of_lt (length_snd_fieldName? _h))
  · simp

/-- The line of a record, with the line feed at its end. -/
def line? (f : LineFormat) (r : Record) : Option (List Char) :=
  (fill r f.text.toList).map fun cs => cs ++ ['\n']

end LineFormat

end TestAtlas.Log
