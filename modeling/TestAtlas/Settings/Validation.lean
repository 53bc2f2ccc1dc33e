import TestAtlas.Settings.Basic
import TestAtlas.Text.Blank
import TestAtlas.Text.Case
import TestAtlas.Text.Cut

/-!
# Checking settings

`inspect` gives every known field its type and lists the problems it had to mend, in the order of
the fields.  Lenient validation mends them all and warns of each; strict validation fails with the
first.  Blank texts and missing values give way to the default without a problem.
-/

namespace TestAtlas.Settings

open Text

/-- How validation deals with problems. -/
inductive Mode where
  | lenient
  | strict
  deriving DecidableEq, Repr

/-- What is wrong with settings. -/
inductive Problem where
  | notAnObject (received : String)
  | notAText (field received : String)
  | notATextList (field received : String)
  | itemNotAText (field : String) (index : Nat)
  | commaText (field : String)
  | extensionWithoutDot (extension : String)
  | unknownLevel (level : String)
  deriving DecidableEq, Repr

/-- The sort of failure a problem is: a wrong type or a wrong value. -/
inductive Fault where
  | type
  | value
  deriving DecidableEq, Repr

namespace Problem

/-- The sort of failure a problem is. -/
def fault : Problem → Fault
  | extensionWithoutDot _ => .value
  | unknownLevel _ => .value
  | _ => .type

/-- The wording of a problem as a failure. -/
def message : Problem → String
  | notAnObject received => "Invalid config type: expected dict, received " ++ received ++ "."
  | notAText field received =>
    "Invalid field '" ++ field ++ "': expected str, received " ++ received ++ "."
  | notATextList field received =>
    "Invalid field '" ++ field ++ "': expected list[str], received " ++ received ++ "."
  | itemNotAText field index =>
    "Invalid item in '" ++ field ++ "[" ++ toString index ++ "]': expected str."
  | commaText field => "Field '" ++ field ++ "' converted from CSV string to list."
  | extensionWithoutDot extension =>
    "Invalid extension '" ++ extension ++ "': must start with '.'."
  | unknownLevel level => "Invalid log level '" ++ level ++ "'."

/-- The wording of a problem as a warning. -/
def warning : Problem → String
  | notAnObject received => message (notAnObject received) ++ " Using defaults."
  | notAText field received => message (notAText field received) ++ " Using fallback."
  | notATextList field received => message (notATextList field received) ++ " Using fallback."
  | itemNotAText field index => message (itemNotAText field index) ++ " Item discarded."
  | commaText field => message (commaText field)
  | extensionWithoutDot extension =>
    "Extension '" ++ extension ++ "' corrected to '." ++ extension ++ "'."
  | unknownLevel level =>
    message (unknownLevel level) ++ " Using " ++ Settings.default.logLevel ++ "."

end Problem

/-- A mended value with the problems found in it. -/
abbrev Mended (α : Type) := α × List Problem

/-- A text field: surrounding blanks are removed, and an empty text gives way to the fallback. -/
def mendText (field fallback : String) : Json → Mended String
  | .null => (fallback, [])
  | .str s => (if trimmed s = "" then fallback else trimmed s, [])
  | value => (fallback, [.notAText field value.typeWord])

/-- The parts of a text between commas, without surrounding blanks and empty parts. -/
def commaParts (s : String) : List String :=
  ((cut ',' s.toList).map fun part => String.ofList (strip part)).filter (· ≠ "")

/-- The items of a list that are texts and not blank, from the one numbered `n` on. -/
def mendItems (field : String) : Nat → List Json → Mended (List String)
  | _, [] => ([], [])
  | n, item :: items =>
    let (texts, problems) := mendItems field (n + 1) items
    match item with
    | .str s => (if trimmed s = "" then texts else trimmed s :: texts, problems)
    | _ => (texts, .itemNotAText field n :: problems)

/-- A list field.  A list of which nothing is left gives way to the fallback unless it was empty.
A text with commas is taken for a list in lenient mode only. -/
def mendTextList (mode : Mode) (field : String) (fallback : List String) :
    Json → Mended (List String)
  | .null => (fallback, [])
  | .list items =>
    let (texts, problems) := mendItems field 0 items
    (if texts.isEmpty && !items.isEmpty then fallback else texts, problems)
  | .str s =>
    match mode with
    | .strict => (fallback, [.notATextList field (Json.str s).typeWord])
    | .lenient =>
      match commaParts s with
      | [] => (fallback, [])
      | parts => (parts, [.commaText field])
  | value => (fallback, [.notATextList field value.typeWord])

/-- The extension starts with a dot. -/
def startsWithDot (extension : String) : Bool := extension.toList.head? == some '.'

/-- The extensions, each with a dot at its start; without any, the default ones. -/
def mendExtensions (extensions : List String) : Mended (List String) :=
  let mended := extensions.map fun e => if startsWithDot e then e else "." ++ e
  (if mended.isEmpty then default.sourceExtensions else mended,
    (extensions.filter fun e => !startsWithDot e).map .extensionWithoutDot)

/-- The accepted names of levels. -/
def levelNames : List String := ["DEBUG", "INFO", "WARNING", "WARN", "ERROR", "CRITICAL"]

/-- The level in capitals, or the default for an unknown one. -/
def mendLevel (level : String) : Mended String :=
  let upper := upperAscii level
  if levelNames.contains upper then (upper, [])
  else (default.logLevel, [.unknownLevel level])

/-- The value of a member, that of the default settings if it is missing. -/
def memberOr (given : List (String × Json)) (name : String) (fallback : Json) : Json :=
  (Json.member? name (.object given)).getD fallback

/-- The settings that the members of an object describe, and the problems found in them. -/
def ofMembers (mode : Mode) (given : List (String × Json)) : Mended Settings :=
  let d := default
  let text := fun name (fallback : String) =>
    mendText name fallback (memberOr given name (.str fallback))
  let list := fun name fallback =>
    mendTextList mode name fallback (memberOr given name (textList fallback))
  let (manifestName, p1) := text "manifest_name" d.manifestName
  let (testFileSuffix, p2) := text "test_file_suffix" d.testFileSuffix
  let (level, p3) := text "log_level" d.logLevel
  let (logFile, p4) := text "log_file" d.logFile
  let (workspaceFolders, p5) := list "workspace_folders" d.workspaceFolders
  let (extensions, p6) := list "source_extensions" d.sourceExtensions
  let (excludePatterns, p7) := list "exclude_patterns" d.excludePatterns
  let (sourceExtensions, p8) := mendExtensions extensions
  let (logLevel, p9) := mendLevel level
  ({ version := memberOr given "version" d.version
     workspaceFolders, manifestName, testFileSuffix, sourceExtensions, excludePatterns, logLevel,
     logFile
     others := given.filter fun m => !knownNames.contains m.1 },
    p1 ++ p2 ++ p3 ++ p4 ++ p5 ++ p6 ++ p7 ++ p8 ++ p9)

/-- The settings that a value describes, and the problems found in it.  A value that is no object
describes the default settings. -/
def inspect (mode : Mode) : Json → Mended Settings
  | .object given => ofMembers mode given
  | value => (default, [.notAnObject value.typeWord])

/-- Validates a value: strictly, the first problem is a failure; leniently, every problem is
mended. -/
def validate (mode : Mode) (config : Json) : Except Problem (Mended Settings) :=
  match mode, inspect mode config with
  | .strict, (_, problem :: _) => .error problem
  | _, (settings, problems) => .ok (settings, problems)

/-- Validates a value leniently. -/
def validateLenient (config : Json) : Mended Settings := inspect .lenient config

/-- Lenient validation never fails. -/
theorem validate_lenient (config : Json) :
    validate .lenient config = .ok (validateLenient config) := by
  unfold validate validateLenient
  rcases inspect .lenient config with ⟨s, p⟩
  cases p <;> rfl

/-- Strict validation succeeds if it finds no problem. -/
theorem validate_strict_eq_ok_iff {config : Json} {result : Mended Settings} :
    validate .strict config = .ok result ↔ inspect .strict config = result ∧ result.2 = [] := by
  unfold validate
  rcases inspect .strict config with ⟨s, problems⟩
  cases problems with
  | nil =>
      constructor
      · intro h
        obtain rfl : (s, []) = result := Except.ok.inj h
        exact ⟨rfl, rfl⟩
      · rintro ⟨rfl, -⟩
        rfl
  | cons problem problems =>
      constructor
      · intro h
        exact absurd h (by simp)
      · rintro ⟨rfl, h⟩
        exact absurd h (List.cons_ne_nil _ _)

end TestAtlas.Settings
