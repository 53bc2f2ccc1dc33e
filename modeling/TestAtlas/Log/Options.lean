import TestAtlas.Json.Display
import TestAtlas.Json.Writer
import TestAtlas.Settings.Basic
import TestAtlas.Text.Blank
import TestAtlas.Text.Case
import TestAtlas.Text.Digit

/-!
# Options of the log

The level is a text; the other options are taken as they are given, and what they mean is found out
when the log is set up.
-/

namespace TestAtlas.Log

/-- How the log is asked to be set up. -/
structure Options where
  level : String
  console : Json
  file : Json
  maxBytes : Json
  backupCount : Json
  consoleFormat : Json
  fileFormat : Json
  dateFormat : Json

namespace Options

/-- The options that hold when nothing else is said. -/
def default : Options where
  level := "INFO"
  console := .bool true
  file := .null
  maxBytes := .int 1048576
  backupCount := .int 3
  consoleFormat := .str "%(levelname)s | %(name)s | %(message)s"
  fileFormat := .str "%(asctime)s | %(levelname)s | %(name)s | %(message)s"
  dateFormat := .str "%Y-%m-%d %H:%M:%S"

/-- A value that counts as present, else the fallback. -/
def valueOr (fallback : Json) : Option Json → Json
  | some v => if v.isTruthy then v else fallback
  | none => fallback

/-- The options that the members of a settings document ask for, unless the level cannot be shown
because an integer in it has too many digits. -/
def ofMembers? (members : List (String × Json)) : Option Options :=
  let document := Json.object members
  let level := valueOr (.str default.level) (document.member? "log_level")
  if level.hasLongInteger then none
  else some { default with
    level := level.shown
    file := valueOr .null (document.member? "log_file") }

/-- The options that validated settings ask for. -/
def ofSettings (s : Settings) : Options :=
  { default with
    level := if s.logLevel = "" then default.level else s.logLevel
    file := if s.logFile = "" then .null else .str s.logFile }

/-- Validated settings hold a text for the level, so their members always give options. -/
theorem ofMembers?_members (s : Settings) : ofMembers? s.members = some (ofSettings s) := by
  have hlevel : (Json.object s.members).member? "log_level" = some (.str s.logLevel) := rfl
  have hfile : (Json.object s.members).member? "log_file" = some (.str s.logFile) := rfl
  by_cases hl : s.logLevel = "" <;> by_cases hf : s.logFile = "" <;>
    simp [ofMembers?, ofSettings, hlevel, hfile, valueOr, Json.isTruthy, Json.hasLongInteger,
      Json.shown, hl, hf]

end Options

/-- The level that is taken when none is given or it is not known. -/
def usualLevel : Nat := 20

/-- The named levels. -/
def namedLevels : List (String × Nat) :=
  [("DEBUG", 10), ("INFO", 20), ("WARNING", 30), ("WARN", 30), ("ERROR", 40), ("CRITICAL", 50)]

/-- The number of a level given by its name, in letters of either case and with blanks around it. -/
def levelNumber (level : String) : Nat :=
  if level = "" then usualLevel
  else
    let name := Text.upperAscii (Text.trimmed level)
    ((namedLevels.find? fun l => l.1 == name).map Prod.snd).getD usualLevel

/-- The whole number that a value stands for: fractions are cut off. -/
def wholeNumber? : Json → Option Int
  | .bool b => some (if b then 1 else 0)
  | .int n => some n
  | .float x => x.truncate?
  | .str s => Text.wholeNumber? s.toList
  | _ => none

end TestAtlas.Log
