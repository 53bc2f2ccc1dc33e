import TestAtlas.Path

/-!
# Where settings and logs are kept

The data directory lies in the home directory, or on a system with application directories in the
local or else the roaming one.  It holds the settings file and the directory of the logs.
-/

namespace TestAtlas.Settings

/-- What the places hang on. -/
structure Surroundings where
  cwd : String
  home : String
  /-- The system has application directories. -/
  hasApplicationData : Bool
  localData : Option String
  roamingData : Option String
  deriving DecidableEq, Repr

namespace Surroundings

/-- The home directory without slashes at its end. -/
def homeDirectory (s : Surroundings) : String :=
  match (s.home.toList.reverse.dropWhile (· == '/')).reverse with
  | [] => "/"
  | cs => String.ofList cs

/-- The first application directory that is named. -/
def applicationDirectory? (s : Surroundings) : Option String :=
  if s.hasApplicationData then
    (s.localData.filter (· ≠ "")).or (s.roamingData.filter (· ≠ ""))
  else none

/-- The data directory. -/
def dataDirectory (s : Surroundings) : String :=
  Path.absolute s.cwd <|
    match s.applicationDirectory? with
    | some directory => Path.below directory "GoTestExplorer"
    | none => Path.below s.homeDirectory ".gotestexplorer"

/-- The settings file. -/
def settingsFile (s : Surroundings) : String := Path.below s.dataDirectory "config.json"

/-- The usual name of a log file. -/
def defaultLogName : String := "gotestexplorer.log"

/-- A log file with the given name. -/
def logFile (s : Surroundings) (name : String) : String :=
  Path.below (Path.below s.dataDirectory "logs") name

end Surroundings

end TestAtlas.Settings
