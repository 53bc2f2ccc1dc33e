import TestAtlas.Json.Value

/-!
# Settings

The settings name the workspace folders, the conventions for manifests, test files and source
files, the directories that are left out, and how much is reported.  In a document they are the
members of an object; further members are kept as they are.
-/

namespace TestAtlas

/-- Settings in which every known field has its type. -/
structure Settings where
  version : Json
  workspaceFolders : List String
  manifestName : String
  testFileSuffix : String
  sourceExtensions : List String
  excludePatterns : List String
  logLevel : String
  logFile : String
  /-- The further members, in order. -/
  others : List (String × Json)

namespace Settings

/-- The version of the settings document. -/
def currentVersion : String := "1.0.0"

/-- The settings that hold when nothing else is said. -/
def default : Settings where
  version := .str currentVersion
  workspaceFolders := []
  manifestName := "go.mod"
  testFileSuffix := "_test.go"
  sourceExtensions := [".go"]
  excludePatterns := ["^(\\.git|vendor|testdata|node_modules)$"]
  logLevel := "INFO"
  logFile := ""
  others := []

/-- The names of the known members. -/
def knownNames : List String :=
  ["version", "workspace_folders", "manifest_name", "test_file_suffix", "source_extensions",
    "exclude_patterns", "log_level", "log_file"]

/-- A list of texts as a value. -/
def textList (xs : List String) : Json := .list (xs.map .str)

/-- The members of the settings object. -/
def members (s : Settings) : List (String × Json) :=
  [("version", s.version),
    ("workspace_folders", textList s.workspaceFolders),
    ("manifest_name", .str s.manifestName),
    ("test_file_suffix", .str s.testFileSuffix),
    ("source_extensions", textList s.sourceExtensions),
    ("exclude_patterns", textList s.excludePatterns),
    ("log_level", .str s.logLevel),
    ("log_file", .str s.logFile)] ++ s.others

/-- The settings as a value. -/
def toJson (s : Settings) : Json := .object s.members

end Settings

end TestAtlas
