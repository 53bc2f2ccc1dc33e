import TestAtlas.Workspace.FileStore

/-!
# Reported events

What happens while the tree is kept up to date is reported as a list of events, each of some
severity and with a message.
-/

namespace TestAtlas

/-- How much an event matters. -/
inductive Severity where
  | debug
  | info
  | warning
  | error
  deriving DecidableEq, Repr

namespace Severity

/-- The number of a severity; more severe events have greater numbers. -/
def number : Severity → Nat
  | debug => 10
  | info => 20
  | warning => 30
  | error => 40

/-- The name of a severity. -/
def name : Severity → String
  | debug => "DEBUG"
  | info => "INFO"
  | warning => "WARNING"
  | error => "ERROR"

end Severity

/-- Something worth reporting. -/
inductive Event where
  /-- A directory above a root could not be listed. -/
  | cannotList (directory : String) (error : FileError)
  /-- A directory could not be listed and counts as empty. -/
  | skippedDirectory (directory : String) (error : FileError)
  | mapBuilt (directories : Nat)
  | cannotReadManifest (manifest : String) (error : FileError)
  | discoveredRoots (count : Nat)
  | symbolsFailed (path reason : String)
  | cannotReadFile (location : String) (error : FileError)
  | cannotReadCreated (path : String) (error : FileError)
  | removedItems (count : Nat) (target : String)
  | removedRoot (id : String)
  | outsideFolders (file : String)
  | insideExcluded (file : String)
  | added (id : String)
  | reconciled (location : String) (added removed : Nat)
  | settingsWarning (text : String)
  deriving DecidableEq, Repr

namespace Event

/-- The severity of an event. -/
def severity : Event → Severity
  | discoveredRoots _ => .info
  | removedRoot _ => .info
  | skippedDirectory _ _ => .warning
  | symbolsFailed _ _ => .warning
  | cannotReadFile _ _ => .warning
  | cannotReadCreated _ _ => .warning
  | settingsWarning _ => .warning
  | _ => .debug

/-- The wording of an event. -/
def message : Event → String
  | cannotList directory error => "Cannot list " ++ directory ++ ": " ++ error.message
  | skippedDirectory directory error =>
    "Skipping unreadable directory " ++ directory ++ ": " ++ error.message
  | mapBuilt n => "Module map built: " ++ toString n ++ " directories"
  | cannotReadManifest manifest error =>
    "Cannot read manifest " ++ manifest ++ ": " ++ error.message
  | discoveredRoots n => "Discovered " ++ toString n ++ " root item(s)"
  | symbolsFailed path reason => "Symbol extraction failed for " ++ path ++ ": " ++ reason
  | cannotReadFile location error => "Cannot read " ++ location ++ ": " ++ error.message
  | cannotReadCreated path error => "Cannot read created file " ++ path ++ ": " ++ error.message
  | removedItems n target =>
    "Removed " ++ toString n ++ " item(s) for deleted path " ++ target
  | removedRoot id => "Removed root item " ++ id
  | outsideFolders file => "Ignoring " ++ file ++ ": outside every workspace folder and module"
  | insideExcluded file => "Ignoring " ++ file ++ ": inside an excluded directory"
  | added id => "Added " ++ id
  | reconciled location plus minus =>
    "Reconciled " ++ location ++ ": +" ++ toString plus ++ " -" ++ toString minus
  | settingsWarning text => text

end Event

end TestAtlas
