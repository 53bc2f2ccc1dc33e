import TestAtlas.Pattern.Parser
import TestAtlas.Workspace.FileName
import TestAtlas.Workspace.FileStore

/-!
# Workspaces

A workspace is a store of files seen from a current directory, in which some paths cannot be read.
The conventions say which files are manifests, tests and sources and which directories are left
out.
-/

namespace TestAtlas

/-- A store of files, the directory that relative paths continue, and the paths, as they are
spelled, that cannot be read. -/
structure Workspace where
  cwd : String
  store : FileStore
  unreadable : List String

namespace Workspace

/-- The listing of a directory. -/
def readDirectory (w : Workspace) (path : String) : Except FileError (List Entry) :=
  if w.unreadable.contains path then .error (.notPermitted path)
  else w.store.readDirectory w.cwd path

/-- The content of a file. -/
def readContent (w : Workspace) (path : String) : Except FileError String :=
  if w.unreadable.contains path then .error (.notPermitted path)
  else w.store.readContent w.cwd path

/-- The listing of a directory, empty if it cannot be read. -/
def entries (w : Workspace) (directory : String) : List Entry :=
  match w.readDirectory directory with
  | .ok entries => entries
  | .error _ => []

/-- A bound on the number of directories in a chain of directories that each lists the next. -/
def depthBound (w : Workspace) : Nat := w.store.directories.size + 1

end Workspace

/-- The names that matter in a workspace. -/
structure Conventions where
  manifestName : String
  testSuffix : String
  sourceExtensions : List String
  excluded : List Expression

namespace Conventions

/-- The name is that of a test file. -/
def isTestFile (c : Conventions) (name : String) : Bool := FileName.isTest c.testSuffix name

/-- The directory name is left out. -/
def isExcluded (c : Conventions) (name : String) : Bool :=
  Expression.anyOccursIn c.excluded name

/-- The listing holds a manifest. -/
def hasManifest (c : Conventions) (entries : List Entry) : Bool :=
  entries.any fun e => e.1 == c.manifestName && e.2 == .file

/-- The directories of a listing that are not left out. -/
def subdirectories (c : Conventions) (directory : String) (entries : List Entry) : List String :=
  (entries.filter fun e => e.2 == .directory && !c.isExcluded e.1).map fun e =>
    Path.below directory e.1

/-- The test files of a listing. -/
def testFiles (c : Conventions) (directory : String) (entries : List Entry) : List String :=
  (entries.filter fun e => e.2 == .file && c.isTestFile e.1).map fun e => Path.below directory e.1

/-- The listing holds a source file. -/
def hasSource (c : Conventions) (entries : List Entry) : Bool :=
  entries.any fun e => e.2 == .file && FileName.isSource c.sourceExtensions e.1

end Conventions

end TestAtlas
