import TestAtlas.Keyed
import TestAtlas.Path

/-!
# Files in memory

A store keeps, for each directory, its listing in the order in which the entries were made, and for
each file its content.  Writing a file makes the directories above it.  All places are canonical
locations; the operations take any spelling.
-/

namespace TestAtlas

/-- What an entry of a listing is. -/
inductive EntryType where
  | file
  | directory
  deriving DecidableEq, Repr

/-- An entry of a listing. -/
abbrev Entry := String × EntryType

/-- Why a file or directory cannot be read or removed.  Each names the path as it was given. -/
inductive FileError where
  | notFound (path : String)
  | notADirectory (path : String)
  | notPermitted (path : String)
  deriving DecidableEq, Repr

/-- The wording of a file error: the path that was asked for. -/
def FileError.message : FileError → String
  | notFound path => path
  | notADirectory path => path
  | notPermitted path => path

/-- Directories with their listings, and files with their contents. -/
structure FileStore where
  directories : Keyed String (Keyed String EntryType)
  files : Keyed String String

namespace FileStore

/-- The store with nothing but the root directory. -/
def empty : FileStore := ⟨Keyed.empty.insert "/" Keyed.empty, Keyed.empty⟩

instance : Inhabited FileStore := ⟨empty⟩

/-- There is a directory at a location. -/
def isDirectory (s : FileStore) (location : String) : Bool := s.directories.contains location

/-- Changes the listing of a directory, if there is one. -/
def changeListing (s : FileStore) (directory : String)
    (change : Keyed String EntryType → Keyed String EntryType) : FileStore :=
  match s.directories.get? directory with
  | some listing => { s with directories := s.directories.insert directory (change listing) }
  | none => s

/-- Adds an empty directory to the store and to the listing above it. -/
def addDirectory (s : FileStore) (location : String) : FileStore :=
  let s := s.changeListing (Path.directoryPart location) fun listing =>
    listing.insert (Path.lastPart location) .directory
  { s with directories := s.directories.insert location Keyed.empty }

/-- The directories that have to be made for a location, the lowest first: the location and those
above it up to the first that exists. -/
def missingDirectories (s : FileStore) (location : String) : List String :=
  (Path.ancestors location).takeWhile fun d => !s.isDirectory d

/-- Makes a directory and all that are missing above it. -/
def makeDirectoriesAt (s : FileStore) (location : String) : FileStore :=
  (s.missingDirectories location).foldr (fun d s => s.addDirectory d) s

/-- Writes a file at a location. -/
def writeAt (s : FileStore) (location content : String) : FileStore :=
  let directory := Path.directoryPart location
  let s := (s.makeDirectoriesAt directory).changeListing directory fun listing =>
    listing.insert (Path.lastPart location) .file
  { s with files := s.files.insert location content }

/-- Takes a location out of the listing above it. -/
def unlist (s : FileStore) (location : String) : FileStore :=
  s.changeListing (Path.directoryPart location) fun listing =>
    listing.erase (Path.lastPart location)

/-- The location lies strictly below the directory. -/
def isInside (directory location : String) : Bool :=
  (directory.toList ++ ['/']).isPrefixOf location.toList

/-- Takes a directory and everything below it out of the store. -/
def dropSubtree (s : FileStore) (directory : String) : FileStore where
  directories := s.directories.filter fun e => !(e.1 == directory || isInside directory e.1)
  files := s.files.filter fun e => !isInside directory e.1

/-- Makes a directory and all that are missing above it. -/
def makeDirectories (s : FileStore) (cwd path : String) : FileStore :=
  s.makeDirectoriesAt (Path.canonical cwd path)

/-- Writes a file. -/
def write (s : FileStore) (cwd path content : String) : FileStore :=
  s.writeAt (Path.canonical cwd path) content

/-- Removes a file, or a directory other than the root with everything below it. -/
def remove (s : FileStore) (cwd path : String) : Except FileError FileStore :=
  let location := Path.canonical cwd path
  -- a location that is both a file and a directory is the file first
  if s.files.contains location then
    .ok ({ s with files := s.files.erase location }.unlist location)
  else if s.isDirectory location && location != "/" then
    .ok ((s.dropSubtree location).unlist location)
  else .error (.notFound path)

/-- The listing of a directory. -/
def readDirectory (s : FileStore) (cwd path : String) : Except FileError (List Entry) :=
  let location := Path.canonical cwd path
  if s.files.contains location then .error (.notADirectory path)
  else
    match s.directories.get? location with
    | some listing => .ok listing.entries
    | none => .error (.notFound path)

/-- The content of a file. -/
def readContent (s : FileStore) (cwd path : String) : Except FileError String :=
  match s.files.get? (Path.canonical cwd path) with
  | some content => .ok content
  | none => .error (.notFound path)

@[simp]
theorem files_changeListing (s : FileStore) (directory : String)
    (change : Keyed String EntryType → Keyed String EntryType) :
    (s.changeListing directory change).files = s.files := by
  unfold changeListing
  split <;> rfl

@[simp]
theorem files_addDirectory (s : FileStore) (location : String) :
    (s.addDirectory location).files = s.files := by
  simp [addDirectory]

/-- Making directories changes no file. -/
@[simp]
theorem files_makeDirectoriesAt (s : FileStore) (location : String) :
    (s.makeDirectoriesAt location).files = s.files := by
  unfold makeDirectoriesAt
  generalize s.missingDirectories location = ds
  induction ds with
  | nil => rfl
  | cons d ds ih => simpa using ih

/-- Writing a file changes what is stored at its location only. -/
theorem files_writeAt (s : FileStore) (location content : String) :
    (s.writeAt location content).files = s.files.insert location content := by
  simp [writeAt]

end FileStore

end TestAtlas
