import TestAtlas.Keyed
import TestAtlas.Text.Cut
import TestAtlas.Text.Utf8
import TestAtlas.Workspace.FileStore

/-!
# A disk with links

A disk holds directories, files and links.  A place is given by the names that lead to it from the
top; a path is followed name by name, and where it meets a link the path of the link comes first.
Listings are sorted by name and show links to files as files; links to directories and links that
lead nowhere are not shown.
-/

namespace TestAtlas

/-- What stands at a place. -/
inductive DiskNode where
  | directory
  | file (content : List UInt8)
  | link (target : String)
  deriving DecidableEq, Repr

/-- Why a path of the disk cannot be used. -/
inductive DiskError where
  | notFound
  | notADirectory
  | isADirectory
  | alreadyThere
  | tooManyLinks
  /-- No name on a disk can have a null character in it. -/
  | nullCharacter
  deriving DecidableEq, Repr

/-- A place: the names from the top down to it. -/
abbrev DiskPlace := List String

/-- What stands at the places of a disk.  The top is always a directory. -/
structure Disk where
  nodes : Keyed DiskPlace DiskNode

namespace Disk

/-- The disk with nothing but its top. -/
def empty : Disk := ⟨Keyed.empty⟩

instance : Inhabited Disk := ⟨empty⟩

/-- What stands at a place. -/
def node? (d : Disk) (place : DiskPlace) : Option DiskNode :=
  if place = [] then some .directory else d.nodes.get? place

/-- Puts something at a place. -/
def setNode (d : Disk) (place : DiskPlace) (node : DiskNode) : Disk :=
  ⟨d.nodes.insert place node⟩

/-- The names in a path. -/
def namesIn (path : String) : List String := (Text.cut '/' path.toList).map String.ofList

/-- A null character is in the text. -/
def hasNull (text : String) : Bool := text.toList.contains '\x00'

/-- As many links are followed on one path. -/
def maxLinks : Nat := 40

/-- Follows names from a place, and links as often as is still allowed. -/
def follow (d : Disk) (links : Nat) (place : DiskPlace) :
    List String → Except DiskError DiskPlace
  | [] => .ok place
  | name :: rest =>
    if d.node? place ≠ some .directory then .error .notADirectory
    -- a slash at the end or a doubled one gives an empty name, which asks for a directory only
    else if name = "" ∨ name = "." then d.follow links place rest
    else if name = ".." then d.follow links place.dropLast rest
    else
      match d.node? (place ++ [name]) with
      | none => .error .notFound
      | some (.link target) =>
        match links with
        | 0 => .error .tooManyLinks
        | links + 1 => d.follow links place (namesIn target ++ rest)
      | some _ => d.follow links (place ++ [name]) rest
termination_by names => (links, names.length)

/-- The place a path leads to. -/
def locate (d : Disk) (path : String) : Except DiskError DiskPlace :=
  if hasNull path then .error .nullCharacter else d.follow maxLinks [] (namesIn path)

/-- The names directly below a place, with what stands there. -/
def namesBelow (d : Disk) (place : DiskPlace) : List (String × DiskNode) :=
  d.nodes.entries.filterMap fun (p, node) =>
    match p.getLast? with
    | some name => if p.dropLast = place then some (name, node) else none
    | none => none

/-- The entry that a listing shows for a name. -/
def entry? (d : Disk) (place : DiskPlace) (name : String) :
    DiskNode → Except DiskError (Option Entry)
  | .directory => .ok (some (name, .directory))
  | .file _ => .ok (some (name, .file))
  | .link _ =>
    match d.follow maxLinks place [name] with
    | .ok p =>
      match d.node? p with
      | some (.file _) => .ok (some (name, .file))
      | _ => .ok none
    | .error .notFound => .ok none
    | .error e => .error e

/-- The listing of a directory. -/
def readDirectory (d : Disk) (path : String) : Except DiskError (List Entry) := do
  let place ← d.locate path
  match d.node? place with
  | some .directory =>
    let entries ← (d.namesBelow place).mapM fun (name, node) => d.entry? place name node
    return (entries.filterMap id).mergeSort fun a b => !(b.1 < a.1)
  | _ => throw .notADirectory

/-- The bytes of a file. -/
def readBytes (d : Disk) (path : String) : Except DiskError (List UInt8) := do
  let place ← d.locate path
  match d.node? place with
  | some (.file content) => return content
  | some .directory => throw .isADirectory
  | _ => throw .notFound

/-- The text in which every line ends with a line feed alone. -/
def unifyLineEnds : List Char → List Char
  | '\r' :: '\n' :: cs => '\n' :: unifyLineEnds cs
  | '\r' :: cs => '\n' :: unifyLineEnds cs
  | c :: cs => c :: unifyLineEnds cs
  | [] => []

/-- The text of a file.  Bytes that are not UTF-8 are replaced. -/
def readContent (d : Disk) (path : String) : Except DiskError String := do
  let content ← d.readBytes path
  return String.ofList (unifyLineEnds (Text.Utf8.decodeLossy content))

/-- Makes the directories that are missing on the way along some names, up to the first name that
the disk does not allow. -/
def makeWay (d : Disk) (place : DiskPlace) : List String → Except DiskError Unit × Disk
  | [] =>
    if d.node? place = some .directory then (.ok (), d) else (.error .alreadyThere, d)
  | name :: rest =>
    if hasNull name then (.error .nullCharacter, d)
    else
      match d.follow maxLinks place [name] with
      | .ok next => d.makeWay next rest
      | .error .notFound =>
        if (d.node? (place ++ [name])).isSome then (.error .alreadyThere, d)
        else (d.setNode (place ++ [name]) .directory).makeWay (place ++ [name]) rest
      | .error e => (.error e, d)

/-- Makes a directory and all that are missing above it.  After a failure those that were made
before are there. -/
def makeDirectories (d : Disk) (path : String) : Except DiskError Unit × Disk :=
  d.makeWay [] (namesIn path)

/-- The place that the last of some names stands for, in the directory that the names before it
lead to.  A link at that place is not followed, and nothing need stand there. -/
def placeOfLast (d : Disk) (place : DiskPlace) (names : List String) :
    Except DiskError DiskPlace := do
  let above ← d.follow maxLinks place names.dropLast
  if d.node? above ≠ some .directory then throw .notADirectory
  let name := names.getLast?.getD ""
  if name = "" ∨ name = "." ∨ name = ".." then throw .isADirectory
  return above ++ [name]

/-- The place of a file that is to be written: the directory above it has to be there.  A link
stands for the place it leads to, whether a file is there or not. -/
def followToWrite (d : Disk) (links : Nat) (place : DiskPlace) (names : List String) :
    Except DiskError DiskPlace :=
  match d.placeOfLast place names with
  | .error e => .error e
  | .ok last =>
    match d.node? last, links with
    | some .directory, _ => .error .isADirectory
    | some (.link _), 0 => .error .tooManyLinks
    | some (.link target), links + 1 => d.followToWrite links last.dropLast (namesIn target)
    | _, _ => .ok last

/-- The place of the file at a path that is to be written. -/
def placeToWrite (d : Disk) (path : String) : Except DiskError DiskPlace :=
  if hasNull path then .error .nullCharacter else d.followToWrite maxLinks [] (namesIn path)

/-- Writes a file. -/
def writeBytes (d : Disk) (path : String) (content : List UInt8) : Except DiskError Disk := do
  let place ← d.placeToWrite path
  return d.setNode place (.file content)

/-- Makes a link at a path where nothing stands yet. -/
def makeLink (d : Disk) (path target : String) : Except DiskError Disk := do
  let place ← d.placeOfLast [] (namesIn path)
  if (d.node? place).isSome then throw .alreadyThere
  return d.setNode place (.link target)

/-- Makes a file that can be written at its end: it is empty if it was not there. -/
def openToAppend (d : Disk) (path : String) : Except DiskError Disk := do
  let place ← d.placeToWrite path
  match d.node? place with
  | some _ => return d
  | none => return d.setNode place (.file [])

/-- The bytes of a file, none if there is no such file. -/
def bytesOrNone (d : Disk) (path : String) : List UInt8 :=
  match d.readBytes path with
  | .ok content => content
  | .error _ => []

/-- Writes at the end of a file. -/
def append (d : Disk) (path : String) (content : List UInt8) : Disk :=
  match d.writeBytes path (d.bytesOrNone path ++ content) with
  | .ok d => d
  | .error _ => d

/-- A path leads to something. -/
def isThere (d : Disk) (path : String) : Bool := (d.locate path).isOk

/-- Takes away a file or a link. -/
def remove (d : Disk) (path : String) : Except DiskError Disk := do
  let place ← d.placeOfLast [] (namesIn path)
  match d.node? place with
  | none => throw .notFound
  | some .directory => throw .isADirectory
  | some _ => return ⟨d.nodes.erase place⟩

/-- Moves what stands at a place, with all that is below it, to another place. -/
def moveNode (d : Disk) (place place' : DiskPlace) : Disk :=
  ⟨.ofList (d.nodes.entries.map fun (p, node) =>
    (if place.isPrefixOf p then place' ++ p.drop place.length else p, node))⟩

/-- Gives what stands at a path another path.  A file at the new path is lost. -/
def rename (d : Disk) (path path' : String) : Except DiskError Disk := do
  let place ← d.placeOfLast [] (namesIn path)
  if (d.node? place).isNone then throw .notFound
  let d ← if d.isThere path' then d.remove path' else pure d
  return d.moveNode place (← d.placeOfLast [] (namesIn path'))

/-- The paths of the files below a place and their bytes, sorted by path. -/
def filesBelow (d : Disk) (place : DiskPlace) : List (String × List UInt8) :=
  let found := d.nodes.entries.filterMap fun (p, node) =>
    match node with
    | .file content =>
      if place.isPrefixOf p then
        some (String.intercalate "/" (p.drop place.length), content)
      else none
    | _ => none
  found.mergeSort fun a b => !(b.1 < a.1)

@[simp]
theorem node?_nil (d : Disk) : d.node? [] = some .directory := rfl

@[simp]
theorem locate_empty (d : Disk) : d.locate "" = .ok [] := by
  simp [locate, hasNull, namesIn, follow]

end Disk

end TestAtlas
