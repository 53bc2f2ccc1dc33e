import TestAtlas.Item.Kind
import TestAtlas.Workspace.ModuleMap

/-!
# Roots, packages and test files

The roots of the tree are the modules that own a workspace folder or lie inside one, and for a
folder that belongs to no module and holds loose source files the folder itself.  The packages of a
root are the directories below it, at any depth, that belong to the same owner and directly hold a
test file.
-/

namespace TestAtlas

/-- What is to be shown of something that holds other items: its kind, its location and its
label. -/
structure Container where
  kind : Kind
  location : String
  label : String
  deriving DecidableEq, Repr

/-- The container that is labelled with the last segment of its location. -/
def Container.plain (kind : Kind) (location : String) : Container :=
  ⟨kind, location, Path.lastPart location⟩

namespace Survey

/-- Looks through directories with their owners for one that lies in `root`, belongs to no module
and directly holds a source file. -/
def findLooseSource (w : Workspace) (c : Conventions) (root : String) :
    List (String × Owner) → Bool × List Event
  | [] => (false, [])
  | (d, owner) :: rest =>
    if owner.isSome || !Path.isWithin w.cwd d root then findLooseSource w c root rest
    else if c.hasSource (w.entries d) then (true, listingEvents w d)
    else
      let (found, events) := findLooseSource w c root rest
      (found, listingEvents w d ++ events)

/-- A root that is not yet among the given ones is put behind them, with its label. -/
def emit (w : Workspace) (c : Conventions) (roots : List Container) (s : Survey) (kind : Kind)
    (path : String) : List Container × Survey :=
  if roots.any fun r => r.kind == kind && r.location == path then (roots, s)
  else if kind = .module then
    let (label, s) := moduleName w c s path
    (roots ++ [⟨kind, path, label⟩], s)
  else (roots ++ [.plain kind path], s)

/-- Emits several module roots. -/
def emitModules (w : Workspace) (c : Conventions) (roots : List Container) (s : Survey)
    (paths : List String) : List Container × Survey :=
  paths.foldl (fun (roots, s) path => emit w c roots s .module path) (roots, s)

/-- Emits the roots of one workspace folder. -/
def folderRoots (w : Workspace) (c : Conventions) (roots : List Container) (s : Survey)
    (folder : String) : List Container × Survey :=
  let root := Path.canonical w.cwd folder
  let (owner, s) := ownerOf w c s root
  let nested := (moduleRootsWithin w s root).filter (· ≠ root)
  match owner with
  | some owner => emitModules w c roots s (owner :: nested)
  | none =>
    let (roots, s) := emitModules w c roots s nested
    -- a folder with modules inside is a root of its own only for sources outside all of them
    if nested.isEmpty then emit w c roots s .workspace root
    else
      let (loose, events) := findLooseSource w c root s.owners.entries
      let s := s.report events
      if loose then emit w c roots s .workspace root else (roots, s)

/-- The roots of the workspace folders, in order. -/
def buildRoots (w : Workspace) (c : Conventions) (s : Survey) (folders : List String) :
    List Container × Survey :=
  let (roots, s) := folders.foldl (fun (roots, s) f => folderRoots w c roots s f) ([], s)
  (roots, s.report [.discoveredRoots roots.length])

/-- The packages among the given directories and at most `depth - 1` levels below them.  A directory
with another owner is not entered. -/
def packagesFrom (w : Workspace) (c : Conventions) (owner : Owner) :
    Nat → List String → Survey → List String × Survey
  | 0, _, s => ([], s)
  | depth + 1, directories, s =>
    directories.foldl (fun (found, s) d =>
      let (o, s) := ownerOf w c s d
      if o ≠ owner then (found, s)
      else
        let (entries, s) := s.list w d
        let here := if (c.testFiles d entries).isEmpty then [] else [d]
        let (deeper, s) := packagesFrom w c owner depth (c.subdirectories d entries) s
        (found ++ here ++ deeper, s)) ([], s)

/-- The packages of a root and the test files directly in it. -/
def rootChildren (w : Workspace) (c : Conventions) (s : Survey) (root : String) (owner : Owner) :
    List String × List String × Survey :=
  let root := Path.canonical w.cwd root
  let (entries, s) := s.list w root
  let (packages, s) := packagesFrom w c owner w.depthBound (c.subdirectories root entries) s
  (packages, c.testFiles root entries, s)

/-- The test files directly in a directory. -/
def packageFiles (w : Workspace) (c : Conventions) (s : Survey) (directory : String) :
    List String × Survey :=
  let d := Path.canonical w.cwd directory
  let (entries, s) := s.list w d
  (c.testFiles d entries, s)

end Survey

end TestAtlas
