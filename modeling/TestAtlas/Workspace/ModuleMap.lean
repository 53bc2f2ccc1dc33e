import TestAtlas.Event
import TestAtlas.Workspace.Basic
import TestAtlas.Workspace.Manifest

/-!
# Which module owns a directory

A directory belongs to the module whose manifest lies nearest: in the directory itself or in the
nearest directory above it.  A survey remembers the owners found so far and what was reported on
the way.  `build` walks down from the workspace folders and hands the owner on to subdirectories;
`ownerOf` looks upwards from any other directory.
-/

namespace TestAtlas

/-- The module root that owns a directory, if any. -/
abbrev Owner := Option String

/-- The owners found so far, in the order of discovery, and the events reported. -/
structure Survey where
  owners : Keyed String Owner
  events : List Event

namespace Survey

/-- The survey before anything was looked at. -/
def empty : Survey := ⟨Keyed.empty, []⟩

instance : Inhabited Survey := ⟨empty⟩

/-- Reports further events. -/
def report (s : Survey) (events : List Event) : Survey := { s with events := s.events ++ events }

/-- The event of listing a directory, if it cannot be listed. -/
def listingEvents (w : Workspace) (directory : String) : List Event :=
  match w.readDirectory directory with
  | .ok _ => []
  | .error e => [.skippedDirectory directory e]

/-- Lists a directory; one that cannot be listed is reported and counts as empty. -/
def list (w : Workspace) (s : Survey) (directory : String) : List Entry × Survey :=
  (w.entries directory, s.report (listingEvents w directory))

/-- The directories above a location, the nearest first; above the root stands the root. -/
def directoriesAbove (location : String) : List String :=
  match Path.ancestors location with
  | [root] => [root]
  | above => above.tail

/-- The owner handed down to a walk: that of the first of the given directories which is known or
holds a manifest.  Directories that cannot be listed are passed over. -/
def ownerAbove (w : Workspace) (c : Conventions) (owners : Keyed String Owner) :
    List String → Owner × List Event
  | [] => (none, [])
  | d :: above =>
    match owners.get? d with
    | some owner => (owner, [])
    | none =>
      match w.readDirectory d with
      | .ok entries =>
        if c.hasManifest entries then (some d, []) else ownerAbove w c owners above
      | .error e =>
        -- whether there is a manifest cannot be seen, so the search goes on above
        let (owner, events) := ownerAbove w c owners above
        (owner, .cannotList d e :: events)

/-- The directories reached from `d` through directories that are not left out, at most `depth`
levels, each before those below it, with their owners.  `owner` owns the directory above. -/
def visits (w : Workspace) (c : Conventions) : Nat → Owner → String → List (String × Owner)
  | 0, _, _ => []
  | depth + 1, owner, d =>
    let entries := w.entries d
    let owner := if c.hasManifest entries then some d else owner
    (d, owner) :: (c.subdirectories d entries).flatMap (visits w c depth owner)

/-- Walks one more root. -/
def walk (w : Workspace) (c : Conventions) (s : Survey) (root : String) : Survey :=
  let above := ownerAbove w c s.owners (directoriesAbove root)
  let found := visits w c w.depthBound above.1 root
  { owners := s.owners.insertMany found
    events := s.events ++ above.2 ++ found.flatMap fun v => listingEvents w v.1 }

/-- Forgets all owners and walks the given roots. -/
def build (w : Workspace) (c : Conventions) (s : Survey) (roots : List String) : Survey :=
  let s := (roots.map (Path.canonical w.cwd)).foldl (walk w c) ⟨Keyed.empty, s.events⟩
  s.report [.mapBuilt s.owners.size]

/-- Looks for the owner of the first of the given directories, each the parent of the one before:
the directories that were looked into, and the owner. -/
def search (w : Workspace) (c : Conventions) (owners : Keyed String Owner) :
    List String → List String × Owner
  | [] => ([], none)
  | d :: above =>
    match owners.get? d with
    | some owner => ([], owner)
    | none =>
      if c.hasManifest (w.entries d) then ([d], some d)
      else
        let (visited, owner) := search w c owners above
        (d :: visited, owner)

/-- The owner of a directory.  The owner of every directory looked into is remembered. -/
def ownerOf (w : Workspace) (c : Conventions) (s : Survey) (path : String) : Owner × Survey :=
  let found := search w c s.owners (Path.ancestors (Path.canonical w.cwd path))
  (found.2,
    { owners := s.owners.insertMany (found.1.map fun d => (d, found.2))
      events := s.events ++ found.1.flatMap (listingEvents w) })

/-- The module roots found so far, in order. -/
def moduleRoots (s : Survey) : List String :=
  (s.owners.entries.filter fun e => e.2 == some e.1).map Prod.fst

/-- The module roots found so far at or below a directory. -/
def moduleRootsWithin (w : Workspace) (s : Survey) (under : String) : List String :=
  s.moduleRoots.filter fun d => Path.isAtOrBelow d (Path.canonical w.cwd under)

/-- The name of the module at a directory: the one its manifest declares, else the last segment. -/
def moduleName (w : Workspace) (c : Conventions) (s : Survey) (root : String) : String × Survey :=
  let manifest := Path.below (Path.canonical w.cwd root) c.manifestName
  match w.readContent manifest with
  | .error e => (Path.lastPart root, s.report [.cannotReadManifest manifest e])
  | .ok content => ((Manifest.moduleName? content).getD (Path.lastPart root), s)

theorem owners_report (s : Survey) (events : List Event) : (s.report events).owners = s.owners :=
  rfl

theorem fst_list (w : Workspace) (s : Survey) (directory : String) :
    (list w s directory).1 = w.entries directory := rfl

/-- Looking into a directory does not change what is known of the owners. -/
theorem owners_list (w : Workspace) (s : Survey) (directory : String) :
    (list w s directory).2.owners = s.owners := rfl

theorem fst_ownerOf (w : Workspace) (c : Conventions) (s : Survey) (path : String) :
    (ownerOf w c s path).1 =
      (search w c s.owners (Path.ancestors (Path.canonical w.cwd path))).2 := by
  simp only [ownerOf]

end Survey

end TestAtlas
