import TestAtlas.Explorer.Expansion

/-!
# Deleted files and changed folders

When a file or directory is deleted, the packages and files at or below it leave the tree, and so
does a package that loses its last child thereby.  When workspace folders are taken away, the top
items inside them leave the tree, and the top items are filled in anew.
-/

namespace TestAtlas

namespace Forest

/-- Takes an item out of the place that holds it. -/
def detach (f : Forest) (n : ItemNo) : Except TreeError Forest :=
  match f.holder? n with
  | some place => .ok (f.release place n)
  | none => .error (.notHeld ((f.idOf? n).getD ""))

/-- The item is a package without children. -/
def isEmptyPackage (f : Forest) (n : ItemNo) : Bool :=
  (f.item? n).any (fun i => i.kind == .package) && (f.children n).isEmpty

/-- Takes an item out of the tree, and then the package above it if that has become empty.  Gives
the identifiers of what was taken out. -/
def prune (f : Forest) (n : ItemNo) : Except TreeError (List String × Forest) :=
  let id := (f.idOf? n).getD ""
  do
    let g ← f.detach n
    -- the parent is that of the item before it was taken out
    match f.parent? n with
    | none => return ([id], g)
    | some parent =>
      if g.isEmptyPackage parent then
        let h ← g.detach parent
        return ([id, (f.idOf? parent).getD ""], h)
      else return ([id], g)

/-- Prunes several items, one after another.  Those that are no longer in the tree are passed
over. -/
def pruneAll (f : Forest) : List ItemNo → Except TreeError (List String × Forest)
  | [] => .ok ([], f)
  | n :: ns =>
    if f.isAttached n then do
      let (ids, f) ← f.prune n
      let (more, f) ← f.pruneAll ns
      return (ids ++ more, f)
    else f.pruneAll ns

/-- The packages and files of the tree at or below a location. -/
def containersWithin (f : Forest) (cwd target : String) : List ItemNo :=
  (f.walk .top).filter fun n => (f.item? n).any fun i =>
    (i.kind == .package || i.kind == .file) && Path.isWithin cwd i.location target

end Forest

namespace Explorer

/-- Takes what is at or below a deleted path out of the tree.  Gives the identifiers of what was
taken out. -/
def remove (e : Explorer) (w : Workspace) (path : String) :
    Except Refusal (List String × Explorer) :=
  let target := Path.canonical w.cwd path
  let e := { e with
    isSurveyed := e.isSurveyed && Path.lastPart target != e.conventions.manifestName
    documents := e.documents.filter fun d => !Path.isWithin w.cwd d.1 target }
  do
    let (ids, forest) ← e.attempt (e.forest.pruneAll (e.forest.containersWithin w.cwd target))
    let e := { e with forest }
    return (ids, if ids.isEmpty then e else e.report [.removedItems ids.length target])

/-- Takes a top item inside one of the removed folders out of the tree. -/
def dropRoot (w : Workspace) (removed : List String) (e : Explorer) (n : ItemNo) : Explorer :=
  match e.forest.item? n with
  | some item =>
    if removed.any fun r => Path.isWithin w.cwd item.location r then
      { e with forest := (e.forest.delete .top item.id).2 }.report [.removedRoot item.id]
    else e
  | none => e

/-- Takes away and adds workspace folders, and fills in the top items anew. -/
def changeFolders [StandIns] (e : Explorer) (w : Workspace) (added removed : List String) :
    Except Refusal Explorer :=
  let removed := removed.map (Path.canonical w.cwd)
  let added := added.map (Path.canonical w.cwd)
  let kept := e.folders.filter fun f => !removed.contains f
  let e := { e with folders := (kept ++ added).eraseDups }
  let e := e.forest.top.foldl (dropRoot w removed) e
  -- the survey was made for the folders as they were
  { e with isSurveyed := false }.expandTop w

end Explorer

end TestAtlas
