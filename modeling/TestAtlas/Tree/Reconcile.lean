import TestAtlas.Event
import TestAtlas.Keyed
import TestAtlas.Outline.Leaf
import TestAtlas.Tree.Forest

/-!
# Bringing the leaves of a file up to date

The leaves of a file item are brought into line with a list of wanted leaves: those no longer
wanted are taken out, those that are missing are made and put behind the others, and those on both
sides are not touched.  Of wanted leaves with one identifier the first counts.
-/

namespace TestAtlas

/-- The identifiers put into a file item and taken out of it. -/
structure Reconciliation where
  added : List String
  removed : List String
  deriving DecidableEq, Repr

/-- Something was added or removed. -/
def Reconciliation.isChange (r : Reconciliation) : Bool := !r.added.isEmpty || !r.removed.isEmpty

namespace Forest

/-- The identifiers of the wanted leaves, each with the leaf.  Fails if one of them has no
identifier. -/
def wantedIds [StandIns] (cwd location : String) :
    List Leaf → Except TreeError (List (String × Leaf))
  | [] => .ok []
  | leaf :: leaves =>
    match Id.build cwd location leaf.kind (some leaf.name) with
    | .error e => .error (.cannotBuildId e)
    | .ok id =>
      match wantedIds cwd location leaves with
      | .error e => .error e
      | .ok rest => .ok ((id, leaf) :: rest)

/-- The entries whose identifier none of the entries before them has. -/
def firstById (seen : List String) : List (String × Leaf) → List (String × Leaf)
  | [] => []
  | (id, leaf) :: rest =>
    if seen.contains id then firstById seen rest
    else (id, leaf) :: firstById (id :: seen) rest

/-- Makes a leaf and puts it behind the children of a file item. -/
def addLeaf (f : Forest) (file : ItemNo) (location id : String) (leaf : Leaf) :
    Except TreeError Forest :=
  match f.create id (Leaf.label leaf.name) location with
  | .error e => .error e
  | .ok (n, f) => (f.setRange n leaf.range).add n (.under file)

/-- Makes several leaves. -/
def addLeaves (f : Forest) (file : ItemNo) (location : String) :
    List (String × Leaf) → Except TreeError Forest
  | [] => .ok f
  | (id, leaf) :: rest =>
    match f.addLeaf file location id leaf with
    | .error e => .error e
    | .ok f => f.addLeaves file location rest

/-- Makes the children of a file item match the wanted leaves. -/
def reconcile [StandIns] (f : Forest) (cwd : String) (file : ItemNo) (leaves : List Leaf) :
    Except TreeError (Reconciliation × Forest) :=
  let location := ((f.item? file).map Item.location).getD ""
  match wantedIds cwd location leaves with
  | .error e => .error e
  | .ok wanted =>
    let wanted := firstById [] wanted
    let removed := (f.ids (.under file)).filter fun id => !wanted.any fun w => w.1 == id
    let f := removed.foldl (fun f id => (f.delete (.under file) id).2) f
    let missing := wanted.filter fun w => (f.find? (.under file) w.1).isNone
    match f.addLeaves file location missing with
    | .error e => .error e
    | .ok f => .ok (⟨missing.map Prod.fst, removed⟩, f)

/-- What is reported of a reconciliation: only a change. -/
def reconciliationEvents (f : Forest) (file : ItemNo) (r : Reconciliation) : List Event :=
  if r.isChange then
    [.reconciled (((f.item? file).map Item.location).getD "") r.added.length r.removed.length]
  else []

end Forest

end TestAtlas
