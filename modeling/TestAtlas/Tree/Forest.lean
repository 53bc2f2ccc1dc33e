import TestAtlas.Item.Id
import TestAtlas.Outline.Symbol

/-!
# The forest of items

Items are numbered in the order in which they are made, and the number stays that of the item
whether it is held or not.  An item is held in at most one place: among the top items, among the
children of another item, or in a loose collection.  Places keep the order in which items were
added and hold no two items with the same identifier.
-/

namespace TestAtlas

/-- An item of the tree. -/
structure Item where
  id : String
  label : String
  location : String
  kind : Kind
  name : Option String
  range : Option SourceRange
  deriving DecidableEq, Repr

/-- The number of an item. -/
abbrev ItemNo := Nat

/-- Where items are held. -/
inductive Place where
  | top
  | under (item : ItemNo)
  | loose (collection : Nat)
  deriving DecidableEq, Repr

/-- An item with the place that holds it and the items that it holds. -/
structure Node where
  item : Item
  holder : Option Place
  children : List ItemNo
  deriving DecidableEq, Repr

/-- Why the tree cannot be changed as asked. -/
inductive TreeError where
  | cannotBuildId (e : Id.BuildError)
  | cannotParseId (e : Id.ParseError)
  | duplicateId (id : String)
  | alreadyHeld (id : String)
  | notHeld (id : String)
  | unknownItem (id : String)
  deriving DecidableEq, Repr

/-- The wording of a tree error. -/
def TreeError.message : TreeError → String
  | cannotBuildId e => e.message
  | cannotParseId e => e.message
  | duplicateId id => "Duplicate item id in collection: " ++ id
  | alreadyHeld id => "Item already has an owner: " ++ id
  | notHeld id => "Item has no owner: " ++ id
  | unknownItem id => "Item is not attached to the test tree: " ++ id

/-- All items that were made, the top items, and the loose collections. -/
structure Forest where
  nodes : Array Node
  top : List ItemNo
  loose : Array (List ItemNo)

/-- The item that owns a place. -/
def Place.owner : Place → Option ItemNo
  | under n => some n
  | _ => none

namespace Forest

/-- The forest without items. -/
def empty : Forest := ⟨#[], [], #[]⟩

instance : Inhabited Forest := ⟨empty⟩

/-- The item with a number. -/
def item? (f : Forest) (n : ItemNo) : Option Item := (f.nodes[n]?).map Node.item

/-- The identifier of an item. -/
def idOf? (f : Forest) (n : ItemNo) : Option String := (f.item? n).map Item.id

/-- The place that holds an item. -/
def holder? (f : Forest) (n : ItemNo) : Option Place := (f.nodes[n]?).bind Node.holder

/-- The item below which an item is held. -/
def parent? (f : Forest) (n : ItemNo) : Option ItemNo := (f.holder? n).bind Place.owner

/-- The items held at a place, in order. -/
def members (f : Forest) : Place → List ItemNo
  | .top => f.top
  | .under n => ((f.nodes[n]?).map Node.children).getD []
  | .loose k => (f.loose[k]?).getD []

/-- The children of an item. -/
def children (f : Forest) (n : ItemNo) : List ItemNo := f.members (.under n)

/-- Replaces the items held at a place. -/
def setMembers (f : Forest) (place : Place) (ns : List ItemNo) : Forest :=
  match place with
  | .top => { f with top := ns }
  | .under n => { f with nodes := f.nodes.modify n fun node => { node with children := ns } }
  | .loose k => { f with loose := f.loose.modify k fun _ => ns }

/-- Replaces the place that holds an item. -/
def setHolder (f : Forest) (n : ItemNo) (place : Option Place) : Forest :=
  { f with nodes := f.nodes.modify n fun node => { node with holder := place } }

/-- Replaces the range of an item. -/
def setRange (f : Forest) (n : ItemNo) (range : SourceRange) : Forest :=
  { f with nodes := f.nodes.modify n fun node =>
      { node with item := { node.item with range := some range } } }

/-- The item with the given identifier at a place. -/
def find? (f : Forest) (place : Place) (id : String) : Option ItemNo :=
  (f.members place).find? fun n => f.idOf? n == some id

/-- The identifiers of the items at a place, in order. -/
def ids (f : Forest) (place : Place) : List String := (f.members place).filterMap f.idOf?

/-- Makes an item that is not held anywhere. -/
def push (f : Forest) (item : Item) : ItemNo × Forest :=
  (f.nodes.size, { f with nodes := f.nodes.push ⟨item, none, []⟩ })

/-- Makes an item from its identifier, which gives the kind and the name. -/
def create (f : Forest) (id label location : String) : Except TreeError (ItemNo × Forest) :=
  match Id.parse id with
  | .ok parts => .ok (f.push ⟨id, label, location, parts.kind, parts.name, none⟩)
  | .error e => .error (.cannotParseId e)

/-- Makes a loose collection. -/
def newCollection (f : Forest) : Nat × Forest :=
  (f.loose.size, { f with loose := f.loose.push [] })

/-- Puts an item behind those at a place.  An item that is there already stays where it is; an item
held elsewhere and a second item with the same identifier are refused. -/
def add (f : Forest) (n : ItemNo) (place : Place) : Except TreeError Forest :=
  let id := (f.idOf? n).getD ""
  match f.find? place id with
  | some m => if m = n then .ok f else .error (.duplicateId id)
  | none =>
    match f.holder? n with
    | some _ => .error (.alreadyHeld id)
    | none => .ok ((f.setMembers place (f.members place ++ [n])).setHolder n (some place))

/-- Takes an item out of a place.  It keeps its own children. -/
def release (f : Forest) (place : Place) (n : ItemNo) : Forest :=
  (f.setMembers place ((f.members place).filter (· ≠ n))).setHolder n none

/-- Takes the item with the given identifier out of a place. -/
def delete (f : Forest) (place : Place) (id : String) : Option ItemNo × Forest :=
  match f.find? place id with
  | some n => (some n, f.release place n)
  | none => (none, f)

/-- The item is among the top items or below one of them, at most `limit` levels down. -/
def isAttachedWithin (f : Forest) : Nat → ItemNo → Bool
  | 0, _ => false
  | limit + 1, n =>
    match f.holder? n with
    | some .top => true
    | some (.under m) => f.isAttachedWithin limit m
    | _ => false

/-- The item is among the top items or below one of them. -/
def isAttached (f : Forest) (n : ItemNo) : Bool := f.isAttachedWithin (f.nodes.size + 1) n

/-- The given items and those below them, at most `limit` levels down, each before those below
it. -/
def preorder (f : Forest) : Nat → List ItemNo → List ItemNo
  | 0, _ => []
  | limit + 1, ns => ns.flatMap fun n => n :: f.preorder limit (f.children n)

/-- The items at a place and all below them, each before those below it. -/
def walk (f : Forest) (place : Place) : List ItemNo :=
  f.preorder (f.nodes.size + 1) (f.members place)

/-- The items with a given location, among those of `walk`. -/
def locatedAt (f : Forest) (cwd : String) (place : Place) (path : String) : List ItemNo :=
  (f.walk place).filter fun n => (f.item? n).any fun i => i.location == Path.canonical cwd path

@[simp]
theorem members_top (f : Forest) : f.members .top = f.top := rfl

theorem members_setHolder (f : Forest) (n : ItemNo) (p : Option Place) (place : Place) :
    (f.setHolder n p).members place = f.members place := by
  cases place with
  | top => rfl
  | loose k => rfl
  | under m =>
    simp only [members, setHolder, Array.getElem?_modify]
    split <;> cases f.nodes[m]? <;> rfl

theorem item?_setHolder (f : Forest) (n m : ItemNo) (p : Option Place) :
    (f.setHolder n p).item? m = f.item? m := by
  simp only [item?, setHolder, Array.getElem?_modify]
  split <;> cases f.nodes[m]? <;> rfl

theorem item?_setMembers (f : Forest) (place : Place) (ns : List ItemNo) (m : ItemNo) :
    (f.setMembers place ns).item? m = f.item? m := by
  cases place with
  | top => rfl
  | loose k => rfl
  | under n =>
    simp only [item?, setMembers, Array.getElem?_modify]
    split <;> cases f.nodes[m]? <;> rfl

/-- Adding an item that is held there already changes nothing. -/
theorem add_of_find?_eq {f : Forest} {n : ItemNo} {place : Place}
    (h : f.find? place ((f.idOf? n).getD "") = some n) : f.add n place = .ok f := by
  simp [add, h]

end Forest

end TestAtlas
