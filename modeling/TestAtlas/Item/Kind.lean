/-!
# Kinds of items

The tree has module and workspace items at the top, package and file items below them, and one
item for each test, benchmark and example of a file.  The last three are the leaves.
-/

namespace TestAtlas

/-- What an item of the tree stands for. -/
inductive Kind where
  | module
  | workspace
  | package
  | file
  | test
  | benchmark
  | example
  deriving DecidableEq, Repr

namespace Kind

/-- Every kind. -/
def all : List Kind := [module, workspace, package, file, test, benchmark, .example]

/-- The word for a kind. -/
def word : Kind → String
  | module => "module"
  | workspace => "workspace"
  | package => "package"
  | file => "file"
  | test => "test"
  | benchmark => "benchmark"
  | .example => "example"

/-- The kind with a given word. -/
def ofWord? (s : String) : Option Kind := all.find? fun k => k.word == s

/-- Items of this kind stand at the top of the tree. -/
def isRoot : Kind → Bool
  | module | workspace => true
  | _ => false

/-- Items of this kind have a name of their own and no children. -/
def isLeaf : Kind → Bool
  | test | benchmark | .example => true
  | _ => false

theorem mem_all (k : Kind) : k ∈ all := by
  cases k <;> decide

/-- Reading the word of a kind gives the kind. -/
theorem ofWord?_word (k : Kind) : ofWord? k.word = some k := by
  cases k <;> decide

theorem word_of_ofWord? {s : String} {k : Kind} (h : ofWord? s = some k) : k.word = s := by
  simpa using List.find?_some h

theorem ofWord?_eq_some_iff {s : String} {k : Kind} : ofWord? s = some k ↔ s = k.word :=
  ⟨fun h => (word_of_ofWord? h).symm, fun h => h ▸ ofWord?_word k⟩

theorem word_injective {k l : Kind} (h : k.word = l.word) : k = l := by
  have := ofWord?_word k
  rw [h, ofWord?_word l] at this
  exact (Option.some.inj this).symm

/-- No kind is both at the top and a leaf. -/
theorem isLeaf_eq_false_of_isRoot {k : Kind} (h : k.isRoot) : k.isLeaf = false := by
  cases k <;> first | rfl | exact absurd h (by decide)

end Kind

end TestAtlas
