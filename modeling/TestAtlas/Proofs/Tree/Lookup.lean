import TestAtlas.Proofs.Tree.Cut
import Mathlib.Data.Finset.Card

/-!
# Looking up items

A walk keeps a stack of items.  The one on top is visited, and its children take its place, the
first of them on top.  In a tree, where no item is below itself, an item has more items at or below
it than each of its children has, so the stack runs empty at last, and what was visited then is in
the order of the recursion, each item with all that is below it before the next: this is
`IsTree.isLookedUp`, with what it means for the items of a given location.
-/

namespace TestAtlas.Forest

variable {f : Forest}

/-! ## Trees -/

/-- The places and the items agree, and no item is below itself. -/
structure IsTree (f : Forest) : Prop where
  consistent : f.IsConsistent
  acyclic : ∀ m n, n ∈ f.children m → ¬ f.AtOrBelow n m

theorem IsConsistent.isTree (h : f.IsConsistent) {rank : ItemNo → Nat} (hrank : f.IsRanked rank) :
    f.IsTree where
  consistent := h
  acyclic := fun _ _ => hrank.not_atOrBelow

open Classical in
/-- The number of items at or below an item. -/
noncomputable def extent (f : Forest) (n : ItemNo) : Nat :=
  ((Finset.range f.nodes.size).filter fun m => f.AtOrBelow n m).card

theorem extent_le_size (f : Forest) (n : ItemNo) : f.extent n ≤ f.nodes.size := by
  classical
  have hle := Finset.card_filter_le (Finset.range f.nodes.size) fun m => f.AtOrBelow n m
  rwa [Finset.card_range] at hle

/-- An item that holds another one is there. -/
theorem lt_size_of_children {m n : ItemNo} (hn : n ∈ f.children m) : m < f.nodes.size := by
  by_contra hlt
  rw [children, members, Array.getElem?_eq_none (Nat.le_of_not_lt hlt)] at hn
  exact absurd hn (by simp)

theorem extent_pos {n : ItemNo} (hn : n < f.nodes.size) : 0 < f.extent n := by
  classical
  refine Finset.card_pos.mpr ⟨n, ?_⟩
  rw [Finset.mem_filter, Finset.mem_range]
  exact ⟨hn, .self⟩

namespace IsTree

/-- What is at or below a child is at or below the item, which is not at or below the child. -/
theorem extent_lt (h : f.IsTree) {m n : ItemNo} (hn : n ∈ f.children m) :
    f.extent n < f.extent m := by
  classical
  refine Finset.card_lt_card (Finset.ssubset_iff_of_subset ?_ |>.mpr ⟨m, ?_, ?_⟩)
  · intro k hk
    rw [Finset.mem_filter] at hk ⊢
    exact ⟨hk.1, (AtOrBelow.self.child hn).trans hk.2⟩
  · rw [Finset.mem_filter, Finset.mem_range]
    exact ⟨lt_size_of_children hn, .self⟩
  · intro hm
    exact h.acyclic m n hn (Finset.mem_filter.mp hm).2

theorem isRanked (h : f.IsTree) : f.IsRanked fun n => f.nodes.size - f.extent n := by
  intro m n hn
  have hlt := h.extent_lt hn
  have hle := f.extent_le_size m
  simp only
  omega

/-- There is at least the item itself at or below it. -/
theorem members_eq_nil (h : f.IsTree) {place : Place}
    (hextent : ∀ n ∈ f.members place, f.extent n ≤ 0) : f.members place = [] := by
  refine List.eq_nil_iff_forall_not_mem.mpr fun n hn => ?_
  have hpos := extent_pos (lt_size_of_mem h.consistent hn)
  have hzero := hextent n hn
  omega

theorem extent_le_of_child (h : f.IsTree) {limit : Nat} {m n : ItemNo}
    (hm : f.extent m ≤ limit + 1) (hn : n ∈ f.children m) : f.extent n ≤ limit := by
  have hlt := h.extent_lt hn
  omega

/-- Whatever holds of the items of a place once it holds of those below each of them, holds of the
items of every place. -/
theorem induction {P : Place → Prop} (h : f.IsTree)
    (hstep : ∀ place, (∀ n ∈ f.members place, P (.under n)) → P place) (place : Place) :
    P place := by
  have hbounded : ∀ limit place, (∀ n ∈ f.members place, f.extent n ≤ limit) → P place := by
    intro limit
    induction limit with
    | zero =>
        intro place hextent
        have hnone := h.members_eq_nil hextent
        exact hstep place fun n hn => absurd hn (by simp [hnone])
    | succ limit ih =>
        intro place hextent
        refine hstep place fun n hn => ih (.under n) fun k hk => ?_
        exact h.extent_le_of_child (hextent n hn) hk
  exact hbounded f.nodes.size place fun n _ => f.extent_le_size n

/-! ## The recursion -/

/-- The bound of the recursion does not matter where it is not below the extent of any item. -/
theorem preorder_eq (h : f.IsTree) {limit more : Nat} (hle : limit ≤ more) {place : Place}
    (hextent : ∀ n ∈ f.members place, f.extent n ≤ limit) :
    f.preorder more (f.members place) = f.preorder limit (f.members place) := by
  induction limit generalizing more place with
  | zero =>
      rw [h.members_eq_nil hextent]
      cases more <;> rfl
  | succ limit ih =>
      obtain ⟨more, rfl⟩ : ∃ k, more = k + 1 := ⟨more - 1, by omega⟩
      rw [preorder, preorder]
      refine List.flatMap_congr fun n hn => ?_
      have hbelow : ∀ k ∈ f.children n, f.extent k ≤ limit :=
        fun k hk => h.extent_le_of_child (hextent n hn) hk
      rw [children, ih (Nat.le_of_succ_le_succ hle) hbelow]

theorem walk_eq (h : f.IsTree) (place : Place) :
    f.walk place = (f.members place).flatMap fun n => n :: f.walk (.under n) := by
  rw [walk, preorder]
  refine List.flatMap_congr fun n _ => ?_
  have hbelow : f.walk (.under n) = f.preorder f.nodes.size (f.children n) :=
    h.preorder_eq (Nat.le_succ _) fun k _ => f.extent_le_size k
  rw [hbelow]

end IsTree

/-! ## The walk -/

/-- A walk with a stack of items, whose last item is on top.  The one on top is visited, and its
children come onto the stack, the first of them on top. -/
inductive Visits (f : Forest) : List ItemNo → List ItemNo → Prop
  | done : Visits f [] []
  | visit {stack visited : List ItemNo} {n : ItemNo} :
      Visits f (stack ++ (f.children n).reverse) visited → Visits f (stack ++ [n]) (n :: visited)

/-- A walk can be made in one way only. -/
theorem Visits.unique {stack visited visited' : List ItemNo} (h : f.Visits stack visited)
    (h' : f.Visits stack visited') : visited = visited' := by
  induction h generalizing visited' with
  | done =>
      generalize hempty : ([] : List ItemNo) = stack at h'
      cases h' with
      | done => rfl
      | visit => exact absurd hempty (by simp)
  | @visit stack visited n _ ih =>
      generalize hsame : stack ++ [n] = same at h'
      cases h' with
      | done => exact absurd hsame (by simp)
      | @visit stack' _ n' hrest =>
          obtain ⟨rfl, htop⟩ := List.append_inj' hsame rfl
          obtain rfl : n = n' := List.singleton_injective htop
          rw [ih hrest]

/-- Items that are put onto a stack, the first of them on top, are visited with all that is below
them before the stack is as it was. -/
theorem IsTree.visits_append (h : f.IsTree) (place : Place) {stack visited : List ItemNo}
    (hstack : f.Visits stack visited) :
    f.Visits (stack ++ (f.members place).reverse) (f.walk place ++ visited) := by
  induction place using h.induction generalizing stack visited with
  | hstep place ih =>
      rw [h.walk_eq]
      generalize f.members place = ns at ih
      induction ns with
      | nil => simpa using hstack
      | cons n ns ihns =>
          -- the later items lie deeper, so they are what the stack is left as by the first one
          have hrest := ihns fun m hm => ih m (List.mem_cons_of_mem _ hm)
          have hfirst := ih n List.mem_cons_self hrest
          have hvisit := Visits.visit hfirst
          simpa using hvisit

/-- The walk comes to its end, in the order of the recursion. -/
theorem IsTree.visits_iff (h : f.IsTree) (place : Place) (visited : List ItemNo) :
    f.Visits (f.members place).reverse visited ↔ visited = f.walk place := by
  have hwalk := h.visits_append place .done
  rw [List.nil_append, List.append_nil] at hwalk
  constructor
  · exact fun hvisits => hvisits.unique hwalk
  · rintro rfl
    exact hwalk

theorem IsTree.mem_walk_iff (h : f.IsTree) (place : Place) (n : ItemNo) :
    n ∈ f.walk place ↔ ∃ a ∈ f.members place, f.AtOrBelow a n := by
  induction place using h.induction with
  | hstep place ih =>
      rw [h.walk_eq, List.mem_flatMap]
      refine exists_congr fun a => and_congr_right fun ha => ?_
      rw [List.mem_cons, ih a ha]
      constructor
      · rintro (rfl | ⟨k, hk, hbelow⟩)
        · exact .self
        · exact (AtOrBelow.self.child hk).trans hbelow
      · exact AtOrBelow.cases_child

theorem IsTree.nodup_walk (h : f.IsTree) (place : Place) : (f.walk place).Nodup :=
  h.isRanked.nodup_preorder h.consistent _ place

/-- Behind an item the walk comes by all that is below it, before anything else. -/
theorem IsTree.exists_walk_eq (h : f.IsTree) {place : Place} {n : ItemNo}
    (hn : n ∈ f.walk place) :
    ∃ before after, f.walk place = before ++ n :: (f.walk (.under n) ++ after) := by
  induction place using h.induction with
  | hstep place ih =>
      rw [h.walk_eq, List.mem_flatMap] at hn
      obtain ⟨a, ha, hn⟩ := hn
      obtain ⟨earlier, later, hsplit⟩ := List.append_of_mem ha
      rw [h.walk_eq place, hsplit, List.flatMap_append, List.flatMap_cons]
      rcases List.mem_cons.mp hn with rfl | hn
      · exact ⟨_, _, by rw [List.cons_append]⟩
      · obtain ⟨before, after, hbelow⟩ := ih a ha hn
        refine ⟨earlier.flatMap (fun n => n :: f.walk (.under n)) ++ a :: before,
          after ++ later.flatMap fun n => n :: f.walk (.under n), ?_⟩
        rw [hbelow]
        simp

/-! ## The items of a location -/

theorem mem_locatedAt_iff (cwd : String) (place : Place) (path : String) (n : ItemNo) :
    n ∈ f.locatedAt cwd place path ↔ n ∈ f.walk place ∧
      ∃ i, f.item? n = some i ∧ i.location = Path.canonical cwd path := by
  rw [locatedAt, List.mem_filter, Option.any_eq_true]
  simp only [beq_iff_eq]

/-- Items are looked up at a place among all that are there and below, in pre-order. -/
structure IsLookedUp (cwd : String) (f : Forest) (place : Place) : Prop where
  /-- The walk with a stack comes to its end, and gives the recursive order. -/
  visits : ∀ visited, f.Visits (f.members place).reverse visited ↔ visited = f.walk place
  recursive : f.walk place = (f.members place).flatMap fun n => n :: f.walk (.under n)
  /-- The walk comes by each item there and below, and by each of them once. -/
  complete : ∀ n, n ∈ f.walk place ↔ ∃ a ∈ f.members place, f.AtOrBelow a n
  once : (f.walk place).Nodup
  /-- What is found at a path are the items of the walk with its canonical location, in order. -/
  found : ∀ path, (f.locatedAt cwd place path).Sublist (f.walk place)
  located : ∀ path n, n ∈ f.locatedAt cwd place path ↔ n ∈ f.walk place ∧
    ∃ i, f.item? n = some i ∧ i.location = Path.canonical cwd path

theorem IsTree.isLookedUp (h : f.IsTree) (cwd : String) (place : Place) :
    f.IsLookedUp cwd place where
  visits := h.visits_iff place
  recursive := h.walk_eq place
  complete := h.mem_walk_iff place
  once := h.nodup_walk place
  found := fun _ => List.filter_sublist
  located := mem_locatedAt_iff cwd place

end TestAtlas.Forest
