import TestAtlas.Tree.Forest
import Mathlib.Tactic.ByContra

/-!
# Putting items in and taking them out

Two edits make up all that happens to the tree: `put` makes a new item behind those at a place, and
`release` takes an item out of its place.  Each changes the items at that one place, and the place
that holds that one item.  To put a new item is to make it and then to `hold` it.
-/

namespace TestAtlas.Forest

/-! ## The parts of an edit -/

/-- There is such a place. -/
def HasPlace (f : Forest) : Place → Prop
  | .top => True
  | .under n => n < f.nodes.size
  | .loose k => k < f.loose.size

instance (f : Forest) : DecidablePred f.HasPlace
  | .top => inferInstanceAs (Decidable True)
  | .under n => inferInstanceAs (Decidable (n < f.nodes.size))
  | .loose k => inferInstanceAs (Decidable (k < f.loose.size))

@[simp]
theorem size_push (f : Forest) (i : Item) : (f.push i).2.nodes.size = f.nodes.size + 1 :=
  Array.size_push _

@[simp]
theorem size_setMembers (f : Forest) (place : Place) (ns : List ItemNo) :
    (f.setMembers place ns).nodes.size = f.nodes.size := by
  cases place with
  | top => rfl
  | under n => exact Array.size_modify
  | loose k => rfl

@[simp]
theorem size_setHolder (f : Forest) (n : ItemNo) (place : Option Place) :
    (f.setHolder n place).nodes.size = f.nodes.size :=
  Array.size_modify

theorem item?_push (f : Forest) (i : Item) (m : ItemNo) :
    (f.push i).2.item? m = if m = f.nodes.size then some i else f.item? m := by
  simp only [item?, push, Array.getElem?_push]
  split <;> rfl

theorem holder?_push (f : Forest) (i : Item) (m : ItemNo) :
    (f.push i).2.holder? m = f.holder? m := by
  simp only [holder?, push, Array.getElem?_push]
  split
  · -- the new item is not held yet
    rename_i h
    subst h
    simp
  · rfl

theorem members_push (f : Forest) (i : Item) (place : Place) :
    (f.push i).2.members place = f.members place := by
  cases place with
  | top => rfl
  | loose k => rfl
  | under n =>
      simp only [members, push, Array.getElem?_push]
      split
      · -- the new item has no children yet
        rename_i h
        subst h
        simp
      · rfl

theorem hasPlace_push {f : Forest} {place : Place} (h : f.HasPlace place) (i : Item) :
    (f.push i).2.HasPlace place := by
  cases place with
  | top => trivial
  | under n =>
      show n < (f.push i).2.nodes.size
      rw [size_push]
      exact Nat.lt_succ_of_lt h
  | loose k => exact h

theorem holder?_setMembers (f : Forest) (place : Place) (ns : List ItemNo) (m : ItemNo) :
    (f.setMembers place ns).holder? m = f.holder? m := by
  cases place with
  | top => rfl
  | loose k => rfl
  | under n =>
      simp only [holder?, setMembers, Array.getElem?_modify]
      split <;> cases f.nodes[m]? <;> rfl

theorem members_setMembers {f : Forest} {place : Place} (h : f.HasPlace place)
    (ns : List ItemNo) (p : Place) :
    (f.setMembers place ns).members p = if p = place then ns else f.members p := by
  cases place with
  | top => cases p <;> rfl
  | under n =>
      cases p with
      | top => rfl
      | loose k => rfl
      | under m =>
          simp only [members, setMembers, Array.getElem?_modify, Place.under.injEq]
          by_cases hmn : m = n
          · subst hmn
            have hm : m < f.nodes.size := h
            simp [hm]
          · simp [hmn, Ne.symm hmn]
  | loose k =>
      cases p with
      | top => rfl
      | under m => rfl
      | loose l =>
          simp only [members, setMembers, Array.getElem?_modify, Place.loose.injEq]
          by_cases hlk : l = k
          · subst hlk
            have hl : l < f.loose.size := h
            simp [hl]
          · simp [hlk, Ne.symm hlk]

theorem holder?_setHolder {f : Forest} {n : ItemNo} (h : n < f.nodes.size) (place : Option Place)
    (m : ItemNo) : (f.setHolder n place).holder? m = if m = n then place else f.holder? m := by
  simp only [holder?, setHolder, Array.getElem?_modify]
  by_cases hmn : m = n
  · subst hmn
    simp [h]
  · simp [hmn, Ne.symm hmn]

/-! ## Numbers and places -/

theorem lt_size_of_item? {f : Forest} {n : ItemNo} {i : Item} (h : f.item? n = some i) :
    n < f.nodes.size := by
  obtain ⟨node, hnode, -⟩ := Option.map_eq_some_iff.mp h
  exact (Array.getElem?_eq_some_iff.mp hnode).1

theorem exists_item? {f : Forest} {n : ItemNo} (h : n < f.nodes.size) : ∃ i, f.item? n = some i :=
  ⟨f.nodes[n].item, by simp [item?, h]⟩

theorem lt_size_of_holder? {f : Forest} {n : ItemNo} {place : Place}
    (h : f.holder? n = some place) : n < f.nodes.size := by
  obtain ⟨node, hnode, -⟩ := Option.bind_eq_some_iff.mp h
  exact (Array.getElem?_eq_some_iff.mp hnode).1

theorem holder?_size (f : Forest) : f.holder? f.nodes.size = none := by
  simp [holder?]

/-! ## Holding -/

/-- The forest with an item behind those at a place. -/
def hold (f : Forest) (place : Place) (n : ItemNo) : Forest :=
  (f.setMembers place (f.members place ++ [n])).setHolder n (some place)

section Hold

variable {f : Forest} {place : Place} {n : ItemNo}

@[simp]
theorem size_hold : (f.hold place n).nodes.size = f.nodes.size := by
  simp [hold]

theorem item?_hold (m : ItemNo) : (f.hold place n).item? m = f.item? m := by
  rw [hold, item?_setHolder, item?_setMembers]

theorem holder?_hold (hn : n < f.nodes.size) (m : ItemNo) :
    (f.hold place n).holder? m = if m = n then some place else f.holder? m := by
  rw [hold, holder?_setHolder (by simpa using hn), holder?_setMembers]

theorem members_hold (h : f.HasPlace place) (p : Place) :
    (f.hold place n).members p =
      if p = place then f.members place ++ [n] else f.members p := by
  rw [hold, members_setHolder, members_setMembers h]

end Hold

/-! ## Putting in -/

/-- The forest with a new item behind those at a place. -/
def put (f : Forest) (place : Place) (i : Item) : Forest :=
  let g := (f.push i).2
  (g.setMembers place (g.members place ++ [f.nodes.size])).setHolder f.nodes.size (some place)

section Put

variable {f : Forest} {place : Place} (i : Item)

@[simp]
theorem size_put : (f.put place i).nodes.size = f.nodes.size + 1 := by
  simp [put]

theorem put_eq_hold_push : f.put place i = (f.push i).2.hold place f.nodes.size := rfl

theorem item?_put (m : ItemNo) :
    (f.put place i).item? m = if m = f.nodes.size then some i else f.item? m := by
  rw [put_eq_hold_push, item?_hold, item?_push]

theorem item?_put_of_ne {m : ItemNo} (h : m ≠ f.nodes.size) :
    (f.put place i).item? m = f.item? m := by
  rw [item?_put, if_neg h]

theorem item?_put_self : (f.put place i).item? f.nodes.size = some i := by
  rw [item?_put, if_pos rfl]

theorem holder?_put (m : ItemNo) :
    (f.put place i).holder? m = if m = f.nodes.size then some place else f.holder? m := by
  rw [put_eq_hold_push, holder?_hold (by simp), holder?_push]

theorem members_put (h : f.HasPlace place) (p : Place) :
    (f.put place i).members p =
      if p = place then f.members place ++ [f.nodes.size] else f.members p := by
  rw [put_eq_hold_push, members_hold (hasPlace_push h i), members_push, members_push]

end Put

/-! ## Taking out -/

section Release

variable (f : Forest) (place : Place) (n : ItemNo)

@[simp]
theorem size_release : (f.release place n).nodes.size = f.nodes.size := by
  simp [release]

theorem item?_release (m : ItemNo) : (f.release place n).item? m = f.item? m := by
  rw [release, item?_setHolder, item?_setMembers]

theorem holder?_release (m : ItemNo) :
    (f.release place n).holder? m = if m = n then none else f.holder? m := by
  by_cases hn : n < f.nodes.size
  · rw [release, holder?_setHolder (by simpa using hn), holder?_setMembers]
  · -- an item that was never made is not held
    have hnone : ∀ g : Forest, g.nodes.size = f.nodes.size → g.holder? n = none := by
      intro g hg
      have hnode : g.nodes[n]? = none := Array.getElem?_eq_none (hg ▸ Nat.le_of_not_lt hn)
      rw [holder?, hnode]
      rfl
    by_cases hmn : m = n
    · subst hmn
      rw [if_pos rfl]
      exact hnone _ (size_release f place m)
    · rw [if_neg hmn, release]
      simp only [holder?, setHolder, Array.getElem?_modify, if_neg (Ne.symm hmn)]
      exact holder?_setMembers f place _ m

theorem members_release (p : Place) :
    (f.release place n).members p =
      if p = place then (f.members place).filter (· ≠ n) else f.members p := by
  rw [release, members_setHolder]
  cases place with
  | top => cases p <;> rfl
  | under m =>
      cases p with
      | top => rfl
      | loose k => rfl
      | under l =>
          simp only [members, setMembers, Array.getElem?_modify, Place.under.injEq]
          by_cases hlm : l = m
          · subst hlm
            -- nothing is held at a place that does not exist
            cases f.nodes[l]? <;> simp
          · simp [hlm, Ne.symm hlm]
  | loose k =>
      cases p with
      | top => rfl
      | under m => rfl
      | loose l =>
          simp only [members, setMembers, Array.getElem?_modify, Place.loose.injEq]
          by_cases hlk : l = k
          · subst hlk
            cases f.loose[l]? <;> simp
          · simp [hlk, Ne.symm hlk]

end Release

end TestAtlas.Forest
