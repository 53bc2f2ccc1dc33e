import TestAtlas.Proofs.Tree.Order
import Mathlib.Data.List.Basic

/-!
# Several edits at one place

Putting in items one after another lines them up behind those that were there; taking out the items
with given identifiers leaves the others in their order.  A forest that is arranged stays so, and no
other place is touched.
-/

namespace TestAtlas.Forest

variable {good : Item → Prop} {fits : Option Item → Item → Prop} {f : Forest} {place : Place}

/-! ## Identifiers at a place -/

theorem mem_ids {id : String} : id ∈ f.ids place ↔ ∃ n ∈ f.members place, f.idOf? n = some id :=
  List.mem_filterMap

theorem find?_eq_none_iff_not_mem_ids (f : Forest) (place : Place) (id : String) :
    f.find? place id = none ↔ id ∉ f.ids place := by
  rw [find?_eq_none_iff, mem_ids]
  constructor
  · rintro h ⟨n, hn, hid⟩
    exact h n hn hid
  · intro h n hn hid
    exact h ⟨n, hn, hid⟩

theorem ids_put (h : f.IsConsistent) (hplace : f.HasPlace place) (i : Item) :
    (f.put place i).ids place = f.ids place ++ [i.id] := by
  have hold : (f.members place).filterMap (f.put place i).idOf? = f.ids place := by
    apply List.filterMap_congr
    intro n hn
    rw [idOf?_put, if_neg (Nat.ne_of_lt (lt_size_of_mem h hn))]
  have hnew : [f.nodes.size].filterMap (f.put place i).idOf? = [i.id] := by
    have hid : (f.put place i).idOf? f.nodes.size = some i.id := by
      rw [idOf?_put, if_pos rfl]
    rw [List.filterMap_cons_some hid, List.filterMap_nil]
  rw [ids, members_put i hplace, if_pos rfl, List.filterMap_append, hold, hnew]

/-! ## Putting in several items -/

/-- The forest with new items behind those at a place, in order. -/
def putAll (f : Forest) (place : Place) : List Item → Forest
  | [] => f
  | i :: is => (f.put place i).putAll place is

theorem hasPlace_put (hplace : f.HasPlace place) (p : Place) (i : Item) :
    (f.put p i).HasPlace place := by
  cases place with
  | top => trivial
  | under n =>
      show n < (f.put p i).nodes.size
      rw [size_put]
      exact Nat.lt_succ_of_lt hplace
  | loose k =>
      have hloose : (f.put p i).loose.size = f.loose.size := by
        cases p with
        | top => rfl
        | under n => rfl
        | loose l => exact Array.size_modify
      show k < (f.put p i).loose.size
      rw [hloose]
      exact hplace

/-- What is put in takes its own identifier only, so the others stay free. -/
theorem not_mem_ids_put (h : f.IsConsistent) (hplace : f.HasPlace place) {i : Item}
    {is : List Item} (hfree : ∀ j ∈ i :: is, j.id ∉ f.ids place)
    (hnodup : ((i :: is).map Item.id).Nodup) : ∀ j ∈ is, j.id ∉ (f.put place i).ids place := by
  rw [List.map_cons, List.nodup_cons] at hnodup
  intro j hj
  rw [ids_put h hplace, List.mem_append, List.mem_singleton, not_or]
  refine ⟨hfree j (by simp [hj]), ?_⟩
  intro hid
  exact hnodup.1 (List.mem_map.mpr ⟨j, hj, hid⟩)

/-- Several new items that are good and fit keep the forest arranged, if they have identifiers of their
own. -/
theorem IsArranged.putAll (h : f.IsArranged good fits) {owner : Option Item}
    (howner : f.ownerAt place = some owner) {is : List Item}
    (hgenuine : ∀ i ∈ is, good i) (hfits : ∀ i ∈ is, fits owner i)
    (hfree : ∀ i ∈ is, i.id ∉ f.ids place) (hnodup : (is.map Item.id).Nodup) :
    (f.putAll place is).IsArranged good fits := by
  induction is generalizing f with
  | nil => exact h
  | cons i is ih =>
      have hput := h.put howner (hgenuine i (by simp)) (hfits i (by simp))
        ((f.find?_eq_none_iff_not_mem_ids place i.id).mpr (hfree i (by simp)))
      exact ih hput (ownerAt_put howner) (fun j hj => hgenuine j (by simp [hj]))
        (fun j hj => hfits j (by simp [hj]))
        (not_mem_ids_put h.consistent (hasPlace_of_ownerAt howner) hfree hnodup) hnodup.of_cons

theorem IsConsistent.putAll (h : f.IsConsistent) (hplace : f.HasPlace place) {is : List Item}
    (hfree : ∀ i ∈ is, i.id ∉ f.ids place) (hnodup : (is.map Item.id).Nodup) :
    (f.putAll place is).IsConsistent := by
  induction is generalizing f with
  | nil => exact h
  | cons i is ih =>
      have hput := h.put hplace
        ((f.find?_eq_none_iff_not_mem_ids place i.id).mpr (hfree i (by simp)))
      exact ih hput (hasPlace_put hplace place i) (not_mem_ids_put h hplace hfree hnodup)
        hnodup.of_cons

theorem item?_putAll_of_lt {n : ItemNo} (hn : n < f.nodes.size) (is : List Item) :
    (f.putAll place is).item? n = f.item? n := by
  induction is generalizing f with
  | nil => rfl
  | cons i is ih =>
      rw [putAll, ih (by rw [size_put]; exact Nat.lt_succ_of_lt hn),
        item?_put_of_ne i (Nat.ne_of_lt hn)]

/-- The new items have the next numbers, in order. -/
theorem item?_putAll (f : Forest) (place : Place) (is : List Item) (k : Nat) :
    (f.putAll place is).item? (f.nodes.size + k) = is[k]? := by
  induction is generalizing f k with
  | nil =>
      have hnode : f.nodes[f.nodes.size + k]? = none := Array.getElem?_eq_none (by omega)
      rw [putAll, item?, hnode]
      rfl
  | cons i is ih =>
      cases k with
      | zero =>
          rw [putAll, item?_putAll_of_lt (by rw [size_put]; exact Nat.lt_succ_self _)]
          exact item?_put_self i
      | succ k =>
          have hnext := ih (f.put place i) k
          rw [size_put] at hnext
          rw [putAll, Nat.add_comm k 1, ← Nat.add_assoc, hnext, Nat.add_comm 1 k,
            List.getElem?_cons_succ]

theorem grows_putAll (hplace : f.HasPlace place) (is : List Item) :
    f.Grows (f.putAll place is) := by
  induction is generalizing f with
  | nil => exact Grows.refl f
  | cons i is ih => exact (grows_put hplace i).trans (ih (hasPlace_put hplace place i))

theorem members_putAll_of_ne (hplace : f.HasPlace place) {p : Place} (hp : p ≠ place)
    (is : List Item) : (f.putAll place is).members p = f.members p := by
  induction is generalizing f with
  | nil => rfl
  | cons i is ih =>
      rw [putAll, ih (hasPlace_put hplace place i), members_put i hplace, if_neg hp]

theorem members_putAll (hplace : f.HasPlace place) (is : List Item) :
    (f.putAll place is).members place =
      f.members place ++ List.range' f.nodes.size is.length := by
  induction is generalizing f with
  | nil => simp [putAll]
  | cons i is ih =>
      rw [putAll, ih (hasPlace_put hplace place i), members_put i hplace, if_pos rfl, size_put,
        List.length_cons, List.range'_succ, List.append_assoc, List.singleton_append]

theorem ids_putAll (h : f.IsConsistent) (hplace : f.HasPlace place) {is : List Item}
    (hfree : ∀ i ∈ is, i.id ∉ f.ids place) (hnodup : (is.map Item.id).Nodup) :
    (f.putAll place is).ids place = f.ids place ++ is.map Item.id := by
  induction is generalizing f with
  | nil => simp [putAll]
  | cons i is ih =>
      have hput := h.put hplace
        ((f.find?_eq_none_iff_not_mem_ids place i.id).mpr (hfree i (by simp)))
      have hrest := not_mem_ids_put h hplace hfree hnodup
      rw [putAll, ih hput (hasPlace_put hplace place i) hrest hnodup.of_cons, ids_put h hplace,
        List.map_cons, List.append_assoc, List.singleton_append]

/-! ## Taking out by identifier -/

theorem item?_delete (f : Forest) (place : Place) (id : String) (n : ItemNo) :
    (f.delete place id).2.item? n = f.item? n := by
  unfold delete
  split
  · exact item?_release f place _ n
  · rfl

theorem size_delete (f : Forest) (place : Place) (id : String) :
    (f.delete place id).2.nodes.size = f.nodes.size := by
  unfold delete
  split
  · exact size_release f place _
  · rfl

theorem IsArranged.delete (h : f.IsArranged good fits) (place : Place) (id : String) :
    (f.delete place id).2.IsArranged good fits := by
  unfold Forest.delete
  split
  · rename_i n hfind
    exact h.release (of_find?_eq_some hfind).1
  · exact h

theorem members_delete (h : f.IsConsistent) (place : Place) (id : String) (p : Place) :
    (f.delete place id).2.members p =
      if p = place then (f.members place).filter (fun n => f.idOf? n ≠ some id)
      else f.members p := by
  unfold delete
  split
  · rename_i n hfind
    obtain ⟨hn, hid⟩ := of_find?_eq_some hfind
    rw [members_release]
    split
    · -- identifiers are distinct at a place, so dropping the item found drops all with that one
      apply List.filter_congr
      intro m hm
      rw [decide_eq_decide]
      constructor
      · intro hne hidm
        exact hne (h.distinct place m n hm hn (hidm.trans hid.symm))
      · rintro hne rfl
        exact hne hid
    · rfl
  · rename_i hfind
    rw [find?_eq_none_iff] at hfind
    split
    · rename_i hp
      rw [hp, List.filter_eq_self.mpr]
      intro n hn
      exact decide_eq_true (hfind n hn)
    · rfl

/-- The forest without the items at a place that have one of the given identifiers. -/
def deleteAll (f : Forest) (place : Place) (ids : List String) : Forest :=
  ids.foldl (fun f id => (f.delete place id).2) f

theorem deleteAll_cons (f : Forest) (place : Place) (id : String) (ids : List String) :
    f.deleteAll place (id :: ids) = (f.delete place id).2.deleteAll place ids :=
  rfl

theorem item?_deleteAll (ids : List String) (n : ItemNo) :
    (f.deleteAll place ids).item? n = f.item? n := by
  induction ids generalizing f with
  | nil => rfl
  | cons id ids ih => rw [deleteAll_cons, ih, item?_delete]

theorem idOf?_deleteAll (ids : List String) (n : ItemNo) :
    (f.deleteAll place ids).idOf? n = f.idOf? n := by
  rw [idOf?, item?_deleteAll, idOf?]

theorem size_deleteAll (f : Forest) (place : Place) (ids : List String) :
    (f.deleteAll place ids).nodes.size = f.nodes.size := by
  induction ids generalizing f with
  | nil => rfl
  | cons id ids ih => rw [deleteAll_cons, ih, size_delete]

theorem IsArranged.deleteAll (h : f.IsArranged good fits) (place : Place) (ids : List String) :
    (f.deleteAll place ids).IsArranged good fits := by
  induction ids generalizing f with
  | nil => exact h
  | cons id ids ih => exact ih (h.delete place id)

theorem IsConsistent.delete (h : f.IsConsistent) (place : Place) (id : String) :
    (f.delete place id).2.IsConsistent := by
  unfold Forest.delete
  split
  · rename_i n hfind
    exact h.release (of_find?_eq_some hfind).1
  · exact h

theorem IsConsistent.deleteAll (h : f.IsConsistent) (place : Place) (ids : List String) :
    (f.deleteAll place ids).IsConsistent := by
  induction ids generalizing f with
  | nil => exact h
  | cons id ids ih => exact ih (h.delete place id)

theorem members_deleteAll_of_ne (h : f.IsConsistent) (ids : List String) {p : Place}
    (hp : p ≠ place) : (f.deleteAll place ids).members p = f.members p := by
  induction ids generalizing f with
  | nil => rfl
  | cons id ids ih =>
      rw [deleteAll_cons, ih (h.delete place id), members_delete h, if_neg hp]

theorem members_deleteAll (h : f.IsConsistent) (ids : List String) :
    (f.deleteAll place ids).members place =
      (f.members place).filter fun n => ∀ id ∈ ids, f.idOf? n ≠ some id := by
  induction ids generalizing f with
  | nil => simp only [deleteAll, List.foldl_nil, List.not_mem_nil, false_imp_iff, implies_true,
      decide_true, List.filter_true]
  | cons id ids ih =>
      have hid : ∀ n, (f.delete place id).2.idOf? n = f.idOf? n := by
        intro n
        rw [idOf?, item?_delete, idOf?]
      rw [deleteAll_cons, ih (h.delete place id), members_delete h, if_pos rfl,
        List.filter_filter]
      apply List.filter_congr
      intro n _
      simp only [hid, List.forall_mem_cons, Bool.decide_and, Bool.and_comm]

theorem ids_deleteAll (h : f.IsConsistent) (ids : List String) :
    (f.deleteAll place ids).ids place = (f.ids place).filter fun id => id ∉ ids := by
  have hid : (f.deleteAll place ids).idOf? = f.idOf? := funext (idOf?_deleteAll ids)
  rw [Forest.ids, hid, members_deleteAll h, Forest.ids]
  induction f.members place with
  | nil => rfl
  | cons n ns ih =>
      rw [List.filter_cons, List.filterMap_cons]
      cases hn : f.idOf? n with
      | none =>
          rw [if_pos (by simp), List.filterMap_cons_none hn]
          exact ih
      | some id =>
          by_cases hmem : id ∈ ids
          · rw [if_neg (by simpa using hmem), List.filter_cons_of_neg (by simpa using hmem)]
            exact ih
          · have hkeep : ∀ id' ∈ ids, some id ≠ some id' := by
              intro id' hid' heq
              exact hmem (Option.some.inj heq ▸ hid')
            rw [if_pos (by simpa using hkeep), List.filterMap_cons_some hn,
              List.filter_cons_of_pos (by simpa using hmem), ih]

end TestAtlas.Forest
