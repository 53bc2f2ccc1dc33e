import TestAtlas.Proofs.Tree.Order
import Mathlib.Data.List.Nodup
import Mathlib.Data.List.Perm.Subperm

/-!
# The items of the tree

An item belongs to the tree when a way leads down to it from a top item.  On such a way no item
comes twice, provided that whatever is held below an item has a greater rank, so a way is no longer
than there are items, and the bounds with which the tree is searched are never met:
`isAttached_iff` and `mem_walk_top_iff`.
-/

namespace TestAtlas.Forest

/-- The top items and all that is held below them. -/
inductive InTree (f : Forest) : ItemNo → Prop
  | top {n : ItemNo} : n ∈ f.top → InTree f n
  | under {m n : ItemNo} : InTree f m → n ∈ f.children m → InTree f n

/-- The items on the way from a top item down to an item, both included. -/
inductive Lineage (f : Forest) : List ItemNo → ItemNo → Prop
  | top {n : ItemNo} : n ∈ f.top → Lineage f [n] n
  | under {ns : List ItemNo} {m n : ItemNo} : Lineage f ns m → n ∈ f.children m →
      Lineage f (ns ++ [n]) n

theorem inTree_iff_lineage {f : Forest} {n : ItemNo} : f.InTree n ↔ ∃ ns, f.Lineage ns n := by
  constructor
  · intro h
    induction h with
    | top hn => exact ⟨_, .top hn⟩
    | under _ hn ih =>
        obtain ⟨ns, hns⟩ := ih
        exact ⟨_, .under hns hn⟩
  · rintro ⟨ns, hns⟩
    induction hns with
    | top hn => exact .top hn
    | under _ hn ih => exact .under ih hn

theorem InTree.exists_mem {f : Forest} {n : ItemNo} (hn : f.InTree n) :
    ∃ place, n ∈ f.members place := by
  cases hn with
  | top hmem => exact ⟨.top, hmem⟩
  | under _ hmem => exact ⟨.under _, hmem⟩

/-- An item of the tree is held at the top or below an item of the tree. -/
theorem InTree.holder {f : Forest} (h : f.IsConsistent) {n : ItemNo} (hn : f.InTree n) :
    f.holder? n = some .top ∨ ∃ m, f.InTree m ∧ f.holder? n = some (.under m) := by
  cases hn with
  | top hn => exact Or.inl ((h.holds .top n).mp hn)
  | under hm hn => exact Or.inr ⟨_, hm, (h.holds (.under _) n).mp hn⟩

theorem Lineage.length_pos {f : Forest} {ns : List ItemNo} {n : ItemNo} (h : f.Lineage ns n) :
    0 < ns.length := by
  cases h with
  | top => exact Nat.zero_lt_one
  | under => simp

theorem Lineage.eq_of_concat {f : Forest} {ns : List ItemNo} {m n : ItemNo}
    (h : f.Lineage (ns ++ [m]) n) : n = m := by
  generalize hms : ns ++ [m] = ms at h
  cases h with
  | top _ => exact (List.append_inj_right' (hms.trans (List.nil_append _).symm) rfl |>
      List.singleton_injective).symm
  | under _ _ => exact (List.singleton_injective (List.append_inj_right' hms rfl)).symm

theorem Lineage.grows {f g : Forest} (hfg : f.Grows g) {ns : List ItemNo} {n : ItemNo}
    (hns : f.Lineage ns n) : g.Lineage ns n := by
  induction hns with
  | top hn => exact .top ((hfg.members .top).subset hn)
  | under _ hn ih => exact .under ih ((hfg.members (.under _)).subset hn)

theorem InTree.grows {f g : Forest} (hfg : f.Grows g) {n : ItemNo} (hn : f.InTree n) :
    g.InTree n := by
  obtain ⟨ns, hns⟩ := inTree_iff_lineage.mp hn
  exact inTree_iff_lineage.mpr ⟨ns, hns.grows hfg⟩

/-! ## Ways are short -/

/-- What is held below an item ranks above it. -/
def IsRanked (f : Forest) (rank : ItemNo → Nat) : Prop :=
  ∀ m n, n ∈ f.children m → rank m < rank n

theorem IsRanked.ne_of_mem_children {f : Forest} {rank : ItemNo → Nat} (hrank : f.IsRanked rank)
    {m n : ItemNo} (hn : n ∈ f.children m) : m ≠ n := by
  rintro rfl
  exact Nat.lt_irrefl _ (hrank m m hn)

theorem InTree.lt_size {f : Forest} (h : f.IsConsistent) {n : ItemNo} (hn : f.InTree n) :
    n < f.nodes.size := by
  cases hn with
  | top hmem => exact lt_size_of_mem h (show n ∈ f.members .top from hmem)
  | under _ hmem => exact lt_size_of_mem h hmem

theorem Lineage.inTree_of_mem {f : Forest} {ns : List ItemNo} {n : ItemNo} (hns : f.Lineage ns n)
    {m : ItemNo} (hm : m ∈ ns) : f.InTree m := by
  induction hns with
  | top hn =>
      rw [List.mem_singleton] at hm
      exact hm ▸ .top hn
  | under hns hn ih =>
      rcases List.mem_append.mp hm with hm | hm
      · exact ih hm
      · rw [List.mem_singleton] at hm
        exact hm ▸ inTree_iff_lineage.mpr ⟨_, .under hns hn⟩

/-- Along a way the ranks grow, so no item comes twice. -/
theorem Lineage.nodup {f : Forest} {rank : ItemNo → Nat} (hrank : f.IsRanked rank)
    {ns : List ItemNo} {n : ItemNo} (hns : f.Lineage ns n) :
    ns.Nodup ∧ ∀ m ∈ ns, rank m ≤ rank n := by
  induction hns with
  | top hn =>
      refine ⟨List.nodup_singleton _, fun m hm => ?_⟩
      exact Nat.le_of_eq (congrArg rank (List.mem_singleton.mp hm))
  | @under ns m n _ hn ih =>
      obtain ⟨hnodup, hbelow⟩ := ih
      have hlt : rank m < rank n := hrank m n hn
      constructor
      · rw [List.nodup_append]
        refine ⟨hnodup, List.nodup_singleton _, ?_⟩
        intro a ha b hb hab
        rw [List.mem_singleton] at hb
        -- the new item ranks above every item on the way to it
        have hle := hbelow a ha
        rw [hab, hb] at hle
        omega
      · intro a ha
        rcases List.mem_append.mp ha with ha | ha
        · have hle := hbelow a ha
          omega
        · exact Nat.le_of_eq (congrArg rank (List.mem_singleton.mp ha))

theorem Lineage.length_le {f : Forest} (h : f.IsConsistent) {rank : ItemNo → Nat}
    (hrank : f.IsRanked rank) {ns : List ItemNo} {n : ItemNo} (hns : f.Lineage ns n) :
    ns.length ≤ f.nodes.size := by
  -- distinct numbers below the size cannot be more than the size
  have hsub : ns ⊆ List.range f.nodes.size := fun m hm =>
    List.mem_range.mpr ((hns.inTree_of_mem hm).lt_size h)
  have hle := ((hns.nodup hrank).1.subperm hsub).length_le
  rwa [List.length_range] at hle

/-! ## The bounded searches -/

section Searches

variable {f : Forest}

theorem isAttachedWithin_of_lineage (h : f.IsConsistent) {ns : List ItemNo} {n : ItemNo}
    (hns : f.Lineage ns n) {limit : Nat} (hlimit : ns.length ≤ limit) :
    f.isAttachedWithin limit n = true := by
  induction hns generalizing limit with
  | @top n hn =>
      obtain ⟨limit, rfl⟩ : ∃ l, limit = l + 1 := ⟨limit - 1, by simp at hlimit; omega⟩
      have hheld : f.holder? n = some .top := (h.holds .top n).mp hn
      rw [isAttachedWithin, hheld]
  | @under ns m n _ hn ih =>
      rw [List.length_append, List.length_singleton] at hlimit
      obtain ⟨limit, rfl⟩ : ∃ l, limit = l + 1 := ⟨limit - 1, by omega⟩
      have hheld : f.holder? n = some (.under m) := (h.holds (.under m) n).mp hn
      rw [isAttachedWithin, hheld]
      exact ih (by omega)

theorem inTree_of_isAttachedWithin (h : f.IsConsistent) {limit : Nat} {n : ItemNo}
    (hn : f.isAttachedWithin limit n = true) : f.InTree n := by
  induction limit generalizing n with
  | zero => exact absurd hn (by simp [isAttachedWithin])
  | succ limit ih =>
      rw [isAttachedWithin] at hn
      split at hn
      · rename_i hheld
        exact .top ((h.holds .top n).mpr hheld)
      · rename_i m hheld
        exact .under (ih hn) ((h.holds (.under m) n).mpr hheld)
      · exact absurd hn (by simp)

/-- The search upwards finds the top exactly from the items of the tree. -/
theorem IsRanked.isAttached_iff {rank : ItemNo → Nat} (hrank : f.IsRanked rank)
    (h : f.IsConsistent) (n : ItemNo) : f.isAttached n = true ↔ f.InTree n := by
  constructor
  · exact inTree_of_isAttachedWithin h
  · intro hn
    obtain ⟨ns, hns⟩ := inTree_iff_lineage.mp hn
    have hlength := hns.length_le h hrank
    exact isAttachedWithin_of_lineage h hns (by omega)

theorem mem_preorder_of_mem {limit : Nat} {ns : List ItemNo} {n : ItemNo} (hn : n ∈ ns) :
    n ∈ f.preorder (limit + 1) ns := by
  rw [preorder, List.mem_flatMap]
  exact ⟨n, hn, List.mem_cons_self⟩

theorem child_mem_preorder {limit : Nat} {ns : List ItemNo} {m n : ItemNo}
    (hm : m ∈ f.preorder limit ns) (hn : n ∈ f.children m) : n ∈ f.preorder (limit + 1) ns := by
  induction limit generalizing ns with
  | zero => exact absurd hm (by simp [preorder])
  | succ limit ih =>
      rw [preorder, List.mem_flatMap] at hm ⊢
      obtain ⟨k, hk, hm⟩ := hm
      refine ⟨k, hk, List.mem_cons_of_mem _ ?_⟩
      rcases List.mem_cons.mp hm with rfl | hm
      · exact mem_preorder_of_mem hn
      · exact ih hm

theorem preorder_mono {limit more : Nat} (h : limit ≤ more) {ns : List ItemNo} {n : ItemNo}
    (hn : n ∈ f.preorder limit ns) : n ∈ f.preorder more ns := by
  induction limit generalizing more ns with
  | zero => exact absurd hn (by simp [preorder])
  | succ limit ih =>
      obtain ⟨more, rfl⟩ : ∃ k, more = k + 1 := ⟨more - 1, by omega⟩
      rw [preorder, List.mem_flatMap] at hn ⊢
      obtain ⟨k, hk, hn⟩ := hn
      refine ⟨k, hk, ?_⟩
      rcases List.mem_cons.mp hn with rfl | hn
      · exact List.mem_cons_self
      · exact List.mem_cons_of_mem _ (ih (by omega) hn)

theorem mem_preorder_of_lineage {ns : List ItemNo} {n : ItemNo} (hns : f.Lineage ns n) :
    n ∈ f.preorder ns.length f.top := by
  induction hns with
  | top hn => exact mem_preorder_of_mem hn
  | under _ hn ih =>
      rw [List.length_append, List.length_singleton]
      exact child_mem_preorder ih hn

theorem inTree_of_mem_preorder {limit : Nat} {ns : List ItemNo} (hns : ∀ n ∈ ns, f.InTree n)
    {n : ItemNo} (hn : n ∈ f.preorder limit ns) : f.InTree n := by
  induction limit generalizing ns with
  | zero => exact absurd hn (by simp [preorder])
  | succ limit ih =>
      rw [preorder, List.mem_flatMap] at hn
      obtain ⟨m, hm, hn⟩ := hn
      rcases List.mem_cons.mp hn with rfl | hn
      · exact hns n hm
      · exact ih (fun k hk => .under (hns m hm) hk) hn

/-- The walk from the top comes by exactly the items of the tree. -/
theorem IsRanked.mem_walk_top_iff {rank : ItemNo → Nat} (hrank : f.IsRanked rank)
    (h : f.IsConsistent) (n : ItemNo) : n ∈ f.walk .top ↔ f.InTree n := by
  constructor
  · exact inTree_of_mem_preorder fun n hn => .top hn
  · intro hn
    obtain ⟨ns, hns⟩ := inTree_iff_lineage.mp hn
    have hlength := hns.length_le h hrank
    exact preorder_mono (by omega) (mem_preorder_of_lineage hns)

end Searches

/-! ## Arranged forests -/

section Arranged

variable {good : Item → Prop} {fits : Option Item → Item → Prop} {f : Forest} {rank : Item → Nat}

/-- An item of the tree fits at the top, or below the item of the tree that holds it. -/
theorem IsArranged.stands (h : f.IsArranged good fits) {n : ItemNo} {i : Item} (hn : f.InTree n)
    (hi : f.item? n = some i) :
    (n ∈ f.top ∧ fits none i) ∨
      ∃ m p, f.InTree m ∧ n ∈ f.children m ∧ f.item? m = some p ∧ fits (some p) i := by
  cases hn with
  | top hmem =>
      obtain ⟨j, owner, hj, howner, hfits⟩ := h.of_mem (show n ∈ f.members .top from hmem)
      rw [hi, Option.some.injEq] at hj
      rw [ownerAt, Option.some.injEq] at howner
      subst hj howner
      exact Or.inl ⟨hmem, hfits⟩
  | @under m _ hm hmem =>
      obtain ⟨j, owner, hj, howner, hfits⟩ := h.of_mem hmem
      rw [hi, Option.some.injEq] at hj
      obtain ⟨p, hp, rfl⟩ := Option.map_eq_some_iff.mp howner
      subst hj
      exact Or.inr ⟨m, p, hm, hmem, hp, hfits⟩

theorem IsArranged.exists_item_of_inTree (h : f.IsArranged good fits) {n : ItemNo}
    (hn : f.InTree n) : ∃ i, f.item? n = some i :=
  exists_item? (hn.lt_size h.consistent)

theorem IsArranged.rank_lt (h : f.IsArranged good fits)
    (hrank : ∀ p i, fits (some p) i → rank p < rank i) {m n : ItemNo} {i j : Item}
    (hn : n ∈ f.children m) (hi : f.item? m = some i) (hj : f.item? n = some j) :
    rank i < rank j := by
  obtain ⟨j', hj', hfit⟩ := h.of_mem_children hn hi
  rw [hj, Option.some.injEq] at hj'
  subst hj'
  exact hrank i j hfit

/-- A rank of items that grows downwards ranks the forest. -/
theorem IsArranged.isRanked (h : f.IsArranged good fits)
    (hrank : ∀ p i, fits (some p) i → rank p < rank i) :
    f.IsRanked fun n => ((f.item? n).map rank).getD 0 := by
  intro m n hn
  obtain ⟨j, owner, hj, howner, -⟩ := h.of_mem hn
  obtain ⟨i, hi, -⟩ := Option.map_eq_some_iff.mp howner
  simpa only [hi, hj, Option.map_some, Option.getD_some] using h.rank_lt hrank hn hi hj

theorem isAttached_iff (h : f.IsArranged good fits)
    (hrank : ∀ p i, fits (some p) i → rank p < rank i) (n : ItemNo) :
    f.isAttached n = true ↔ f.InTree n :=
  (h.isRanked hrank).isAttached_iff h.consistent n

theorem isAttached_eq_false (h : f.IsArranged good fits)
    (hrank : ∀ p i, fits (some p) i → rank p < rank i) {n : ItemNo} (hn : ¬ f.InTree n) :
    f.isAttached n = false := by
  rw [← Bool.not_eq_true, isAttached_iff h hrank]
  exact hn

theorem mem_walk_top_iff (h : f.IsArranged good fits)
    (hrank : ∀ p i, fits (some p) i → rank p < rank i) (n : ItemNo) :
    n ∈ f.walk .top ↔ f.InTree n :=
  (h.isRanked hrank).mem_walk_top_iff h.consistent n

end Arranged

end TestAtlas.Forest
