import TestAtlas.Proofs.Tree.Ownership

/-!
# Cutting items off

To take an item out of its place is to cut off all that is at or below it.  When several items were
taken out, in whatever order, the places hold what they held but for those, and the tree has lost
what is at or below one of them and nothing else: `IsCut.inTree_iff`.  The walk from the top comes
by an item before it comes by those below it, and by each item once: `pairwise_walk_top`.
-/

namespace TestAtlas.Forest

variable {f g : Forest}

/-! ## At or below -/

theorem AtOrBelow.trans {a b n : ItemNo} (hab : f.AtOrBelow a b) (hbn : f.AtOrBelow b n) :
    f.AtOrBelow a n := by
  induction hbn with
  | self => exact hab
  | child _ hk ih => exact ih.child hk

/-- What is at or below an item is the item, or at or below one of its children. -/
theorem AtOrBelow.cases_child {a n : ItemNo} (h : f.AtOrBelow a n) :
    n = a ∨ ∃ k ∈ f.children a, f.AtOrBelow k n := by
  induction h with
  | self => exact Or.inl rfl
  | @child m n _ hn ih =>
      refine Or.inr ?_
      rcases ih with rfl | ⟨k, hk, hbelow⟩
      · exact ⟨n, hn, .self⟩
      · exact ⟨k, hk, hbelow.child hn⟩

/-- An item that is at or below another one, and not that one, has its holder there. -/
theorem AtOrBelow.of_child (h : f.IsConsistent) {a m n : ItemNo} (hn : n ∈ f.children m)
    (hbelow : f.AtOrBelow a n) : a = n ∨ f.AtOrBelow a m := by
  cases hbelow with
  | self => exact Or.inl rfl
  | child hm hmem => exact Or.inr (h.parent_unique hmem hn ▸ hm)

theorem AtOrBelow.eq_of_mem_top (h : f.IsConsistent) {a n : ItemNo} (hn : n ∈ f.top)
    (hbelow : f.AtOrBelow a n) : a = n := by
  cases hbelow with
  | self => rfl
  | child _ hmem => exact absurd hmem (h.not_mem_children hn _)

/-- Two items above the same one are above one another. -/
theorem AtOrBelow.total (h : f.IsConsistent) {a b n : ItemNo} (ha : f.AtOrBelow a n)
    (hb : f.AtOrBelow b n) : f.AtOrBelow a b ∨ f.AtOrBelow b a := by
  induction ha with
  | self => exact Or.inr hb
  | child ha hn ih =>
      rcases hb.of_child h hn with rfl | hb
      · exact Or.inl (ha.child hn)
      · exact ih hb

theorem AtOrBelow.rank_le {rank : ItemNo → Nat} (hrank : f.IsRanked rank) {a n : ItemNo}
    (h : f.AtOrBelow a n) : rank a ≤ rank n := by
  induction h with
  | self => exact Nat.le_refl _
  | child _ hk ih => exact Nat.le_trans ih (Nat.le_of_lt (hrank _ _ hk))

/-- No item is below itself. -/
theorem IsRanked.not_atOrBelow {rank : ItemNo → Nat} (hrank : f.IsRanked rank) {m n : ItemNo}
    (hn : n ∈ f.children m) : ¬ f.AtOrBelow n m := by
  intro hbelow
  have hle := hbelow.rank_le hrank
  have hlt := hrank m n hn
  omega

/-- Of two items at one place, neither is below the other. -/
theorem IsRanked.eq_of_atOrBelow {rank : ItemNo → Nat} (hrank : f.IsRanked rank)
    (h : f.IsConsistent) {place : Place} {a b : ItemNo} (ha : a ∈ f.members place)
    (hb : b ∈ f.members place) (hbelow : f.AtOrBelow a b) : a = b := by
  cases hbelow with
  | self => rfl
  | @child m _ hm hmem =>
      have hplace := h.place_unique hb hmem
      subst hplace
      exact absurd hm (hrank.not_atOrBelow ha)

/-! ## The order of the walk -/

/-- Below two items at one place are different items. -/
theorem IsRanked.not_atOrBelow_both {rank : ItemNo → Nat} (hrank : f.IsRanked rank)
    (h : f.IsConsistent) {place : Place} {a b : ItemNo} (ha : a ∈ f.members place)
    (hb : b ∈ f.members place) (hne : a ≠ b) {n : ItemNo} (han : f.AtOrBelow a n) :
    ¬ f.AtOrBelow b n := by
  intro hbn
  rcases han.total h hbn with hab | hba
  · exact hne (hrank.eq_of_atOrBelow h ha hb hab)
  · exact hne (hrank.eq_of_atOrBelow h hb ha hba).symm

theorem atOrBelow_of_mem_preorder {limit : Nat} {ns : List ItemNo} {n : ItemNo}
    (hn : n ∈ f.preorder limit ns) : ∃ a ∈ ns, f.AtOrBelow a n := by
  induction limit generalizing ns with
  | zero => exact absurd hn (by simp [preorder])
  | succ limit ih =>
      rw [preorder, List.mem_flatMap] at hn
      obtain ⟨a, ha, hn⟩ := hn
      refine ⟨a, ha, ?_⟩
      rcases List.mem_cons.mp hn with rfl | hn
      · exact .self
      · obtain ⟨b, hb, hbn⟩ := ih hn
        exact (AtOrBelow.self.child hb).trans hbn

theorem IsRanked.pairwise_preorder {rank : ItemNo → Nat} (hrank : f.IsRanked rank)
    (h : f.IsConsistent) (limit : Nat) (place : Place) :
    (f.preorder limit (f.members place)).Pairwise fun a b => ¬ f.AtOrBelow b a := by
  induction limit generalizing place with
  | zero => exact List.Pairwise.nil
  | succ limit ih =>
      rw [preorder, List.pairwise_flatMap]
      constructor
      · intro a _
        refine List.pairwise_cons.mpr ⟨fun b hb hba => ?_, ih (.under a)⟩
        obtain ⟨k, hk, hkb⟩ := atOrBelow_of_mem_preorder hb
        exact hrank.not_atOrBelow hk (hkb.trans hba)
      · refine (h.nodup place).imp_of_mem fun {a b} ha hb hne x hx y hy hyx => ?_
        have habove : ∀ c z, z ∈ c :: f.preorder limit (f.children c) → f.AtOrBelow c z := by
          intro c z hz
          rcases List.mem_cons.mp hz with rfl | hz
          · exact .self
          · obtain ⟨k, hk, hkz⟩ := atOrBelow_of_mem_preorder hz
            exact (AtOrBelow.self.child hk).trans hkz
        -- the later item would be below the earlier branch as well
        exact hrank.not_atOrBelow_both h ha hb hne (habove a x hx) ((habove b y hy).trans hyx)

theorem IsRanked.nodup_preorder {rank : ItemNo → Nat} (hrank : f.IsRanked rank)
    (h : f.IsConsistent) (limit : Nat) (place : Place) :
    (f.preorder limit (f.members place)).Nodup := by
  refine (hrank.pairwise_preorder h limit place).imp fun {a b} hnot hab => hnot ?_
  rw [hab]
  exact .self

/-- The walk from the top comes by each item once, and before it comes by those below it. -/
theorem IsRanked.pairwise_walk_top {rank : ItemNo → Nat} (hrank : f.IsRanked rank)
    (h : f.IsConsistent) : (f.walk .top).Pairwise fun a b => ¬ f.AtOrBelow b a :=
  hrank.pairwise_preorder h _ .top

theorem IsRanked.nodup_walk_top {rank : ItemNo → Nat} (hrank : f.IsRanked rank)
    (h : f.IsConsistent) : (f.walk .top).Nodup :=
  hrank.nodup_preorder h _ .top

/-! ## Taking items out -/

/-- The items of a list were taken out of their places, and all else is as it was. -/
structure IsCut (f : Forest) (cut : List ItemNo) (g : Forest) : Prop where
  items : ∀ n, g.item? n = f.item? n
  members : ∀ place, g.members place = (f.members place).filter (· ∉ cut)
  holder : ∀ n, g.holder? n = if n ∈ cut then none else f.holder? n

theorem IsCut.refl (f : Forest) : f.IsCut [] f where
  items := fun _ => rfl
  members := fun _ => by simp
  holder := fun _ => by simp

variable {cut : List ItemNo}

theorem IsCut.mem_members (hcut : f.IsCut cut g) {place : Place} {n : ItemNo} :
    n ∈ g.members place ↔ n ∈ f.members place ∧ n ∉ cut := by
  rw [hcut.members, List.mem_filter, decide_eq_true_eq]

theorem IsCut.idOf? (hcut : f.IsCut cut g) (n : ItemNo) : g.idOf? n = f.idOf? n := by
  rw [Forest.idOf?, hcut.items, Forest.idOf?]

theorem IsCut.isConsistent (hcut : f.IsCut cut g) (h : f.IsConsistent) : g.IsConsistent where
  holds := fun place n => by
    rw [hcut.mem_members, h.holds, hcut.holder]
    split <;> simp_all
  nodup := fun place => by
    rw [hcut.members]
    exact (h.nodup place).filter _
  distinct := fun place m n hm hn hid => by
    rw [hcut.idOf?, hcut.idOf?] at hid
    exact h.distinct place m n (hcut.mem_members.mp hm).1 (hcut.mem_members.mp hn).1 hid

theorem IsCut.isRanked (hcut : f.IsCut cut g) {rank : ItemNo → Nat} (hrank : f.IsRanked rank) :
    g.IsRanked rank :=
  hrank.of_subset fun _ _ hk => (hcut.mem_members.mp hk).1

/-- One more item is taken out. -/
theorem IsCut.release (hcut : f.IsCut cut g) (h : f.IsConsistent) {place : Place} {n : ItemNo}
    (hn : n ∈ g.members place) : f.IsCut (cut ++ [n]) (g.release place n) where
  items := fun m => (item?_release g place n m).trans (hcut.items m)
  members := fun p => by
    have hsplit : ((f.members p).filter (· ∉ cut ++ [n])) =
        (g.members p).filter (· ≠ n) := by
      rw [hcut.members, List.filter_filter]
      refine List.filter_congr fun m _ => ?_
      simp [and_comm]
    rw [hsplit, members_release]
    split
    · rename_i hp
      rw [hp]
    · -- the item is held at one place only
      rename_i hp
      refine (List.filter_eq_self.mpr fun m hm => decide_eq_true ?_).symm
      rintro rfl
      exact hp ((hcut.isConsistent h).place_unique hm hn)
  holder := fun m => by
    rw [holder?_release, hcut.holder]
    by_cases hmn : m = n <;> simp [hmn]

/-- What is at or below an item that was taken out is no longer in the tree, and all else is. -/
theorem IsCut.inTree_iff (hcut : f.IsCut cut g) (h : f.IsConsistent) {n : ItemNo} :
    g.InTree n ↔ f.InTree n ∧ ∀ a ∈ cut, ¬ f.AtOrBelow a n := by
  constructor
  · intro hn
    induction hn with
    | @top n hn =>
        obtain ⟨hmem, hnot⟩ := hcut.mem_members.mp (show n ∈ g.members .top from hn)
        refine ⟨.top hmem, fun a ha hbelow => hnot ?_⟩
        exact hbelow.eq_of_mem_top h hmem ▸ ha
    | @under m n _ hn ih =>
        obtain ⟨hmem, hnot⟩ := hcut.mem_members.mp hn
        refine ⟨.under ih.1 hmem, fun a ha hbelow => ?_⟩
        rcases hbelow.of_child h hmem with rfl | hbelow
        · exact hnot ha
        · exact ih.2 a ha hbelow
  · rintro ⟨hn, hnone⟩
    induction hn with
    | @top n hn =>
        have hmem : n ∈ g.members .top :=
          hcut.mem_members.mpr ⟨hn, fun hcutn => hnone n hcutn .self⟩
        exact .top hmem
    | @under m n _ hn ih =>
        refine .under (ih fun a ha hbelow => hnone a ha (hbelow.child hn)) ?_
        exact hcut.mem_members.mpr ⟨hn, fun hcutn => hnone n hcutn .self⟩

/-- What stays in the tree is held where it was. -/
theorem IsCut.holder?_eq (hcut : f.IsCut cut g) (h : f.IsConsistent) {n : ItemNo}
    (hn : g.InTree n) : g.holder? n = f.holder? n := by
  rw [hcut.holder, if_neg fun hmem => ((hcut.inTree_iff h).mp hn).2 n hmem .self]

/-- An item of the tree goes on holding those of its items that stay in the tree, in the same
order. -/
theorem IsCut.children_eq (hcut : f.IsCut cut g) (h : f.IsConsistent) {rank : ItemNo → Nat}
    (hrank : f.IsRanked rank) {n : ItemNo} (hn : g.InTree n) :
    g.children n = (f.children n).filter g.isAttached := by
  rw [children, hcut.members]
  refine List.filter_congr fun k hk => ?_
  rw [Bool.eq_iff_iff, decide_eq_true_eq,
    (hcut.isRanked hrank).isAttached_iff (hcut.isConsistent h)]
  constructor
  · intro hnot
    exact .under hn (hcut.mem_members.mpr ⟨hk, hnot⟩)
  · intro hstays hmem
    exact ((hcut.inTree_iff h).mp hstays).2 k hmem .self

end TestAtlas.Forest
