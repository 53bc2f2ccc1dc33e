import TestAtlas.Proofs.Item.Identifier
import TestAtlas.Proofs.Path.Location
import TestAtlas.Proofs.Tree.Edit

/-!
# Forests in order

A forest is consistent when the places and the items tell the same story of what is held where, and
no place holds two items with one identifier.  It is arranged when moreover every item is good, and
every item that is held fits the item that owns its place.  Both edits keep a forest arranged,
whatever it means to be good and to fit: `IsArranged.put` and `IsArranged.release`.  A forest is in
order when it is arranged and every item has the identifier of its location, kind and name.
-/

namespace TestAtlas

/-- The identifier of the item is that of its location, its kind and its name, and only a leaf has
a name and a range. -/
structure Item.IsGenuine (cwd : String) (i : Item) : Prop where
  location : Path.IsLocation i.location
  identified : Id.ofKind cwd i.location i.kind i.name = .ok i.id
  plain : i.kind.isLeaf = false → i.name = none ∧ i.range = none

/-- Genuine items with one identifier agree in location, kind and name. -/
theorem Item.IsGenuine.eq_of_id {cwd : String} {i j : Item} (hi : i.IsGenuine cwd)
    (hj : j.IsGenuine cwd) (h : i.id = j.id) :
    i.location = j.location ∧ i.kind = j.kind ∧ i.name = j.name := by
  obtain ⟨hl, hk, hn⟩ := Id.eq_of_ofKind_eq hi.identified (h ▸ hj.identified)
  rw [Path.canonical_of_isLocation hi.location, Path.canonical_of_isLocation hj.location] at hl
  refine ⟨hl, hk, ?_⟩
  cases hleaf : i.kind.isLeaf with
  | true => exact hn hleaf
  | false => rw [(hi.plain hleaf).1, (hj.plain (hk ▸ hleaf)).1]

namespace Forest

/-! ## Consistency -/

/-- What the places hold is what the items say of their places. -/
structure IsConsistent (f : Forest) : Prop where
  holds : ∀ place n, n ∈ f.members place ↔ f.holder? n = some place
  nodup : ∀ place, (f.members place).Nodup
  distinct : ∀ place m n, m ∈ f.members place → n ∈ f.members place → f.idOf? m = f.idOf? n →
    m = n

theorem isConsistent_empty : IsConsistent .empty where
  holds := fun place n => by cases place <;> simp [empty, members, holder?]
  nodup := fun place => by cases place <;> simp [empty, members]
  distinct := fun place m n hm => by cases place <;> simp [empty, members] at hm

theorem lt_size_of_mem {f : Forest} (h : f.IsConsistent) {place : Place} {n : ItemNo}
    (hn : n ∈ f.members place) : n < f.nodes.size :=
  lt_size_of_holder? ((h.holds place n).mp hn)

/-- An item is a member of one place only. -/
theorem IsConsistent.place_unique {f : Forest} (h : f.IsConsistent) {p q : Place} {n : ItemNo}
    (hp : n ∈ f.members p) (hq : n ∈ f.members q) : p = q := by
  have hheld := (h.holds p n).mp hp
  rw [(h.holds q n).mp hq, Option.some.injEq] at hheld
  exact hheld.symm

theorem IsConsistent.not_mem_children {f : Forest} (h : f.IsConsistent) {n : ItemNo}
    (hn : n ∈ f.top) (m : ItemNo) : n ∉ f.children m := by
  intro hchild
  have hplace := h.place_unique (show n ∈ f.members .top from hn) hchild
  exact absurd hplace (by simp)

theorem IsConsistent.parent_unique {f : Forest} (h : f.IsConsistent) {m m' n : ItemNo}
    (hm : n ∈ f.children m) (hm' : n ∈ f.children m') : m = m' := by
  have hplace := h.place_unique hm hm'
  rwa [Place.under.injEq] at hplace

/-- An item that stands at the same places in two forests has the same holder. -/
theorem IsConsistent.holder?_congr {f g : Forest} (hf : f.IsConsistent) (hg : g.IsConsistent)
    {n : ItemNo} (h : ∀ place, n ∈ g.members place ↔ n ∈ f.members place) :
    g.holder? n = f.holder? n := by
  apply Option.ext
  intro place
  rw [← hg.holds place n, ← hf.holds place n]
  exact h place

theorem find?_eq_none_iff (f : Forest) (place : Place) (id : String) :
    f.find? place id = none ↔ ∀ n ∈ f.members place, f.idOf? n ≠ some id := by
  simp [find?, List.find?_eq_none]

theorem of_find?_eq_some {f : Forest} {place : Place} {id : String} {n : ItemNo}
    (h : f.find? place id = some n) : n ∈ f.members place ∧ f.idOf? n = some id :=
  ⟨List.mem_of_find?_eq_some h, by simpa using List.find?_some h⟩

theorem find?_eq_some_iff {f : Forest} (h : f.IsConsistent) (place : Place) (id : String)
    (n : ItemNo) : f.find? place id = some n ↔ n ∈ f.members place ∧ f.idOf? n = some id := by
  constructor
  · exact of_find?_eq_some
  · rintro ⟨hmem, hid⟩
    cases hfind : f.find? place id with
    | none => exact absurd hid ((f.find?_eq_none_iff place id).mp hfind n hmem)
    | some m =>
        obtain ⟨hm, hidm⟩ := of_find?_eq_some hfind
        rw [h.distinct place m n hm hmem (hidm.trans hid.symm)]

theorem idOf?_put (f : Forest) (place : Place) (i : Item) (m : ItemNo) :
    (f.put place i).idOf? m = if m = f.nodes.size then some i.id else f.idOf? m := by
  rw [idOf?, item?_put]
  split <;> rfl

/-- An item that is held nowhere may be put behind those at a place that have other identifiers. -/
theorem IsConsistent.hold {f : Forest} (h : f.IsConsistent) {place : Place}
    (hplace : f.HasPlace place) {n : ItemNo} (hn : n < f.nodes.size) (hloose : f.holder? n = none)
    (hother : ∀ m ∈ f.members place, f.idOf? m ≠ f.idOf? n) : (f.hold place n).IsConsistent := by
  have hfresh : ∀ p m, m ∈ f.members p → m ≠ n := by
    rintro p m hm rfl
    rw [(h.holds p m).mp hm] at hloose
    exact absurd hloose (by simp)
  have hid : ∀ m, (f.hold place n).idOf? m = f.idOf? m := fun m => by rw [idOf?, item?_hold, idOf?]
  constructor
  · intro p m
    rw [members_hold hplace, holder?_hold hn]
    by_cases hm : m = n
    · subst hm
      rw [if_pos rfl, Option.some.injEq]
      constructor
      · intro hmem
        split at hmem
        · rename_i hp
          exact hp.symm
        · exact absurd rfl (hfresh p _ hmem)
      · rintro rfl
        simp
    · rw [if_neg hm, ← h.holds p m]
      split
      · rename_i hp
        subst hp
        simp [hm]
      · rfl
  · intro p
    rw [members_hold hplace]
    split
    · rw [List.nodup_append]
      refine ⟨h.nodup place, by simp, ?_⟩
      intro a ha b hb
      rw [List.mem_singleton] at hb
      rw [hb]
      exact hfresh place a ha
    · exact h.nodup p
  · intro p m m' hm hm' heq
    rw [members_hold hplace] at hm hm'
    rw [hid, hid] at heq
    split at hm
    · rename_i hp
      rw [if_pos hp] at hm'
      simp only [List.mem_append, List.mem_singleton] at hm hm'
      rcases hm with hm | rfl <;> rcases hm' with hm' | rfl
      · exact h.distinct place m m' hm hm' heq
      · exact absurd heq (hother m hm)
      · exact absurd heq.symm (hother m' hm')
      · rfl
    · rename_i hp
      rw [if_neg hp] at hm'
      exact h.distinct p m m' hm hm' heq

theorem IsConsistent.push {f : Forest} (h : f.IsConsistent) (i : Item) :
    (f.push i).2.IsConsistent where
  holds := fun place n => by rw [members_push, holder?_push, h.holds]
  nodup := fun place => by
    rw [members_push]
    exact h.nodup place
  distinct := by
    intro place m n hm hn hid
    rw [members_push] at hm hn
    rw [idOf?, idOf?, item?_push, item?_push, if_neg (Nat.ne_of_lt (lt_size_of_mem h hm)),
      if_neg (Nat.ne_of_lt (lt_size_of_mem h hn))] at hid
    exact h.distinct place m n hm hn hid

theorem idOf?_push_self (f : Forest) (i : Item) :
    (f.push i).2.idOf? f.nodes.size = some i.id := by
  rw [idOf?, item?_push, if_pos rfl]
  rfl

/-- No item at a place has the identifier of a new item that is free there. -/
theorem idOf?_push_ne {f : Forest} (h : f.IsConsistent) {place : Place} {i : Item}
    (hfree : f.find? place i.id = none) :
    ∀ n ∈ (f.push i).2.members place, (f.push i).2.idOf? n ≠ some i.id := by
  intro n hn
  rw [members_push] at hn
  rw [idOf?, item?_push, if_neg (Nat.ne_of_lt (lt_size_of_mem h hn))]
  exact (f.find?_eq_none_iff place i.id).mp hfree n hn

theorem IsConsistent.put {f : Forest} (h : f.IsConsistent) {place : Place}
    (hplace : f.HasPlace place) {i : Item} (hfree : f.find? place i.id = none) :
    (f.put place i).IsConsistent := by
  rw [put_eq_hold_push]
  refine (h.push i).hold (hasPlace_push hplace i) (by simp) ?_ ?_
  · rw [holder?_push, holder?_size]
  · rw [idOf?_push_self]
    exact idOf?_push_ne h hfree

theorem idOf?_release (f : Forest) (place : Place) (n m : ItemNo) :
    (f.release place n).idOf? m = f.idOf? m := by
  rw [idOf?, item?_release, idOf?]

theorem mem_release {f : Forest} {place p : Place} {n m : ItemNo} :
    m ∈ (f.release place n).members p ↔ m ∈ f.members p ∧ (p = place → m ≠ n) := by
  rw [members_release]
  split
  · rename_i h
    simp [h]
  · rename_i h
    simp [h]

theorem IsConsistent.release {f : Forest} (h : f.IsConsistent) {place : Place} {n : ItemNo}
    (hn : n ∈ f.members place) : (f.release place n).IsConsistent := by
  have hheld := (h.holds place n).mp hn
  constructor
  · intro p m
    rw [mem_release, holder?_release, h.holds p m]
    by_cases hm : m = n
    · subst hm
      rw [if_pos rfl, hheld]
      simp [eq_comm]
    · simp [hm]
  · intro p
    rw [members_release]
    split
    · exact (h.nodup place).filter _
    · exact h.nodup p
  · intro p m m' hm hm' hid
    rw [idOf?_release, idOf?_release] at hid
    exact h.distinct p m m' (mem_release.mp hm).1 (mem_release.mp hm').1 hid

/-! ## Making and adding in one go -/

/-- Adding an item that was just made puts it behind the others. -/
theorem add_push {f : Forest} (h : f.IsConsistent) {place : Place} {i : Item}
    (hfree : f.find? place i.id = none) :
    (f.push i).2.add f.nodes.size place = .ok (f.put place i) := by
  have hnone : (f.push i).2.find? place i.id = none :=
    (find?_eq_none_iff _ _ _).mpr (idOf?_push_ne h hfree)
  have hheld : (f.push i).2.holder? f.nodes.size = none := by
    rw [holder?_push, holder?_size]
  simp only [add, idOf?_push_self, Option.getD_some, hnone, hheld]
  rfl

/-! ## Order -/

/-- The item that owns a place, if the place has an owner; a loose collection belongs to no tree. -/
def ownerAt (f : Forest) : Place → Option (Option Item)
  | .top => some none
  | .under n => (f.item? n).map some
  | .loose _ => none

theorem ownerAt_under {f : Forest} {n : ItemNo} {i : Item} (hi : f.item? n = some i) :
    f.ownerAt (.under n) = some (some i) := by
  rw [ownerAt, hi]
  rfl

/-- The forest is consistent, its items are good, and what is held fits its owner. -/
structure IsArranged (good : Item → Prop) (fits : Option Item → Item → Prop) (f : Forest) :
    Prop where
  consistent : f.IsConsistent
  genuine : ∀ n i, f.item? n = some i → good i
  placed : ∀ n i place, f.item? n = some i → f.holder? n = some place →
    ∃ owner, f.ownerAt place = some owner ∧ fits owner i

/-- The forest is consistent, its items are genuine, and what is held fits its owner. -/
abbrev IsOrderly (cwd : String) (fits : Option Item → Item → Prop) (f : Forest) : Prop :=
  f.IsArranged (Item.IsGenuine cwd) fits

theorem isArranged_empty (good : Item → Prop) (fits : Option Item → Item → Prop) :
    IsArranged good fits .empty where
  consistent := isConsistent_empty
  genuine := fun n i h => by simp [empty, item?] at h
  placed := fun n i place h => by simp [empty, item?] at h

theorem hasPlace_of_ownerAt {f : Forest} {place : Place} {owner : Option Item}
    (h : f.ownerAt place = some owner) : f.HasPlace place := by
  cases place with
  | top => trivial
  | under n =>
      obtain ⟨i, hi, -⟩ := Option.map_eq_some_iff.mp h
      exact lt_size_of_item? hi
  | loose k => exact absurd h (by simp [ownerAt])

theorem ownerAt_put {f : Forest} {place p : Place} {i : Item} {owner : Option Item}
    (h : f.ownerAt p = some owner) : (f.put place i).ownerAt p = some owner := by
  cases p with
  | top => exact h
  | under n =>
      obtain ⟨j, hj, rfl⟩ := Option.map_eq_some_iff.mp h
      rw [ownerAt, item?_put_of_ne i (Nat.ne_of_lt (lt_size_of_item? hj)), hj]
      rfl
  | loose k => exact h

theorem ownerAt_release (f : Forest) (place p : Place) (n : ItemNo) :
    (f.release place n).ownerAt p = f.ownerAt p := by
  cases p with
  | top => rfl
  | under m => rw [ownerAt, item?_release, ownerAt]
  | loose k => rfl

section Order

variable {good : Item → Prop} {fits : Option Item → Item → Prop} {f : Forest}

/-- A new item that is good and fits keeps the forest arranged. -/
theorem IsArranged.put (h : f.IsArranged good fits) {place : Place} {owner : Option Item}
    {i : Item} (howner : f.ownerAt place = some owner) (hi : good i) (hfits : fits owner i)
    (hfree : f.find? place i.id = none) : (f.put place i).IsArranged good fits where
  consistent := h.consistent.put (hasPlace_of_ownerAt howner) hfree
  genuine := by
    intro n j hj
    rw [item?_put] at hj
    split at hj
    · rw [← Option.some.inj hj]
      exact hi
    · exact h.genuine n j hj
  placed := by
    intro n j p hj hp
    rw [item?_put] at hj
    rw [holder?_put] at hp
    split at hj
    · rename_i hn
      rw [if_pos hn] at hp
      rw [← Option.some.inj hj, ← Option.some.inj hp]
      exact ⟨owner, ownerAt_put howner, hfits⟩
    · rename_i hn
      rw [if_neg hn] at hp
      obtain ⟨o, ho, hfit⟩ := h.placed n j p hj hp
      exact ⟨o, ownerAt_put ho, hfit⟩

/-- Taking an item out keeps the forest arranged. -/
theorem IsArranged.release (h : f.IsArranged good fits) {place : Place} {n : ItemNo}
    (hn : n ∈ f.members place) : (f.release place n).IsArranged good fits where
  consistent := h.consistent.release hn
  genuine := by
    intro m j hj
    rw [item?_release] at hj
    exact h.genuine m j hj
  placed := by
    intro m j p hj hp
    rw [item?_release] at hj
    rw [holder?_release] at hp
    split at hp
    · exact absurd hp (by simp)
    · rw [ownerAt_release]
      exact h.placed m j p hj hp

/-- What it means to fit may change where nothing is held for which it does. -/
theorem IsArranged.of_fits {fits' : Option Item → Item → Prop} (h : f.IsArranged good fits)
    (himp : ∀ n i place owner, f.item? n = some i → f.holder? n = some place →
      f.ownerAt place = some owner → fits owner i → fits' owner i) :
    f.IsArranged good fits' where
  consistent := h.consistent
  genuine := h.genuine
  placed := by
    intro n i place hi hplace
    obtain ⟨owner, howner, hfit⟩ := h.placed n i place hi hplace
    exact ⟨owner, howner, himp n i place owner hi hplace howner hfit⟩

/-- Every member of a place is an item that fits the owner. -/
theorem IsArranged.of_mem (h : f.IsArranged good fits) {place : Place} {n : ItemNo}
    (hn : n ∈ f.members place) :
    ∃ i owner, f.item? n = some i ∧ f.ownerAt place = some owner ∧ fits owner i := by
  obtain ⟨i, hi⟩ := exists_item? (lt_size_of_mem h.consistent hn)
  obtain ⟨owner, howner, hfit⟩ := h.placed n i place hi ((h.consistent.holds place n).mp hn)
  exact ⟨i, owner, hi, howner, hfit⟩

/-- What is held by an item fits below that item. -/
theorem IsArranged.of_mem_children (h : f.IsArranged good fits) {m n : ItemNo} {p : Item}
    (hn : n ∈ f.children m) (hp : f.item? m = some p) :
    ∃ i, f.item? n = some i ∧ fits (some p) i := by
  obtain ⟨i, owner, hi, howner, hfit⟩ := h.of_mem hn
  rw [ownerAt, hp, Option.map_some, Option.some.injEq] at howner
  subst howner
  exact ⟨i, hi, hfit⟩

end Order

/-! ## What stays -/

/-- Every item is still there as it was. -/
def Keeps (f g : Forest) : Prop := ∀ n i, f.item? n = some i → g.item? n = some i

/-- Every item is still there as it was and where it was, and what is new at a place stands behind
the others. -/
structure Grows (f g : Forest) : Prop where
  keeps : f.Keeps g
  holder : ∀ n place, f.holder? n = some place → g.holder? n = some place
  members : ∀ place, f.members place <+: g.members place

theorem Keeps.refl (f : Forest) : f.Keeps f := fun _ _ h => h

theorem Keeps.trans {f g h : Forest} (hfg : f.Keeps g) (hgh : g.Keeps h) : f.Keeps h :=
  fun n i hi => hgh n i (hfg n i hi)

theorem Keeps.size_le {f g : Forest} (h : f.Keeps g) : f.nodes.size ≤ g.nodes.size := by
  by_contra hlt
  obtain ⟨i, hi⟩ := exists_item? (Nat.lt_of_not_le hlt)
  exact Nat.lt_irrefl _ (lt_size_of_item? (h _ i hi))

theorem Keeps.item?_of_lt {f g : Forest} (h : f.Keeps g) {n : ItemNo} (hn : n < f.nodes.size)
    {i : Item} (hi : g.item? n = some i) : f.item? n = some i := by
  obtain ⟨j, hj⟩ := exists_item? hn
  rw [hj, ← h n j hj, hi]

theorem Keeps.ownerAt {f g : Forest} (h : f.Keeps g) {place : Place} {owner : Option Item}
    (howner : f.ownerAt place = some owner) : g.ownerAt place = some owner := by
  cases place with
  | top => exact howner
  | under n =>
      obtain ⟨i, hi, rfl⟩ := Option.map_eq_some_iff.mp howner
      rw [Forest.ownerAt, h n i hi]
      rfl
  | loose k => exact howner

theorem keeps_release (f : Forest) (place : Place) (n : ItemNo) : f.Keeps (f.release place n) :=
  fun m i hi => by rw [item?_release, hi]

theorem Grows.refl (f : Forest) : f.Grows f :=
  ⟨Keeps.refl f, fun _ _ h => h, fun _ => List.prefix_rfl⟩

theorem Grows.trans {f g h : Forest} (hfg : f.Grows g) (hgh : g.Grows h) : f.Grows h :=
  ⟨hfg.keeps.trans hgh.keeps, fun n p hp => hgh.holder n p (hfg.holder n p hp),
    fun p => (hfg.members p).trans (hgh.members p)⟩

theorem grows_put {f : Forest} {place : Place} (hplace : f.HasPlace place) (i : Item) :
    f.Grows (f.put place i) where
  keeps := by
    intro n j hj
    rw [item?_put_of_ne i (Nat.ne_of_lt (lt_size_of_item? hj)), hj]
  holder := by
    intro n p hp
    rw [holder?_put, if_neg (Nat.ne_of_lt (lt_size_of_holder? hp)), hp]
  members := by
    intro p
    rw [members_put i hplace]
    split
    · rename_i h
      rw [h]
      exact List.prefix_append _ _
    · exact List.prefix_rfl

end Forest

end TestAtlas
