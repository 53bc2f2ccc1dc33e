import TestAtlas.Proofs.Tree.Reach

/-!
# Every item has one holder

Items and loose collections are made, and items are added to places and taken out of them, in any
order.  As long as no item is added below itself, each item is held in at most one place and knows
that place, each place holds its items in the order in which they came and under different
identifiers, and the search upwards from an item finds the top exactly when the walk down from the
top comes by the item.  The main statement is `isOwned_applyAll`.
-/

namespace TestAtlas.Forest

/-! ## Edits -/

/-- What is done to a forest from outside. -/
inductive Edit where
  | create (id label location : String)
  | newCollection
  | add (n : ItemNo) (place : Place)
  | delete (place : Place) (id : String)

/-- An item came to a place, or it was taken out of one. -/
inductive Deed where
  | put (place : Place) (n : ItemNo)
  | taken (place : Place) (n : ItemNo)
  deriving DecidableEq

/-- The items at or below an item. -/
inductive AtOrBelow (f : Forest) (n : ItemNo) : ItemNo → Prop
  | self : AtOrBelow f n n
  | child {m k : ItemNo} : AtOrBelow f n m → k ∈ f.children m → AtOrBelow f n k

theorem AtOrBelow.eq_of_childless {f : Forest} {n m : ItemNo} (h : f.AtOrBelow n m)
    (hn : f.children n = []) : m = n := by
  induction h with
  | self => rfl
  | child _ hk ih =>
      rw [ih, hn] at hk
      exact absurd hk List.not_mem_nil

namespace Edit

/-- The forest after an edit.  What is refused changes nothing. -/
def apply (f : Forest) : Edit → Forest
  | create id label location =>
    match f.create id label location with
    | .ok (_, g) => g
    | .error _ => f
  | newCollection => f.newCollection.2
  | add n place =>
    match f.add n place with
    | .ok g => g
    | .error _ => f
  | delete place id => (f.delete place id).2

/-- What an edit does to a place, if it does anything. -/
def deed? (f : Forest) : Edit → Option Deed
  | create _ _ _ => none
  | newCollection => none
  | add n place =>
    match f.add n place with
    | .ok _ => if n ∈ f.members place then none else some (.put place n)
    | .error _ => none
  | delete place id => (f.delete place id).1.map (.taken place)

/-- The edit is about items and places that there are, and no item comes below itself. -/
def IsProper (f : Forest) : Edit → Prop
  | create _ _ _ => True
  | newCollection => True
  | add n place => n < f.nodes.size ∧ f.HasPlace place ∧
      ∀ m g, place = .under m → f.add n place = .ok g → ¬ f.AtOrBelow n m
  | delete place _ => f.HasPlace place

/-- Where no item owns the place, nothing can come below itself. -/
theorem IsProper.of_ownerless {f : Forest} {n : ItemNo} {place : Place}
    (h : n < f.nodes.size ∧ f.HasPlace place) (howner : place.owner = none) :
    (add n place).IsProper f := by
  refine ⟨h.1, h.2, fun m g hm => ?_⟩
  rw [hm] at howner
  exact absurd howner (by simp [Place.owner])

/-- The forest after several edits. -/
def applyAll (f : Forest) (edits : List Edit) : Forest := edits.foldl apply f

/-- What several edits do to the places, in order. -/
def deeds (f : Forest) : List Edit → List Deed
  | [] => []
  | e :: es => (e.deed? f).toList ++ deeds (e.apply f) es

/-- Each edit is proper when its turn comes. -/
def AllProper (f : Forest) : List Edit → Prop
  | [] => True
  | e :: es => e.IsProper f ∧ AllProper (e.apply f) es

end Edit

/-- The items that came to a place and were not taken out of it later, in the order in which they
came. -/
def surviving (place : Place) : List Deed → List ItemNo
  | [] => []
  | .put p n :: later =>
    if p = place ∧ .taken place n ∉ later then n :: surviving place later
    else surviving place later
  | .taken _ _ :: later => surviving place later

theorem surviving_put (place p : Place) (n : ItemNo) (log : List Deed) :
    surviving place (log ++ [.put p n]) =
      surviving place log ++ if p = place then [n] else [] := by
  induction log with
  | nil => by_cases h : p = place <;> simp [surviving, h]
  | cons deed log ih =>
      cases deed with
      | put q m =>
          simp only [List.cons_append, surviving, ih, List.mem_append, List.mem_singleton,
            reduceCtorEq, or_false]
          split <;> rfl
      | taken q m => simpa only [List.cons_append, surviving] using ih

theorem surviving_taken (place p : Place) (n : ItemNo) (log : List Deed) :
    surviving place (log ++ [.taken p n]) =
      if place = p then (surviving place log).filter (· ≠ n) else surviving place log := by
  induction log with
  | nil => simp [surviving]
  | cons deed log ih =>
      cases deed with
      | put q m =>
          simp only [List.cons_append, surviving, ih, List.mem_append, List.mem_singleton,
            Deed.taken.injEq, not_or, not_and]
          by_cases hp : place = p
          · subst hp
            by_cases hm : m = n <;> by_cases hq : q = place <;>
              by_cases hlater : Deed.taken place m ∈ log <;> simp_all
          · simp [hp]
      | taken q m => simpa only [List.cons_append, surviving] using ih

/-! ## Consistency and ranks -/

/-- An edit that makes something holds nothing anywhere. -/
theorem members_newCollection (f : Forest) (p : Place) :
    f.newCollection.2.members p = f.members p := by
  cases p with
  | top => rfl
  | under n => rfl
  | loose k =>
      simp only [newCollection, members, Array.getElem?_push]
      split
      · rename_i h
        subst h
        simp
      · rfl

theorem IsConsistent.newCollection {f : Forest} (h : f.IsConsistent) :
    f.newCollection.2.IsConsistent where
  holds := fun p n => by
    rw [members_newCollection]
    exact h.holds p n
  nodup := fun p => by
    rw [members_newCollection]
    exact h.nodup p
  distinct := fun p m n hm hn hid => by
    rw [members_newCollection] at hm hn
    exact h.distinct p m n hm hn hid

/-- A rank stays good when no place gains an item. -/
theorem IsRanked.of_subset {f g : Forest} {rank : ItemNo → Nat} (hrank : f.IsRanked rank)
    (h : ∀ m, g.children m ⊆ f.children m) : g.IsRanked rank :=
  fun m n hn => hrank m n (h m hn)

/-- An item that is held nowhere may be put below an item that is not below it: it rises above its
new holder together with all that is below it. -/
theorem IsRanked.hold {f : Forest} (h : f.IsConsistent) {rank : ItemNo → Nat}
    (hrank : f.IsRanked rank) {place : Place} (hplace : f.HasPlace place) {n : ItemNo}
    (hloose : f.holder? n = none) (hproper : ∀ m, place = .under m → ¬ f.AtOrBelow n m) :
    ∃ rank', (f.hold place n).IsRanked rank' := by
  classical
  have hchildren : ∀ m k, k ∈ (f.hold place n).children m →
      k ∈ f.children m ∨ place = .under m ∧ k = n := by
    intro m k hk
    rw [children, members_hold hplace] at hk
    split at hk
    · rename_i hm
      subst hm
      rcases List.mem_append.mp hk with hk | hk
      · exact Or.inl hk
      · exact Or.inr ⟨rfl, List.mem_singleton.mp hk⟩
    · exact Or.inl hk
  -- all that is at or below the item is lifted above its new holder
  obtain ⟨lift, hlift⟩ : ∃ lift, ∀ m, place = .under m → rank m < lift := by
    cases place with
    | under m => exact ⟨rank m + 1, fun k hk => Place.under.inj hk ▸ Nat.lt_succ_self _⟩
    | top => exact ⟨0, fun k hk => absurd hk (by simp)⟩
    | loose c => exact ⟨0, fun k hk => absurd hk (by simp)⟩
  refine ⟨fun k => if f.AtOrBelow n k then rank k + lift else rank k, ?_⟩
  intro m k hk
  show (if f.AtOrBelow n m then rank m + lift else rank m) <
    if f.AtOrBelow n k then rank k + lift else rank k
  rcases hchildren m k hk with hold | ⟨hm, rfl⟩
  · have hlt := hrank m k hold
    by_cases hm : f.AtOrBelow n m
    · rw [if_pos hm, if_pos (hm.child hold)]
      exact Nat.add_lt_add_right hlt lift
    · have hk : ¬ f.AtOrBelow n k := by
        intro hbelow
        cases hbelow with
        | self =>
            rw [(h.holds (.under m) n).mp hold] at hloose
            exact absurd hloose (by simp)
        | @child m' _ hm' hmem => exact hm (h.parent_unique hmem hold ▸ hm')
      rwa [if_neg hm, if_neg hk]
  · rw [if_neg (hproper m hm), if_pos .self]
    exact Nat.lt_add_left _ (hlift m hm)

/-- What holds after any edits: the places and the items agree, no item is below itself, and the
places hold what came and was not taken out again. -/
structure IsKept (log : List Deed) (f : Forest) : Prop where
  consistent : f.IsConsistent
  ranked : ∃ rank, f.IsRanked rank
  inserted : ∀ place, f.members place = surviving place log

theorem isKept_empty : IsKept [] .empty where
  consistent := isConsistent_empty
  ranked := ⟨fun _ => 0, fun m n hn => absurd hn (by simp [children, members, empty])⟩
  inserted := fun place => by cases place <;> simp [members, empty, surviving]

section Step

variable {log : List Deed} {f : Forest}

/-- Making something leaves all places as they are. -/
theorem IsKept.of_members {g : Forest} (h : f.IsKept log) (hg : g.IsConsistent)
    (hmembers : ∀ place, g.members place = f.members place) : g.IsKept log where
  consistent := hg
  ranked := by
    obtain ⟨rank, hrank⟩ := h.ranked
    refine ⟨rank, hrank.of_subset fun m => ?_⟩
    rw [children, hmembers]
    exact List.Subset.refl _
  inserted := fun place => by rw [hmembers, h.inserted]

theorem IsKept.hold (h : f.IsKept log) {place : Place} (hplace : f.HasPlace place) {n : ItemNo}
    (hn : n < f.nodes.size) (hproper : ∀ m, place = .under m → ¬ f.AtOrBelow n m)
    (hloose : f.holder? n = none) (hother : ∀ m ∈ f.members place, f.idOf? m ≠ f.idOf? n) :
    (f.hold place n).IsKept (log ++ [.put place n]) where
  consistent := h.consistent.hold hplace hn hloose hother
  ranked := by
    obtain ⟨rank, hrank⟩ := h.ranked
    exact hrank.hold h.consistent hplace hloose hproper
  inserted := by
    intro p
    rw [members_hold hplace, surviving_put, ← h.inserted]
    by_cases hp : p = place
    · simp [hp]
    · simp [hp, Ne.symm hp]

theorem IsKept.release (h : f.IsKept log) {place : Place} {n : ItemNo}
    (hn : n ∈ f.members place) : (f.release place n).IsKept (log ++ [.taken place n]) where
  consistent := h.consistent.release hn
  ranked := by
    obtain ⟨rank, hrank⟩ := h.ranked
    exact ⟨rank, hrank.of_subset fun m k hk => (mem_release.mp hk).1⟩
  inserted := by
    intro p
    rw [members_release, surviving_taken, ← h.inserted]
    split
    · rename_i hp
      rw [hp]
    · rfl

/-- What comes of adding an item. -/
theorem add_eq {n : ItemNo} {i : Item} (hi : f.item? n = some i) (place : Place) :
    f.add n place =
      match f.find? place i.id with
      | some m => if m = n then .ok f else .error (.duplicateId i.id)
      | none =>
        match f.holder? n with
        | some _ => .error (.alreadyHeld i.id)
        | none => .ok (f.hold place n) := by
  have hid : f.idOf? n = some i.id := by rw [idOf?, hi, Option.map_some]
  rw [add, hid, Option.getD_some]
  rfl

theorem add_of_mem (h : f.IsConsistent) {n : ItemNo} {place : Place}
    (hn : n ∈ f.members place) : f.add n place = .ok f := by
  obtain ⟨i, hi⟩ := exists_item? (lt_size_of_mem h hn)
  have hfind : f.find? place i.id = some n :=
    (find?_eq_some_iff h place i.id n).mpr ⟨hn, by rw [idOf?, hi, Option.map_some]⟩
  simp only [add_eq hi, hfind, if_true]

/-- An item is refused where another one has its identifier, and else where it is held
elsewhere. -/
theorem add_eq_error_iff (h : f.IsConsistent) {n : ItemNo} {i : Item} (hi : f.item? n = some i)
    (place : Place) (e : TreeError) :
    f.add n place = .error e ↔
      e = .duplicateId i.id ∧ (∃ m ∈ f.members place, m ≠ n ∧ f.idOf? m = some i.id) ∨
      e = .alreadyHeld i.id ∧ (∀ m ∈ f.members place, f.idOf? m ≠ some i.id) ∧
        ∃ p, f.holder? n = some p := by
  rw [add_eq hi]
  cases hfind : f.find? place i.id with
  | some m =>
      obtain ⟨hm, hid⟩ := (find?_eq_some_iff h place i.id m).mp hfind
      by_cases hmn : m = n
      · -- the item itself is the one with its identifier
        subst hmn
        simp only [if_true, reduceCtorEq, false_iff, not_or, not_and, not_exists]
        constructor
        · intro _ k hk hne hidk
          exact hne (h.distinct place k m hk hm (hidk.trans hid.symm))
        · intro _ hfree
          exact absurd hid (hfree m hm)
      · simp only [if_neg hmn, Except.error.injEq]
        constructor
        · intro he
          exact Or.inl ⟨he.symm, m, hm, hmn, hid⟩
        · rintro (⟨he, -⟩ | ⟨-, hfree, -⟩)
          · exact he.symm
          · exact absurd hid (hfree m hm)
  | none =>
      have hfree := (f.find?_eq_none_iff place i.id).mp hfind
      have hother : ¬ ∃ m ∈ f.members place, m ≠ n ∧ f.idOf? m = some i.id :=
        fun ⟨m, hm, _, hid⟩ => hfree m hm hid
      cases hheld : f.holder? n with
      | none => simp [hother]
      | some p =>
          simp only [Except.error.injEq, hother, and_false, false_or, Option.some.injEq,
            exists_eq', and_true]
          exact ⟨fun heq => ⟨heq.symm, hfree⟩, fun ⟨heq, _⟩ => heq.symm⟩

/-- An item that is added anew was held nowhere, and nothing there had its identifier. -/
theorem of_add_eq_ok {n : ItemNo} {i : Item} (hi : f.item? n = some i) {place : Place}
    (hnew : n ∉ f.members place) {g : Forest} (hadd : f.add n place = .ok g) :
    f.holder? n = none ∧ (∀ m ∈ f.members place, f.idOf? m ≠ f.idOf? n) ∧ g = f.hold place n := by
  have hid : f.idOf? n = some i.id := by rw [idOf?, hi, Option.map_some]
  rw [add_eq hi] at hadd
  split at hadd
  · rename_i m hfind
    split at hadd
    · rename_i hmn
      exact absurd (hmn ▸ (of_find?_eq_some hfind).1) hnew
    · exact absurd hadd (by simp)
  · rename_i hfind
    split at hadd
    · exact absurd hadd (by simp)
    · rename_i hloose
      exact ⟨hloose, hid ▸ (f.find?_eq_none_iff place i.id).mp hfind, (Except.ok.inj hadd).symm⟩

theorem exists_push_of_create {id label location : String} {n : ItemNo} {g : Forest}
    (h : f.create id label location = .ok (n, g)) : ∃ item, g = (f.push item).2 := by
  unfold create at h
  split at h
  · rw [Except.ok.injEq] at h
    exact ⟨_, (congrArg Prod.snd h).symm⟩
  · exact absurd h (by simp)

/-- Each proper edit keeps what holds. -/
theorem IsKept.edit (h : f.IsKept log) {e : Edit} (he : e.IsProper f) :
    (e.apply f).IsKept (log ++ (e.deed? f).toList) := by
  cases e with
  | create id label location =>
      rw [Edit.deed?, Option.toList_none, List.append_nil, Edit.apply]
      split
      · rename_i n g hg
        obtain ⟨item, rfl⟩ := exists_push_of_create hg
        exact h.of_members (h.consistent.push item) (members_push f item)
      · exact h
  | newCollection =>
      rw [Edit.deed?, Option.toList_none, List.append_nil, Edit.apply]
      exact h.of_members h.consistent.newCollection (members_newCollection f)
  | add n place =>
      obtain ⟨hn, hplace, hproper⟩ := he
      obtain ⟨i, hi⟩ := exists_item? hn
      by_cases hmem : n ∈ f.members place
      · simpa [Edit.apply, Edit.deed?, add_of_mem h.consistent hmem, hmem] using h
      · cases hadd : f.add n place with
        | error err => simpa [Edit.apply, Edit.deed?, hadd] using h
        | ok g =>
            obtain ⟨hloose, hother, rfl⟩ := of_add_eq_ok hi hmem hadd
            simp only [Edit.apply, Edit.deed?, hadd, if_neg hmem, Option.toList_some]
            exact h.hold hplace hn (fun m hm => hproper m _ hm hadd) hloose hother
  | delete place id =>
      rw [Edit.apply, Edit.deed?, delete]
      split
      · rename_i n hfind
        exact h.release (of_find?_eq_some hfind).1
      · simpa using h

theorem IsKept.applyAll (h : f.IsKept log) {edits : List Edit} (hedits : Edit.AllProper f edits) :
    (Edit.applyAll f edits).IsKept (log ++ Edit.deeds f edits) := by
  induction edits generalizing f log with
  | nil => simpa [Edit.applyAll, Edit.deeds] using h
  | cons e edits ih =>
      have hrest := ih (h.edit hedits.1) hedits.2
      rwa [List.append_assoc] at hrest

end Step

/-! ## Ownership -/

/-- Places, items, and what was done to the places tell the same story. -/
structure IsOwned (log : List Deed) (f : Forest) : Prop where
  /-- An item is held in at most one place, and there once. -/
  single : ∀ n p q, n ∈ f.members p → n ∈ f.members q → p = q
  nodup : ∀ p, (f.members p).Nodup
  /-- An item knows the place that holds it, and the item that owns that place. -/
  holder : ∀ n p, f.holder? n = some p ↔ n ∈ f.members p
  parent : ∀ n m, f.parent? n = some m ↔ n ∈ f.children m
  /-- A place holds its items in the order in which they came, by their identifiers. -/
  inserted : ∀ p, f.members p = surviving p log
  keyed : ∀ p, (f.ids p).map some = (f.members p).map f.idOf? ∧ (f.ids p).Nodup
  /-- What is added is refused if another item there has its identifier, and else if it is held
  elsewhere; a refusal changes nothing, and nor does adding what is held there. -/
  refused : ∀ n i place, f.item? n = some i → ∀ e, f.add n place = .error e ↔
    e = .duplicateId i.id ∧ (∃ m ∈ f.members place, m ≠ n ∧ f.idOf? m = some i.id) ∨
    e = .alreadyHeld i.id ∧ (∀ m ∈ f.members place, f.idOf? m ≠ some i.id) ∧
      ∃ p, f.holder? n = some p
  unchanged : ∀ n place e, f.add n place = .error e → (Edit.add n place).apply f = f
  again : ∀ n place, n ∈ f.members place → f.add n place = .ok f
  /-- The search upwards and the walk downwards agree. -/
  attached : ∀ n, f.isAttached n = true ↔ n ∈ f.walk .top

theorem IsConsistent.parent?_eq_some_iff {f : Forest} (h : f.IsConsistent) (n m : ItemNo) :
    f.parent? n = some m ↔ n ∈ f.children m := by
  rw [children, h.holds, parent?, Option.bind_eq_some_iff]
  constructor
  · rintro ⟨p, hp, howner⟩
    cases p with
    | under k => rwa [← Option.some.inj howner]
    | top | loose => exact absurd howner (by simp [Place.owner])
  · intro hheld
    exact ⟨_, hheld, rfl⟩

/-- Items that there are give one identifier each. -/
theorem map_some_filterMap_idOf? {f : Forest} {ns : List ItemNo}
    (hns : ∀ n ∈ ns, n < f.nodes.size) : (ns.filterMap f.idOf?).map some = ns.map f.idOf? := by
  induction ns with
  | nil => rfl
  | cons n ns ih =>
      obtain ⟨i, hi⟩ := exists_item? (hns n List.mem_cons_self)
      have hid : f.idOf? n = some i.id := by rw [idOf?, hi, Option.map_some]
      rw [List.filterMap_cons_some hid, List.map_cons, List.map_cons, hid,
        ih fun m hm => hns m (List.mem_cons_of_mem _ hm)]

theorem IsConsistent.map_some_ids {f : Forest} (h : f.IsConsistent) (p : Place) :
    (f.ids p).map some = (f.members p).map f.idOf? :=
  map_some_filterMap_idOf? fun _ hn => lt_size_of_mem h hn

theorem IsConsistent.nodup_ids {f : Forest} (h : f.IsConsistent) (p : Place) :
    (f.ids p).Nodup := by
  have hmap : ((f.members p).map f.idOf?).Nodup :=
    List.Nodup.map_on (fun m hm n hn heq => h.distinct p m n hm hn heq) (h.nodup p)
  rw [← h.map_some_ids p] at hmap
  exact hmap.of_map _

/-- Whatever edits are made, as long as none adds an item below itself, every item is owned as the
places tell. -/
theorem isOwned_applyAll (edits : List Edit) (h : Edit.AllProper .empty edits) :
    (Edit.applyAll .empty edits).IsOwned (Edit.deeds .empty edits) := by
  have hkept := isKept_empty.applyAll h
  rw [List.nil_append] at hkept
  obtain ⟨rank, hrank⟩ := hkept.ranked
  have hc := hkept.consistent
  exact {
    single := fun n p q => hc.place_unique
    nodup := hc.nodup
    holder := fun n p => (hc.holds p n).symm
    parent := hc.parent?_eq_some_iff
    inserted := hkept.inserted
    keyed := fun p => ⟨hc.map_some_ids p, hc.nodup_ids p⟩
    refused := fun n i place hi e => add_eq_error_iff hc hi place e
    unchanged := fun n place e he => by rw [Edit.apply, he]
    again := fun n place => add_of_mem hc
    attached := fun n => (hrank.isAttached_iff hc n).trans (hrank.mem_walk_top_iff hc n).symm }

/-- A package is put below a folder, refused in a collection, taken out, put into the collection
and added there again. -/
theorem isOwned_moved :
    let edits : List Edit :=
      [.create "file:///w?workspace" "w" "/w", .create "file:///w/p?package" "p" "/w/p",
        .newCollection, .add 0 .top, .add 1 (.under 0), .add 1 (.loose 0),
        .delete (.under 0) "file:///w/p?package", .add 1 (.loose 0), .add 1 (.loose 0)]
    Edit.AllProper .empty edits ∧
      (Edit.applyAll .empty edits).IsOwned (Edit.deeds .empty edits) ∧
      (Edit.applyAll .empty edits).members (.loose 0) = [1] := by
  intro edits
  have hproper : Edit.AllProper .empty edits := by
    refine ⟨trivial, trivial, trivial, .of_ownerless (by decide +kernel) rfl, ?_,
      .of_ownerless (by decide +kernel) rfl, ?_, .of_ownerless (by decide +kernel) rfl,
      .of_ownerless (by decide +kernel) rfl, trivial⟩
    · -- the package has nothing below it yet
      refine ⟨by decide +kernel, by decide +kernel, fun m g hm _ hbelow => ?_⟩
      have h := hbelow.eq_of_childless (by decide +kernel)
      rw [← Place.under.inj hm] at h
      exact absurd h (by decide)
    · show HasPlace _ (.under 0)
      decide +kernel
  exact ⟨hproper, isOwned_applyAll edits hproper, by decide +kernel⟩

end TestAtlas.Forest
