import TestAtlas.Proofs.Outline.Leaves
import TestAtlas.Proofs.Tree.Fill
import TestAtlas.Tree.Reconcile

/-!
# What a reconciliation does

The leaves of a file item come to have exactly the wanted identifiers: those that are no longer
wanted go, those that stay keep their items, and the missing ones are made.  Nothing else in the
forest changes.  The main statement is `reconcile_spec`, which also says that a reconciliation
never fails on leaves that have a name and the word of a leaf kind.
-/

namespace TestAtlas

/-! ## The item of a leaf -/

namespace Leaf

/-- The item that is made for a leaf at a location. -/
def item (cwd location : String) (leaf : Leaf) : Item :=
  let kind := (Kind.ofWord? leaf.kind).getD .test
  ⟨Id.leaf cwd location kind leaf.name, label leaf.name, location, kind, some leaf.name,
    some leaf.range⟩

variable {leaf : Leaf}

theorem location_item (leaf : Leaf) (cwd location : String) :
    (leaf.item cwd location).location = location :=
  rfl

theorem IsGenuine.isLeaf_item (h : leaf.IsGenuine) (cwd location : String) :
    (leaf.item cwd location).kind.isLeaf = true := by
  obtain ⟨k, hk, hword⟩ := h.kind
  show ((Kind.ofWord? leaf.kind).getD .test).isLeaf = true
  rw [hword, Kind.ofWord?_word]
  exact hk

theorem IsGenuine.ofKind_item (h : leaf.IsGenuine) (cwd location : String) :
    Id.ofKind cwd location (leaf.item cwd location).kind (some leaf.name) =
      .ok (leaf.item cwd location).id :=
  Id.ofKind_of_leaf (h.isLeaf_item cwd location) h.name

theorem IsGenuine.item (h : leaf.IsGenuine) {cwd location : String}
    (hlocation : Path.IsLocation location) : (leaf.item cwd location).IsGenuine cwd where
  location := hlocation
  identified := h.ofKind_item cwd location
  plain := fun hk => by
    rw [h.isLeaf_item cwd location] at hk
    exact absurd hk (by simp)

/-! ## The item of a leaf of any kind -/

/-- The kind is known, and the leaf has a name if its kind needs one. -/
def IsNameable (leaf : Leaf) : Prop :=
  ∃ k, Kind.ofWord? leaf.kind = some k ∧ Id.HasName k (some leaf.name)

/-- The item that is made for a leaf whose kind may be any.  The name is kept where it counts. -/
def entry (cwd location : String) (leaf : Leaf) : Item :=
  let kind := (Kind.ofWord? leaf.kind).getD .test
  ⟨if kind.isLeaf then Id.leaf cwd location kind leaf.name else Id.container cwd location kind,
    label leaf.name, location, kind, if kind.isLeaf then some leaf.name else none, some leaf.range⟩

theorem name_entry_of_not_leaf {cwd location : String}
    (h : (leaf.entry cwd location).kind.isLeaf = false) :
    (leaf.entry cwd location).name = none := by
  show (if (leaf.entry cwd location).kind.isLeaf then some leaf.name else none) = none
  rw [h]
  rfl

theorem IsNameable.ofKind_entry (h : leaf.IsNameable) (cwd location : String) :
    Id.ofKind cwd location (leaf.entry cwd location).kind (leaf.entry cwd location).name =
      .ok (leaf.entry cwd location).id := by
  obtain ⟨k, hk, hname⟩ := h
  cases hleaf : k.isLeaf with
  | false => simp [entry, hk, hleaf]
  | true =>
      obtain ⟨name, heq, hne⟩ := hname hleaf
      rw [← Option.some.inj heq] at hne
      simp [entry, hk, hleaf, Id.ofKind, hne]

theorem IsNameable.build_entry (h : leaf.IsNameable) (cwd location : String) :
    Id.build cwd location leaf.kind (some leaf.name) = .ok (leaf.entry cwd location).id := by
  rw [← h.ofKind_entry cwd location]
  obtain ⟨k, hk, -⟩ := h
  have hkind : (leaf.entry cwd location).kind = k := by
    show (Kind.ofWord? leaf.kind).getD .test = k
    rw [hk]
    rfl
  rw [Id.build, hk]
  show Id.ofKind cwd location k (some leaf.name) = _
  rw [hkind]
  apply Id.ofKind_congr rfl
  intro hleaf
  show some leaf.name = if (leaf.entry cwd location).kind.isLeaf then some leaf.name else none
  rw [hkind, if_pos hleaf]

theorem IsGenuine.isNameable (h : leaf.IsGenuine) : leaf.IsNameable := by
  obtain ⟨k, -, hword⟩ := h.kind
  exact ⟨k, by rw [hword, Kind.ofWord?_word], fun _ => ⟨leaf.name, rfl, h.name⟩⟩

theorem IsGenuine.entry_eq_item (h : leaf.IsGenuine) (cwd location : String) :
    leaf.entry cwd location = leaf.item cwd location := by
  have hleaf : ((Kind.ofWord? leaf.kind).getD .test).isLeaf = true := h.isLeaf_item cwd location
  simp only [entry, Leaf.item, hleaf, if_true]

theorem IsGenuine.build_item (h : leaf.IsGenuine) (cwd location : String) :
    Id.build cwd location leaf.kind (some leaf.name) = .ok (leaf.item cwd location).id := by
  rw [h.isNameable.build_entry, h.entry_eq_item]

end Leaf

namespace Forest

/-- An item that has the identifier of its location, kind and name is made from it, but for its
range. -/
theorem create_of_ofKind {cwd : String} {i : Item}
    (hid : Id.ofKind cwd i.location i.kind i.name = .ok i.id)
    (hplain : i.kind.isLeaf = false → i.name = none) (f : Forest) :
    f.create i.id i.label i.location = .ok (f.push { i with range := none }) := by
  have hparse := Id.parse_of_ofKind hid
  have hname : (if i.kind.isLeaf then i.name else none) = i.name := by
    split
    · rfl
    · rename_i hk
      exact (hplain (by simpa using hk)).symm
  rw [hname] at hparse
  rw [create, hparse]

theorem setRange_push (f : Forest) (i : Item) (range : SourceRange) :
    (f.push i).2.setRange f.nodes.size range = (f.push { i with range := some range }).2 := by
  have hnodes : (f.nodes.push ⟨i, none, []⟩).modify f.nodes.size
      (fun node => { node with item := { node.item with range := some range } }) =
        f.nodes.push ⟨{ i with range := some range }, none, []⟩ := by
    apply Array.ext
    · simp
    · intro n hn hn'
      rw [Array.getElem_modify, Array.getElem_push, Array.getElem_push]
      by_cases hlt : n < f.nodes.size
      · rw [if_neg (Nat.ne_of_gt hlt), dif_pos hlt, dif_pos hlt]
      · have heq : f.nodes.size = n := by
          simp at hn'
          omega
        rw [if_pos heq, dif_neg hlt, dif_neg hlt]
  simp only [push, setRange, hnodes]

variable {cwd : String} {good : Item → Prop} {fits : Option Item → Item → Prop} {f : Forest}

/-! ## Wanted leaves -/

/-- The identifiers that the leaves of a file are to have, each once, in order. -/
def wantedOf (cwd location : String) (leaves : List Leaf) : List (String × Leaf) :=
  firstById [] (leaves.map fun leaf => ((leaf.item cwd location).id, leaf))

/-- The wanted leaves with their identifiers, of those with one identifier the first. -/
def entriesOf (cwd location : String) (leaves : List Leaf) : List (String × Leaf) :=
  firstById [] (leaves.map fun leaf => ((leaf.entry cwd location).id, leaf))

theorem entriesOf_eq_wantedOf {leaves : List Leaf} (h : ∀ leaf ∈ leaves, leaf.IsGenuine)
    (cwd location : String) : entriesOf cwd location leaves = wantedOf cwd location leaves := by
  have hpairs : leaves.map (fun leaf => ((leaf.entry cwd location).id, leaf)) =
      leaves.map fun leaf => ((leaf.item cwd location).id, leaf) := by
    apply List.map_congr_left
    intro leaf hleaf
    rw [(h leaf hleaf).entry_eq_item]
  rw [entriesOf, hpairs, wantedOf]

theorem wantedIds_eq {leaves : List Leaf} (h : ∀ leaf ∈ leaves, leaf.IsNameable)
    (cwd location : String) :
    wantedIds cwd location leaves =
      .ok (leaves.map fun leaf => ((leaf.entry cwd location).id, leaf)) := by
  induction leaves with
  | nil => rfl
  | cons leaf rest ih =>
      have hbuild := (h leaf (by simp)).build_entry cwd location
      have hrest := ih fun l hl => h l (by simp [hl])
      rw [wantedIds, hbuild]
      simp only [hrest, List.map_cons]

theorem of_mem_firstById {seen : List String} {ws : List (String × Leaf)} {w : String × Leaf}
    (h : w ∈ firstById seen ws) : w.1 ∉ seen ∧ w ∈ ws := by
  induction ws generalizing seen with
  | nil => exact absurd h (by simp [firstById])
  | cons first rest ih =>
      rw [firstById] at h
      split at h
      · obtain ⟨hseen, hmem⟩ := ih h
        exact ⟨hseen, List.mem_cons_of_mem _ hmem⟩
      · rename_i hfirst
        rcases List.mem_cons.mp h with rfl | h
        · exact ⟨by simpa using hfirst, List.mem_cons_self⟩
        · obtain ⟨hseen, hmem⟩ := ih h
          exact ⟨fun hs => hseen (List.mem_cons_of_mem _ hs), List.mem_cons_of_mem _ hmem⟩

theorem nodup_firstById (seen : List String) (ws : List (String × Leaf)) :
    ((firstById seen ws).map Prod.fst).Nodup := by
  induction ws generalizing seen with
  | nil => exact List.nodup_nil
  | cons first rest ih =>
      rw [firstById]
      split
      · exact ih seen
      · rw [List.map_cons, List.nodup_cons]
        refine ⟨?_, ih _⟩
        intro hmem
        obtain ⟨w, hw, heq⟩ := List.mem_map.mp hmem
        exact (of_mem_firstById hw).1 (heq ▸ List.mem_cons_self)

theorem mem_map_firstById {seen : List String} {ws : List (String × Leaf)} {id : String}
    (hseen : id ∉ seen) (h : id ∈ ws.map Prod.fst) : id ∈ (firstById seen ws).map Prod.fst := by
  induction ws generalizing seen with
  | nil => exact absurd h (by simp)
  | cons first rest ih =>
      rw [List.map_cons, List.mem_cons] at h
      rw [firstById]
      split
      · rename_i hfirst
        rcases h with rfl | h
        · exact absurd (by simpa using hfirst) hseen
        · exact ih hseen h
      · rw [List.map_cons, List.mem_cons]
        by_cases heq : id = first.1
        · exact Or.inl heq
        · refine Or.inr (ih ?_ (h.resolve_left heq))
          rw [List.mem_cons, not_or]
          exact ⟨heq, hseen⟩

/-- What is wanted are the identifiers that the leaves have. -/
theorem mem_wantedOf_iff {leaves : List Leaf} (h : ∀ leaf ∈ leaves, leaf.IsGenuine)
    (cwd location id : String) :
    id ∈ (wantedOf cwd location leaves).map Prod.fst ↔
      ∃ leaf ∈ leaves, Id.build cwd location leaf.kind (some leaf.name) = .ok id := by
  constructor
  · intro hid
    obtain ⟨w, hw, rfl⟩ := List.mem_map.mp hid
    obtain ⟨leaf, hleaf, rfl⟩ := List.mem_map.mp (of_mem_firstById hw).2
    exact ⟨leaf, hleaf, (h leaf hleaf).build_item cwd location⟩
  · rintro ⟨leaf, hleaf, hid⟩
    rw [(h leaf hleaf).build_item cwd location, Except.ok.injEq] at hid
    apply mem_map_firstById (by simp)
    rw [List.map_map, List.mem_map]
    exact ⟨leaf, hleaf, hid⟩

theorem of_mem_entriesOf {cwd location : String} {leaves : List Leaf} {w : String × Leaf}
    (h : w ∈ entriesOf cwd location leaves) :
    w.2 ∈ leaves ∧ w.1 = (w.2.entry cwd location).id := by
  obtain ⟨leaf, hleaf, rfl⟩ := List.mem_map.mp (of_mem_firstById h).2
  exact ⟨hleaf, rfl⟩

/-! ## Making leaves -/

theorem addLeaf_eq (h : f.IsConsistent) {file : ItemNo} {location : String} {leaf : Leaf}
    (hleaf : leaf.IsNameable) (hfree : f.find? (.under file) (leaf.entry cwd location).id = none) :
    f.addLeaf file location (leaf.entry cwd location).id leaf =
      .ok (f.put (.under file) (leaf.entry cwd location)) := by
  have hcreate := create_of_ofKind (i := leaf.entry cwd location) (hleaf.ofKind_entry cwd location)
    Leaf.name_entry_of_not_leaf f
  have hadd := add_push h hfree
  change f.create (leaf.entry cwd location).id (Leaf.label leaf.name) location = _ at hcreate
  rw [addLeaf, hcreate]
  show ((f.push _).2.setRange f.nodes.size leaf.range).add f.nodes.size (.under file) = _
  rw [setRange_push]
  exact hadd

/-- The leaves are put in one after another. -/
theorem addLeaves_eq (h : f.IsConsistent) {file : ItemNo} (hplace : f.HasPlace (.under file))
    {location : String} {ws : List (String × Leaf)}
    (hws : ∀ w ∈ ws, w.2.IsNameable ∧ w.1 = (w.2.entry cwd location).id)
    (hfree : ∀ i ∈ ws.map fun w => w.2.entry cwd location, i.id ∉ f.ids (.under file))
    (hnodup : ((ws.map fun w => w.2.entry cwd location).map Item.id).Nodup) :
    f.addLeaves file location ws =
      .ok (f.putAll (.under file) (ws.map fun w => w.2.entry cwd location)) := by
  induction ws generalizing f with
  | nil => rfl
  | cons w rest ih =>
      obtain ⟨id, leaf⟩ := w
      obtain ⟨hleaf, hid⟩ := hws (id, leaf) (by simp)
      simp only at hleaf hid
      subst hid
      have hnone := (f.find?_eq_none_iff_not_mem_ids (.under file) _).mpr
        (hfree (leaf.entry cwd location) List.mem_cons_self)
      rw [addLeaves, addLeaf_eq h hleaf hnone]
      exact ih (h.put hplace hnone) (hasPlace_put hplace _ _) (fun w hw => hws w (by simp [hw]))
        (not_mem_ids_put h hplace hfree hnodup) hnodup.of_cons

/-! ## Both together -/

/-- The children of an item were brought into line with the wanted identifiers, and nothing else
was changed. -/
structure IsReconciled (f g : Forest) (n : ItemNo) (wanted : List String) (r : Reconciliation) :
    Prop where
  keeps : f.Keeps g
  frame : ∀ place, place ≠ .under n → g.members place = f.members place
  children : ∃ new, g.children n =
    (f.children n).filter (fun m => (f.idOf? m).any (· ∈ wanted)) ++ new ∧
      ∀ m ∈ new, f.nodes.size ≤ m
  ids : g.ids (.under n) = (f.ids (.under n)).filter (· ∈ wanted) ++
    wanted.filter (· ∉ f.ids (.under n))
  added : r.added = wanted.filter (· ∉ f.ids (.under n))
  removed : r.removed = (f.ids (.under n)).filter (· ∉ wanted)

/-- Afterwards the identifiers are those that are wanted. -/
theorem IsReconciled.mem_ids_iff {f g : Forest} {n : ItemNo} {wanted : List String}
    {r : Reconciliation} (h : IsReconciled f g n wanted r) (id : String) :
    id ∈ g.ids (.under n) ↔ id ∈ wanted := by
  rw [h.ids, List.mem_append, List.mem_filter, List.mem_filter, decide_eq_true_eq,
    decide_eq_true_eq]
  constructor
  · rintro (⟨-, hwanted⟩ | ⟨hwanted, -⟩)
    · exact hwanted
    · exact hwanted
  · intro hwanted
    by_cases hthere : id ∈ f.ids (.under n)
    · exact Or.inl ⟨hthere, hwanted⟩
    · exact Or.inr ⟨hwanted, hthere⟩

section Reconcile

variable {n : ItemNo} {wanted : List (String × Leaf)}

/-- The identifiers at a file item that are no longer wanted. -/
def unwanted (f : Forest) (n : ItemNo) (wanted : List (String × Leaf)) : List String :=
  (f.ids (.under n)).filter (· ∉ wanted.map Prod.fst)

/-- The wanted leaves that a file item does not have. -/
def missing (f : Forest) (n : ItemNo) (wanted : List (String × Leaf)) : List (String × Leaf) :=
  wanted.filter fun w => w.1 ∉ f.ids (.under n)

theorem ids_deleteAll_unwanted (h : f.IsConsistent) (n : ItemNo)
    (wanted : List (String × Leaf)) :
    (f.deleteAll (.under n) (f.unwanted n wanted)).ids (.under n) =
      (f.ids (.under n)).filter (· ∈ wanted.map Prod.fst) := by
  rw [ids_deleteAll h]
  apply List.filter_congr
  intro id hid
  rw [decide_eq_decide, unwanted, List.mem_filter, decide_eq_true_eq, not_and, not_not]
  exact ⟨fun himp => himp hid, fun hmem _ => hmem⟩

theorem missing_deleteAll (h : f.IsConsistent) (n : ItemNo)
    (wanted : List (String × Leaf)) :
    (f.deleteAll (.under n) (f.unwanted n wanted)).missing n wanted = f.missing n wanted := by
  apply List.filter_congr
  intro w hw
  have hwanted : w.1 ∈ wanted.map Prod.fst := List.mem_map.mpr ⟨w, hw, rfl⟩
  rw [decide_eq_decide, ids_deleteAll_unwanted h, List.mem_filter, decide_eq_true_eq]
  exact not_congr (and_iff_left hwanted)

theorem map_fst_missing (f : Forest) (n : ItemNo) (wanted : List (String × Leaf)) :
    (f.missing n wanted).map Prod.fst =
      (wanted.map Prod.fst).filter (· ∉ f.ids (.under n)) := by
  rw [missing, List.filter_map]
  rfl

theorem members_deleteAll_unwanted (h : f.IsConsistent) (n : ItemNo)
    (wanted : List (String × Leaf)) :
    (f.deleteAll (.under n) (f.unwanted n wanted)).children n =
      (f.children n).filter fun m => (f.idOf? m).any (· ∈ wanted.map Prod.fst) := by
  rw [children, members_deleteAll h]
  apply List.filter_congr
  intro m hm
  -- a child has an identifier, so it stays exactly if that is wanted
  obtain ⟨j, hj⟩ := exists_item? (lt_size_of_mem h hm)
  have hid : f.idOf? m = some j.id := by rw [idOf?, hj]; rfl
  have hmem : j.id ∈ f.ids (.under n) := mem_ids.mpr ⟨m, hm, hid⟩
  rw [hid, Option.any_some, decide_eq_decide]
  constructor
  · intro hne
    by_contra hunwanted
    exact hne j.id (List.mem_filter.mpr ⟨hmem, decide_eq_true hunwanted⟩) rfl
  · intro hwanted id hid heq
    rw [← Option.some.inj heq] at hid
    exact of_decide_eq_true (List.mem_filter.mp hid).2 hwanted

/-- The items that are made for the wanted leaves that a file item does not have. -/
def newEntries (cwd location : String) (f : Forest) (n : ItemNo) (wanted : List (String × Leaf)) :
    List Item :=
  (f.missing n wanted).map fun w => w.2.entry cwd location

theorem map_id_newEntries {location : String} {f : Forest}
    (h : ∀ w ∈ wanted, w.1 = (w.2.entry cwd location).id) :
    (newEntries cwd location f n wanted).map Item.id = (f.missing n wanted).map Prod.fst := by
  rw [newEntries, List.map_map]
  apply List.map_congr_left
  intro w hw
  exact (h w (List.mem_of_mem_filter hw)).symm

/-- The identifiers of the new items are distinct, and no child that stays has one of them. -/
theorem newEntries_free (h : f.IsConsistent) {location : String} (hnodup : (wanted.map Prod.fst).Nodup)
    (hwanted : ∀ w ∈ wanted, w.1 = (w.2.entry cwd location).id) :
    (∀ i ∈ newEntries cwd location f n wanted,
      i.id ∉ (f.deleteAll (.under n) (f.unwanted n wanted)).ids (.under n)) ∧
      ((newEntries cwd location f n wanted).map Item.id).Nodup := by
  have hids := map_id_newEntries (n := n) (f := f) hwanted
  refine ⟨?_, ?_⟩
  · intro i hi
    have hmem : i.id ∈ (f.missing n wanted).map Prod.fst := by
      rw [← hids]
      exact List.mem_map_of_mem hi
    rw [map_fst_missing, List.mem_filter, decide_eq_true_eq] at hmem
    rw [ids_deleteAll_unwanted h, List.mem_filter]
    exact fun hthere => hmem.2 hthere.1
  · rw [hids]
    exact (List.filter_sublist.map Prod.fst).nodup hnodup

/-- A reconciliation takes out what is not wanted and then puts in what is missing. -/
theorem reconcile_eq (h : f.IsConsistent) {cwd : String} {leaves : List Leaf} {i : Item}
    (hi : f.item? n = some i) (hleaves : ∀ leaf ∈ leaves, leaf.IsNameable)
    (hwanted : entriesOf cwd i.location leaves = wanted) :
    f.reconcile cwd n leaves =
      .ok (⟨(f.missing n wanted).map Prod.fst, f.unwanted n wanted⟩,
        (f.deleteAll (.under n) (f.unwanted n wanted)).putAll (.under n)
          (newEntries cwd i.location f n wanted)) := by
  -- the tests in the code are on lists of pairs, those here are memberships
  have hremoved : ∀ ws : List (String × Leaf),
      (f.ids (.under n)).filter (fun id => !ws.any fun w => w.1 == id) = f.unwanted n ws := by
    intro ws
    apply List.filter_congr
    intro id _
    rw [Bool.eq_iff_iff]
    simp only [Bool.not_eq_true', List.any_eq_false, beq_iff_eq, decide_eq_true_eq,
      List.mem_map, not_exists, not_and]
  have hmissing : ∀ (g : Forest) (ws : List (String × Leaf)),
      ws.filter (fun w => (g.find? (.under n) w.1).isNone) = g.missing n ws := by
    intro g ws
    apply List.filter_congr
    intro w _
    rw [Bool.eq_iff_iff, Option.isNone_iff_eq_none, find?_eq_none_iff_not_mem_ids,
      decide_eq_true_eq]
  have hof : ∀ w ∈ wanted, w.2 ∈ leaves ∧ w.1 = (w.2.entry cwd i.location).id := by
    rw [← hwanted]
    exact fun w hw => of_mem_entriesOf hw
  have hnodup : (wanted.map Prod.fst).Nodup := by
    rw [← hwanted]
    exact nodup_firstById _ _
  have hfirst : firstById [] (leaves.map fun leaf => ((leaf.entry cwd i.location).id, leaf)) =
      wanted := hwanted
  obtain ⟨hfree, hdistinct⟩ := newEntries_free (n := n) h hnodup fun w hw => (hof w hw).2
  -- the forest after what is not wanted was taken out
  generalize hcut : f.deleteAll (.under n) (f.unwanted n wanted) = g at hfree ⊢
  have hg : g.IsConsistent := hcut ▸ h.deleteAll _ _
  have hplace : g.HasPlace (.under n) := by
    show n < g.nodes.size
    rw [← hcut, size_deleteAll]
    exact lt_size_of_item? hi
  have hsame : g.missing n wanted = f.missing n wanted := hcut ▸ missing_deleteAll h n wanted
  have hadd : g.addLeaves n i.location (f.missing n wanted) =
      .ok (g.putAll (.under n) (newEntries cwd i.location f n wanted)) := by
    refine addLeaves_eq hg hplace ?_ hfree hdistinct
    intro w hw
    obtain ⟨hmem, hid⟩ := hof w (List.mem_of_mem_filter hw)
    exact ⟨hleaves _ hmem, hid⟩
  have hdelete : (f.unwanted n wanted).foldl (fun f id => (f.delete (.under n) id).2) f = g := hcut
  unfold reconcile
  simp only [hi, Option.map_some, Option.getD_some, wantedIds_eq hleaves, hfirst, hremoved, hdelete,
    hmissing, hsame, hadd]

/-- Bringing the leaves of a file item into line succeeds and keeps the forest arranged. -/
theorem reconcile_spec (h : f.IsArranged good fits) {i : Item} (hi : f.item? n = some i)
    {leaves : List Leaf} (hleaves : ∀ leaf ∈ leaves, leaf.IsGenuine)
    (hgood : ∀ leaf ∈ leaves, good (leaf.item cwd i.location))
    (hfits : ∀ leaf ∈ leaves, fits (some i) (leaf.item cwd i.location)) :
    ∃ r g, f.reconcile cwd n leaves = .ok (r, g) ∧ g.IsArranged good fits ∧
      IsReconciled f g n ((wantedOf cwd i.location leaves).map Prod.fst) r := by
  rw [← entriesOf_eq_wantedOf hleaves]
  generalize hwanted : entriesOf cwd i.location leaves = wanted
  have hof : ∀ w ∈ wanted, w.2 ∈ leaves ∧ w.1 = (w.2.entry cwd i.location).id := by
    rw [← hwanted]
    exact fun w hw => of_mem_entriesOf hw
  have hnodup : (wanted.map Prod.fst).Nodup := by
    rw [← hwanted]
    exact nodup_firstById _ _
  obtain ⟨hfree, hdistinct⟩ := newEntries_free (n := n) h.consistent hnodup fun w hw => (hof w hw).2
  have hids := map_id_newEntries (n := n) (f := f) fun w hw => (hof w hw).2
  -- the new items are good and fit, as those of leaves do
  have hnew : ∀ j ∈ newEntries cwd i.location f n wanted, good j ∧ fits (some i) j := by
    intro j hj
    obtain ⟨w, hw, rfl⟩ := List.mem_map.mp hj
    have hleaf := (hof w (List.mem_of_mem_filter hw)).1
    rw [(hleaves _ hleaf).entry_eq_item]
    exact ⟨hgood _ hleaf, hfits _ hleaf⟩
  refine ⟨_, _, reconcile_eq h.consistent hi (fun l hl => (hleaves l hl).isNameable) hwanted, ?_⟩
  -- the forest after what is not wanted was taken out
  generalize hcut : f.deleteAll (.under n) (f.unwanted n wanted) = g at hfree
  have hg : g.IsArranged good fits := hcut ▸ h.deleteAll _ _
  have hitem : ∀ m, g.item? m = f.item? m := fun m => hcut ▸ item?_deleteAll _ m
  have howner : g.ownerAt (.under n) = some (some i) := ownerAt_under ((hitem n).trans hi)
  have hplace := hasPlace_of_ownerAt howner
  refine ⟨hg.putAll howner (fun j hj => (hnew j hj).1) (fun j hj => (hnew j hj).2) hfree hdistinct,
    ?_⟩
  constructor
  · intro m j hj
    exact (grows_putAll hplace _).keeps m j ((hitem m).trans hj)
  · intro place hne
    rw [members_putAll_of_ne hplace hne, ← hcut, members_deleteAll_of_ne h.consistent _ hne]
  · refine ⟨List.range' g.nodes.size (newEntries cwd i.location f n wanted).length, ?_, ?_⟩
    · rw [children, members_putAll hplace, ← members_deleteAll_unwanted h.consistent, hcut]
      rfl
    · intro m hm
      rw [← size_deleteAll f (.under n) (f.unwanted n wanted), hcut]
      exact (List.mem_range'_1.mp hm).1
  · rw [ids_putAll hg.consistent hplace hfree hdistinct, hids, map_fst_missing, ← hcut,
      ids_deleteAll_unwanted h.consistent]
  · exact map_fst_missing f n wanted
  · rfl

end Reconcile

end Forest

end TestAtlas
