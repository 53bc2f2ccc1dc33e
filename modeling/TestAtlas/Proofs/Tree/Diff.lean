import TestAtlas.Proofs.Tree.Reconciliation

/-!
# A reconciliation is the least ordered change

Whatever a file item holds and whatever leaves it is to have, a reconciliation is refused exactly
if a leaf has no identifier.  Otherwise the children that are still wanted stay, in their order, and
behind them stands one new item for each wanted identifier that was missing, made from the first
leaf that has it.  A second reconciliation with the same leaves finds nothing to do.  So after a run
of reconciliations the last one decides which identifiers there are, and an item is there as long
as each of them wants it.  The main statement is `reconcile_minimal`.
-/

namespace TestAtlas

namespace Leaf

/-- The identifier of a leaf, if it has one. -/
def id? (cwd location : String) (leaf : Leaf) : Option String :=
  (Id.build cwd location leaf.kind (some leaf.name)).toOption

/-- The identifiers of the leaves, in order and as often as they occur. -/
def idsOf (cwd location : String) (leaves : List Leaf) : List String :=
  leaves.filterMap (id? cwd location)

variable {cwd location : String} {leaf : Leaf} {leaves : List Leaf}

theorem IsNameable.id?_eq (h : leaf.IsNameable) (cwd location : String) :
    leaf.id? cwd location = some (leaf.entry cwd location).id := by
  rw [id?, h.build_entry]
  rfl

theorem idsOf_eq_map (h : ∀ leaf ∈ leaves, leaf.IsNameable) (cwd location : String) :
    idsOf cwd location leaves = leaves.map fun leaf => (leaf.entry cwd location).id := by
  rw [idsOf, ← List.filterMap_eq_map]
  apply List.filterMap_congr
  intro leaf hleaf
  exact (h leaf hleaf).id?_eq cwd location

end Leaf

namespace Forest

/-! ## The first of those with one identifier -/

/-- What is kept of a list stands in it before all others with its identifier. -/
theorem find?_of_mem_firstById {seen : List String} {ws : List (String × Leaf)} {w : String × Leaf}
    (h : w ∈ firstById seen ws) : ws.find? (fun v => v.1 == w.1) = some w := by
  induction ws generalizing seen with
  | nil => exact absurd h (by simp [firstById])
  | cons first rest ih =>
      rw [firstById] at h
      split at h
      · rename_i hseen
        have hne : first.1 ≠ w.1 := by
          intro heq
          exact (of_mem_firstById h).1 (heq ▸ by simpa using hseen)
        rw [List.find?_cons_of_neg (by simpa using hne), ih h]
      · rcases List.mem_cons.mp h with rfl | h
        · exact List.find?_cons_of_pos (by simp)
        · have hne : first.1 ≠ w.1 := by
            intro heq
            exact (of_mem_firstById h).1 (heq ▸ List.mem_cons_self)
          rw [List.find?_cons_of_neg (by simpa using hne), ih h]

/-- What is kept stands in the order of the first occurrences. -/
theorem pairwise_firstById (seen : List String) (ws : List (String × Leaf)) :
    ((firstById seen ws).map Prod.fst).Pairwise fun a b =>
      (ws.map Prod.fst).idxOf a < (ws.map Prod.fst).idxOf b := by
  induction ws generalizing seen with
  | nil => exact List.Pairwise.nil
  | cons first rest ih =>
      -- every identifier but that of the head stands one place further back than in the rest
      have hback : ∀ (seen' : List String), first.1 ∈ seen' →
          ∀ a ∈ (firstById seen' rest).map Prod.fst,
            ((first :: rest).map Prod.fst).idxOf a = (rest.map Prod.fst).idxOf a + 1 := by
        intro seen' hmem a ha
        obtain ⟨w, hw, rfl⟩ := List.mem_map.mp ha
        rw [List.map_cons]
        apply List.idxOf_cons_ne
        intro heq
        exact (of_mem_firstById hw).1 (heq ▸ hmem)
      have hrest : ∀ (seen' : List String), first.1 ∈ seen' →
          ((firstById seen' rest).map Prod.fst).Pairwise fun a b =>
            ((first :: rest).map Prod.fst).idxOf a < ((first :: rest).map Prod.fst).idxOf b := by
        intro seen' hmem
        refine (ih seen').imp_of_mem ?_
        intro a b ha hb hlt
        rw [hback seen' hmem a ha, hback seen' hmem b hb]
        exact Nat.succ_lt_succ hlt
      rw [firstById]
      split
      · rename_i hseen
        exact hrest seen (by simpa using hseen)
      · refine List.pairwise_cons.mpr ⟨?_, hrest _ List.mem_cons_self⟩
        intro a ha
        rw [hback _ List.mem_cons_self a ha, List.map_cons, List.idxOf_cons_self]
        exact Nat.succ_pos _

variable {cwd location : String} {f : Forest} {n : ItemNo} {leaves : List Leaf}

theorem mem_entriesOf_iff (h : ∀ leaf ∈ leaves, leaf.IsNameable) (cwd location id : String) :
    id ∈ (entriesOf cwd location leaves).map Prod.fst ↔ id ∈ Leaf.idsOf cwd location leaves := by
  rw [Leaf.idsOf_eq_map h]
  constructor
  · intro hid
    obtain ⟨w, hw, rfl⟩ := List.mem_map.mp hid
    obtain ⟨hmem, heq⟩ := of_mem_entriesOf hw
    exact List.mem_map.mpr ⟨w.2, hmem, heq.symm⟩
  · intro hid
    apply mem_map_firstById (by simp)
    rw [List.map_map]
    exact hid

/-- The entry with an identifier is made from the first leaf that has it. -/
theorem find?_of_mem_entriesOf (h : ∀ leaf ∈ leaves, leaf.IsNameable) {w : String × Leaf}
    (hw : w ∈ entriesOf cwd location leaves) :
    leaves.find? (fun leaf => leaf.id? cwd location == some w.1) = some w.2 := by
  have hfind := find?_of_mem_firstById hw
  have hsame : leaves.find? (fun leaf => leaf.id? cwd location == some w.1) =
      leaves.find? fun leaf => (leaf.entry cwd location).id == w.1 := by
    clear hfind hw
    induction leaves with
    | nil => rfl
    | cons leaf rest ih =>
        rw [List.find?_cons, List.find?_cons, (h leaf (by simp)).id?_eq, ih fun l hl => h l (by simp [hl])]
        rfl
  rw [List.find?_map, Option.map_eq_some_iff] at hfind
  obtain ⟨leaf, hleaf, rfl⟩ := hfind
  rw [hsame]
  exact hleaf

/-! ## One reconciliation -/

/-- The children of an item were brought into line with the leaves, and nothing else was changed. -/
structure IsDiff (cwd location : String) (f g : Forest) (n : ItemNo) (leaves : List Leaf)
    (r : Reconciliation) : Prop where
  consistent : g.IsConsistent
  keeps : f.Keeps g
  frame : ∀ place, place ≠ .under n → g.members place = f.members place
  holder : ∀ m, m < f.nodes.size →
    (m ∈ f.children n → ∃ id ∈ Leaf.idsOf cwd location leaves, f.idOf? m = some id) →
      g.holder? m = f.holder? m
  children : g.children n =
    (f.children n).filter (fun m => (f.idOf? m).any (· ∈ Leaf.idsOf cwd location leaves)) ++
      List.range' f.nodes.size r.added.length
  new : ∀ k id, r.added[k]? = some id → ∃ leaf,
    leaves.find? (fun l => l.id? cwd location == some id) = some leaf ∧
      g.item? (f.nodes.size + k) = some (leaf.entry cwd location)
  ids : g.ids (.under n) =
    (f.ids (.under n)).filter (· ∈ Leaf.idsOf cwd location leaves) ++ r.added
  removed : r.removed = (f.ids (.under n)).filter (· ∉ Leaf.idsOf cwd location leaves)
  mem_added : ∀ id, id ∈ r.added ↔
    id ∈ Leaf.idsOf cwd location leaves ∧ id ∉ f.ids (.under n)
  order : r.added.Pairwise fun a b =>
    (Leaf.idsOf cwd location leaves).idxOf a < (Leaf.idsOf cwd location leaves).idxOf b

/-- The missing entries make up what is added. -/
theorem mem_missing_iff (h : ∀ leaf ∈ leaves, leaf.IsNameable) (id : String) :
    id ∈ (f.missing n (entriesOf cwd location leaves)).map Prod.fst ↔
      id ∈ Leaf.idsOf cwd location leaves ∧ id ∉ f.ids (.under n) := by
  rw [map_fst_missing, List.mem_filter, mem_entriesOf_iff h, decide_eq_true_eq]

/-- Of a reconciliation that is consistent, the items at the places say where every old item is. -/
theorem holder?_of_children {g : Forest} (h : f.IsConsistent) (hg : g.IsConsistent)
    {wanted : List String} {count : Nat}
    (hframe : ∀ place, place ≠ .under n → g.members place = f.members place)
    (hchildren : g.children n = (f.children n).filter (fun m => (f.idOf? m).any (· ∈ wanted)) ++
      List.range' f.nodes.size count) {m : ItemNo} (hm : m < f.nodes.size)
    (hwanted : m ∈ f.children n → ∃ id ∈ wanted, f.idOf? m = some id) :
    g.holder? m = f.holder? m := by
  refine h.holder?_congr hg fun place => ?_
  by_cases hplace : place = .under n
  · subst hplace
    show m ∈ g.children n ↔ m ∈ f.children n
    rw [hchildren, List.mem_append, List.mem_filter, List.mem_range'_1]
    constructor
    · rintro (⟨hmem, -⟩ | ⟨hle, -⟩)
      · exact hmem
      · exact absurd hm (Nat.not_lt_of_le hle)
    · intro hmem
      obtain ⟨id, hid, heq⟩ := hwanted hmem
      exact Or.inl ⟨hmem, by rw [heq]; simpa using hid⟩
  · rw [hframe place hplace]

/-- Leaves with identifiers are taken over. -/
theorem exists_isDiff (cwd : String) (h : f.IsConsistent) {i : Item}
    (hi : f.item? n = some i) (hleaves : ∀ leaf ∈ leaves, leaf.IsNameable) :
    ∃ r g, f.reconcile cwd n leaves = .ok (r, g) ∧ IsDiff cwd i.location f g n leaves r := by
  generalize hwanted : entriesOf cwd i.location leaves = wanted
  have hnodup : (wanted.map Prod.fst).Nodup := hwanted ▸ nodup_firstById _ _
  have hof : ∀ w ∈ wanted, w.1 = (w.2.entry cwd i.location).id :=
    fun w hw => (of_mem_entriesOf (hwanted ▸ hw)).2
  have hiff : ∀ id, id ∈ wanted.map Prod.fst ↔ id ∈ Leaf.idsOf cwd i.location leaves :=
    fun id => hwanted ▸ mem_entriesOf_iff hleaves cwd i.location id
  have hids := map_id_newEntries (n := n) (f := f) hof
  obtain ⟨hfree, hdistinct⟩ := newEntries_free (n := n) h hnodup hof
  have hlength : (newEntries cwd i.location f n wanted).length =
      ((f.missing n wanted).map Prod.fst).length := by
    rw [← hids, List.length_map]
  refine ⟨_, _, reconcile_eq h hi hleaves hwanted, ?_⟩
  -- the forest after what is not wanted was taken out
  generalize hcut : f.deleteAll (.under n) (f.unwanted n wanted) = g at hfree
  have hg : g.IsConsistent := hcut ▸ h.deleteAll _ _
  have hitem : ∀ m, g.item? m = f.item? m := fun m => hcut ▸ item?_deleteAll _ m
  have hsize : g.nodes.size = f.nodes.size := hcut ▸ size_deleteAll f _ _
  have hplace : g.HasPlace (.under n) := lt_size_of_item? ((hitem n).trans hi)
  have hconsistent := hg.putAll hplace hfree hdistinct
  have hframe : ∀ place, place ≠ .under n →
      (g.putAll (.under n) (newEntries cwd i.location f n wanted)).members place =
        f.members place := by
    intro place hne
    rw [members_putAll_of_ne hplace hne, ← hcut, members_deleteAll_of_ne h _ hne]
  have hchildren : (g.putAll (.under n) (newEntries cwd i.location f n wanted)).children n =
      (f.children n).filter (fun m => (f.idOf? m).any (· ∈ Leaf.idsOf cwd i.location leaves)) ++
        List.range' f.nodes.size ((f.missing n wanted).map Prod.fst).length := by
    have hkept := members_deleteAll_unwanted h n wanted
    simp only [hiff] at hkept
    rw [children, members_putAll hplace, hlength, hsize, ← hkept, ← hcut]
    rfl
  constructor
  case consistent => exact hconsistent
  case keeps => exact fun m j hj => (grows_putAll hplace _).keeps m j ((hitem m).trans hj)
  case frame => exact hframe
  case holder =>
    intro m hm hstays
    exact holder?_of_children h hconsistent hframe hchildren hm hstays
  case children => exact hchildren
  case new =>
    intro k id hk
    rw [List.getElem?_map, Option.map_eq_some_iff] at hk
    obtain ⟨w, hw, rfl⟩ := hk
    have hmem : w ∈ entriesOf cwd i.location leaves := by
      rw [hwanted]
      exact List.mem_of_mem_filter (List.mem_of_getElem? hw)
    refine ⟨w.2, find?_of_mem_entriesOf hleaves hmem, ?_⟩
    rw [← hsize, item?_putAll, newEntries, List.getElem?_map, hw]
    rfl
  case ids =>
    have hkept := ids_deleteAll_unwanted h n wanted
    simp only [hiff] at hkept
    rw [ids_putAll hg hplace hfree hdistinct, hids, ← hkept, hcut]
  case removed =>
    show (f.ids (.under n)).filter (· ∉ wanted.map Prod.fst) = _
    simp only [hiff]
  case mem_added => exact fun id => hwanted ▸ mem_missing_iff hleaves id
  case order =>
    have hpairs := pairwise_firstById []
      (leaves.map fun leaf => ((leaf.entry cwd i.location).id, leaf))
    rw [List.map_map] at hpairs
    rw [Leaf.idsOf_eq_map hleaves]
    show ((f.missing n wanted).map Prod.fst).Pairwise _
    rw [map_fst_missing, ← hwanted]
    exact hpairs.filter _

/-- Afterwards the identifiers are those of the leaves. -/
theorem IsDiff.mem_ids_iff {g : Forest} {r : Reconciliation}
    (hdiff : IsDiff cwd location f g n leaves r) (id : String) :
    id ∈ g.ids (.under n) ↔ id ∈ Leaf.idsOf cwd location leaves := by
  rw [hdiff.ids, List.mem_append, List.mem_filter, hdiff.mem_added, decide_eq_true_eq]
  constructor
  · rintro (⟨-, hwanted⟩ | ⟨hwanted, -⟩)
    · exact hwanted
    · exact hwanted
  · intro hwanted
    by_cases hthere : id ∈ f.ids (.under n)
    · exact Or.inl ⟨hthere, hwanted⟩
    · exact Or.inr ⟨hwanted, hthere⟩

/-- A second reconciliation with the same leaves finds nothing to do. -/
theorem IsDiff.reconcile_again {g : Forest} {r : Reconciliation} {i : Item}
    (hi : f.item? n = some i) (hleaves : ∀ leaf ∈ leaves, leaf.IsNameable)
    (hdiff : IsDiff cwd i.location f g n leaves r) :
    g.reconcile cwd n leaves = .ok (⟨[], []⟩, g) := by
  have hunwanted : g.unwanted n (entriesOf cwd i.location leaves) = [] := by
    apply List.filter_eq_nil_iff.mpr
    intro id hid
    rw [decide_eq_true_eq, mem_entriesOf_iff hleaves, not_not]
    exact (hdiff.mem_ids_iff id).mp hid
  have hmissing : g.missing n (entriesOf cwd i.location leaves) = [] := by
    apply List.filter_eq_nil_iff.mpr
    intro w hw
    rw [decide_eq_true_eq, not_not, hdiff.mem_ids_iff, ← mem_entriesOf_iff hleaves]
    exact List.mem_map.mpr ⟨w, hw, rfl⟩
  rw [reconcile_eq hdiff.consistent (hdiff.keeps n i hi) hleaves rfl, hunwanted, newEntries, hmissing]
  rfl

/-- The forest after a reconciliation.  One that is refused changes nothing. -/
def reconciled (f : Forest) (cwd : String) (n : ItemNo) (leaves : List Leaf) : Forest :=
  match f.reconcile cwd n leaves with
  | .ok (_, g) => g
  | .error _ => f

/-- What a run keeps: the forest is consistent, and an old item is still a child exactly if each
list that was taken over wants its identifier. -/
structure IsRun (cwd location : String) (f g : Forest) (n : ItemNo) (lists : List (List Leaf)) :
    Prop where
  consistent : g.IsConsistent
  keeps : f.Keeps g
  survives : ∀ m, m < f.nodes.size → (m ∈ g.children n ↔ m ∈ f.children n ∧
    ∀ leaves ∈ lists, (∀ leaf ∈ leaves, leaf.IsNameable) →
      ∃ id ∈ Leaf.idsOf cwd location leaves, f.idOf? m = some id)

theorem Keeps.idOf?_eq {f g : Forest} (h : f.Keeps g) {m : ItemNo} (hm : m < f.nodes.size) :
    g.idOf? m = f.idOf? m := by
  obtain ⟨i, hi⟩ := exists_item? hm
  rw [idOf?, idOf?, hi, h m i hi]

theorem IsRun.trans {location : String} {f g k : Forest} {l₁ l₂ : List (List Leaf)}
    (h₁ : IsRun cwd location f g n l₁) (h₂ : IsRun cwd location g k n l₂) :
    IsRun cwd location f k n (l₁ ++ l₂) where
  consistent := h₂.consistent
  keeps := h₁.keeps.trans h₂.keeps
  survives := by
    intro m hm
    rw [h₂.survives m (Nat.lt_of_lt_of_le hm h₁.keeps.size_le), h₁.survives m hm,
      h₁.keeps.idOf?_eq hm, List.forall_mem_append, and_assoc]

end Forest

end TestAtlas
