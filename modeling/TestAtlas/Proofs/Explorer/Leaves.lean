import TestAtlas.Proofs.Explorer.Home

/-!
# When the leaves of a file change

The leaves below a file item change only when they are brought up to date, and only those of that
item.  Filling in the tree, deleting files and changing the folders leave them alone.  So what a
file item shows is what it was last brought into line with.
-/

namespace TestAtlas

open TestAtlas.Path

namespace Forest

variable {f g : Forest} {cwd : String} {n : ItemNo} {i : Item}

theorem ids_eq_of_members_eq (hf : f.IsConsistent) (hkeeps : f.Keeps g) {place : Place}
    (hmembers : g.members place = f.members place) : g.ids place = f.ids place := by
  rw [ids, ids, hmembers]
  apply List.filterMap_congr
  intro m hm
  obtain ⟨j, hj⟩ := exists_item? (lt_size_of_mem hf hm)
  rw [idOf?, idOf?, hj, hkeeps m j hj]

theorem KeepsLeaves.ids_eq (h : f.KeepsLeaves g) (hf : f.IsConsistent) (hkeeps : f.Keeps g)
    (hi : g.item? n = some i) (hfile : i.kind = .file) :
    g.ids (.under n) = f.ids (.under n) :=
  ids_eq_of_members_eq hf hkeeps (h.children_eq hi hfile)

theorem IsReconciled.ids_eq_of_ne {m : ItemNo} {wanted : List String} {r : Reconciliation}
    (h : IsReconciled f g m wanted r) (hf : f.IsConsistent) (hne : n ≠ m) :
    g.ids (.under n) = f.ids (.under n) :=
  ids_eq_of_members_eq hf h.keeps (h.frame (.under n) (by simpa using hne))

/-- The identifiers below an item are those of the leaves. -/
def Shows (f : Forest) (cwd : String) (n : ItemNo) (location : String) (leaves : List Leaf) :
    Prop :=
  ∀ id, id ∈ f.ids (.under n) ↔
    ∃ leaf ∈ leaves, Id.build cwd location leaf.kind (some leaf.name) = .ok id

theorem Shows.of_ids_eq {location : String} {leaves : List Leaf}
    (h : f.Shows cwd n location leaves) (hids : g.ids (.under n) = f.ids (.under n)) :
    g.Shows cwd n location leaves := by
  unfold Shows
  rw [hids]
  exact h

/-- What was brought into line with leaves shows them. -/
theorem IsReconciled.shows {location : String} {leaves : List Leaf} {r : Reconciliation}
    (h : IsReconciled f g n ((wantedOf cwd location leaves).map Prod.fst) r)
    (hleaves : ∀ leaf ∈ leaves, leaf.IsGenuine) : g.Shows cwd n location leaves := by
  intro id
  rw [h.mem_ids_iff, mem_wantedOf_iff hleaves]

/-- An item without children shows no leaves. -/
theorem shows_nil_iff {location : String} :
    f.Shows cwd n location [] ↔ f.ids (.under n) = [] := by
  simp [Shows, List.eq_nil_iff_forall_not_mem]

/-- An item that was never made has no children. -/
theorem ids_of_size_le (h : f.nodes.size ≤ n) : f.ids (.under n) = [] := by
  simp [ids, members, h]

theorem InTree.of_isReconciled {c : Conventions} {J : Judgement} {folders : List String}
    (h : f.IsOrderly cwd (Belongs c J folders)) {m : ItemNo} {j : Item}
    (hm : f.item? m = some j) (hjfile : j.kind = .file) {wanted : List String}
    {r : Reconciliation} (hdone : IsReconciled f g m wanted r) (hn : f.InTree n)
    (hi : f.item? n = some i) (hleaf : i.kind.isLeaf = false) : g.InTree n := by
  obtain ⟨root, hroot⟩ := inTree_iff_isBelow.mp hn
  exact (hroot.of_isReconciled h hm hjfile hdone hi hleaf).inTree

/-! ## Where the leaves of one file stay -/

/-- The file items at a location have the leaves that they had, though others may not. -/
structure SparesLeaves (f g : Forest) (location : String) : Prop where
  keeps : f.Keeps g
  ids : ∀ n i, g.item? n = some i → i.kind = .file → i.location = location →
    g.ids (.under n) = f.ids (.under n)

/-- Besides, no file leaves the tree. -/
structure Spares (f g : Forest) (location : String) : Prop extends SparesLeaves f g location where
  inTree : ∀ n i, f.InTree n → f.item? n = some i → i.kind = .file → g.InTree n

theorem KeepsLeaves.sparesLeaves (h : f.KeepsLeaves g) (hf : f.IsConsistent) (hkeeps : f.Keeps g)
    (location : String) : f.SparesLeaves g location where
  keeps := hkeeps
  ids := fun _ _ hi hfile _ => h.ids_eq hf hkeeps hi hfile

theorem SparesLeaves.trans {h : Forest} {location : String} (hfg : f.SparesLeaves g location)
    (hgh : g.SparesLeaves h location) : f.SparesLeaves h location where
  keeps := hfg.keeps.trans hgh.keeps
  ids := by
    intro n i hi hfile hlocation
    rw [hgh.ids n i hi hfile hlocation]
    by_cases hn : n < g.nodes.size
    · exact hfg.ids n i (hgh.keeps.item?_of_lt hn hi) hfile hlocation
    · have hle := Nat.le_of_not_lt hn
      have hsize := hfg.keeps.size_le
      rw [ids_of_size_le hle, ids_of_size_le (Nat.le_trans hsize hle)]

theorem SparesLeaves.shows {location : String} {leaves : List Leaf}
    (h : f.SparesLeaves g location) (hi : f.item? n = some i) (hfile : i.kind = .file)
    (hlocation : i.location = location) (hshows : f.Shows cwd n i.location leaves) :
    g.Shows cwd n i.location leaves :=
  hshows.of_ids_eq (h.ids n i (h.keeps n i hi) hfile hlocation)

theorem Spares.trans {h : Forest} {location : String} (hfg : f.Spares g location)
    (hgh : g.Spares h location) : f.Spares h location where
  toSparesLeaves := hfg.toSparesLeaves.trans hgh.toSparesLeaves
  inTree := fun n i hn hi hfile =>
    hgh.inTree n i (hfg.inTree n i hn hi hfile) (hfg.keeps n i hi) hfile

end Forest

namespace Explorer

variable {w : Workspace} {J : Judgement} {e e' : Explorer}

theorem Grows.spares {cwd : String} (h : e.IsOrderly cwd J) (hgrows : e.Grows e') (location : String) :
    e.forest.Spares e'.forest location where
  toSparesLeaves := hgrows.leaves.sparesLeaves h.forest.consistent hgrows.forest.keeps location
  inTree := fun _ _ hn _ _ => hn.grows hgrows.forest

/-- Bringing up to date the leaves of one file spares the files elsewhere. -/
theorem spares_of_isReconciled (h : e.IsOrderly w.cwd J) {n : ItemNo} {i : Item}
    (hi : e.forest.item? n = some i) (hfile : i.kind = .file) {wanted : List String}
    {r : Reconciliation} (hdone : Forest.IsReconciled e.forest e'.forest n wanted r)
    {location : String}
    (hids : i.location = location → e'.forest.ids (.under n) = e.forest.ids (.under n)) :
    e.forest.Spares e'.forest location where
  keeps := hdone.keeps
  inTree := fun _ _ hm hj hjfile =>
    hm.of_isReconciled h.forest hi hfile hdone hj (by rw [hjfile]; rfl)
  ids := by
    intro m j hj _ hlocation
    by_cases hmn : m = n
    · subst hmn
      rw [hdone.keeps m i hi, Option.some.injEq] at hj
      exact hids (hj ▸ hlocation)
    · exact hdone.ids_eq_of_ne h.forest.consistent hmn

/-- An update of a file spares the files elsewhere. -/
theorem HasUpdated.spares {leaves : List Leaf} {file text location : String} {s : Explorer}
    {owner : Owner} {result : Option ItemNo} {r : Option Reconciliation}
    (hupdated : HasUpdated w J leaves file text e s e' owner result r) (h : e.IsOrderly w.cwd J)
    (hne : file ≠ location) :
    e.forest.Spares e'.forest location ∧
      e'.documents.get? location = e.documents.get? location := by
  have hspares : e.forest.Spares s.forest location := hupdated.grows.spares h location
  cases result with
  | none =>
      rw [(hupdated.ignored rfl).2, hupdated.grows.documents]
      exact ⟨hspares, rfl⟩
  | some n =>
      obtain ⟨-, i, hi, hfile, hil⟩ := hupdated.item rfl
      obtain ⟨rec, -, hdone⟩ := hupdated.reconciled n rfl
      constructor
      · exact hspares.trans (spares_of_isReconciled hupdated.orderly hi hfile hdone
          fun heq => absurd (hil.symm.trans heq) hne)
      · rw [hupdated.remembered n rfl, Keyed.get?_insert, if_neg (Ne.symm hne)]

/-! ## Filling in one item -/

/-- The text of a file: what its document was last reported to have, else what can be read. -/
def text? (e : Explorer) (w : Workspace) (location : String) : Option String :=
  e.documents.get? location <|> (w.readContent location).toOption

/-- How far it came to fill in what is below an item, and what the explorer is then. -/
inductive HasBegunExpand (w : Workspace) (J : Judgement) (e : Explorer) (n : ItemNo) (i : Item) :
    Progress → Explorer → Prop
  /-- Below a root or a package, what was missing is there. -/
  | filled {e' : Explorer} : i.kind ≠ .file → e'.IsOrderly w.cwd J → e.Grows e' →
      HasBegunExpand w J e n i (.answered .done) e'
  /-- The symbols of a file that has a text are waited for. -/
  | waiting {text : String} : i.kind = .file → e.text? w i.location = some text →
      HasBegunExpand w J e n i (.waiting (.refresh n ⟨i.location, text, 0⟩)) e
  /-- A file without a text has no leaves. -/
  | cleared {e' : Explorer} {r : Reconciliation} : i.kind = .file →
      e.text? w i.location = none → e'.IsOrderly w.cwd J →
      e'.conventions = e.conventions → e'.folders = e.folders → e'.documents = e.documents →
      Forest.IsReconciled e.forest e'.forest n [] r →
      HasBegunExpand w J e n i (.answered .done) e'

theorem beginRefresh_cases (h : e.IsOrderly w.cwd J) {n : ItemNo} {i : Item}
    (hi : e.forest.item? n = some i) (hfile : i.kind = .file) {progress : Progress}
    {e' : Explorer} (hbegin : e.beginRefresh w n i = .ok (progress, e')) :
    HasBegunExpand w J e n i progress e' := by
  unfold beginRefresh at hbegin
  split at hbegin
  · rename_i text htext
    simp only [Except.ok.injEq, Prod.mk.injEq] at hbegin
    obtain ⟨rfl, rfl⟩ := hbegin
    exact .waiting hfile (by rw [text?, htext]; rfl)
  · rename_i hnone
    split at hbegin
    · rename_i text htext
      simp only [Except.ok.injEq, Prod.mk.injEq] at hbegin
      obtain ⟨rfl, rfl⟩ := hbegin
      exact .waiting hfile (by rw [text?, hnone, htext]; rfl)
    · rename_i err herr
      obtain ⟨r, t, hreconcile, ht, ⟨hc, hf, hd⟩, hdone⟩ := reconcile_spec
        (h.report [.cannotReadFile i.location err]) hi hfile
        (show ∀ leaf ∈ ([] : List Leaf), leaf.IsGenuine by simp)
      simp only [hreconcile, bind, Except.bind, pure, Except.pure, Except.ok.injEq,
        Prod.mk.injEq] at hbegin
      obtain ⟨rfl, rfl⟩ := hbegin
      exact .cleared hfile (by rw [text?, hnone, herr]; rfl) ht hc hf hd hdone

/-- What can come of beginning to fill in what is below an item. -/
theorem beginExpand_cases (hw : w.IsInMemory) (hJ : J.Holds w e.conventions)
    (h : e.IsOrderly w.cwd J) {n : ItemNo} {progress : Progress} {e' : Explorer}
    (hbegin : e.beginExpand w n = .ok (progress, e')) :
    ∃ i, e.forest.InTree n ∧ e.forest.item? n = some i ∧
      HasBegunExpand w J e n i progress e' := by
  have hn : e.forest.InTree n := by
    by_contra hstray
    obtain ⟨id, herr⟩ := beginExpand_of_not_inTree h hstray
    exact absurd (hbegin.symm.trans herr) (by simp)
  obtain ⟨i, hi⟩ := h.forest.exists_item_of_inTree hn
  refine ⟨i, hn, hi, ?_⟩
  have hattached := (h.isAttached_iff n).mpr hn
  unfold beginExpand at hbegin
  simp only [hi, hattached, Bool.not_true, Bool.false_eq_true, if_false] at hbegin
  -- an expansion that makes containers succeeds, so it is the one at hand
  have hfilled : ∀ {result : Except Refusal Explorer}, i.kind ≠ .file →
      (∃ t, result = .ok t ∧ t.IsOrderly w.cwd J ∧ e.Grows t) →
      (result >>= fun t => pure (Progress.answered .done, t)) = .ok (progress, e') →
      HasBegunExpand w J e n i progress e' := by
    rintro result hkind ⟨t, rfl, ht, hgrows⟩ hresult
    simp only [bind, Except.bind, pure, Except.pure, Except.ok.injEq, Prod.mk.injEq] at hresult
    obtain ⟨rfl, rfl⟩ := hresult
    exact .filled hkind ht hgrows
  cases hkind : i.kind with
  | module | workspace =>
      simp only [hkind] at hbegin
      exact hfilled (by rw [hkind]; decide)
        (expandRoot_spec hw hJ h hi (by rw [hkind]; rfl)) hbegin
  | package =>
      simp only [hkind] at hbegin
      exact hfilled (by rw [hkind]; decide) (expandPackage_spec hw h hi hkind) hbegin
  | file =>
      simp only [hkind] at hbegin
      exact beginRefresh_cases h hi hkind hbegin
  | test | benchmark | «example» =>
      simp only [hkind, Except.ok.injEq, Prod.mk.injEq] at hbegin
      obtain ⟨rfl, rfl⟩ := hbegin
      exact .filled (by rw [hkind]; decide) h (.refl e)

end Explorer

end TestAtlas
