import TestAtlas.Explorer.Call
import TestAtlas.Proofs.Explorer.Placement
import TestAtlas.Proofs.Explorer.Removal

/-!
# Every request can be served

The parts of a request, `begin` and `finish`, succeed on an explorer that is in order and keep it
in order, in any workspace that is held in memory and for which the judgement holds.  The one
refusal is that of an item which is not in the tree.  What waits for symbols stays servable whatever
other requests are served in between, since no item ever ceases to be and no item changes.
-/

namespace TestAtlas.Explorer

open TestAtlas.Path

variable {w : Workspace} {J : Judgement} {e : Explorer}

/-! ## Leaves -/

theorem reconcile_of_forest {n : ItemNo} {leaves : List Leaf} {r : Reconciliation} {g : Forest}
    (h : e.forest.reconcile w.cwd n leaves = .ok (r, g)) :
    e.reconcile w n leaves =
      .ok (r, { e with forest := g }.report (g.reconciliationEvents n r)) := by
  unfold reconcile
  simp only [h, bind, Except.bind]
  rfl

/-- The leaves of a file item can always be brought up to date. -/
theorem reconcile_spec (h : e.IsOrderly w.cwd J) {n : ItemNo} {i : Item}
    (hi : e.forest.item? n = some i) (hfile : i.kind = .file) {leaves : List Leaf}
    (hleaves : ∀ leaf ∈ leaves, leaf.IsGenuine) :
    ∃ r e', e.reconcile w n leaves = .ok (r, e') ∧ e'.IsOrderly w.cwd J ∧
      (e'.conventions = e.conventions ∧ e'.folders = e.folders ∧ e'.documents = e.documents) ∧
      Forest.IsReconciled e.forest e'.forest n
        ((Forest.wantedOf w.cwd i.location leaves).map Prod.fst) r := by
  -- whatever the provider names may stand below a file item
  have hfits : ∀ leaf ∈ leaves,
      Belongs e.conventions J e.folders (some i) (leaf.item w.cwd i.location) := by
    intro leaf hleaf
    have hkind := (hleaves leaf hleaf).isLeaf_item w.cwd i.location
    exact .leaf hfile hkind (leaf.location_item w.cwd i.location)
  have hlocation := (h.forest.genuine n i hi).location
  obtain ⟨r, g, hreconcile, hg, hdone⟩ := Forest.reconcile_spec h.forest hi hleaves
    (fun leaf hleaf => (hleaves leaf hleaf).item hlocation) hfits
  refine ⟨r, _, reconcile_of_forest hreconcile, ?_, ?_, hdone⟩
  · exact ⟨hg, h.survey, h.folders⟩
  · exact ⟨rfl, rfl, rfl⟩

theorem reconcile_keeps (h : e.IsOrderly w.cwd J) {n : ItemNo} {i : Item}
    (hi : e.forest.item? n = some i) (hfile : i.kind = .file) {leaves : List Leaf}
    (hleaves : ∀ leaf ∈ leaves, leaf.IsGenuine) :
    ∃ r e', e.reconcile w n leaves = .ok (r, e') ∧ e'.IsOrderly w.cwd J ∧ e.Keeps e' := by
  obtain ⟨r, e', hreconcile, he', hsame, hdone⟩ := reconcile_spec h hi hfile hleaves
  exact ⟨r, e', hreconcile, he', hsame.1, hdone.keeps⟩

/-! ## What is waited for -/

/-- What is left of a request can be done: an update is one of a test file, and what is refreshed is
a file item. -/
inductive CanFinish (e : Explorer) (cwd : String) : Pending → Prop
  | update {d : Document} : e.conventions.isTestFile (base cwd d.path) = true →
      CanFinish e cwd (.update d)
  | refresh {n : ItemNo} {d : Document} {i : Item} : e.forest.item? n = some i → i.kind = .file →
      CanFinish e cwd (.refresh n d)

/-- Whatever a request still waits for can be done. -/
inductive CanServe (e : Explorer) (cwd : String) : Progress → Prop
  | answered (answer : Answer) : CanServe e cwd (.answered answer)
  | waiting {pending : Pending} : e.CanFinish cwd pending → CanServe e cwd (.waiting pending)

theorem CanFinish.keeps {e' : Explorer} {cwd : String} (hkeeps : e.Keeps e') {pending : Pending}
    (h : e.CanFinish cwd pending) : e'.CanFinish cwd pending := by
  cases h with
  | update htest =>
      refine .update ?_
      rw [hkeeps.conventions]
      exact htest
  | refresh hi hfile => exact .refresh (hkeeps.forest _ _ hi) hfile

theorem CanServe.keeps {e' : Explorer} {cwd : String} (hkeeps : e.Keeps e') {progress : Progress}
    (h : e.CanServe cwd progress) : e'.CanServe cwd progress := by
  cases h with
  | answered answer => exact .answered answer
  | waiting hpending => exact .waiting (hpending.keeps hkeeps)

theorem canServe_beginUpdate (e : Explorer) (w : Workspace) (d : Document) :
    e.CanServe w.cwd (e.beginUpdate w d) := by
  unfold beginUpdate
  cases h : e.conventions.isTestFile (base w.cwd d.path) with
  | true =>
      rw [if_pos rfl]
      exact .waiting (.update h)
  | false =>
      rw [if_neg (by simp)]
      exact .answered _

/-! ## Beginning -/

/-- A request was begun: the explorer is in order, and what is waited for can be done. -/
def HasBegun (cwd : String) (J : Judgement) (e : Explorer)
    (result : Except Refusal (Progress × Explorer)) : Prop :=
  ∃ progress e', result = .ok (progress, e') ∧ e'.IsOrderly cwd J ∧ e.Keeps e' ∧
    e'.CanServe cwd progress

theorem hasBegun_of_answered {cwd : String} {result : Except Refusal Explorer}
    {e' : Explorer} (hresult : result = .ok e') (h : e'.IsOrderly cwd J) (hkeeps : e.Keeps e')
    (answer : Answer) :
    HasBegun cwd J e (result >>= fun e => pure (Progress.answered answer, e)) := by
  subst hresult
  exact ⟨.answered answer, e', rfl, h, hkeeps, .answered answer⟩

theorem beginRefresh_spec (h : e.IsOrderly w.cwd J) {n : ItemNo} {item : Item}
    (hitem : e.forest.item? n = some item) (hfile : item.kind = .file) :
    HasBegun w.cwd J e (e.beginRefresh w n item) := by
  unfold beginRefresh
  split
  · exact ⟨_, e, rfl, h, Keeps.refl e, .waiting (.refresh hitem hfile)⟩
  · split
    · exact ⟨_, e, rfl, h, Keeps.refl e, .waiting (.refresh hitem hfile)⟩
    · -- a file that cannot be read has no leaves, so those it had are taken out
      rename_i err _
      have hnone : ∀ leaf ∈ ([] : List Leaf), leaf.IsGenuine := by simp
      obtain ⟨r, e', hreconcile, he', hkeeps⟩ := reconcile_keeps
        (h.report [.cannotReadFile item.location err]) hitem hfile hnone
      refine ⟨.answered .done, e', ?_, he', ⟨hkeeps.conventions, hkeeps.forest⟩, CanServe.answered _⟩
      simp only [hreconcile, bind, Except.bind]
      rfl

theorem beginExpand_spec (hw : w.IsInMemory) (hJ : J.Holds w e.conventions)
    (h : e.IsOrderly w.cwd J) {n : ItemNo} (hn : e.forest.InTree n) :
    HasBegun w.cwd J e (e.beginExpand w n) := by
  obtain ⟨place, hplace⟩ : ∃ place, e.forest.holder? n = some place := by
    rcases hn.holder h.forest.consistent with htop | ⟨m, -, hunder⟩
    · exact ⟨_, htop⟩
    · exact ⟨_, hunder⟩
  obtain ⟨item, hitem⟩ := Forest.exists_item? (Forest.lt_size_of_holder? hplace)
  -- an item of the tree passes the guard, so only the kinds are left to tell apart
  have hattached := (h.isAttached_iff n).mpr hn
  unfold beginExpand
  simp only [hitem, hattached, Bool.not_true, Bool.false_eq_true, if_false]
  cases hkind : item.kind with
  | module | workspace =>
      have hroot : item.kind.isRoot = true := by rw [hkind]; rfl
      obtain ⟨e', hexpand, he', hgrows⟩ := expandRoot_spec hw hJ h hitem hroot
      exact hasBegun_of_answered hexpand he' hgrows.toKeeps .done
  | package =>
      obtain ⟨e', hexpand, he', hgrows⟩ := expandPackage_spec hw h hitem hkind
      exact hasBegun_of_answered hexpand he' hgrows.toKeeps .done
  | file => exact beginRefresh_spec h hitem hkind
  | test | benchmark | «example» => exact ⟨_, e, rfl, h, Keeps.refl e, CanServe.answered _⟩

theorem beginExpand_of_not_isAttached [StandIns] (w : Workspace) {n : ItemNo}
    (hn : e.forest.isAttached n = false) :
    e.beginExpand w n = .error ⟨.unknownItem ((e.forest.idOf? n).getD ""), e⟩ := by
  unfold beginExpand Forest.idOf?
  cases e.forest.item? n with
  | none => rfl
  | some item =>
      simp only [hn, Bool.not_false, if_true]
      rfl

theorem beginExpand_of_not_inTree (h : e.IsOrderly w.cwd J) {n : ItemNo}
    (hn : ¬ e.forest.InTree n) : ∃ id, e.beginExpand w n = .error ⟨.unknownItem id, e⟩ := by
  have hattached := Forest.isAttached_eq_false h.forest Belongs.level_lt hn
  exact ⟨_, beginExpand_of_not_isAttached w hattached⟩

theorem beginCreated_spec (h : e.IsOrderly w.cwd J) (path : String) :
    HasBegun w.cwd J e (.ok (e.beginCreated w path)) := by
  unfold beginCreated
  simp only
  split
  · exact ⟨_, _, rfl, ⟨h.forest, h.survey, h.folders⟩, ⟨rfl, Forest.Keeps.refl _⟩, CanServe.answered _⟩
  · split
    · exact ⟨_, e, rfl, h, Keeps.refl e, CanServe.answered _⟩
    · split
      · exact ⟨_, _, rfl, h.report _, ⟨rfl, Forest.Keeps.refl _⟩, CanServe.answered _⟩
      · rename_i text _
        have hserve := canServe_beginUpdate e w ⟨canonical w.cwd path, text, 0⟩
        exact ⟨_, e, rfl, h, Keeps.refl e, hserve⟩

/-- The request is to fill in an item that is not in the tree. -/
def Request.IsStray (f : Forest) : Request → Prop
  | .expand n => ¬ f.InTree n
  | _ => False

/-- Every request can be begun, but for one about an item that is not in the tree. -/
theorem begin_spec (hw : w.IsInMemory) (hJ : J.Holds w e.conventions) (h : e.IsOrderly w.cwd J)
    {request : Request} (hrequest : ¬ Request.IsStray e.forest request) :
    HasBegun w.cwd J e (e.begin w request) := by
  cases request with
  | expandTop =>
      obtain ⟨e', hexpand, he', hgrows⟩ := expandTop_spec hw hJ h
      exact hasBegun_of_answered hexpand he' hgrows.toKeeps .done
  | expand n => exact beginExpand_spec hw hJ h (not_not.mp hrequest)
  | update d =>
      exact ⟨_, e, begin_update e w d, h, Keeps.refl e, canServe_beginUpdate e w d⟩
  | fileCreated path => exact beginCreated_spec h path
  | fileDeleted path =>
      obtain ⟨ids, e', hremove, he', hkeeps, -⟩ := remove_spec h path
      refine ⟨.answered (.removed ids), e', ?_, he', hkeeps, CanServe.answered _⟩
      simp only [begin, hremove, bind, Except.bind]
      rfl
  | foldersChanged added removed =>
      obtain ⟨e', hchange, he', hkeeps, -⟩ := changeFolders_spec hw hJ h added removed
      exact hasBegun_of_answered hchange he' hkeeps .done

/-- A request about an item that is not in the tree is refused. -/
theorem begin_of_isStray (h : e.IsOrderly w.cwd J) {request : Request}
    (hrequest : Request.IsStray e.forest request) :
    ∃ id, e.begin w request = .error ⟨.unknownItem id, e⟩ := by
  cases request with
  | expand n => exact beginExpand_of_not_inTree h hrequest
  | expandTop | update | fileCreated | fileDeleted | foldersChanged => exact hrequest.elim

/-! ## Finishing -/

/-- What an update does: the document is placed, and if it belongs somewhere, the leaves of its file
item are brought up to date. -/
structure HasUpdated (w : Workspace) (J : Judgement) (leaves : List Leaf) (file text : String)
    (e s e' : Explorer) (owner : Owner) (result : Option ItemNo) (r : Option Reconciliation) :
    Prop where
  orderly : s.IsOrderly w.cwd J
  ensured : ∃ path, canonical w.cwd path = file ∧ e.ensureFile w path = .ok (result, s)
  grows : e.Grows s
  placement : IsPlacement w J e s (directoryPart file) file owner result
  ignored : result = none → r = none ∧ e' = s
  remembered : ∀ m, result = some m → e'.documents = e.documents.insert file text
  conventions : e'.conventions = e.conventions
  folders : e'.folders = e.folders
  reconciled : ∀ m, result = some m → ∃ rec, r = some rec ∧
    Forest.IsReconciled s.forest e'.forest m ((Forest.wantedOf w.cwd file leaves).map Prod.fst) rec

/-- Once a document is placed, the leaves of its file item are brought up to date. -/
theorem finishUpdate_of_ensureFile {s : Explorer} (hs : s.IsOrderly w.cwd J) {d : Document}
    {n : ItemNo} (hensure : e.ensureFile w d.path = .ok (some n, s)) {i : Item}
    (hi : s.forest.item? n = some i) (hfile : i.kind = .file) {leaves : List Leaf}
    (hleaves : ∀ leaf ∈ leaves, leaf.IsGenuine) :
    ∃ r e', e.finishUpdate w d leaves = .ok (some r, e') ∧ e'.IsOrderly w.cwd J ∧
      e'.conventions = s.conventions ∧ e'.folders = s.folders ∧
      e'.documents = s.documents.insert i.location d.text ∧
      Forest.IsReconciled s.forest e'.forest n
        ((Forest.wantedOf w.cwd i.location leaves).map Prod.fst) r := by
  -- remembering the text touches neither the tree nor the survey
  have hs' : { s with documents := s.documents.insert i.location d.text }.IsOrderly w.cwd J :=
    ⟨hs.forest, hs.survey, hs.folders⟩
  obtain ⟨r, e', hreconcile, he', ⟨hc, hf, hd⟩, hdone⟩ := reconcile_spec hs' hi hfile hleaves
  refine ⟨r, e', ?_, he', hc, hf, hd, hdone⟩
  unfold finishUpdate
  simp only [hensure, hi, Option.map_some, Option.getD_some, bind, Except.bind, hreconcile]
  rfl

theorem finishUpdate_spec (hw : w.IsInMemory) (hJ : J.Holds w e.conventions)
    (h : e.IsOrderly w.cwd J) {d : Document}
    (htest : e.conventions.isTestFile (base w.cwd d.path) = true) {leaves : List Leaf}
    (hleaves : ∀ leaf ∈ leaves, leaf.IsGenuine) :
    ∃ r e', e.finishUpdate w d leaves = .ok (r, e') ∧ e'.IsOrderly w.cwd J ∧
      ∃ s owner result,
        HasUpdated w J leaves (canonical w.cwd d.path) d.text e s e' owner result r := by
  obtain ⟨result, s, hensure, hs, hgrows, owner, hplacement⟩ := ensureFile_spec hw hJ h htest
  cases result with
  | none =>
      -- the document belongs nowhere, so it was only reported
      refine ⟨none, s, ?_, hs, s, owner, none, hs, ⟨d.path, rfl, hensure⟩, hgrows, hplacement,
        fun _ => ⟨rfl, rfl⟩, fun m hm => absurd hm (by simp), hgrows.conventions,
        hgrows.folders, fun m hm => absurd hm (by simp)⟩
      unfold finishUpdate
      simp only [hensure, bind, Except.bind]
      rfl
  | some n =>
      obtain ⟨root, -, hplaced⟩ := hplacement.placed n rfl
      obtain ⟨i, hi, hfile, hlocation⟩ := hplaced.item
      obtain ⟨r, e', hupdate, he', hc, hf, hd, hdone⟩ :=
        finishUpdate_of_ensureFile hs hensure hi hfile hleaves
      rw [hlocation, hgrows.documents] at hd
      refine ⟨some r, e', hupdate, he', s, owner, some n, hs, ⟨d.path, rfl, hensure⟩, hgrows,
        hplacement, fun hnone => absurd hnone (by simp), fun _ _ => hd,
        hc.trans hgrows.conventions, hf.trans hgrows.folders, ?_⟩
      intro m hm
      rw [← Option.some.inj hm, ← hlocation]
      exact ⟨r, rfl, hdone⟩

/-- The item that a document was placed at. -/
theorem HasUpdated.item {leaves : List Leaf} {file text : String} {s e' : Explorer} {owner : Owner}
    {result : Option ItemNo} {r : Option Reconciliation}
    (h : HasUpdated w J leaves file text e s e' owner result r) {n : ItemNo}
    (hn : result = some n) : s.forest.InTree n ∧
      ∃ i, s.forest.item? n = some i ∧ i.kind = .file ∧ i.location = file := by
  obtain ⟨root, -, hplaced⟩ := h.placement.placed n hn
  obtain ⟨ns, hns, -⟩ := id hplaced
  exact ⟨Forest.inTree_iff_lineage.mpr ⟨_, hns⟩, hplaced.item⟩

theorem HasUpdated.keeps {leaves : List Leaf} {file text : String} {s e' : Explorer}
    {owner : Owner} {result : Option ItemNo} {r : Option Reconciliation}
    (h : HasUpdated w J leaves file text e s e' owner result r) : e.Keeps e' := by
  refine ⟨h.conventions, ?_⟩
  cases result with
  | none =>
      rw [(h.ignored rfl).2]
      exact h.grows.forest.keeps
  | some m =>
      obtain ⟨rec, -, hdone⟩ := h.reconciled m rfl
      exact h.grows.forest.keeps.trans hdone.keeps

theorem finish_update_of_finishUpdate {p : SymbolProvider} {d : Document}
    {r : Option Reconciliation} {e' : Explorer}
    (h : (e.report (symbolEvents p d)).finishUpdate w d (p.leaves d) = .ok (r, e')) :
    e.finish w p (.update d) = .ok (.reconciled r, e') := by
  simp only [finish, h, bind, Except.bind]
  rfl

/-- What is left of an update can always be done. -/
theorem finish_update_spec (hw : w.IsInMemory) (hJ : J.Holds w e.conventions)
    (h : e.IsOrderly w.cwd J) (p : SymbolProvider) {d : Document}
    (htest : e.conventions.isTestFile (base w.cwd d.path) = true) :
    ∃ r e', e.finish w p (.update d) = .ok (.reconciled r, e') ∧ e'.IsOrderly w.cwd J ∧
      ∃ s owner result, HasUpdated w J (p.leaves d) (canonical w.cwd d.path) d.text
        (e.report (symbolEvents p d)) s e' owner result r := by
  obtain ⟨r, e', hupdate, he', hupdated⟩ := finishUpdate_spec hw
    (e := e.report (symbolEvents p d)) hJ (h.report _) htest (p.isGenuine_leaves d)
  exact ⟨r, e', finish_update_of_finishUpdate hupdate, he', hupdated⟩

/-- What is left of a request can always be done. -/
theorem finish_spec (hw : w.IsInMemory) (hJ : J.Holds w e.conventions) (h : e.IsOrderly w.cwd J)
    (p : SymbolProvider) {pending : Pending} (hpending : e.CanFinish w.cwd pending) :
    ∃ answer e', e.finish w p pending = .ok (answer, e') ∧ e'.IsOrderly w.cwd J ∧
      e.Keeps e' := by
  cases hpending with
  | @update d htest =>
      obtain ⟨r, e', hfinish, he', s, owner, result, hupdated⟩ :=
        finish_update_spec hw hJ h p htest
      exact ⟨_, e', hfinish, he', hupdated.keeps.conventions, hupdated.keeps.forest⟩
  | @refresh n d i hi hfile =>
      obtain ⟨r, e', hreconcile, he', hkeeps⟩ := reconcile_keeps
        (h.report (symbolEvents p d)) hi hfile (p.isGenuine_leaves d)
      refine ⟨.done, e', ?_, he', ⟨hkeeps.conventions, hkeeps.forest⟩⟩
      simp only [finish, hreconcile, bind, Except.bind]
      rfl

end TestAtlas.Explorer
