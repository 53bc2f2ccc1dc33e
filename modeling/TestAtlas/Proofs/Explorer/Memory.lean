import TestAtlas.Proofs.Explorer.Conventions
import TestAtlas.Proofs.Explorer.Session
import TestAtlas.Proofs.Workspace.Memory

/-!
# What a survey in force remembers

A survey is made anew for the folders when one is needed and none is in force, and until it becomes
void nothing is done to it but that owners are looked up.  So a property of what is remembered that
each new survey has and that looking up an owner keeps holds whenever a survey is in force, in every
session that comes about: `Session.Arises.remembers`.  One such property is that every folder is
known.
-/

namespace TestAtlas

open TestAtlas.Path

/-- Each survey that is made for some folders has the property, and looking up an owner keeps it. -/
structure Survey.IsLasting (w : Workspace) (c : Conventions)
    (P : List String → Keyed String Owner → Prop) : Prop where
  build : ∀ s folders, P folders (build w c s folders).owners
  kept : ∀ folders, IsKept w c (P folders)

/-- In every survey made for some folders these are known, and they stay so. -/
theorem Survey.isLasting_knowsFolders {w : Workspace} (hw : w.IsInMemory) (c : Conventions) :
    IsLasting w c fun folders owners => ∀ f ∈ folders, canonical w.cwd f ∈ owners.keys where
  build := fun _ _ _ hf => (mem_keys_build hw _ _).mpr (isWalked_folder hf)
  kept := fun _ _ path h f hf => mem_keys_ownerOf (h f hf) path

namespace Explorer

variable {w : Workspace} {P : List String → Keyed String Owner → Prop} {e e' : Explorer}

/-- What the survey remembers has a property, if the survey is in force. -/
def Remembers (P : List String → Keyed String Owner → Prop) (e : Explorer) : Prop :=
  e.isSurveyed = true → P e.folders e.survey.owners

/-- The survey is in force in both or in neither, for the same folders, and the owners that it
remembers are the same. -/
structure KeepsSurvey (e e' : Explorer) : Prop where
  isSurveyed : e'.isSurveyed = e.isSurveyed
  folders : e'.folders = e.folders
  owners : e'.survey.owners = e.survey.owners

theorem KeepsSurvey.refl (e : Explorer) : e.KeepsSurvey e := ⟨rfl, rfl, rfl⟩

theorem KeepsSurvey.trans {e'' : Explorer} (h : e.KeepsSurvey e') (h' : e'.KeepsSurvey e'') :
    e.KeepsSurvey e'' :=
  ⟨h'.isSurveyed.trans h.isSurveyed, h'.folders.trans h.folders, h'.owners.trans h.owners⟩

theorem KeepsSurvey.remembers (h : e.KeepsSurvey e') (he : e.Remembers P) : e'.Remembers P := by
  intro hsurveyed
  rw [h.owners, h.folders]
  exact he (h.isSurveyed ▸ hsurveyed)

theorem remembers_of_not_isSurveyed (h : e.isSurveyed = false) : e.Remembers P :=
  fun hsurveyed => absurd (h.symm.trans hsurveyed) (by simp)

/-- A survey that is made anew has the property. -/
theorem Remembers.surveyed (he : e.Remembers P) (hP : Survey.IsLasting w e.conventions P) :
    P (e.surveyed w).folders (e.surveyed w).survey.owners := by
  unfold Explorer.surveyed
  split
  · rename_i hsurveyed
    exact he hsurveyed
  · exact hP.build _ _

/-! ## What the parts of a request keep -/

theorem keepsSurvey_report (e : Explorer) (events : List Event) : e.KeepsSurvey (e.report events) :=
  ⟨rfl, rfl, rfl⟩

theorem keepsSurvey_of_ensure {place : Place} {k : Container} {n : ItemNo}
    (h : e.ensure w place k = .ok (n, e')) : e.KeepsSurvey e' := by
  obtain rfl | ⟨forest, events, rfl⟩ := eq_of_ensure_eq_ok h
  · exact .refl _
  · exact ⟨rfl, rfl, rfl⟩

theorem keepsSurvey_of_ensureAll {place : Place} {ks : List Container}
    (h : e.ensureAll w place ks = .ok e') : e.KeepsSurvey e' := by
  induction ks generalizing e with
  | nil =>
      rw [← Except.ok.inj h]
      exact .refl e
  | cons k ks ih =>
      obtain ⟨⟨n, t⟩, hensure, hall⟩ := exists_of_bind_eq_ok h
      exact (keepsSurvey_of_ensure hensure).trans (ih hall)

theorem keepsSurvey_of_ensureChain {n m : ItemNo} {ks : List Container}
    (h : e.ensureChain w n ks = .ok (m, e')) : e.KeepsSurvey e' := by
  induction ks generalizing e n with
  | nil =>
      rw [← (Prod.mk.inj (Except.ok.inj h)).2]
      exact .refl e
  | cons k ks ih =>
      obtain ⟨⟨l, t⟩, hensure, hchain⟩ := exists_of_bind_eq_ok h
      exact (keepsSurvey_of_ensure hensure).trans (ih hchain)

theorem keepsSurvey_of_reconcile {n : ItemNo} {leaves : List Leaf} {r : Reconciliation}
    (h : e.reconcile w n leaves = .ok (r, e')) : e.KeepsSurvey e' := by
  obtain ⟨⟨result, f⟩, -, h⟩ := exists_of_bind_eq_ok h
  cases h
  exact ⟨rfl, rfl, rfl⟩

theorem keepsSurvey_labelled (e : Explorer) (w : Workspace) (isModule : Bool) (root : String) :
    e.KeepsSurvey (e.labelled w isModule root) := by
  unfold labelled
  split
  · exact ⟨rfl, rfl, Survey.owners_moduleName w e.conventions e.survey root⟩
  · exact .refl e

theorem keepsSurvey_of_expandPackage {n : ItemNo} {i : Item}
    (h : e.expandPackage w n i = .ok e') : e.KeepsSurvey e' := by
  have hsame : e.KeepsSurvey
      { e with survey := (e.survey.packageFiles w e.conventions i.location).2 } := ⟨rfl, rfl, rfl⟩
  exact hsame.trans (keepsSurvey_of_ensureAll h)

theorem remembers_of_expandTop (hP : Survey.IsLasting w e.conventions P) (he : e.Remembers P)
    (h : e.expandTop w = .ok e') : e'.Remembers P := by
  have hs := he.surveyed hP
  rw [← conventions_surveyed e w] at hP
  exact (keepsSurvey_of_ensureAll h).remembers fun _ => (hP.kept _).buildRoots hs _

theorem remembers_of_expandRoot (hP : Survey.IsLasting w e.conventions P) (he : e.Remembers P)
    {n : ItemNo} {i : Item} (h : e.expandRoot w n i = .ok e') : e'.Remembers P := by
  have hs := he.surveyed hP
  rw [← conventions_surveyed e w] at hP
  exact (keepsSurvey_of_ensureAll h).remembers fun _ => (hP.kept _).rootChildren hs _ _

theorem Remembers.lookedUp (hP : Survey.IsLasting w e.conventions P) (he : e.Remembers P)
    (directory : String) : (e.lookedUp w directory).2.Remembers P := by
  have hs := he.surveyed hP
  rw [← conventions_surveyed e w] at hP
  unfold Explorer.lookedUp
  generalize e.surveyed w = s at hs hP ⊢
  exact fun _ => hP.kept _ s.survey directory hs

theorem remembers_of_ensureFile (hP : Survey.IsLasting w e.conventions P) (he : e.Remembers P)
    {path : String} {result : Option ItemNo} (h : e.ensureFile w path = .ok (result, e')) :
    e'.Remembers P := by
  have hs := he.lookedUp hP (directoryPart (canonical w.cwd path))
  generalize hlook : e.lookedUp w (directoryPart (canonical w.cwd path)) = found at hs
  obtain ⟨owner, s⟩ := found
  rw [ensureFile_eq e w path rfl rfl hlook] at h
  split at h
  · rw [← (Prod.mk.inj (Except.ok.inj h)).2]
    exact (keepsSurvey_report s _).remembers hs
  · split at h
    · rw [← (Prod.mk.inj (Except.ok.inj h)).2]
      exact (keepsSurvey_report s _).remembers hs
    · obtain ⟨⟨n, t⟩, hroot, h⟩ := exists_of_bind_eq_ok h
      obtain ⟨⟨m, u⟩, hchain, h⟩ := exists_of_bind_eq_ok h
      rw [← (Prod.mk.inj (Except.ok.inj h)).2]
      have hlabel := keepsSurvey_labelled s w owner.isSome ‹String›
      exact ((hlabel.trans (keepsSurvey_of_ensure hroot)).trans
        (keepsSurvey_of_ensureChain hchain)).remembers hs

/-! ## Requests -/

theorem remembers_of_beginExpand (hP : Survey.IsLasting w e.conventions P) (he : e.Remembers P)
    {n : ItemNo} {progress : Progress} (h : e.beginExpand w n = .ok (progress, e')) :
    e'.Remembers P := by
  unfold beginExpand at h
  split at h
  · exact absurd h (by simp)
  · split at h
    · exact absurd h (by simp)
    · split at h
      · obtain ⟨t, hexpand, h⟩ := exists_of_bind_eq_ok h
        cases h
        exact remembers_of_expandRoot hP he hexpand
      · obtain ⟨t, hexpand, h⟩ := exists_of_bind_eq_ok h
        cases h
        exact remembers_of_expandRoot hP he hexpand
      · obtain ⟨t, hexpand, h⟩ := exists_of_bind_eq_ok h
        cases h
        exact (keepsSurvey_of_expandPackage hexpand).remembers he
      · unfold beginRefresh at h
        split at h
        · cases h
          exact he
        · split at h
          · cases h
            exact he
          · obtain ⟨⟨r, t⟩, hreconcile, h⟩ := exists_of_bind_eq_ok h
            cases h
            exact ((keepsSurvey_report e _).trans
              (keepsSurvey_of_reconcile hreconcile)).remembers he
      · cases h
        exact he
      · cases h
        exact he
      · cases h
        exact he

theorem remembers_beginCreated (he : e.Remembers P) (w : Workspace) (path : String) :
    (e.beginCreated w path).2.Remembers P := by
  unfold beginCreated
  simp only
  split
  · exact remembers_of_not_isSurveyed rfl
  · split
    · exact he
    · split
      · exact (keepsSurvey_report e _).remembers he
      · exact he

theorem remembers_of_remove (he : e.Remembers P) {path : String} {ids : List String}
    (h : e.remove w path = .ok (ids, e')) : e'.Remembers P := by
  obtain ⟨⟨removed, f⟩, -, h⟩ := exists_of_bind_eq_ok h
  cases h
  intro hsurveyed
  have hboth : (e.isSurveyed && lastPart (canonical w.cwd path) !=
      e.conventions.manifestName) = true := by
    split at hsurveyed <;> exact hsurveyed
  rw [Bool.and_eq_true] at hboth
  split <;> exact he hboth.1

/-- After a change of the folders the survey is new, whatever the old one was. -/
theorem remembers_of_changeFolders (hP : Survey.IsLasting w e.conventions P)
    {added removed : List String} (h : e.changeFolders w added removed = .ok e') :
    e'.Remembers P := by
  unfold changeFolders at h
  simp only at h
  refine remembers_of_expandTop ?_ (remembers_of_not_isSurveyed rfl) h
  rw [conventions_foldl_dropRoot]
  exact hP

theorem remembers_of_begin (hP : Survey.IsLasting w e.conventions P) (he : e.Remembers P)
    {request : Request} {progress : Progress} (h : e.begin w request = .ok (progress, e')) :
    e'.Remembers P := by
  cases request with
  | expandTop =>
      obtain ⟨t, hexpand, h⟩ := exists_of_bind_eq_ok h
      cases h
      exact remembers_of_expandTop hP he hexpand
  | expand n => exact remembers_of_beginExpand hP he h
  | update d =>
      rw [← (Prod.mk.inj (Except.ok.inj h)).2]
      exact he
  | fileCreated path =>
      have hcreated : e.beginCreated w path = (progress, e') := Except.ok.inj h
      have hremembers := remembers_beginCreated he w path
      rw [hcreated] at hremembers
      exact hremembers
  | fileDeleted path =>
      obtain ⟨⟨ids, t⟩, hremove, h⟩ := exists_of_bind_eq_ok h
      rw [← (Prod.mk.inj (Except.ok.inj h)).2]
      exact remembers_of_remove he hremove
  | foldersChanged added removed =>
      obtain ⟨t, hchange, h⟩ := exists_of_bind_eq_ok h
      rw [← (Prod.mk.inj (Except.ok.inj h)).2]
      exact remembers_of_changeFolders hP hchange

theorem remembers_of_finish (hP : Survey.IsLasting w e.conventions P) (he : e.Remembers P)
    {p : SymbolProvider} {pending : Pending} {answer : Answer}
    (h : e.finish w p pending = .ok (answer, e')) : e'.Remembers P := by
  cases pending with
  | update d =>
      obtain ⟨⟨r, t⟩, hupdate, h⟩ := exists_of_bind_eq_ok h
      cases h
      obtain ⟨⟨result, s⟩, hensure, h⟩ := exists_of_bind_eq_ok hupdate
      have hs := remembers_of_ensureFile (e := e.report (symbolEvents p d)) hP he hensure
      cases result with
      | none =>
          cases h
          exact hs
      | some n =>
          obtain ⟨⟨rec, u⟩, hreconcile, h⟩ := exists_of_bind_eq_ok h
          cases h
          exact (keepsSurvey_of_reconcile hreconcile).remembers hs
  | refresh n d =>
      obtain ⟨⟨r, t⟩, hreconcile, h⟩ := exists_of_bind_eq_ok h
      cases h
      exact ((keepsSurvey_report e _).trans (keepsSurvey_of_reconcile hreconcile)).remembers he

end Explorer

namespace Session

variable {w : Workspace} {P : List String → Keyed String Owner → Prop} {s s' : Session}

/-- The property lasts from step to step. -/
theorem remembers_of_step (hP : Survey.IsLasting w s.explorer.conventions P)
    (hs : s.explorer.Remembers P) {p : SymbolProvider} {m : Move} (h : s.step w p m = .ok s') :
    s'.explorer.Remembers P := by
  cases m with
  | call request =>
      obtain ⟨progress, e, hbegin, rfl⟩ := exists_begin_of_step p h
      exact Explorer.remembers_of_begin hP hs hbegin
  | settle k =>
      by_cases hwaits : ∃ pending, s.calls[k]? = some (.waiting pending)
      · obtain ⟨pending, hk⟩ := hwaits
        obtain ⟨answer, e, hfinish, rfl⟩ := exists_finish_of_step p hk h
        exact Explorer.remembers_of_finish hP hs hfinish
      · rw [step_settle_of_not_waiting w p (not_exists.mp hwaits), Except.ok.injEq] at h
        exact h ▸ hs

/-- The property holds of every survey that is in force in a session that comes about. -/
theorem Arises.remembers {admits : Workspace → Prop} {c : Conventions} {cwd : String}
    {J : Judgement} (hadmits : ∀ w, admits w → w.IsInMemory ∧ w.cwd = cwd ∧ J.Holds w c)
    (hP : ∀ w, admits w → Survey.IsLasting w c P) (h : Arises admits c s) :
    s.explorer.Remembers P := by
  induction h with
  | start => exact Explorer.remembers_of_not_isSurveyed rfl
  | @step w s s' p m hw hs hstep ih =>
      have hc := (hs.isOrderly hadmits).2
      exact remembers_of_step (hc ▸ hP w hw) ih hstep
  | @refused w s s' err p m hw hs hrefused ih =>
      obtain ⟨horderly, hc⟩ := hs.isOrderly hadmits
      obtain ⟨hmemory, rfl, hJ⟩ := hadmits w hw
      rw [horderly.eq_of_refused hmemory (hc ▸ hJ) hrefused]
      exact ih

end Session

end TestAtlas
