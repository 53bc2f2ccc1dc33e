import Mathlib.Data.List.Find
import TestAtlas.Proofs.Explorer.Effect
import TestAtlas.Proofs.Explorer.Memory
import TestAtlas.Proofs.Workspace.Changes

/-!
# Whether the owners that are remembered are still right

The survey remembers owners while the files change.  A report that bears the name of the manifest
makes it void, and so does a change of the folders.  A directory that is removed with a manifest in
it is reported under its own name: that the manifest is gone is missed.  Such directories are kept
track of in `Session.Reported`, and no other directory has a wrong owner: `Reported.owner_eq`.
-/

namespace TestAtlas

open TestAtlas.Path

namespace Explorer

variable {w : Workspace} {J : Judgement} {e e' : Explorer}

/-! ## What a survey in force remembers -/

/-- What the survey remembers is right by a judgement, if the survey is in force. -/
def IsFresh (J : Judgement) (e : Explorer) : Prop :=
  e.isSurveyed = true → Survey.Agrees J.owns e.survey.owners

/-- A new survey is right, and so is what is found when an owner is looked up. -/
theorem isLasting_agrees (hw : w.IsInMemory) {c : Conventions} (hJ : J.Holds w c) :
    Survey.IsLasting w c fun _ owners => Survey.Agrees J.owns owners where
  build := fun s folders => Survey.build_agrees hw hJ.inherited s folders
  kept := fun _ _ path h => (Survey.ownerOf_agrees hw.rooted hJ.inherited h path).2

theorem isFresh_iff_remembers :
    e.IsFresh J ↔ e.Remembers fun _ owners => Survey.Agrees J.owns owners :=
  Iff.rfl

theorem KeepsSurvey.isFresh (h : e.KeepsSurvey e') (he : e.IsFresh J) : e'.IsFresh J :=
  h.remembers (P := fun _ owners => Survey.Agrees J.owns owners) he

theorem isFresh_of_not_isSurveyed (h : e.isSurveyed = false) : e.IsFresh J :=
  isFresh_iff_remembers.mpr (remembers_of_not_isSurveyed h)

/-- The owner that is looked up is right, and so is what is remembered then. -/
theorem IsFresh.lookedUp (hw : w.IsInMemory) (hJ : J.Holds w e.conventions) (he : e.IsFresh J)
    {directory : String} (hdirectory : IsLocation directory) :
    J.owns directory (e.lookedUp w directory).1 ∧ (e.lookedUp w directory).2.IsFresh J := by
  have hlasting := isLasting_agrees hw hJ
  rw [isFresh_iff_remembers] at he
  have hafter := he.lookedUp hlasting directory
  have hs : Survey.Agrees J.owns (e.surveyed w).survey.owners := he.surveyed hlasting
  refine ⟨?_, hafter⟩
  rw [← conventions_surveyed e w] at hJ
  unfold Explorer.lookedUp
  generalize e.surveyed w = s at hs hJ ⊢
  have howns := (Survey.ownerOf_agrees hw.rooted hJ.inherited hs directory).1
  rw [canonical_of_isLocation hdirectory] at howns
  simp only
  generalize s.survey.ownerOf w s.conventions directory = found at howns ⊢
  exact howns

end Explorer

/-! ## What was missed -/

/-- Owners as far as nothing was missed: the owner of a directory is its nearest manifest, unless a
change was missed in the directory or above it. -/
def Judgement.ofUnmissed (w : Workspace) (c : Conventions) (missed : String → Prop) :
    Judgement where
  owns d o := Judgement.loose.owns d o ∧
    ((∀ a ∈ ancestors d, ¬ missed a) → o = w.nearestManifest c d)
  named := fun _ _ => True

theorem Judgement.holds_ofUnmissed (w : Workspace) (c : Conventions) (missed : String → Prop) :
    (Judgement.ofUnmissed w c missed).Holds w c where
  inherited :=
    have hloose := (Judgement.holds_loose w c).inherited
    { manifest := fun d hd hman => ⟨hloose.manifest d hd hman, fun _ =>
        (w.nearestManifest_of_hasManifest c hd hman).symm⟩
      root := fun hman => ⟨hloose.root hman, fun _ => by
        rw [Workspace.nearestManifest_root, if_neg (by simpa using hman)]⟩
      below := by
        rintro d s o hd hs hman ⟨hown, ho⟩
        refine ⟨hloose.below d s o hd hs hman hown, fun hmissed => ?_⟩
        rw [w.nearestManifest_below c hd hs, if_neg (by simpa using hman)]
        refine ho fun a ha => hmissed a ?_
        rw [ancestors_below hd hs]
        exact List.mem_cons_of_mem _ ha }
  above := fun d m hd howns => (Judgement.holds_loose w c).above d m hd howns.1
  labelled := fun _ => trivial

/-- What is right before a change is right after it, where the change is missed or touches no
manifest. -/
theorem Explorer.IsFresh.ofUnmissed_change {w w' : Workspace} {c : Conventions}
    {missed : String → Prop} {e : Explorer} (h : e.IsFresh (.ofUnmissed w c missed)) :
    e.IsFresh (.ofUnmissed w' c fun d =>
      missed d ∨ c.hasManifest (w'.entries d) ≠ c.hasManifest (w.entries d)) := by
  intro hsurveyed d o hmem
  obtain ⟨hd, hown, ho⟩ := h hsurveyed d o hmem
  refine ⟨hd, hown, fun hmissed => ?_⟩
  rw [ho fun a ha hmiss => hmissed a ha (Or.inl hmiss)]
  have hsame : ∀ a ∈ ancestors d, c.hasManifest (w'.entries a) = c.hasManifest (w.entries a) :=
    fun a ha => not_not.mp fun hne => hmissed a ha (Or.inr hne)
  rw [Workspace.nearestManifest, Workspace.nearestManifest]
  exact (List.find?_congr hsame).symm

/-- The owner of a directory where nothing was missed is its nearest manifest. -/
theorem Explorer.IsFresh.eq_nearestManifest {w : Workspace} {missed : String → Prop} {e : Explorer}
    (hw : w.IsInMemory) (he : e.IsFresh (.ofUnmissed w e.conventions missed)) {d : String}
    (hd : IsLocation d) (hmissed : ∀ a ∈ ancestors d, ¬ missed a) {owner : Owner}
    (howner : (e.lookedUp w d).1 = owner) : owner = w.nearestManifest e.conventions d := by
  obtain ⟨⟨-, hright⟩, -⟩ := he.lookedUp hw (Judgement.holds_ofUnmissed w e.conventions missed) hd
  rw [← howner]
  exact hright hmissed

/-- The call that reports a change of the files, on the path that was changed. -/
def FileChange.report : FileChange → Request
  | .write path _ => .fileCreated path
  | .remove path => .fileDeleted path

namespace Session

/-- The sessions that come about while every change of the files is reported on its path at once,
each with the workspace as it is then and with the directories whose gain or loss of a manifest was
missed.  What is missed is forgotten when the survey is void and when the folders change, for then
it is made anew. -/
inductive Reported (c : Conventions) : Workspace → Session → (String → Prop) → Prop
  | start {w : Workspace} (folders : List String) : w.IsInMemory →
      Reported c w (ofExplorer (.start w c folders)) fun _ => False
  | step {w : Workspace} {s s' : Session} {missed : String → Prop} (p : SymbolProvider)
      (m : Move) : Reported c w s missed → s.step w p m = .ok s' → Reported c w s' missed
  | change {w w' : Workspace} {s s' : Session} {missed : String → Prop} (p : SymbolProvider)
      (change : FileChange) : Reported c w s missed → change.apply w = .ok w' →
      s.step w' p (.call change.report) = .ok s' → Reported c w' s' fun d =>
        missed d ∨ c.hasManifest (w'.entries d) ≠ c.hasManifest (w.entries d)
  | void {w : Workspace} {s : Session} {missed : String → Prop} : Reported c w s missed →
      s.explorer.isSurveyed = false → Reported c w s fun _ => False
  | folders {w : Workspace} {s s' : Session} {missed : String → Prop} (p : SymbolProvider)
      {added removed : List String} : Reported c w s missed →
      s.step w p (.call (.foldersChanged added removed)) = .ok s' →
      Reported c w s' fun _ => False

variable {w : Workspace} {c : Conventions} {J : Judgement} {s s' : Session}

theorem Reported.run {missed : String → Prop} (h : Reported c w s missed) (p : SymbolProvider)
    {moves : List Move} (hrun : s.run w p moves = .ok s') : Reported c w s' missed := by
  induction moves generalizing s with
  | nil => rwa [← Except.ok.inj hrun]
  | cons m moves ih =>
      obtain ⟨t, hstep, hrest⟩ := exists_of_bind_eq_ok hrun
      exact ih (h.step p m hstep) hrest

/-- What the survey remembers stays right from step to step. -/
theorem isFresh_of_step (hw : w.IsInMemory) (hJ : J.Holds w s.explorer.conventions)
    (hs : s.explorer.IsFresh J) {p : SymbolProvider} {m : Move} (h : s.step w p m = .ok s') :
    s'.explorer.IsFresh J :=
  remembers_of_step (P := fun _ owners => Survey.Agrees J.owns owners)
    (Explorer.isLasting_agrees hw hJ) hs h

/-- The session is in order in the workspace as it is, and what its survey remembers is right as
far as nothing was missed. -/
structure IsCurrent (c : Conventions) (w : Workspace) (s : Session) (missed : String → Prop) :
    Prop where
  inMemory : w.IsInMemory
  orderly : s.IsOrderly w.cwd .loose
  conventions : s.explorer.conventions = c
  fresh : s.explorer.IsFresh (.ofUnmissed w c missed)

theorem IsCurrent.step {missed : String → Prop} (h : s.IsCurrent c w missed) {p : SymbolProvider}
    {m : Move} (hstep : s.step w p m = .ok s') : s'.IsCurrent c w missed := by
  have hc := h.conventions.symm
  obtain ⟨hs', hkeeps⟩ := h.orderly.of_step h.inMemory (Judgement.holds_loose w _) hstep
  refine ⟨h.inMemory, hs', hkeeps.conventions.trans h.conventions, ?_⟩
  subst hc
  exact isFresh_of_step h.inMemory (Judgement.holds_ofUnmissed w _ missed) h.fresh hstep

/-- After a change of the files, and before it is reported. -/
theorem IsCurrent.change {missed : String → Prop} (h : s.IsCurrent c w missed) {w' : Workspace}
    {change : FileChange} (happly : change.apply w = .ok w') :
    s.IsCurrent c w' fun d =>
      missed d ∨ c.hasManifest (w'.entries d) ≠ c.hasManifest (w.entries d) := by
  obtain ⟨hw', hcwd⟩ := FileChange.isInMemory_apply h.inMemory happly
  exact ⟨hw', hcwd ▸ h.orderly, h.conventions, h.fresh.ofUnmissed_change⟩

theorem IsCurrent.folders {missed : String → Prop} (h : s.IsCurrent c w missed)
    {p : SymbolProvider} {added removed : List String}
    (hstep : s.step w p (.call (.foldersChanged added removed)) = .ok s') :
    s'.IsCurrent c w fun _ => False := by
  have hnext := h.step hstep
  refine ⟨h.inMemory, hnext.orderly, hnext.conventions, ?_⟩
  have hc := h.conventions.symm
  subst hc
  obtain ⟨progress, e, hbegin, rfl⟩ := exists_begin_of_step p hstep
  obtain ⟨t, hchange, hbegin⟩ := exists_of_bind_eq_ok hbegin
  cases hbegin
  exact Explorer.remembers_of_changeFolders
    (Explorer.isLasting_agrees h.inMemory (Judgement.holds_ofUnmissed w _ _)) hchange

theorem Reported.isCurrent {missed : String → Prop} (h : Reported c w s missed) :
    s.IsCurrent c w missed := by
  induction h with
  | start folders hw =>
      exact ⟨hw, isOrderly_ofExplorer (Explorer.isOrderly_start _ hw.rooted c folders), rfl,
        Explorer.isFresh_of_not_isSurveyed rfl⟩
  | step p m _ hstep ih => exact ih.step hstep
  | change p change _ happly hstep ih => exact (ih.change happly).step hstep
  | void _ hvoid ih =>
      exact ⟨ih.inMemory, ih.orderly, ih.conventions, Explorer.isFresh_of_not_isSurveyed hvoid⟩
  | folders p _ hstep ih => exact ih.folders hstep

/-- While every change of the files is reported, the owner that is looked up for a directory is the
one that the manifests give at that time, and a document is placed below it, unless a change was
missed in the directory or above it.  A change that a disk admits can only be missed where it
removes a directory with a manifest. -/
theorem Reported.owner_eq {missed : String → Prop} (h : Reported c w s missed) :
    (∀ d, IsLocation d → (∀ a ∈ ancestors d, ¬ missed a) →
      (s.explorer.lookedUp w d).1 = w.nearestManifest c d) ∧
    (∀ p d, (∀ a ∈ ancestors (parent w.cwd d.path), ¬ missed a) →
      ∃ r e', s.explorer.call w p (.update d) = .ok (.reconciled r, e') ∧
        (r = none ∧ e'.forest = s.explorer.forest ∧ e'.documents = s.explorer.documents ∨
          ∃ base way n rec, r = some rec ∧
            (w.nearestManifest c (parent w.cwd d.path) <|>
              s.explorer.folderAround w (parent w.cwd d.path)) = some base ∧
            Explorer.HasEffect w.cwd (p.leaves d) (canonical w.cwd d.path) d.text s.explorer e'
              (Explorer.rootContainer w c
                (w.nearestManifest c (parent w.cwd d.path)).isSome base) way n rec)) ∧
    (∀ (change : FileChange) (w' : Workspace), change.apply w = .ok w' → change.IsTidy w →
      lastPart (canonical w.cwd change.path) ≠ c.manifestName → ∀ d, IsLocation d →
        c.hasManifest (w'.entries d) = (c.hasManifest (w.entries d) &&
          !(change.removesDirectory w && isAtOrBelow d (canonical w.cwd change.path)))) := by
  have hcurrent := h.isCurrent
  have hw := hcurrent.inMemory
  have hc := hcurrent.conventions.symm
  subst hc
  refine ⟨?_, ?_, ?_⟩
  · intro d hd hmissed
    exact hcurrent.fresh.eq_nearestManifest hw hd hmissed rfl
  · intro p d hmissed
    obtain ⟨r, e', hcall, hresult⟩ := Explorer.call_update_effect hw (Judgement.holds_loose w _)
      hcurrent.orderly.explorer p d
    refine ⟨r, e', hcall, hresult.imp_right ?_⟩
    rintro ⟨owner, base, way, n, rec, hrec, howner, hbase, heffect⟩
    -- asking for the symbols may be reported before, but looks at no owner
    have hfresh := (Explorer.keepsSurvey_report s.explorer
      (Explorer.symbolEvents p d)).isFresh hcurrent.fresh
    have hdirectory : IsLocation (parent w.cwd d.path) :=
      isLocation_directoryPart (isLocation_canonical hw.rooted d.path)
    have hright := Explorer.IsFresh.eq_nearestManifest hw hfresh hdirectory hmissed howner
    change owner = w.nearestManifest s.explorer.conventions (parent w.cwd d.path) at hright
    rw [← hright]
    exact ⟨base, way, n, rec, hrec, hbase, heffect⟩
  · intro change w' happly htidy hname d hd
    exact FileChange.hasManifest_apply hw happly htidy hname hd

/-- A manifest that was written between folder and file is the owner from then on. -/
theorem Reported.owner_eq_writtenManifest :
    ∃ w s, Reported .usual w s (fun _ => False) ∧
      (s.explorer.lookedUp w "/a/b").1 = w.nearestManifest .usual "/a/b" ∧
      w.nearestManifest .usual "/a/b" = some "/a" := by
  let w := Workspace.holding "/" [("/a/b/x_test.go", "package b\n")]
  let manifest : FileChange := .write "/a/go.mod" "module a\n"
  have hw : w.IsInMemory := Workspace.isInMemory_holding (by decide) _
  -- the survey is in force when the manifest is written
  have hview : ((ofExplorer (.start w .usual ["/a"])).run w .scanner
      [.call .expandTop]).toOption.bind (fun s => (manifest.apply w).toOption.bind fun w' =>
        (s.step w' .scanner (.call manifest.report)).toOption.map fun s' =>
          (s.explorer.isSurveyed, s'.explorer.isSurveyed,
            w'.nearestManifest .usual "/a/b")) = some (true, false, some "/a") := by
    decide +kernel
  obtain ⟨s, hs, hview⟩ := exists_ok_of_bind_view hview
  obtain ⟨w', hw', hview⟩ := exists_ok_of_bind_view hview
  obtain ⟨s', hs', hview⟩ := exists_ok_of_view hview
  simp only [Prod.mk.injEq] at hview
  obtain ⟨-, hvoid, hnearest⟩ := hview
  have hrun := (Reported.start ["/a"] hw).run .scanner hs
  have hreported := (hrun.change .scanner manifest hw' hs').void hvoid
  have hlocation : IsLocation "/a/b" := isLocation_canonical hw.rooted "/a/b"
  exact ⟨w', s', hreported, (Reported.owner_eq hreported).1 "/a/b" hlocation
    (fun _ _ hmissed => hmissed), hnearest⟩

/-- A module whose directory was removed and reported goes on owning what is put there anew. -/
theorem not_owner_eq_of_reported :
    ¬ ∀ (c : Conventions) (w : Workspace) (s : Session) (missed : String → Prop),
      Reported c w s missed → ∀ d, IsLocation d →
        (s.explorer.lookedUp w d).1 = w.nearestManifest c d := by
  intro hall
  let w := Workspace.holding "/" [("/w/m/go.mod", "module m\n"), ("/w/x_test.go", "package w\n")]
  let d : Document := ⟨"/w/x_test.go", "package w\n", 0⟩
  let removal : FileChange := .remove "/w/m"
  let file : FileChange := .write "/w/m/y_test.go" "package m\n"
  have hw : w.IsInMemory := Workspace.isInMemory_holding (by decide) _
  have hview : ((ofExplorer (.start w .usual ["/w"])).run w .scanner
      [.call (.update d), .settle 0]).toOption.bind (fun s₀ =>
        (removal.apply w).toOption.bind fun w₁ =>
        (s₀.step w₁ .scanner (.call removal.report)).toOption.bind fun s₁ =>
        (file.apply w₁).toOption.bind fun w₂ =>
        (s₁.step w₂ .scanner (.call file.report)).toOption.map fun s₂ =>
          ((s₂.explorer.lookedUp w₂ "/w/m").1, w₂.nearestManifest .usual "/w/m")) =
      some (some "/w/m", none) := by
    decide +kernel
  obtain ⟨s₀, hs₀, hview⟩ := exists_ok_of_bind_view hview
  obtain ⟨w₁, hw₁, hview⟩ := exists_ok_of_bind_view hview
  obtain ⟨s₁, hs₁, hview⟩ := exists_ok_of_bind_view hview
  obtain ⟨w₂, hw₂, hview⟩ := exists_ok_of_bind_view hview
  obtain ⟨s₂, hs₂, hview⟩ := exists_ok_of_view hview
  simp only [Prod.mk.injEq] at hview
  obtain ⟨howner, hnearest⟩ := hview
  have hrun := (Reported.start ["/w"] hw).run .scanner hs₀
  have hremoved := hrun.change .scanner removal hw₁ hs₁
  have hwritten := hremoved.change .scanner file hw₂ hs₂
  have hlocation : IsLocation "/w/m" := isLocation_canonical hw.rooted "/w/m"
  have heq := hall .usual w₂ s₂ _ hwritten "/w/m" hlocation
  rw [howner, hnearest] at heq
  exact absurd heq (by simp)

end Session

end TestAtlas
