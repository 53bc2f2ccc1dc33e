import TestAtlas.Proofs.Explorer.Coverage

/-!
# Opening a file that discovery does not come to

A file is placed by its location alone: the segments between its directory and the root above it
are looked at, but no listing is.  Discovery goes by the listings, from the folders down.  So the
two can differ in one direction: a file that the full tree does not hold is placed all the same if
the module that owns its directory reaches it, wherever that module lies.  A module below a
directory that is left out is such a case: `not_ignored_moduleLeftOut`.  The exact condition is
given by `update_ignored_iff`.
-/

namespace TestAtlas.Explorer

open TestAtlas.Path

variable {w : Workspace} {c : Conventions} {e : Explorer}

/-- The root above a directory lies at or above it. -/
theorem isAtOrBelow_of_root (hfolders : ∀ f ∈ e.folders, IsLocation f) {d root : String}
    (hd : IsLocation d) (h : (w.nearestManifest c d <|> e.folderAround w d) = some root) :
    IsLocation root ∧ isAtOrBelow d root = true := by
  cases howner : w.nearestManifest c d with
  | some m =>
      rw [howner] at h
      obtain rfl : m = root := Option.some.inj h
      obtain ⟨hm, hin, -⟩ := (w.nearestManifest_eq_some_iff c hd).mp howner
      exact ⟨hm, hin⟩
  | none =>
      rw [howner] at h
      obtain ⟨hmem, hin, -⟩ := of_folderAround_eq_some hfolders hd h
      exact ⟨hfolders root hmem, hin⟩

/-- The folder around a directory is the innermost: it lies inside every other one that contains
the directory. -/
theorem isAtOrBelow_of_folderAround (hfolders : ∀ f ∈ e.folders, IsLocation f) {f g d : String}
    (hd : IsLocation d) (hf : f ∈ e.folders) (hdf : isAtOrBelow d f = true)
    (hg : e.folderAround w d = some g) : isAtOrBelow g f = true := by
  have hfloc := hfolders f hf
  obtain ⟨hmem, hdg, hlongest⟩ := of_folderAround_eq_some hfolders hd hg
  have hgloc := hfolders g hmem
  rcases isAtOrBelow_total hgloc hfloc hd hdg hdf with hgf | hfg
  · exact hgf
  · -- it is the longest, so no other lies inside it
    by_cases heq : f = g
    · rw [heq]
      exact isAtOrBelow_refl g
    · have hlonger := length_lt_of_isAtOrBelow hfloc hgloc hfg heq
      have hle := hlongest f hf hdf
      omega

/-- The root of a directory reaches the directory of a file that is in the tree. -/
theorem exists_root_of_holdsFile (h : e.IsOrderly w.cwd (.ofWorkspace w c)) (hc : e.conventions = c)
    {file : String} (hheld : e.forest.HoldsFile file) :
    ∃ root, (w.nearestManifest c (directoryPart file) <|>
      e.folderAround w (directoryPart file)) = some root ∧ c.Reaches root (directoryPart file) := by
  obtain ⟨n, i, hn, hi, hfile, rfl⟩ := hheld
  have hforest := h.forest
  rw [hc] at hforest
  obtain ⟨r, q, -, hq, -, hisroot, hreach, hown, -⟩ := exists_root_above hforest hn hi hfile rfl
  have hqloc := (hforest.genuine r q hq).location
  obtain ⟨hd, hin⟩ := hreach.isAtOrBelow hqloc
  have hne := hqloc.ne_empty
  rw [hown]
  unfold ownerOfRoot
  generalize q.kind = kind, q.location = location, q.label = label
    at hisroot hreach hqloc hin hne ⊢
  cases hisroot with
  | module =>
      rw [if_pos ⟨rfl, hne⟩]
      exact ⟨location, rfl, hreach⟩
  | workspace _ hmem =>
      -- the folder around the directory lies on the way from this folder to it
      rw [if_neg fun hmodule => Kind.noConfusion hmodule.1]
      cases haround : e.folderAround w (directoryPart i.location) with
      | none =>
          have hfilter : location ∈ e.folders.filter fun f =>
              isWithin w.cwd (directoryPart i.location) f := by
            rw [List.mem_filter, isWithin_of_isLocation hd hqloc]
            exact ⟨hmem, hin⟩
          rw [longest_eq_none_iff.mp haround] at hfilter
          exact absurd hfilter (by simp)
      | some g =>
          obtain ⟨hg, hdg, -⟩ := of_folderAround_eq_some h.folders hd haround
          have hgin := isAtOrBelow_of_folderAround h.folders hd hmem hin haround
          exact ⟨g, rfl, (hreach.between hqloc (h.folders g hg) hgin hdg).2⟩

/-- A file whose directory is reached from its root is placed. -/
theorem IsPlacement.exists_of_reaches {s : Explorer} {d file root : String} {owner : Owner}
    {result : Option ItemNo} (h : IsPlacement w (.ofWorkspace w c) e s d file owner result)
    (hc : e.conventions = c) (hfolders : ∀ f ∈ e.folders, IsLocation f) (hd : IsLocation d)
    (hroot : (w.nearestManifest c d <|> e.folderAround w d) = some root)
    (hreach : c.Reaches root d) : ∃ n, result = some n := by
  obtain rfl : owner = w.nearestManifest c d := h.owns
  cases result with
  | some n => exact ⟨n, rfl⟩
  | none =>
      have hleft : isLeftOut e.conventions d root = true := h.ignored rfl root hroot
      rw [hc, hreach.not_isLeftOut (isAtOrBelow_of_root hfolders hd hroot).1] at hleft
      exact absurd hleft (by simp)

/-- In an explorer in order a test file can be opened.  It is ignored just when no root reaches
its directory, and then the tree stays as it is. -/
theorem update_eq_none_iff (hw : w.IsInMemory) (h : e.IsOrderly w.cwd (.ofWorkspace w c))
    (hc : e.conventions = c) (p : SymbolProvider) {doc : Document}
    (htest : c.isTestFile (base w.cwd doc.path) = true) :
    ∃ r e', e.call w p (.update doc) = .ok (.reconciled r, e') ∧
      (r = none → e'.forest = e.forest) ∧
      (r = none ↔ ∀ root, (w.nearestManifest c (parent w.cwd doc.path) <|>
        e.folderAround w (parent w.cwd doc.path)) = some root →
          ¬ c.Reaches root (parent w.cwd doc.path)) := by
  subst hc
  obtain ⟨r, e', hfinish, -, s, owner, result, hupdated⟩ :=
    finish_update_spec hw (Judgement.holds_ofWorkspace w e.conventions) h p htest
  refine ⟨r, e', ?_, ?_⟩
  · rw [call_update_of_isTestFile htest, hfinish]
  · have hplacement := hupdated.placement
    change IsPlacement w _ _ s (parent w.cwd doc.path) _ owner result at hplacement
    have hd : IsLocation (parent w.cwd doc.path) :=
      isLocation_directoryPart (isLocation_canonical hw.rooted doc.path)
    generalize parent w.cwd doc.path = d at hplacement hd ⊢
    obtain rfl : owner = w.nearestManifest e.conventions d := hplacement.owns
    cases result with
    | none =>
        obtain ⟨hr, rfl⟩ := hupdated.ignored rfl
        refine ⟨fun _ => hplacement.unchanged rfl, iff_of_true hr ?_⟩
        intro root hroot hreach
        obtain ⟨n, hn⟩ := hplacement.exists_of_reaches rfl h.folders hd hroot hreach
        exact absurd hn (by simp)
    | some m =>
        obtain ⟨rec, hr, -⟩ := hupdated.reconciled m rfl
        obtain ⟨root, hroot, -⟩ := hplacement.placed m rfl
        rw [hr]
        refine ⟨fun hnone => absurd hnone (by simp), iff_of_false (by simp) ?_⟩
        intro hall
        have hkept : isLeftOut e.conventions d root = false := hplacement.kept m rfl root hroot
        obtain ⟨hrootloc, hin⟩ := isAtOrBelow_of_root h.folders hd hroot
        exact hall root hroot (Conventions.reaches_of_not_isLeftOut hd hrootloc hin hkept)

/-- A root reaches the directory of a file by the names alone although discovery does not come to
the file from there.  The root is the module that owns the directory or, without one, the folder
around the directory; in that case a listing on the way is missing. -/
def ReachesUnseen (e : Explorer) (w : Workspace) (c : Conventions) (directory file : String) :
    Prop :=
  (∃ m, w.nearestManifest c directory = some m ∧ c.Reaches m directory) ∨
    w.nearestManifest c directory = none ∧ ∃ f, e.folderAround w directory = some f ∧
      c.Reaches f directory ∧
        ¬ (w.Lists f directory ∧ file ∈ c.testFiles directory (w.entries directory))

/-- For a file that discovery misses, a root that reaches its directory does so unseen. -/
theorem reachesUnseen_iff (hw : w.IsInMemory) (hfolders : ∀ f ∈ e.folders, IsLocation f)
    {d file : String} (hd : IsLocation d)
    (hmissing : w.nearestManifest c d = none → ∀ f ∈ e.folders, w.Walks c f d →
      file ∉ c.testFiles d (w.entries d)) :
    e.ReachesUnseen w c d file ↔ ∃ root,
      (w.nearestManifest c d <|> e.folderAround w d) = some root ∧ c.Reaches root d := by
  unfold ReachesUnseen
  cases howner : w.nearestManifest c d with
  | some m =>
      constructor
      · rintro (h | ⟨hnone, -⟩)
        · exact h
        · exact absurd hnone (by simp)
      · exact Or.inl
  | none =>
      constructor
      · rintro (⟨m, hm, -⟩ | ⟨-, f, hf, hreach, -⟩)
        · exact absurd hm (by simp)
        · exact ⟨f, hf, hreach⟩
      · rintro ⟨f, hf, hreach⟩
        refine Or.inr ⟨rfl, f, hf, hreach, ?_⟩
        -- if the listings lead there as well, a walk comes to the file
        rintro ⟨hlists, hfile⟩
        have hmem := (of_folderAround_eq_some hfolders hd hf).1
        have hwalk := (Workspace.walks_iff hw (hfolders f hmem)).mpr ⟨hlists, hreach⟩
        exact hmissing howner f hmem hwalk hfile

/-- If the listings lead from one folder to a directory, they lead there from the folder around
it. -/
theorem lists_of_folderAround (hw : w.IsInMemory) (hfolders : ∀ f ∈ e.folders, IsLocation f)
    {f g d : String} (hf : f ∈ e.folders) (hlists : w.Lists f d)
    (hg : e.folderAround w d = some g) : w.Lists g d := by
  have hfloc := hfolders f hf
  obtain ⟨hd, hdf⟩ := hlists.isAtOrBelow hw hfloc
  obtain ⟨hmem, hdg, -⟩ := of_folderAround_eq_some hfolders hd hg
  have hgf := isAtOrBelow_of_folderAround hfolders hd hf hdf hg
  exact (hlists.between hw hfloc (hfolders g hmem) hgf hdg).2

/-- A test file that the full tree of a new explorer does not hold can be opened in a new explorer.
It is ignored, and the tree stays empty, unless a root reaches its directory all the same.  For a
file to which the listings lead from a folder that is the case just when the module that owns the
directory reaches it. -/
theorem update_ignored_iff (hw : w.IsInMemory) (hc : c.TestsAreSources) (folders : List String)
    (p : SymbolProvider) {doc : Document} (htest : c.isTestFile (base w.cwd doc.path) = true)
    (hmissing : ∀ e, (start w c folders).expandFully w p = .ok e →
      ¬ e.forest.HoldsFile (canonical w.cwd doc.path)) :
    ∃ r e', (start w c folders).call w p (.update doc) = .ok (.reconciled r, e') ∧
      (r = none → e'.forest = .empty) ∧
      (r = none ↔ ¬ (start w c folders).ReachesUnseen w c (parent w.cwd doc.path)
        (canonical w.cwd doc.path)) ∧
      ∀ f ∈ folders, w.Lists (canonical w.cwd f) (parent w.cwd doc.path) →
        canonical w.cwd doc.path ∈
          c.testFiles (parent w.cwd doc.path) (w.entries (parent w.cwd doc.path)) →
        (r = none ↔ ¬ ∃ m, w.nearestManifest c (parent w.cwd doc.path) = some m ∧
          c.Reaches m (parent w.cwd doc.path)) := by
  have hstart := isOrderly_start (.ofWorkspace w c) hw.rooted c folders
  obtain ⟨r, e', hcall, hsame, hiff⟩ := update_eq_none_iff hw hstart rfl p htest
  obtain ⟨e, hexpand, -, hfolders, hholds⟩ := expandFully_holdsFile hw hc folders p
  have hnot := hmissing e hexpand
  rw [hfolders] at hholds
  generalize canonical w.cwd doc.path = file at hnot ⊢
  have hd : IsLocation (parent w.cwd doc.path) :=
    isLocation_directoryPart (isLocation_canonical hw.rooted doc.path)
  generalize parent w.cwd doc.path = d at hiff hd ⊢
  have hunseen : r = none ↔ ¬ (start w c folders).ReachesUnseen w c d file := by
    rw [hiff, reachesUnseen_iff hw hstart.folders hd]
    · simp only [not_exists, not_and]
    · exact fun howner f hf hwalk hfile => hnot (hholds f hf d hwalk (Or.inl howner) file hfile)
  refine ⟨r, e', hcall, hsame, hunseen, ?_⟩
  intro f hf hlists hfile
  rw [hunseen, not_iff_not, ReachesUnseen]
  refine or_iff_left ?_
  rintro ⟨-, g, hg, -, hunlisted⟩
  have hmem : canonical w.cwd f ∈ (start w c folders).folders :=
    List.mem_eraseDups.mpr (List.mem_map_of_mem hf)
  exact hunlisted ⟨lists_of_folderAround hw hstart.folders hmem hlists hg, hfile⟩

/-- In a directory that is left out of its folder, and without a module, a file is ignored. -/
theorem update_ignored_leftOut :
    let w := Workspace.holding "/" [("/w/vendor/x_test.go", "package x")]
    let c := Conventions.leavingOut ["^vendor$"]
    ∃ r e', (start w c ["/w"]).call w .silent (.update ⟨"/w/vendor/x_test.go", "package x", 0⟩) =
        .ok (.reconciled r, e') ∧ r = none ∧ e'.forest = .empty := by
  intro w c
  have hw : w.IsInMemory := Workspace.isInMemory_holding (by decide) _
  have hc : c.TestsAreSources := Conventions.testsAreSources_of_default rfl (by decide)
  have hview : ((start w c ["/w"]).expandFully w .silent).toOption.map (fun e =>
      (e.forest.walk .top).map fun n => (e.forest.item? n).map Item.kind) =
        some [some .workspace] := by
    decide +kernel
  obtain ⟨e, hexpand, hview⟩ := exists_ok_of_view hview
  have hmissing : ∀ e, (start w c ["/w"]).expandFully w .silent = .ok e →
      ¬ e.forest.HoldsFile (canonical w.cwd "/w/vendor/x_test.go") := by
    intro e' hexpand' hheld
    obtain rfl : e = e' := Except.ok.inj (hexpand.symm.trans hexpand')
    have hmem := file_mem_of_holdsFile hw hexpand hheld
    rw [hview] at hmem
    exact absurd hmem (by decide)
  let doc : Document := ⟨"/w/vendor/x_test.go", "package x", 0⟩
  obtain ⟨r, e', hcall, hempty, -, hiff⟩ := update_ignored_iff hw hc ["/w"] .silent
    (show c.isTestFile (base w.cwd doc.path) = true by decide +kernel) hmissing
  have hfolder : canonical w.cwd "/w" = "/w" := by decide +kernel
  have hparent : parent w.cwd doc.path = "/w/vendor" := by decide +kernel
  have hnone : r = none := by
    have hshown := hiff "/w" (by simp)
    rw [hfolder, hparent] at hshown
    refine (hshown ?_ (by decide +kernel)).mpr ?_
    · exact .enter (show ("vendor", .directory) ∈ w.entries "/w" by decide +kernel)
        (show w.Lists (below "/w" "vendor") "/w/vendor" from .refl _)
    · rintro ⟨m, hm, -⟩
      have howner : w.nearestManifest c "/w/vendor" = none := by decide +kernel
      rw [howner] at hm
      exact absurd hm (by simp)
  exact ⟨r, e', hcall, hnone, hempty hnone⟩

/-- A module below a directory that is left out: discovery does not come to it, yet a file of it is
placed when it is opened. -/
theorem not_ignored_moduleLeftOut :
    ¬ ∀ (w : Workspace) (c : Conventions) (folders : List String) (p : SymbolProvider)
      (doc : Document), w.IsInMemory → c.testSuffix = Settings.default.testFileSuffix →
        c.sourceExtensions = Settings.default.sourceExtensions →
        c.isTestFile (base w.cwd doc.path) = true →
        (w.readContent doc.path).toOption.isSome = true →
        (∃ f ∈ folders, isWithin w.cwd doc.path f = true) →
        (∀ e, (start w c folders).expandFully w p = .ok e →
          ¬ e.forest.HoldsFile (canonical w.cwd doc.path)) →
        ∃ e', (start w c folders).call w p (.update doc) = .ok (.reconciled none, e') ∧
          e'.forest = .empty := by
  intro hall
  let w := Workspace.holding "/"
    [("/w/vendor/m/go.mod", "module m"), ("/w/vendor/m/x_test.go", "package m")]
  let c := Conventions.leavingOut ["^vendor$"]
  let doc : Document := ⟨"/w/vendor/m/x_test.go", "package m", 0⟩
  have hw : w.IsInMemory := Workspace.isInMemory_holding (by decide) _
  have hview : ((start w c ["/w"]).expandFully w .silent).toOption.map (fun e =>
      (e.forest.walk .top).map fun n => (e.forest.item? n).map Item.kind) =
        some [some .workspace] := by
    decide +kernel
  obtain ⟨e, hexpand, hview⟩ := exists_ok_of_view hview
  obtain ⟨e', hcall, -⟩ := hall w c ["/w"] .silent doc hw rfl rfl (by decide +kernel)
    (by decide +kernel) ⟨"/w", by simp, by decide +kernel⟩ (by
      intro e' hexpand' hheld
      obtain rfl : e = e' := Except.ok.inj (hexpand.symm.trans hexpand')
      have hmem := file_mem_of_holdsFile hw hexpand hheld
      rw [hview] at hmem
      exact absurd hmem (by decide))
  -- the module and the file in it are made
  have hopened : ((start w c ["/w"]).call w .silent (.update doc)).toOption.map (fun a =>
      a.1 == .reconciled none) = some false := by
    decide +kernel
  rw [hcall] at hopened
  exact absurd hopened (by simp [Except.toOption])

end TestAtlas.Explorer
