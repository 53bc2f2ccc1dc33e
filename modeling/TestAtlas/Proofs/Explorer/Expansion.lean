import TestAtlas.Proofs.Explorer.Order

/-!
# Filling in the tree succeeds

Whatever discovery finds belongs where the expansion puts it.  So each of the three expansions
succeeds in a workspace that is held in memory, keeps the explorer in order and only adds to the
tree.
-/

namespace TestAtlas.Explorer

open TestAtlas.Path

variable {w : Workspace} {J : Judgement} {e : Explorer}

theorem isLocation_of_isRoot {c : Conventions} (hJ : J.Holds w c) {folders : List String}
    (hfolders : ∀ f ∈ folders, IsLocation f) {kind : Kind} {location label : String}
    (h : J.IsRoot folders kind location label) : IsLocation location := by
  cases h with
  | module hd hown => exact (hJ.above _ _ hd hown).1
  | workspace _ hmem => exact hfolders _ hmem

/-- The top items can always be filled in. -/
theorem expandTop_spec (hw : w.IsInMemory) (hJ : J.Holds w e.conventions)
    (h : e.IsOrderly w.cwd J) :
    ∃ e', e.expandTop w = .ok e' ∧ e'.IsOrderly w.cwd J ∧ e.Grows e' := by
  have hs := h.surveyed hw hJ
  have hgrows := grows_surveyed e w
  -- from here on only the surveyed explorer matters
  rw [← hgrows.conventions] at hJ
  unfold expandTop
  generalize e.surveyed w = s at hJ hs hgrows ⊢
  obtain ⟨hroots, hagrees⟩ := Survey.buildRoots_spec hw hJ hs.survey hs.folders
  simp only
  generalize s.survey.buildRoots w s.conventions s.folders = found at hroots hagrees ⊢
  have hfound := hs.with_survey hagrees s.isSurveyed
  obtain ⟨e', hall, he', hgrows'⟩ := ensureAll_spec hfound .top
    (show s.forest.ownerAt .top = some none from rfl) found.1 fun k hk => by
      have hroot := hroots k hk
      have hkind := hroot.isRoot
      exact ⟨Kind.isLeaf_eq_false_of_isRoot hkind, isLocation_of_isRoot hJ hs.folders hroot,
        .root hroot⟩
  refine ⟨e', hall, he', hgrows.trans (Grows.trans ?_ hgrows')⟩
  exact .of_forest_eq rfl rfl rfl rfl

/-- The packages and the files of a root can always be filled in. -/
theorem expandRoot_spec (hw : w.IsInMemory) (hJ : J.Holds w e.conventions)
    (h : e.IsOrderly w.cwd J) {n : ItemNo} {item : Item} (hitem : e.forest.item? n = some item)
    (hroot : item.kind.isRoot = true) :
    ∃ e', e.expandRoot w n item = .ok e' ∧ e'.IsOrderly w.cwd J ∧ e.Grows e' := by
  have hs := h.surveyed hw hJ
  have hgrows := grows_surveyed e w
  have hl := (h.forest.genuine n item hitem).location
  have hitem' := hgrows.forest.keeps n item hitem
  rw [← hgrows.conventions] at hJ
  unfold expandRoot
  generalize e.surveyed w = s at hJ hs hgrows hitem' ⊢
  obtain ⟨hpackages, hfiles, hagrees⟩ :=
    Survey.rootChildren_spec hw hJ hs.survey hl (ownerOfRoot item)
  simp only
  generalize s.survey.rootChildren w s.conventions item.location (ownerOfRoot item) = found
    at hpackages hfiles hagrees ⊢
  have hfound := hs.with_survey hagrees s.isSurveyed
  have howner := Forest.ownerAt_under hitem'
  obtain ⟨e', hall, he', hgrows'⟩ := ensureAll_spec hfound (.under n) howner
    (found.1.map (Container.plain .package) ++ found.2.1.map (Container.plain .file))
    fun k hk => by
      -- a package is reached from the root, a file lies directly in it
      rcases List.mem_append.mp hk with hk | hk
      · obtain ⟨p, hp, rfl⟩ := List.mem_map.mp hk
        obtain ⟨hreach, hne, hown, htest⟩ := hpackages p hp
        exact ⟨rfl, (hreach.isAtOrBelow hl).1,
          .package hroot rfl hreach hne hown htest rfl⟩
      · obtain ⟨f, hf, rfl⟩ := List.mem_map.mp hk
        obtain ⟨name, hname, htest, rfl⟩ := hfiles f hf
        exact ⟨rfl, hl.below hname,
          .file (Or.inl hroot) rfl hname htest rfl (lastPart_below hl hname)⟩
  refine ⟨e', hall, he', hgrows.trans (Grows.trans ?_ hgrows')⟩
  exact .of_forest_eq rfl rfl rfl rfl

/-- The files of a package can always be filled in. -/
theorem expandPackage_spec (hw : w.IsInMemory) (h : e.IsOrderly w.cwd J) {n : ItemNo}
    {item : Item} (hitem : e.forest.item? n = some item) (hpackage : item.kind = .package) :
    ∃ e', e.expandPackage w n item = .ok e' ∧ e'.IsOrderly w.cwd J ∧ e.Grows e' := by
  have hl := (h.forest.genuine n item hitem).location
  obtain ⟨hfiles, howners⟩ := Survey.packageFiles_spec (c := e.conventions) hw e.survey hl
  unfold expandPackage
  generalize e.survey.packageFiles w e.conventions item.location = found at hfiles howners ⊢
  -- listing the files of a package asks for no owners
  have hagrees : Survey.Agrees J.owns found.2.owners := by
    rw [howners]
    exact h.survey
  have hfound := h.with_survey hagrees e.isSurveyed
  have howner := Forest.ownerAt_under hitem
  obtain ⟨e', hall, he', hgrows'⟩ := ensureAll_spec hfound (.under n) howner
    (found.1.map (Container.plain .file)) fun k hk => by
      obtain ⟨f, hf, rfl⟩ := List.mem_map.mp hk
      obtain ⟨name, hname, htest, rfl⟩ := hfiles f hf
      exact ⟨rfl, hl.below hname,
        .file (Or.inr hpackage) rfl hname htest rfl (lastPart_below hl hname)⟩
  refine ⟨e', hall, he', Grows.trans ?_ hgrows'⟩
  exact .of_forest_eq rfl rfl rfl rfl

end TestAtlas.Explorer
