import TestAtlas.Proofs.Explorer.Filling
import TestAtlas.Proofs.Explorer.Opening
import TestAtlas.Proofs.Explorer.Reporting
import TestAtlas.Proofs.Tree.Diff

/-!
# Filling in twice

To fill in the top, a root or a package puts what is missing behind what is there, and changes
nothing else.  To do that once more changes nothing at all, whatever the tree looked like before: the
survey remembers what the first look has found, so the second finds the same.  To bring the leaves
of a file up to date twice is the same as to do it once.  The main statement is
`Session.Arises.expand_idempotent`.
-/

namespace TestAtlas

open TestAtlas.Path

/-- The place that a request fills in: the top, or what is below a root or a package of the tree. -/
inductive Forest.FillsIn (f : Forest) : Request → Place → Prop
  | top : FillsIn f .expandTop .top
  | under {n : ItemNo} {i : Item} : f.InTree n → f.item? n = some i →
      i.kind.isRoot = true ∨ i.kind = .package → FillsIn f (.expand n) (.under n)

namespace Explorer

variable {w : Workspace} {e e' e'' t t' : Explorer} {place : Place} {ks : List Container}
  {n : ItemNo} {i : Item}

/-- First the missing items were put behind those at a place, the files behind the others, and then
nothing was changed. -/
structure FillsOnce (e e' e'' : Explorer) (place : Place) (new : List Item) : Prop where
  appends : e.forest.Appends e'.forest place new
  filesLast : new.Pairwise fun i j => i.kind = .file → j.kind = .file
  again : e''.forest = e'.forest

/-- A place is filled in once, if it is filled in twice with the same containers. -/
theorem fillsOnce_of_hasFilled (h : HasFilled w.cwd t e' place ks)
    (h' : HasFilled w.cwd t' e'' place ks) (ht : t.forest = e.forest) (ht' : t'.forest = e'.forest)
    (hc : e.forest.IsConsistent) (hplace : e.forest.HasPlace place)
    (hks : ks.Pairwise fun k l => k.kind = .file → l.kind = .file) :
    FillsOnce e e' e'' place (Container.newItems w.cwd (e.forest.ids place) ks) where
  appends := by
    rw [← ht] at hplace ⊢
    exact h.appends hplace
  filesLast := by
    rw [Container.newItems, List.pairwise_map]
    exact hks.sublist (Container.absentFrom_sublist w.cwd _ ks)
  again := by
    rw [← ht] at hc hplace
    refine (h'.again fun k hk => ?_).trans ht'
    rw [ht']
    exact h.mem_ids hc hplace hk

/-! ## What is found the second time -/

/-- Every folder is known to the survey, if it is in force. -/
abbrev KnowsFolders (cwd : String) (e : Explorer) : Prop :=
  e.Remembers fun folders owners => ∀ f ∈ folders, canonical cwd f ∈ owners.keys

theorem roots_again (hw : w.IsInMemory) (he : e.KnowsFolders w.cwd)
    (h : HasFilled w.cwd (e.lookedForRoots w) e' place ks) :
    (e'.roots w).1 = (e.roots w).1 := by
  have hself : e'.surveyed w = e' :=
    surveyed_of_isSurveyed (h.survey.isSurveyed.trans (isSurveyed_surveyed e w)) w
  have hknown := he.surveyed (Survey.isLasting_knowsFolders hw e.conventions)
  -- the folders are known, so to look for their roots has not changed what is remembered
  have howners : e'.survey.owners = (e.surveyed w).survey.owners :=
    h.survey.owners.trans (Survey.owners_buildRoots hw hknown)
  rw [roots, hself, h.conventions, h.survey.folders]
  exact Survey.fst_buildRoots_congr howners w _ _

theorem rootContainers_again (hw : w.IsInMemory)
    (h : HasFilled w.cwd (e.lookedBelowRoot w i) e' place ks) :
    e'.rootContainers w i = e.rootContainers w i := by
  have hself : e'.surveyed w = e' :=
    surveyed_of_isSurveyed (h.survey.isSurveyed.trans (isSurveyed_surveyed e w)) w
  have hagain := Survey.rootChildren_again hw i.location (ownerOfRoot i) h.survey.owners
  have hcontents : e'.rootContents w i = e'.survey.rootChildren w (e.surveyed w).conventions
      i.location (ownerOfRoot i) := by
    rw [rootContents, hself, h.conventions]
    rfl
  rw [rootContainers, rootContainers, hcontents, hagain.1, hagain.2.1]
  rfl

theorem packageContainers_again (h : HasFilled w.cwd (e.lookedBelowPackage w i) e' place ks) :
    e'.packageContainers w i = e.packageContainers w i := by
  rw [packageContainers, packageContainers, h.conventions]
  rfl

/-! ## The expansions -/

theorem expandTop_twice (hw : w.IsInMemory) (h : e.forest.IsConsistent)
    (he : e.KnowsFolders w.cwd) : ∃ e' e'' new, e.expandTop w = .ok e' ∧
      e'.expandTop w = .ok e'' ∧ FillsOnce e e' e'' .top new := by
  obtain ⟨e', hexpand, hfilled⟩ := expandTop_eq h w
  have hsame := forest_lookedForRoots e w
  have hc : e'.forest.IsConsistent := hfilled.isConsistent (hsame.symm ▸ h) trivial
  obtain ⟨e'', hexpand', hfilled'⟩ := expandTop_eq hc w
  rw [roots_again hw he hfilled] at hfilled'
  refine ⟨e', e'', _, hexpand, hexpand', fillsOnce_of_hasFilled hfilled hfilled' hsame
    (forest_lookedForRoots e' w) h trivial ?_⟩
  -- no root is a file
  refine List.pairwise_of_forall_mem_list fun k hk l _ hfile => ?_
  have hroot := Survey.isRoot_of_mem_buildRoots hk
  rw [hfile] at hroot
  exact absurd hroot (by decide)

theorem expandRoot_twice (hw : w.IsInMemory) (h : e.forest.IsConsistent)
    (hi : e.forest.item? n = some i) : ∃ e' e'' new, e.expandRoot w n i = .ok e' ∧
      e'.expandRoot w n i = .ok e'' ∧ FillsOnce e e' e'' (.under n) new := by
  obtain ⟨e', hexpand, hfilled⟩ := expandRoot_eq h w hi
  have hsame := forest_lookedBelowRoot e w i
  have hplace := Forest.lt_size_of_item? hi
  have hc : e'.forest.IsConsistent := hfilled.isConsistent (hsame.symm ▸ h) (hsame.symm ▸ hplace)
  have hi' : e'.forest.item? n = some i :=
    (hfilled.appends (hsame.symm ▸ hplace)).keeps n i (hsame.symm ▸ hi)
  obtain ⟨e'', hexpand', hfilled'⟩ := expandRoot_eq hc w hi'
  rw [rootContainers_again hw hfilled] at hfilled'
  refine ⟨e', e'', _, hexpand, hexpand', fillsOnce_of_hasFilled hfilled hfilled' hsame
    (forest_lookedBelowRoot e' w i) h hplace ?_⟩
  -- the files stand behind the packages
  refine List.pairwise_append.mpr ⟨?_, ?_, ?_⟩
  · rw [List.pairwise_map]
    exact List.pairwise_of_forall fun d d' hfile => absurd hfile (by simp [Container.plain])
  · rw [List.pairwise_map]
    exact List.pairwise_of_forall fun f f' _ => rfl
  · intro k hk l hl _
    obtain ⟨f, -, rfl⟩ := List.mem_map.mp hl
    rfl

theorem expandPackage_twice (h : e.forest.IsConsistent) (w : Workspace)
    (hi : e.forest.item? n = some i) : ∃ e' e'' new, e.expandPackage w n i = .ok e' ∧
      e'.expandPackage w n i = .ok e'' ∧ FillsOnce e e' e'' (.under n) new := by
  obtain ⟨e', hexpand, hfilled⟩ := expandPackage_eq h w hi
  have hplace := Forest.lt_size_of_item? hi
  have hc : e'.forest.IsConsistent := hfilled.isConsistent h hplace
  obtain ⟨e'', hexpand', hfilled'⟩ := expandPackage_eq hc w ((hfilled.appends hplace).keeps n i hi)
  rw [packageContainers_again hfilled] at hfilled'
  refine ⟨e', e'', _, hexpand, hexpand',
    fillsOnce_of_hasFilled hfilled hfilled' rfl rfl h hplace ?_⟩
  rw [packageContainers, List.pairwise_map]
  exact List.pairwise_of_forall fun f f' _ => rfl

/-- A request that fills in a place can be made twice, and the second time nothing is made. -/
theorem call_twice (hw : w.IsInMemory) (h : e.IsOrderly w.cwd .loose) (he : e.KnowsFolders w.cwd)
    (p : SymbolProvider) {request : Request} (hfills : e.forest.FillsIn request place) :
    ∃ e' e'' new, e.call w p request = .ok (.done, e') ∧ e'.call w p request = .ok (.done, e'') ∧
      FillsOnce e e' e'' place new := by
  have hJ := Judgement.holds_loose w e.conventions
  have hc := h.forest.consistent
  cases hfills with
  | top =>
      obtain ⟨e', e'', new, hexpand, hexpand', honce⟩ := expandTop_twice hw hc he
      refine ⟨e', e'', new, ?_, ?_, honce⟩
      · simp only [call, begin, hexpand, bind, Except.bind, pure, Except.pure]
      · simp only [call, begin, hexpand', bind, Except.bind, pure, Except.pure]
  | @under n i hn hi hkind =>
      have hattached := (h.isAttached_iff n).mpr hn
      rcases hkind with hroot | hpackage
      · obtain ⟨e', e'', new, hexpand, hexpand', honce⟩ := expandRoot_twice hw hc hi
        obtain ⟨t, hok, ht, hgrows⟩ := expandRoot_spec hw hJ h hi hroot
        obtain rfl : e' = t := Except.ok.inj (hexpand.symm.trans hok)
        exact ⟨e', e'', new, call_expand_of_expandRoot p hi hattached hroot hexpand,
          call_expand_of_expandRoot p (hgrows.forest.keeps n i hi)
            ((ht.isAttached_iff n).mpr (hn.grows hgrows.forest)) hroot hexpand', honce⟩
      · obtain ⟨e', e'', new, hexpand, hexpand', honce⟩ := expandPackage_twice hc w hi
        obtain ⟨t, hok, ht, hgrows⟩ := expandPackage_spec hw h hi hpackage
        obtain rfl : e' = t := Except.ok.inj (hexpand.symm.trans hok)
        exact ⟨e', e'', new, call_expand_of_expandPackage p hi hattached hpackage hexpand,
          call_expand_of_expandPackage p (hgrows.forest.keeps n i hi)
            ((ht.isAttached_iff n).mpr (hn.grows hgrows.forest)) hpackage hexpand', honce⟩

/-! ## The leaves of a file -/

/-- The leaves of a file by its text: none if it has no text. -/
def leavesAt (e : Explorer) (w : Workspace) (p : SymbolProvider) (location : String) : List Leaf :=
  ((e.text? w location).map fun text => p.leaves ⟨location, text, 0⟩).getD []

theorem isGenuine_leavesAt (e : Explorer) (w : Workspace) (p : SymbolProvider)
    (location : String) : ∀ leaf ∈ e.leavesAt w p location, leaf.IsGenuine := by
  unfold leavesAt
  cases e.text? w location with
  | none => simp
  | some text => exact p.isGenuine_leaves ⟨location, text, 0⟩

/-- To fill in a file is to bring it into line with the leaves of its text. -/
theorem call_expand_file (p : SymbolProvider) (hi : e.forest.item? n = some i)
    (hattached : e.forest.isAttached n = true) (hfile : i.kind = .file) :
    ∃ events, e.call w p (.expand n) = (do
      let (_, e') ← (e.report events).reconcile w n (e.leavesAt w p i.location)
      return (.done, e')) := by
  simp only [call, begin, beginExpand, hi, hattached, Bool.not_true, Bool.false_eq_true, if_false,
    hfile]
  rw [beginRefresh, leavesAt, text?]
  cases hremembered : e.documents.get? i.location with
  | some text => exact ⟨symbolEvents p ⟨i.location, text, 0⟩, rfl⟩
  | none =>
      cases hread : w.readContent i.location with
      | ok text => exact ⟨symbolEvents p ⟨i.location, text, 0⟩, rfl⟩
      | error err =>
          refine ⟨[.cannotReadFile i.location err], ?_⟩
          -- without a text there are no leaves
          change _ = ((e.report [.cannotReadFile i.location err]).reconcile w n [] >>= _)
          dsimp only
          cases (e.report [.cannotReadFile i.location err]).reconcile w n [] <;> rfl

/-- A file that was brought into line with the leaves of its text is left alone the next time. -/
theorem call_expand_file_twice (h : e.IsOrderly w.cwd .loose) (p : SymbolProvider)
    (hn : e.forest.InTree n) (hi : e.forest.item? n = some i) (hfile : i.kind = .file) :
    ∃ e' e'', e.call w p (.expand n) = .ok (.done, e') ∧
      e'.call w p (.expand n) = .ok (.done, e'') ∧ e''.forest = e'.forest := by
  have hleaves := e.isGenuine_leavesAt w p i.location
  have hleaf : i.kind.isLeaf = false := by rw [hfile]; rfl
  obtain ⟨events, hcall⟩ := call_expand_file (w := w) p hi ((h.isAttached_iff n).mpr hn) hfile
  obtain ⟨r, e', hreconcile, he', ⟨-, -, hdocuments⟩, hdone⟩ :=
    reconcile_spec (h.report events) hi hfile hleaves
  rw [hreconcile] at hcall
  have hi' : e'.forest.item? n = some i := hdone.keeps n i hi
  have hn' : e'.forest.InTree n := .of_isReconciled h.forest hi hfile hdone hn hi hleaf
  obtain ⟨events', hcall'⟩ :=
    call_expand_file (w := w) p hi' ((he'.isAttached_iff n).mpr hn') hfile
  -- the text is the same, and so are the leaves
  have hsame : e'.leavesAt w p i.location = e.leavesAt w p i.location := by
    rw [leavesAt, leavesAt, text?, text?, hdocuments]
    rfl
  obtain ⟨r', g, hok, hdiff⟩ := Forest.exists_isDiff w.cwd h.forest.consistent hi
    fun leaf hmem => (hleaves leaf hmem).isNameable
  have hg : e'.forest = g := by
    have hgoes := reconcile_of_forest (e := e.report events) (w := w) hok
    rw [hreconcile, Except.ok.injEq, Prod.mk.injEq] at hgoes
    rw [hgoes.2]
    rfl
  have hagain := hdiff.reconcile_again hi fun leaf hmem => (hleaves leaf hmem).isNameable
  rw [← hg, ← hsame] at hagain
  have hreconcile' : (e'.report events').reconcile w n (e'.leavesAt w p i.location) =
      .ok (⟨[], []⟩, (e'.report events').report
        (e'.forest.reconciliationEvents n ⟨[], []⟩)) :=
    reconcile_of_forest hagain
  rw [hreconcile'] at hcall'
  exact ⟨e', _, hcall, hcall', rfl⟩

end Explorer

namespace Session

/-- In every session that comes about the folders are known to a survey that is in force. -/
theorem Arises.knowsFolders {cwd : String} {c : Conventions} {s : Session}
    (h : Arises (fun w => w.IsInMemory ∧ w.cwd = cwd) c s) : s.explorer.KnowsFolders cwd := by
  refine h.remembers (J := .loose) (fun w hw => ⟨hw.1, hw.2, Judgement.holds_loose w c⟩) ?_
  rintro w ⟨hw, rfl⟩
  exact Survey.isLasting_knowsFolders hw c

/-- In every session that comes about while the files change in any way, a request that fills in the
top, a root or a package puts what is missing behind what is there, and if it is made twice then the
second time nothing changes.  The second of two requests that bring the leaves of a file up to date
changes nothing either. -/
theorem Arises.expand_idempotent {cwd : String} {c : Conventions} {s : Session} {w : Workspace}
    (h : Arises (fun w => w.IsInMemory ∧ w.cwd = cwd) c s) (hw : w.IsInMemory) (hcwd : w.cwd = cwd)
    (p : SymbolProvider) :
    (∀ request place, s.explorer.forest.FillsIn request place → ∃ e' e'' new,
      s.explorer.call w p request = .ok (.done, e') ∧
        e'.call w p request = .ok (.done, e'') ∧
          Explorer.FillsOnce s.explorer e' e'' place new) ∧
    ∀ n i, s.explorer.forest.InTree n → s.explorer.forest.item? n = some i → i.kind = .file →
      ∃ e' e'', s.explorer.call w p (.expand n) = .ok (.done, e') ∧
        e'.call w p (.expand n) = .ok (.done, e'') ∧ e''.forest = e'.forest := by
  subst hcwd
  have hs := h.isOrderly_loose.1.explorer
  refine ⟨fun request place hfills => ?_, fun n i hn hi hfile => ?_⟩
  · exact Explorer.call_twice hw hs h.knowsFolders p hfills
  · exact Explorer.call_expand_file_twice hs p hn hi hfile

/-- A module below which a document was opened gets the package and the file that are missing, and
nothing more the second time.  The opened file keeps its leaves. -/
theorem Arises.expand_idempotent_opened :
    ∃ s w e' e'' new, Arises (fun w => w.IsInMemory ∧ w.cwd = "/") .usual s ∧
      Workspace.IsInMemory w ∧ w.cwd = "/" ∧ s.explorer.forest.children 0 = [1] ∧
      s.explorer.call w .scanner (.expand 0) = .ok (.done, e') ∧
      e'.forest.children 0 = [1, 4, 5] ∧ e'.call w .scanner (.expand 0) = .ok (.done, e'') ∧
      Explorer.FillsOnce s.explorer e' e'' (.under 0) new ∧
      ∃ t t', s.explorer.call w .scanner (.expand 2) = .ok (.done, t) ∧
        t.forest.children 2 = [3] ∧ t.call w .scanner (.expand 2) = .ok (.done, t') ∧
        t'.forest = t.forest := by
  let w := Workspace.holding "/"
    [("/a/go.mod", ""), ("/a/x_test.go", ""), ("/a/c/y_test.go", "")]
  have hw : w.IsInMemory := Workspace.isInMemory_holding (by decide) _
  let opened : Document :=
    ⟨"/a/b/z_test.go", "package b\n\nfunc TestZ(t *testing.T) \x7b\x7d\n", 1⟩
  let childrenAfter : Explorer → ItemNo → List ItemNo := fun e n =>
    (e.call w .scanner (.expand n)).toOption.elim [] fun result => result.2.forest.children n
  have hview : ((ofExplorer (.start w .usual ["/a"])).run w .scanner
      [.call (.update opened), .settle 0]).toOption.map (fun s =>
        (s.explorer.forest.top, [0, 1].map s.explorer.forest.children,
          [0, 2].map fun n => (s.explorer.forest.item? n).map Item.kind,
          [0, 2].map (childrenAfter s.explorer))) =
      some ([0], [[1], [2]], [some .module, some .file], [[1, 4, 5], [3]]) := by
    decide +kernel
  obtain ⟨s, hrun, hview⟩ := exists_ok_of_view hview
  simp only [Prod.mk.injEq, List.map_cons, List.map_nil, List.cons.injEq, and_true] at hview
  obtain ⟨htop, ⟨hmodule, hpackage⟩, ⟨hkind, hfile⟩, hafter, hafter'⟩ := hview
  obtain ⟨i, hi, hkind⟩ := Option.map_eq_some_iff.mp hkind
  obtain ⟨j, hj, hfile⟩ := Option.map_eq_some_iff.mp hfile
  have hs : Arises (fun w => w.IsInMemory ∧ w.cwd = "/") .usual s :=
    (Arises.start ["/a"] ⟨hw, rfl⟩).run ⟨hw, rfl⟩ .scanner hrun
  have h0 : s.explorer.forest.InTree 0 := .top (by rw [htop]; simp)
  have h1 : s.explorer.forest.InTree 1 := .under h0 (by rw [hmodule]; simp)
  have h2 : s.explorer.forest.InTree 2 := .under h1 (by rw [hpackage]; simp)
  obtain ⟨hfills, hfiles⟩ := Arises.expand_idempotent hs hw rfl .scanner
  obtain ⟨e', e'', new, hcall, hcall', honce⟩ :=
    hfills (.expand 0) (.under 0) (.under h0 hi (Or.inl (by rw [hkind]; rfl)))
  obtain ⟨t, t', hcallt, hcallt', hsame⟩ := hfiles 2 j h2 hj hfile
  simp only [childrenAfter, hcall, Except.toOption, Option.elim_some] at hafter
  simp only [childrenAfter, hcallt, Except.toOption, Option.elim_some] at hafter'
  exact ⟨s, w, e', e'', new, hs, hw, rfl, hmodule, hcall, hafter, hcall', honce, t, t',
    hcallt, hafter', hcallt', hsame⟩

end Session

end TestAtlas
