import TestAtlas.Proofs.Workspace.Ownership
import TestAtlas.Workspace.Layout

/-!
# What discovery comes across

A judgement says which owners and which labels of modules are right.  Roots, packages and test
files that discovery finds are right by every judgement that holds in the workspace: a root is a
module that owns something or a folder with something unowned in it, a package is reached from its
root through names that are not left out and has the owner of the root, and a test file lies
directly in its directory.  The main statements are `buildRoots_spec` and `rootChildren_spec`.
-/

namespace TestAtlas

open TestAtlas.Path

/-- The names lead from one directory to another, and none of them is left out. -/
def Conventions.Reaches (c : Conventions) (root directory : String) : Prop :=
  ∃ names, (∀ n ∈ names, IsSegment n ∧ c.isExcluded n = false) ∧ directory = descend root names

/-- Some file name that can stand in a location is that of a test file. -/
def Conventions.HasTestName (c : Conventions) : Prop :=
  ∃ name, IsSegment name ∧ c.isTestFile name = true

namespace Conventions

theorem Reaches.refl (c : Conventions) (d : String) : c.Reaches d d :=
  ⟨[], by simp, rfl⟩

theorem Reaches.cons {c : Conventions} {d n p : String} (hn : IsSegment n)
    (hex : c.isExcluded n = false) (h : c.Reaches (below d n) p) : c.Reaches d p := by
  obtain ⟨names, hnames, rfl⟩ := h
  refine ⟨n :: names, ?_, rfl⟩
  intro m hm
  rcases List.mem_cons.mp hm with rfl | hm
  · exact ⟨hn, hex⟩
  · exact hnames m hm

theorem Reaches.isAtOrBelow {c : Conventions} {d p : String} (hd : IsLocation d)
    (h : c.Reaches d p) : IsLocation p ∧ isAtOrBelow p d = true := by
  obtain ⟨names, hnames, rfl⟩ := h
  have hseg : ∀ n ∈ names, IsSegment n := fun n hn => (hnames n hn).1
  exact ⟨isLocation_descend hd hseg, isAtOrBelow_descend hd hseg⟩

/-- The names below a directory that are not left out lead to a place strictly below it. -/
theorem Reaches.ne_of_below {c : Conventions} {d n p : String} (hd : IsLocation d)
    (hn : IsSegment n) (h : c.Reaches (below d n) p) : p ≠ d := by
  rintro rfl
  have hback := (h.isAtOrBelow (hd.below hn)).2
  exact below_ne_self hd hn
    (isAtOrBelow_antisymm (hd.below hn) hd (isAtOrBelow_below_self hd hn) hback)

/-- What lies between on the way down is reached as well, and reaches further. -/
theorem Reaches.between {c : Conventions} {d m p : String} (hd : IsLocation d)
    (hm : IsLocation m) (h : c.Reaches d p) (hmd : Path.isAtOrBelow m d = true)
    (hpm : Path.isAtOrBelow p m = true) : c.Reaches d m ∧ c.Reaches m p := by
  have hp := (h.isAtOrBelow hd).1
  obtain ⟨names, hnames, rfl⟩ := h
  obtain ⟨before, hbefore, rfl⟩ := exists_descend hd hm hmd
  obtain ⟨after, hafter, hsplit⟩ := exists_descend hm hp hpm
  have hall : ∀ n ∈ before ++ after, IsSegment n := by
    intro n hn
    rcases List.mem_append.mp hn with hn | hn
    · exact hbefore n hn
    · exact hafter n hn
  -- the names that lead down are the relative path, so they are those before and those after
  have heq : names = before ++ after := by
    rw [← relative_descend hd fun n hn => (hnames n hn).1, hsplit, descend, descend,
      ← List.foldl_append]
    exact relative_descend hd hall
  rw [hsplit]
  subst heq
  exact ⟨⟨before, fun n hn => hnames n (List.mem_append_left _ hn), rfl⟩,
    ⟨after, fun n hn => hnames n (List.mem_append_right _ hn), rfl⟩⟩

theorem mem_subdirectories {c : Conventions} {w : Workspace} (hw : w.IsInMemory) {d sub : String}
    (h : sub ∈ c.subdirectories d (w.entries d)) :
    ∃ n, IsSegment n ∧ c.isExcluded n = false ∧ sub = below d n := by
  obtain ⟨e, he, rfl⟩ := List.mem_map.mp h
  obtain ⟨hmem, hcond⟩ := List.mem_filter.mp he
  rw [Bool.and_eq_true, Bool.not_eq_true'] at hcond
  exact ⟨e.1, Workspace.isSegment_of_mem_entries hw hmem, hcond.2, rfl⟩

theorem isLocation_of_mem_subdirectories {c : Conventions} {w : Workspace} (hw : w.IsInMemory)
    {d : String} (hd : IsLocation d) : ∀ sub ∈ c.subdirectories d (w.entries d), IsLocation sub := by
  intro sub hsub
  obtain ⟨n, hn, -, rfl⟩ := mem_subdirectories hw hsub
  exact hd.below hn

theorem mem_testFiles {c : Conventions} {w : Workspace} (hw : w.IsInMemory) {d file : String}
    (h : file ∈ c.testFiles d (w.entries d)) :
    ∃ n, IsSegment n ∧ c.isTestFile n = true ∧ file = below d n := by
  obtain ⟨e, he, rfl⟩ := List.mem_map.mp h
  obtain ⟨hmem, hcond⟩ := List.mem_filter.mp he
  rw [Bool.and_eq_true] at hcond
  exact ⟨e.1, Workspace.isSegment_of_mem_entries hw hmem, hcond.2, rfl⟩

end Conventions

/-- What counts as right of the owners of directories and of the labels of modules. -/
structure Judgement where
  owns : String → Owner → Prop
  named : String → String → Prop

namespace Survey

/-- The label of a module. -/
def moduleLabel (w : Workspace) (c : Conventions) (root : String) : String :=
  (moduleName w c .empty root).1

theorem fst_moduleName (w : Workspace) (c : Conventions) (s : Survey) (root : String) :
    (moduleName w c s root).1 = moduleLabel w c root := by
  rw [moduleLabel, moduleName, moduleName]
  split <;> rfl

theorem owners_moduleName (w : Workspace) (c : Conventions) (s : Survey) (root : String) :
    (moduleName w c s root).2.owners = s.owners := by
  rw [moduleName]
  split <;> rfl

end Survey

namespace Judgement

/-- The judgement holds in a workspace: it is inherited, owners lie at or above what they own, and
labels are those that the manifests declare. -/
structure Holds (J : Judgement) (w : Workspace) (c : Conventions) : Prop where
  inherited : Survey.IsInherited w c J.owns
  above : ∀ d m, IsLocation d → J.owns d (some m) → IsLocation m ∧ isAtOrBelow d m = true
  labelled : ∀ m, J.named m (Survey.moduleLabel w c m)

/-- A root by the judgement: a module that owns something, or one of the folders in which something
has no owner. -/
inductive IsRoot (J : Judgement) (folders : List String) : Kind → String → String → Prop
  | module {d m label : String} : IsLocation d → J.owns d (some m) → J.named m label →
      IsRoot J folders .module m label
  | workspace {d root : String} : IsLocation d → root ∈ folders → isAtOrBelow d root = true →
      J.owns d none → IsRoot J folders .workspace root (lastPart root)

theorem IsRoot.isRoot {J : Judgement} {folders : List String} {kind : Kind}
    {location label : String} (h : J.IsRoot folders kind location label) : kind.isRoot = true := by
  cases h <;> rfl

end Judgement

namespace Survey

variable {w : Workspace} {c : Conventions} {J : Judgement}

/-! ## Roots -/

theorem mem_moduleRoots {s : Survey} (h : Agrees J.owns s.owners) {d : String}
    (hd : d ∈ s.moduleRoots) : IsLocation d ∧ J.owns d (some d) := by
  obtain ⟨e, he, rfl⟩ := List.mem_map.mp hd
  obtain ⟨hmem, howner⟩ := List.mem_filter.mp he
  have heq : e.2 = some e.1 := by simpa using howner
  have hright := h e.1 e.2 hmem
  rwa [heq] at hright

theorem owners_emit (w : Workspace) (c : Conventions) (roots : List Container) (s : Survey)
    (kind : Kind) (path : String) : (emit w c roots s kind path).2.owners = s.owners := by
  unfold emit
  split
  · rfl
  · split
    · exact owners_moduleName w c s path
    · rfl

/-- What is emitted is the root asked for, if it was not there. -/
theorem mem_emit {roots : List Container} {s : Survey} {kind : Kind} {path : String}
    {r : Container} (h : r ∈ (emit w c roots s kind path).1) :
    r ∈ roots ∨ r = ⟨kind, path, if kind = .module then moduleLabel w c path else lastPart path⟩ := by
  unfold emit at h
  split at h
  · exact Or.inl h
  · split at h
    · rename_i hkind
      subst hkind
      simpa only [fst_moduleName, List.mem_append, List.mem_singleton, if_true] using h
    · rename_i hkind
      simp only [List.mem_append, List.mem_singleton] at h
      rw [if_neg hkind]
      exact h

/-- Roots that are right, with a survey that agrees. -/
def IsRight (J : Judgement) (folders : List String) (found : List Container × Survey) : Prop :=
  (∀ r ∈ found.1, J.IsRoot folders r.kind r.location r.label) ∧ Agrees J.owns found.2.owners

theorem IsRight.emit_module (hJ : J.Holds w c) {folders : List String} {roots : List Container}
    {s : Survey} (h : IsRight J folders (roots, s)) {d m : String} (hd : IsLocation d)
    (hm : J.owns d (some m)) : IsRight J folders (emit w c roots s .module m) := by
  constructor
  · intro r hr
    rcases mem_emit hr with hr | rfl
    · exact h.1 r hr
    · exact .module hd hm (hJ.labelled m)
  · rw [owners_emit]
    exact h.2

theorem IsRight.emit_workspace {folders : List String} {roots : List Container} {s : Survey}
    (h : IsRight J folders (roots, s)) {root : String} (hmem : root ∈ folders)
    (hroot : IsLocation root) (hnone : J.owns root none) :
    IsRight J folders (emit w c roots s .workspace root) := by
  constructor
  · intro r hr
    rcases mem_emit hr with hr | rfl
    · exact h.1 r hr
    · exact .workspace hroot hmem (isAtOrBelow_refl root) hnone
  · rw [owners_emit]
    exact h.2

theorem IsRight.emitModules (hJ : J.Holds w c) {folders : List String} {roots : List Container}
    {s : Survey} (h : IsRight J folders (roots, s)) {paths : List String}
    (hpaths : ∀ m ∈ paths, ∃ d, IsLocation d ∧ J.owns d (some m)) :
    IsRight J folders (emitModules w c roots s paths) := by
  unfold Survey.emitModules
  induction paths generalizing roots s with
  | nil => exact h
  | cons m paths ih =>
      obtain ⟨d, hd, hm⟩ := hpaths m (by simp)
      have hstep := h.emit_module (c := c) hJ hd hm
      exact ih hstep fun m' hm' => hpaths m' (by simp [hm'])

theorem IsRight.report {folders : List String} {roots : List Container} {s : Survey}
    (h : IsRight J folders (roots, s)) (events : List Event) :
    IsRight J folders (roots, s.report events) :=
  h

theorem folderRoots_right (hw : w.IsInMemory) (hJ : J.Holds w c) {folders : List String}
    {roots : List Container} {s : Survey} (h : IsRight J folders (roots, s)) {folder : String}
    (hmem : folder ∈ folders) (hfolder : IsLocation folder) :
    IsRight J folders (folderRoots w c roots s folder) := by
  have hself := canonical_of_isLocation hfolder w.cwd
  obtain ⟨hown, hagrees⟩ := ownerOf_agrees hw.rooted hJ.inherited h.2 folder
  rw [hself] at hown
  unfold folderRoots
  simp only [hself]
  generalize hfound : ownerOf w c s folder = found at hown hagrees ⊢
  obtain ⟨owner, s'⟩ := found
  have hbase : IsRight J folders (roots, s') := ⟨h.1, hagrees⟩
  -- modules inside the folder own themselves, so they are right as they stand
  have hnested : ∀ m ∈ (moduleRootsWithin w s' folder).filter (· ≠ folder),
      ∃ d, IsLocation d ∧ J.owns d (some m) := by
    intro m hm
    have hmod := mem_moduleRoots hagrees (List.mem_of_mem_filter (List.mem_of_mem_filter hm))
    exact ⟨m, hmod⟩
  cases owner with
  | some owner =>
      apply hbase.emitModules hJ
      intro m hm
      rcases List.mem_cons.mp hm with rfl | hm
      · exact ⟨folder, hfolder, hown⟩
      · exact hnested m hm
  | none =>
      have hmods := hbase.emitModules hJ hnested
      simp only
      split
      · exact hmods.emit_workspace hmem hfolder hown
      · split
        · exact (hmods.report _).emit_workspace hmem hfolder hown
        · exact hmods.report _

/-- Finds the roots of one more folder. -/
def addFolder (w : Workspace) (c : Conventions) (found : List Container × Survey)
    (folder : String) : List Container × Survey :=
  folderRoots w c found.1 found.2 folder

theorem buildRoots_eq (w : Workspace) (c : Conventions) (s : Survey) (folders : List String) :
    buildRoots w c s folders =
      let found := folders.foldl (addFolder w c) ([], s)
      (found.1, found.2.report [.discoveredRoots found.1.length]) :=
  rfl

theorem foldl_addFolder_right (hw : w.IsInMemory) (hJ : J.Holds w c) {folders : List String}
    (hfolders : ∀ f ∈ folders, IsLocation f) {fs : List String} (hfs : ∀ f ∈ fs, f ∈ folders)
    {found : List Container × Survey} (hfound : IsRight J folders found) :
    IsRight J folders (fs.foldl (addFolder w c) found) := by
  induction fs generalizing found with
  | nil => exact hfound
  | cons f fs ih =>
      have hf := hfs f (by simp)
      have hstep := folderRoots_right hw hJ hfound hf (hfolders f hf)
      rw [List.foldl_cons]
      exact ih (fun g hg => hfs g (by simp [hg])) hstep

/-- The roots that discovery finds are right, and so is what the survey remembers then. -/
theorem buildRoots_spec (hw : w.IsInMemory) (hJ : J.Holds w c) {s : Survey}
    (h : Agrees J.owns s.owners) {folders : List String} (hfolders : ∀ f ∈ folders, IsLocation f) :
    IsRight J folders (buildRoots w c s folders) := by
  rw [buildRoots_eq]
  have hnone : IsRight J folders ([], s) := ⟨by simp, h⟩
  exact (foldl_addFolder_right hw hJ hfolders (fun f hf => hf) hnone).report _

/-! ## Packages and test files -/

/-- A package by the judgement, found from one of the given directories. -/
def IsPackageFrom (J : Judgement) (c : Conventions) (owner : Owner) (ds : List String)
    (p : String) : Prop :=
  (∃ d ∈ ds, c.Reaches d p) ∧ J.owns p owner ∧ c.HasTestName

/-- Looks into one more directory for packages, and with `deeper` below it. -/
def enter (w : Workspace) (c : Conventions) (owner : Owner)
    (deeper : List String → Survey → List String × Survey) (found : List String × Survey)
    (d : String) : List String × Survey :=
  let answer := ownerOf w c found.2 d
  if answer.1 ≠ owner then (found.1, answer.2)
  else
    let below := deeper (c.subdirectories d (w.entries d)) (answer.2.list w d).2
    (found.1 ++ (if (c.testFiles d (w.entries d)).isEmpty then [] else [d]) ++ below.1, below.2)

theorem packagesFrom_succ (w : Workspace) (c : Conventions) (owner : Owner) (depth : Nat)
    (ds : List String) (s : Survey) :
    packagesFrom w c owner (depth + 1) ds s =
      ds.foldl (enter w c owner (packagesFrom w c owner depth)) ([], s) := by
  rw [packagesFrom]
  refine congrArg (fun step => ds.foldl step ([], s)) ?_
  funext found d
  simp only [enter, fst_list]
  congr

theorem enter_spec (hw : w.IsInMemory) (hJ : J.Holds w c) {owner : Owner}
    {deeper : List String → Survey → List String × Survey} {ds : List String}
    (hdeeper : ∀ (subs : List String) (t : Survey), (∀ d ∈ subs, IsLocation d) →
      Agrees J.owns t.owners → (∀ p ∈ (deeper subs t).1, IsPackageFrom J c owner subs p) ∧
        Agrees J.owns (deeper subs t).2.owners)
    {found : List String × Survey} (hfound : ∀ p ∈ found.1, IsPackageFrom J c owner ds p)
    (h : Agrees J.owns found.2.owners) {d : String} (hd : d ∈ ds) (hloc : IsLocation d) :
    (∀ p ∈ (enter w c owner deeper found d).1, IsPackageFrom J c owner ds p) ∧
      Agrees J.owns (enter w c owner deeper found d).2.owners := by
  obtain ⟨hown, hagrees⟩ := ownerOf_agrees hw.rooted hJ.inherited h d
  rw [canonical_of_isLocation hloc] at hown
  unfold enter
  generalize ownerOf w c found.2 d = answer at hown hagrees
  by_cases ho : answer.1 = owner
  · simp only [ho, ne_eq, not_true_eq_false, if_false]
    rw [ho] at hown
    obtain ⟨hbelow, hafter⟩ := hdeeper _ (answer.2.list w d).2
      (Conventions.isLocation_of_mem_subdirectories hw hloc) hagrees
    refine ⟨?_, hafter⟩
    intro p hp
    rw [List.mem_append, List.mem_append] at hp
    rcases hp with (hp | hp) | hp
    · exact hfound p hp
    · split at hp
      · exact absurd hp (by simp)
      · rename_i hempty
        rw [List.mem_singleton] at hp
        subst hp
        obtain ⟨file, hfile⟩ := List.exists_mem_of_ne_nil _
          fun hnil => hempty (List.isEmpty_iff.mpr hnil)
        obtain ⟨n, hn, htest, -⟩ := Conventions.mem_testFiles hw hfile
        exact ⟨⟨p, hd, .refl c p⟩, hown, n, hn, htest⟩
    · obtain ⟨⟨sub, hsub, hreach⟩, hpown, htest⟩ := hbelow p hp
      obtain ⟨n, hn, hex, rfl⟩ := Conventions.mem_subdirectories hw hsub
      exact ⟨⟨d, hd, hreach.cons hn hex⟩, hpown, htest⟩
  · simp only [ne_eq, ho, not_false_eq_true, if_true]
    exact ⟨hfound, hagrees⟩

theorem foldl_enter_spec (hw : w.IsInMemory) (hJ : J.Holds w c) {owner : Owner}
    {deeper : List String → Survey → List String × Survey} {ds : List String}
    (hdeeper : ∀ (subs : List String) (t : Survey), (∀ d ∈ subs, IsLocation d) →
      Agrees J.owns t.owners → (∀ p ∈ (deeper subs t).1, IsPackageFrom J c owner subs p) ∧
        Agrees J.owns (deeper subs t).2.owners)
    (hds : ∀ d ∈ ds, IsLocation d) {rest : List String} (hrest : ∀ d ∈ rest, d ∈ ds)
    {found : List String × Survey} (hfound : ∀ p ∈ found.1, IsPackageFrom J c owner ds p)
    (h : Agrees J.owns found.2.owners) :
    (∀ p ∈ (rest.foldl (enter w c owner deeper) found).1, IsPackageFrom J c owner ds p) ∧
      Agrees J.owns (rest.foldl (enter w c owner deeper) found).2.owners := by
  induction rest generalizing found with
  | nil => exact ⟨hfound, h⟩
  | cons d rest ih =>
      have hd : d ∈ ds := hrest d (by simp)
      obtain ⟨hstep, hafter⟩ := enter_spec hw hJ hdeeper hfound h hd (hds d hd)
      rw [List.foldl_cons]
      exact ih (fun d' hd' => hrest d' (by simp [hd'])) hstep hafter

/-- The packages found from some directories are reached from one of them, have the owner asked for
and hold a test file. -/
theorem packagesFrom_spec (hw : w.IsInMemory) (hJ : J.Holds w c) (owner : Owner) (depth : Nat)
    (ds : List String) (s : Survey) (hds : ∀ d ∈ ds, IsLocation d) (h : Agrees J.owns s.owners) :
    (∀ p ∈ (packagesFrom w c owner depth ds s).1, IsPackageFrom J c owner ds p) ∧
      Agrees J.owns (packagesFrom w c owner depth ds s).2.owners := by
  induction depth generalizing ds s with
  | zero => exact ⟨by simp [packagesFrom], h⟩
  | succ depth ih =>
      rw [packagesFrom_succ]
      exact foldl_enter_spec hw hJ ih hds (fun d hd => hd) (by simp) h

/-- The packages of a root are reached from it and lie strictly below it; its files are test files
directly in it. -/
theorem rootChildren_spec (hw : w.IsInMemory) (hJ : J.Holds w c) {s : Survey}
    (h : Agrees J.owns s.owners) {root : String} (hroot : IsLocation root) (owner : Owner) :
    (∀ p ∈ (rootChildren w c s root owner).1,
        c.Reaches root p ∧ p ≠ root ∧ J.owns p owner ∧ c.HasTestName) ∧
      (∀ f ∈ (rootChildren w c s root owner).2.1,
        ∃ n, IsSegment n ∧ c.isTestFile n = true ∧ f = below root n) ∧
      Agrees J.owns (rootChildren w c s root owner).2.2.owners := by
  have hsubs := Conventions.isLocation_of_mem_subdirectories (c := c) hw hroot
  -- the search starts one level down, so the root itself is never among the packages
  have hpackages := packagesFrom_spec hw hJ owner w.depthBound _ (s.list w root).2 hsubs h
  unfold rootChildren
  simp only [canonical_of_isLocation hroot, fst_list]
  refine ⟨?_, ?_, hpackages.2⟩
  · intro p hp
    obtain ⟨⟨sub, hsub, hreach⟩, hown, htest⟩ := hpackages.1 p hp
    obtain ⟨n, hn, hex, rfl⟩ := Conventions.mem_subdirectories hw hsub
    exact ⟨hreach.cons hn hex, hreach.ne_of_below hroot hn, hown, htest⟩
  · intro f hf
    exact Conventions.mem_testFiles hw hf

theorem packageFiles_spec (hw : w.IsInMemory) (s : Survey) {d : String} (hd : IsLocation d) :
    (∀ f ∈ (packageFiles w c s d).1, ∃ n, IsSegment n ∧ c.isTestFile n = true ∧ f = below d n) ∧
      (packageFiles w c s d).2.owners = s.owners := by
  unfold packageFiles
  simp only [canonical_of_isLocation hd, fst_list]
  exact ⟨fun f hf => Conventions.mem_testFiles hw hf, rfl⟩

end Survey

end TestAtlas
