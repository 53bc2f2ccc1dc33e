import TestAtlas.Proofs.Item.Identifier
import TestAtlas.Proofs.Workspace.Walk
import TestAtlas.Settings.Basic

/-!
# Discovery finds what the walks come to

Discovery drops directories for three reasons: the owner, the names that are left out, and folders
without sources of their own.  Yet each directory with a source that a walk from a folder comes to
has its root among those that are found (`buildRoots_covers`), and a root has for its packages
exactly the directories with test files that a walk from it comes to, provided that they have its
owner (`mem_rootChildren_iff`).
-/

namespace TestAtlas

open TestAtlas.Path

/-- Every name of a test file is that of a source file. -/
def Conventions.TestsAreSources (c : Conventions) : Prop :=
  ∀ name, IsSegment name → c.isTestFile name = true →
    FileName.isSource c.sourceExtensions name = true

theorem FileName.extension_append_go {stem : String} (h : '/' ∉ stem.toList) :
    FileName.extension (stem ++ "_test.go") = ".go" := by
  have hslash : '/' ∉ (stem ++ "_test.go").toList := by
    rw [String.toList_append, List.mem_append]
    rintro (hs | hs)
    · exact h hs
    · exact absurd hs (by decide)
  have hsplit : (splitLast (stem ++ "_test.go").toList).2 = (stem ++ "_test.go").toList := by
    rw [splitLast, Text.cutLast, Text.cutFirst_of_not_mem (by simpa using hslash)]
  have hcut : Text.cutLast '.' (stem ++ "_test.go").toList =
      some ((stem ++ "_test").toList, ['g', 'o']) := by
    rw [show (stem ++ "_test.go").toList = (stem ++ "_test").toList ++ '.' :: ['g', 'o'] by simp]
    exact Text.cutLast_append (by decide) _
  rw [FileName.extension, FileName.extensionChars, hsplit, hcut]
  simp

namespace Conventions

variable {c : Conventions} {d file : String} {entries : List Entry}

/-- By the settings that hold when nothing else is said, tests are sources. -/
theorem testsAreSources_of_default (hsuffix : c.testSuffix = Settings.default.testFileSuffix)
    (hextension : ".go" ∈ c.sourceExtensions) : c.TestsAreSources := by
  intro name hname htest
  rw [isTestFile, FileName.isTest, hsuffix, Bool.and_eq_true, List.isSuffixOf_iff_suffix] at htest
  obtain ⟨stem, hstem⟩ := htest.2
  have heq : name = String.ofList stem ++ "_test.go" := by
    rw [← String.ofList_toList (s := name), ← hstem, String.ofList_append]
    rfl
  have hslash : '/' ∉ (String.ofList stem).toList := by
    intro hmem
    apply hname.no_slash
    rw [heq, String.toList_append]
    exact List.mem_append_left _ hmem
  rw [FileName.isSource, heq, FileName.extension_append_go hslash]
  simpa using hextension

theorem mem_testFiles_iff :
    file ∈ c.testFiles d entries ↔
      ∃ name, (name, .file) ∈ entries ∧ c.isTestFile name = true ∧ file = below d name := by
  unfold testFiles
  constructor
  · intro h
    obtain ⟨⟨name, type⟩, he, rfl⟩ := List.mem_map.mp h
    obtain ⟨hmem, hcond⟩ := List.mem_filter.mp he
    rw [Bool.and_eq_true, beq_iff_eq] at hcond
    obtain ⟨rfl, htest⟩ := hcond
    exact ⟨name, hmem, htest, rfl⟩
  · rintro ⟨name, hmem, htest, rfl⟩
    refine List.mem_map.mpr ⟨(name, .file), List.mem_filter.mpr ⟨hmem, ?_⟩, rfl⟩
    simp [htest]

theorem TestsAreSources.hasSource (hc : c.TestsAreSources) {w : Workspace} (hw : w.IsInMemory)
    (h : file ∈ c.testFiles d (w.entries d)) : c.hasSource (w.entries d) = true := by
  obtain ⟨name, hmem, htest, -⟩ := mem_testFiles_iff.mp h
  have hsource := hc name (Workspace.isSegment_of_mem_entries hw hmem) htest
  exact List.any_eq_true.mpr ⟨_, hmem, by simp [hsource]⟩

end Conventions

namespace Workspace

variable {w : Workspace} {c : Conventions}

/-- A directory between two with one owner has that owner. -/
theorem nearestManifest_of_between {root m p : String} {owner : Owner} (hroot : IsLocation root)
    (hm : IsLocation m) (hp : IsLocation p) (hmr : isAtOrBelow m root = true)
    (hpm : isAtOrBelow p m = true) (hrootown : w.nearestManifest c root = owner)
    (hpown : w.nearestManifest c p = owner) : w.nearestManifest c m = owner := by
  cases owner with
  | none => exact nearestManifest_eq_none_of_isAtOrBelow hp hm hpm hpown
  | some o =>
      obtain ⟨ho, hro, -⟩ := (w.nearestManifest_eq_some_iff c hroot).mp hrootown
      obtain ⟨-, -, hman, hnearest⟩ := (w.nearestManifest_eq_some_iff c hp).mp hpown
      refine (w.nearestManifest_eq_some_iff c hm).mpr
        ⟨ho, isAtOrBelow_trans hm hroot ho hmr hro, hman, ?_⟩
      intro a ha hma hmana
      exact hnearest a ha (isAtOrBelow_trans hp hm ha hpm hma) hmana

/-- The root of a directory to which a walk from a folder comes: the module that owns the
directory, or the folder if there is none. -/
def IsRootFor (w : Workspace) (c : Conventions) (folder directory : String) (kind : Kind)
    (location : String) : Prop :=
  kind = .module ∧ w.nearestManifest c directory = some location ∨
    kind = .workspace ∧ w.nearestManifest c directory = none ∧ location = folder

theorem IsRootFor.unique {f d : String} {kind kind' : Kind} {location location' : String}
    (h : w.IsRootFor c f d kind location) (h' : w.IsRootFor c f d kind' location') :
    kind = kind' ∧ location = location' := by
  rcases h with ⟨rfl, hown⟩ | ⟨rfl, hown, rfl⟩ <;> rcases h' with ⟨rfl, hown'⟩ | ⟨rfl, hown', rfl⟩
  · exact ⟨rfl, Option.some.inj (hown.symm.trans hown')⟩
  · exact absurd (hown.symm.trans hown') (by simp)
  · exact absurd (hown.symm.trans hown') (by simp)
  · exact ⟨rfl, rfl⟩

end Workspace

namespace Survey

variable {w : Workspace} {c : Conventions}

/-! ## Roots -/

/-- Among the roots is one of the kind at the location. -/
def HasRoot (roots : List Container) (kind : Kind) (location : String) : Prop :=
  ∃ r ∈ roots, r.kind = kind ∧ r.location = location

section Emit

variable {roots : List Container} {s : Survey} {kind : Kind} {location : String}

theorem hasRoot_emit (w : Workspace) (c : Conventions) (roots : List Container) (s : Survey)
    (kind : Kind) (path : String) : HasRoot (emit w c roots s kind path).1 kind path := by
  unfold emit
  split
  · rename_i hthere
    obtain ⟨r, hr, hcond⟩ := List.any_eq_true.mp hthere
    rw [Bool.and_eq_true, beq_iff_eq, beq_iff_eq] at hcond
    exact ⟨r, hr, hcond⟩
  · split
    · exact ⟨_, List.mem_append_right _ (List.mem_singleton_self _), rfl, rfl⟩
    · exact ⟨_, List.mem_append_right _ (List.mem_singleton_self _), rfl, rfl⟩

theorem HasRoot.emit (h : HasRoot roots kind location) (k : Kind) (path : String) :
    HasRoot (Survey.emit w c roots s k path).1 kind location := by
  obtain ⟨r, hr, hrest⟩ := h
  refine ⟨r, ?_, hrest⟩
  unfold Survey.emit
  split
  · exact hr
  · split
    · exact List.mem_append_left _ hr
    · exact List.mem_append_left _ hr

theorem emitModules_cons (w : Workspace) (c : Conventions) (roots : List Container) (s : Survey)
    (path : String) (paths : List String) :
    emitModules w c roots s (path :: paths) =
      emitModules w c (emit w c roots s .module path).1 (emit w c roots s .module path).2 paths :=
  rfl

/-- A property of the roots found so far stays when one more root is emitted. -/
def KeptByEmit (w : Workspace) (c : Conventions) (P : List Container → Prop) : Prop :=
  ∀ roots s kind path, kind.isRoot = true → P roots → P (emit w c roots s kind path).1

theorem keptByEmit_hasRoot (w : Workspace) (c : Conventions) (kind : Kind) (location : String) :
    KeptByEmit w c fun roots => HasRoot roots kind location :=
  fun _ _ k path _ h => h.emit k path

theorem KeptByEmit.emitModules {P : List Container → Prop} (hP : KeptByEmit w c P) (h : P roots)
    (paths : List String) : P (Survey.emitModules w c roots s paths).1 := by
  induction paths generalizing roots s with
  | nil => exact h
  | cons path paths ih =>
      rw [emitModules_cons]
      exact ih (hP roots s .module path rfl h)

theorem hasRoot_emitModules {paths : List String} {m : String} (hm : m ∈ paths) :
    HasRoot (emitModules w c roots s paths).1 .module m := by
  induction paths generalizing roots s with
  | nil => exact absurd hm (by simp)
  | cons path paths ih =>
      rw [emitModules_cons]
      rcases List.mem_cons.mp hm with rfl | hm
      · exact (keptByEmit_hasRoot w c .module m).emitModules
          (hasRoot_emit w c roots s .module m) paths
      · exact ih hm

theorem owners_emitModules (paths : List String) :
    (emitModules w c roots s paths).2.owners = s.owners := by
  induction paths generalizing roots s with
  | nil => rfl
  | cons path paths ih => rw [emitModules_cons, ih, owners_emit]

end Emit

/-- The search for loose sources finds one if there is one. -/
theorem findLooseSource_of_mem {root d : String} {known : List (String × Owner)}
    (hd : (d, none) ∈ known) (hin : isWithin w.cwd d root = true)
    (hsource : c.hasSource (w.entries d) = true) : (findLooseSource w c root known).1 = true := by
  induction known with
  | nil => exact absurd hd (by simp)
  | cons first rest ih =>
      obtain ⟨a, owner⟩ := first
      rw [findLooseSource]
      rcases List.mem_cons.mp hd with hfirst | hd
      · obtain ⟨rfl, rfl⟩ := Prod.mk.inj hfirst
        simp [hin, hsource]
      · split
        · exact ih hd
        · split
          · rfl
          · exact ih hd

/-- The modules strictly inside a folder. -/
def nestedModules (w : Workspace) (s : Survey) (folder : String) : List String :=
  (moduleRootsWithin w s folder).filter (· ≠ folder)

/-- A folder is put behind the roots that were found for it, unless there are modules inside it
and no loose source. -/
def emitFolder (w : Workspace) (c : Conventions) (folder : String) (isPlain : Bool)
    (found : List Container × Survey) : List Container × Survey :=
  if isPlain then emit w c found.1 found.2 .workspace folder
  else
    let loose := findLooseSource w c folder found.2.owners.entries
    if loose.1 then emit w c found.1 (found.2.report loose.2) .workspace folder
    else (found.1, found.2.report loose.2)

section FolderRoots

variable {roots : List Container} {s t : Survey} {folder : String}

theorem folderRoots_of_owner {owner : String}
    (h : ownerOf w c s (canonical w.cwd folder) = (some owner, t)) :
    folderRoots w c roots s folder =
      emitModules w c roots t (owner :: nestedModules w t (canonical w.cwd folder)) := by
  unfold folderRoots nestedModules
  simp only [h]

theorem folderRoots_of_no_owner (h : ownerOf w c s (canonical w.cwd folder) = (none, t)) :
    folderRoots w c roots s folder =
      emitFolder w c (canonical w.cwd folder)
        (nestedModules w t (canonical w.cwd folder)).isEmpty
        (emitModules w c roots t (nestedModules w t (canonical w.cwd folder))) := by
  unfold folderRoots nestedModules emitFolder
  simp only [h]

theorem owners_emitFolder (isPlain : Bool) (found : List Container × Survey) :
    (emitFolder w c folder isPlain found).2.owners = found.2.owners := by
  unfold emitFolder
  split
  · exact owners_emit ..
  · simp only
    split
    · exact owners_emit ..
    · rfl

theorem KeptByEmit.emitFolder {P : List Container → Prop} (hP : KeptByEmit w c P)
    {found : List Container × Survey} (h : P found.1) (isPlain : Bool) :
    P (Survey.emitFolder w c folder isPlain found).1 := by
  unfold Survey.emitFolder
  split
  · exact hP _ _ _ _ rfl h
  · simp only
    split
    · exact hP _ _ _ _ rfl h
    · exact h

theorem hasRoot_emitFolder {found : List Container × Survey} {d : String}
    (hd : (d, none) ∈ found.2.owners.entries) (hin : isWithin w.cwd d folder = true)
    (hsource : c.hasSource (w.entries d) = true) (isPlain : Bool) :
    HasRoot (emitFolder w c folder isPlain found).1 .workspace folder := by
  unfold emitFolder
  split
  · exact hasRoot_emit ..
  · simp only [findLooseSource_of_mem hd hin hsource, if_true]
    exact hasRoot_emit ..

theorem owners_folderRoots (roots : List Container) (s : Survey) (folder : String) :
    (folderRoots w c roots s folder).2.owners =
      (ownerOf w c s (canonical w.cwd folder)).2.owners := by
  cases hfound : ownerOf w c s (canonical w.cwd folder) with
  | mk owner t =>
      cases owner with
      | some owner => rw [folderRoots_of_owner hfound, owners_emitModules]
      | none => rw [folderRoots_of_no_owner hfound, owners_emitFolder, owners_emitModules]

theorem KeptByEmit.folderRoots {P : List Container → Prop} (hP : KeptByEmit w c P) (h : P roots)
    (s : Survey) (folder : String) : P (Survey.folderRoots w c roots s folder).1 := by
  cases hfound : ownerOf w c s (canonical w.cwd folder) with
  | mk owner t =>
      cases owner with
      | some owner =>
          rw [folderRoots_of_owner hfound]
          exact hP.emitModules h _
      | none =>
          rw [folderRoots_of_no_owner hfound]
          exact hP.emitFolder (hP.emitModules h _) _

end FolderRoots

theorem KeptByEmit.foldl_addFolder {P : List Container → Prop} (hP : KeptByEmit w c P)
    {found : List Container × Survey} (h : P found.1) (folders : List String) :
    P (folders.foldl (addFolder w c) found).1 := by
  induction folders generalizing found with
  | nil => exact h
  | cons f fs ih =>
      rw [List.foldl_cons]
      exact ih (hP.folderRoots h found.2 f)

/-- What holds without roots and stays with each one that is emitted holds of the roots. -/
theorem KeptByEmit.buildRoots {P : List Container → Prop} (hP : KeptByEmit w c P) (h : P [])
    (s : Survey) (folders : List String) : P (Survey.buildRoots w c s folders).1 := by
  have hstart : P (([], s) : List Container × Survey).1 := h
  rw [buildRoots_eq]
  exact hP.foldl_addFolder hstart folders

/-- The survey is right about the nearest manifests, and it knows all that a walk from one of the
folders comes to. -/
structure Covers (w : Workspace) (c : Conventions) (folders : List String) (s : Survey) : Prop where
  agrees : Agrees (fun d o => o = w.nearestManifest c d) s.owners
  knows : ∀ f ∈ folders, ∀ d, w.Walks c f d → d ∈ s.owners.keys

theorem Covers.mem_entries {folders : List String} {s : Survey} (h : Covers w c folders s)
    {f d : String} (hf : f ∈ folders) (hd : w.Walks c f d) :
    (d, w.nearestManifest c d) ∈ s.owners.entries := by
  obtain ⟨e, he, rfl⟩ := List.mem_map.mp (h.knows f hf d hd)
  have hright := (h.agrees e.1 e.2 he).2
  rw [← hright]
  exact he

theorem Covers.ownerOf (hw : w.IsInMemory) {folders : List String} {s : Survey}
    (h : Covers w c folders s) (path : String) :
    (Survey.ownerOf w c s path).1 = w.nearestManifest c (canonical w.cwd path) ∧
      Covers w c folders (Survey.ownerOf w c s path).2 := by
  obtain ⟨hown, hagrees⟩ :=
    ownerOf_agrees hw.rooted (isInherited_nearestManifest w c) h.agrees path
  exact ⟨hown, hagrees, fun f hf d hd => mem_keys_ownerOf (h.knows f hf d hd) path⟩

theorem Covers.of_owners_eq {folders : List String} {s t : Survey} (h : Covers w c folders s)
    (heq : t.owners = s.owners) : Covers w c folders t := by
  refine ⟨?_, fun f hf d hd => ?_⟩
  · rw [heq]
    exact h.agrees
  · rw [heq]
    exact h.knows f hf d hd

theorem covers_build (hw : w.IsInMemory) (s : Survey) {folders : List String}
    (hfolders : ∀ f ∈ folders, IsLocation f) : Covers w c folders (build w c s folders) where
  agrees := build_agrees hw (isInherited_nearestManifest w c) s folders
  knows := by
    intro f hf d hd
    refine (mem_keys_build hw s folders).mpr ⟨f, hf, ?_⟩
    rw [canonical_of_isLocation (hfolders f hf)]
    exact hd

/-- A module inside a folder to which a walk from it comes is among the modules found there. -/
theorem Covers.mem_moduleRootsWithin {folders : List String} {s : Survey}
    (h : Covers w c folders s) (hw : w.IsInMemory) {f m : String} (hf : f ∈ folders)
    (hloc : IsLocation f) (hm : w.Walks c f m) (hown : w.nearestManifest c m = some m) :
    m ∈ moduleRootsWithin w s f := by
  have hentry := h.mem_entries hf hm
  rw [hown] at hentry
  refine List.mem_filter.mpr ⟨List.mem_map.mpr ⟨(m, some m), ?_, rfl⟩, ?_⟩
  · exact List.mem_filter.mpr ⟨hentry, by simp⟩
  · rw [canonical_of_isLocation hloc]
    exact (hm.isAtOrBelow hw hloc).2

/-- The module that owns a directory to which a walk from a folder comes owns the folder too, or
it is one of the modules inside. -/
theorem Covers.owner_found {folders : List String} {s : Survey} (h : Covers w c folders s)
    (hw : w.IsInMemory) {folder d m : String} (hmem : folder ∈ folders)
    (hfolder : IsLocation folder) (hd : w.Walks c folder d)
    (howner : w.nearestManifest c d = some m) :
    w.nearestManifest c folder = some m ∨ m ∈ nestedModules w s folder := by
  obtain ⟨hdloc, hdin⟩ := hd.isAtOrBelow hw hfolder
  obtain ⟨hm, hdm, hman, hnearest⟩ := (w.nearestManifest_eq_some_iff c hdloc).mp howner
  have hmown := w.nearestManifest_of_hasManifest c hm hman
  rcases isAtOrBelow_total hm hfolder hdloc hdm hdin with hmf | hfm
  · by_cases hne : m = folder
    · rw [← hne]
      exact Or.inl hmown
    · -- the module lies on the way down to the directory
      have hwalk := (hd.between hw hfolder hm hmf hdm).1
      have hwithin := h.mem_moduleRootsWithin hw hmem hfolder hwalk hmown
      exact Or.inr (List.mem_filter.mpr ⟨hwithin, by simpa using hne⟩)
  · refine Or.inl ((w.nearestManifest_eq_some_iff c hfolder).mpr ⟨hm, hfm, hman, ?_⟩)
    intro a ha hfa hmana
    exact hnearest a ha (isAtOrBelow_trans hdloc hfolder ha hdin hfa) hmana

/-- The roots of a folder are enough for all sources to which a walk from it comes. -/
theorem folderRoots_covers (hw : w.IsInMemory) {folders : List String} {s : Survey}
    (h : Covers w c folders s) {folder d : String} (hmem : folder ∈ folders)
    (hfolder : IsLocation folder) (hd : w.Walks c folder d)
    (hsource : c.hasSource (w.entries d) = true) (roots : List Container) :
    ∃ kind location, w.IsRootFor c folder d kind location ∧
      HasRoot (folderRoots w c roots s folder).1 kind location := by
  have hself := canonical_of_isLocation hfolder w.cwd
  obtain ⟨hdloc, hdin⟩ := hd.isAtOrBelow hw hfolder
  obtain ⟨hown, hcovers⟩ := h.ownerOf hw (canonical w.cwd folder)
  rw [canonical_canonical hw.rooted] at hown
  have hownself := hown.trans (congrArg (w.nearestManifest c) hself)
  cases hfound : ownerOf w c s (canonical w.cwd folder) with
  | mk owner t =>
      rw [hfound] at hcovers hownself
      simp only at hcovers hownself
      cases howner : w.nearestManifest c d with
      | some m =>
          refine ⟨.module, m, Or.inl ⟨rfl, howner⟩, ?_⟩
          have hm := hcovers.owner_found hw hmem hfolder hd howner
          cases owner with
          | some o =>
              rw [folderRoots_of_owner hfound, hself]
              apply hasRoot_emitModules
              rw [← hownself, Option.some.injEq] at hm
              exact List.mem_cons.mpr (hm.imp_left Eq.symm)
          | none =>
              rw [folderRoots_of_no_owner hfound, hself]
              rw [← hownself] at hm
              exact (keptByEmit_hasRoot w c .module m).emitFolder
                (hasRoot_emitModules (hm.resolve_left (by simp))) _
      | none =>
          refine ⟨.workspace, folder, Or.inr ⟨rfl, howner, rfl⟩, ?_⟩
          have hnone := Workspace.nearestManifest_eq_none_of_isAtOrBelow hdloc hfolder hdin howner
          obtain rfl : owner = none := hownself.trans hnone
          -- should there be modules inside, the directory itself is a loose source
          have hentry := hcovers.mem_entries hmem hd
          rw [howner] at hentry
          have hwithin : isWithin w.cwd d folder = true := by
            rw [isWithin_of_isLocation hdloc hfolder]
            exact hdin
          rw [folderRoots_of_no_owner hfound, hself]
          exact hasRoot_emitFolder (by rwa [owners_emitModules]) hwithin hsource _

theorem foldl_addFolder_covers (hw : w.IsInMemory) {folders : List String}
    (hfolders : ∀ f ∈ folders, IsLocation f) {folder d : String} (hd : w.Walks c folder d)
    (hsource : c.hasSource (w.entries d) = true) {fs : List String} (hfs : ∀ f ∈ fs, f ∈ folders)
    (hmem : folder ∈ fs) {found : List Container × Survey} (h : Covers w c folders found.2) :
    ∃ kind location, w.IsRootFor c folder d kind location ∧
      HasRoot (fs.foldl (addFolder w c) found).1 kind location := by
  induction fs generalizing found with
  | nil => exact absurd hmem (by simp)
  | cons f fs ih =>
      have hf := hfs f (by simp)
      rw [List.foldl_cons, addFolder]
      rcases List.mem_cons.mp hmem with rfl | hrest
      · -- the roots of the folders that follow are put behind those of this one
        obtain ⟨kind, location, hroot, hhas⟩ :=
          folderRoots_covers hw h hf (hfolders folder hf) hd hsource found.1
        exact ⟨kind, location, hroot,
          (keptByEmit_hasRoot w c kind location).foldl_addFolder hhas fs⟩
      · obtain ⟨-, hcovers⟩ := h.ownerOf hw (canonical w.cwd f)
        exact ih (fun g hg => hfs g (by simp [hg])) hrest
          (hcovers.of_owners_eq (owners_folderRoots ..))

/-- Each directory with a source to which a walk from a folder comes has its root among those that
are found. -/
theorem buildRoots_covers (hw : w.IsInMemory) {folders : List String} {s : Survey}
    (h : Covers w c folders s) (hfolders : ∀ f ∈ folders, IsLocation f) {folder d : String}
    (hmem : folder ∈ folders) (hd : w.Walks c folder d)
    (hsource : c.hasSource (w.entries d) = true) :
    ∃ kind location, w.IsRootFor c folder d kind location ∧
      HasRoot (buildRoots w c s folders).1 kind location := by
  rw [buildRoots_eq]
  exact foldl_addFolder_covers hw hfolders hd hsource (fun f hf => hf) hmem h

/-! ## Packages and test files -/

section Packages

variable {J : Judgement} {owner : Owner} {d p : String}

theorem mem_enter_iff {deeper : List String → Survey → List String × Survey}
    {found : List String × Survey} :
    p ∈ (enter w c owner deeper found d).1 ↔ p ∈ found.1 ∨ (ownerOf w c found.2 d).1 = owner ∧
      (p = d ∧ c.testFiles d (w.entries d) ≠ [] ∨
        p ∈ (deeper (c.subdirectories d (w.entries d)) ((ownerOf w c found.2 d).2.list w d).2).1) := by
  unfold enter
  by_cases ho : (ownerOf w c found.2 d).1 = owner
  · simp only [ho, ne_eq, not_true_eq_false, if_false, List.mem_append, true_and, or_assoc]
    refine or_congr_right (or_congr_left ?_)
    by_cases hempty : c.testFiles d (w.entries d) = []
    · simp [hempty]
    · simp [hempty]
  · simp [ho]

theorem mem_foldl_enter {deeper : List String → Survey → List String × Survey}
    {ds : List String} {found : List String × Survey}
    (h : p ∈ (ds.foldl (enter w c owner deeper) found).1) :
    p ∈ found.1 ∨ ∃ d ∈ ds, p = d ∧ c.testFiles d (w.entries d) ≠ [] ∨
      ∃ t, p ∈ (deeper (c.subdirectories d (w.entries d)) t).1 := by
  induction ds generalizing found with
  | nil => exact Or.inl h
  | cons d ds ih =>
      rw [List.foldl_cons] at h
      rcases ih h with h | ⟨d', hd', h⟩
      · rcases mem_enter_iff.mp h with h | ⟨-, h⟩
        · exact Or.inl h
        · exact Or.inr ⟨d, List.mem_cons_self, h.imp_right fun h => ⟨_, h⟩⟩
      · exact Or.inr ⟨d', List.mem_cons_of_mem _ hd', h⟩

/-- A walk from one of the directories comes to each package that is found, and it has test
files. -/
theorem walks_of_mem_packagesFrom {depth : Nat} {ds : List String} {s : Survey}
    (h : p ∈ (packagesFrom w c owner depth ds s).1) :
    (∃ d ∈ ds, w.Walks c d p) ∧ c.testFiles p (w.entries p) ≠ [] := by
  induction depth generalizing ds s with
  | zero => exact absurd h (by simp [packagesFrom])
  | succ depth ih =>
      rw [packagesFrom_succ] at h
      rcases mem_foldl_enter h with h | ⟨d, hd, ⟨rfl, htest⟩ | ⟨t, h⟩⟩
      · exact absurd h (by simp)
      · exact ⟨⟨p, hd, .refl p⟩, htest⟩
      · obtain ⟨⟨sub, hsub, hwalk⟩, htest⟩ := ih h
        exact ⟨⟨d, hd, .enter hsub hwalk⟩, htest⟩

theorem mem_foldl_enter_of_mem (hw : w.IsInMemory) (hJ : J.Holds w c)
    (hexact : ∀ d o, J.owns d o → o = w.nearestManifest c d) {depth : Nat} {ds : List String}
    (hds : ∀ d ∈ ds, IsLocation d) (howner : w.nearestManifest c d = owner)
    (hp : ∀ t : Survey, Agrees J.owns t.owners → p = d ∧ c.testFiles d (w.entries d) ≠ [] ∨
      p ∈ (packagesFrom w c owner depth (c.subdirectories d (w.entries d)) t).1)
    {rest : List String} (hrest : ∀ d ∈ rest, d ∈ ds) (hd : d ∈ rest)
    {found : List String × Survey} (hfound : ∀ p ∈ found.1, IsPackageFrom J c owner ds p)
    (h : Agrees J.owns found.2.owners) :
    p ∈ (rest.foldl (enter w c owner (packagesFrom w c owner depth)) found).1 := by
  have hstays : ∀ (later : List String) (found : List String × Survey), p ∈ found.1 →
      p ∈ (later.foldl (enter w c owner (packagesFrom w c owner depth)) found).1 := by
    intro later
    induction later with
    | nil => exact fun found h => h
    | cons d' later ih =>
        intro found h
        rw [List.foldl_cons]
        exact ih _ (mem_enter_iff.mpr (Or.inl h))
  induction rest generalizing found with
  | nil => exact absurd hd (by simp)
  | cons first rest ih =>
      have hfirst := hrest first (by simp)
      rw [List.foldl_cons]
      rcases List.mem_cons.mp hd with rfl | hd
      · obtain ⟨hown, hagrees⟩ := ownerOf_agrees hw.rooted hJ.inherited h d
        rw [canonical_of_isLocation (hds d hfirst)] at hown
        rw [← owners_list w _ d] at hagrees
        refine hstays rest _ (mem_enter_iff.mpr (Or.inr ⟨?_, hp _ hagrees⟩))
        rw [hexact d _ hown, howner]
      · obtain ⟨hstep, hafter⟩ := enter_spec hw hJ (packagesFrom_spec hw hJ owner depth)
          hfound h hfirst (hds first hfirst)
        exact ih (fun d' hd' => hrest d' (by simp [hd'])) hd hstep hafter

/-- A directory with test files is found from one that lists it, if all on the way have the owner
that is asked for. -/
theorem mem_packagesFrom_of_walks (hw : w.IsInMemory) (hJ : J.Holds w c)
    (hexact : ∀ d o, J.owns d o → o = w.nearestManifest c d) (hwalk : w.Walks c d p)
    (htest : c.testFiles p (w.entries p) ≠ [])
    (howner : ∀ m, w.Walks c d m → w.Walks c m p → w.nearestManifest c m = owner) {depth : Nat}
    (hroom : w.room d < depth) {ds : List String} (hds : ∀ d ∈ ds, IsLocation d) (hd : d ∈ ds)
    {s : Survey} (h : Agrees J.owns s.owners) :
    p ∈ (packagesFrom w c owner depth ds s).1 := by
  induction hwalk generalizing depth ds s with
  | refl d =>
      obtain ⟨depth, rfl⟩ := Nat.exists_eq_succ_of_ne_zero (Nat.ne_zero_of_lt hroom)
      rw [packagesFrom_succ]
      exact mem_foldl_enter_of_mem hw hJ hexact hds (howner d (.refl d) (.refl d))
        (fun t _ => Or.inl ⟨rfl, htest⟩) (fun d hd => hd) hd (by simp) h
  | @enter d sub p hsub hrest ih =>
      obtain ⟨depth, rfl⟩ := Nat.exists_eq_succ_of_ne_zero (Nat.ne_zero_of_lt hroom)
      have hless := Workspace.room_lt_of_mem_subdirectories hw (hds d hd) hsub
      have hsubs := Conventions.isLocation_of_mem_subdirectories (c := c) hw (hds d hd)
      rw [packagesFrom_succ]
      refine mem_foldl_enter_of_mem hw hJ hexact hds (howner d (.refl d) (.enter hsub hrest))
        (fun t ht => Or.inr ?_) (fun d hd => hd) hd (by simp) h
      exact ih htest (fun m hm hmp => howner m (.enter hsub hm) hmp) (by omega) hsubs hsub ht

/-- The packages of a root are the directories below it that a walk from it comes to, that have its
owner and that have test files. -/
theorem mem_rootChildren_iff (hw : w.IsInMemory) (hJ : J.Holds w c)
    (hexact : ∀ d o, J.owns d o → o = w.nearestManifest c d) {s : Survey}
    (h : Agrees J.owns s.owners) {root : String} (hroot : IsLocation root)
    (howner : w.nearestManifest c root = owner) :
    p ∈ (rootChildren w c s root owner).1 ↔ p ≠ root ∧ w.Walks c root p ∧
      w.nearestManifest c p = owner ∧ c.testFiles p (w.entries p) ≠ [] := by
  constructor
  · intro hp
    obtain ⟨-, hne, hown, -⟩ := (rootChildren_spec hw hJ h hroot owner).1 p hp
    unfold rootChildren at hp
    simp only [canonical_of_isLocation hroot, fst_list] at hp
    obtain ⟨⟨sub, hsub, hwalk⟩, htest⟩ := walks_of_mem_packagesFrom hp
    exact ⟨hne, .enter hsub hwalk, (hexact p owner hown).symm, htest⟩
  · rintro ⟨hne, hwalk, hown, htest⟩
    obtain ⟨hploc, -⟩ := hwalk.isAtOrBelow hw hroot
    have hsubs := Conventions.isLocation_of_mem_subdirectories (c := c) hw hroot
    unfold rootChildren
    simp only [canonical_of_isLocation hroot, fst_list]
    cases hwalk with
    | refl => exact absurd rfl hne
    | @enter _ sub _ hsub hrest =>
        refine mem_packagesFrom_of_walks hw hJ hexact hrest htest ?_
          (w.room_lt_depthBound sub) hsubs hsub h
        intro m hm hmp
        obtain ⟨hmloc, hms⟩ := hm.isAtOrBelow hw (hsubs sub hsub)
        have hmr := ((Workspace.Walks.enter hsub hm).isAtOrBelow hw hroot).2
        exact Workspace.nearestManifest_of_between hroot hmloc hploc hmr
          (hmp.isAtOrBelow hw hmloc).2 howner hown

theorem files_rootChildren (w : Workspace) (c : Conventions) (s : Survey) {root : String}
    (hroot : IsLocation root) (owner : Owner) :
    (rootChildren w c s root owner).2.1 = c.testFiles root (w.entries root) := by
  unfold rootChildren
  simp only [canonical_of_isLocation hroot, fst_list]

theorem files_packageFiles (w : Workspace) (c : Conventions) (s : Survey) (hd : IsLocation d) :
    (packageFiles w c s d).1 = c.testFiles d (w.entries d) := by
  unfold packageFiles
  simp only [canonical_of_isLocation hd, fst_list]

end Packages

end Survey

end TestAtlas
