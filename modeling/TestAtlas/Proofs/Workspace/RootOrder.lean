import Mathlib.Data.List.Nodup
import TestAtlas.Proofs.Workspace.Queries

/-!
# In which order the roots are found

The roots of one folder are put behind those of the folders before it, first the modules and then
the folder itself.  So of the modules inside a folder that is a root, those to which a walk comes
stand before it.  A module to which no walk comes is there only because it owns another folder
further below, and it stands where the first such folder puts it, which may be behind the folder
around it: `not_modulesFirst`.  The main statement is `buildRoots_characterized`.
-/

namespace TestAtlas

open TestAtlas.Path

namespace Workspace

variable {w : Workspace} {c : Conventions} {folders : List String} {folder m root : String}

theorem hasRootAt_module_iff : w.HasRootAt c folders folder .module m ↔
    w.nearestManifest c folder = some m ∨ w.IsNestedModule c folders folder m := by
  constructor
  · intro h
    cases h with
    | owner hown => exact Or.inl hown
    | nested hm => exact Or.inr hm
  · rintro (hown | hm)
    · exact .owner hown
    · exact .nested hm

theorem hasRootAt_workspace_iff : w.HasRootAt c folders folder .workspace root ↔
    root = folder ∧ w.nearestManifest c folder = none ∧
      ((∀ m, ¬ w.IsNestedModule c folders folder m) ∨
        ∃ d, w.IsLooseDirectory c folders folder d) := by
  constructor
  · intro h
    cases h with
    | plain hnone hnested => exact ⟨rfl, hnone, Or.inl hnested⟩
    | loose hnone hd => exact ⟨rfl, hnone, Or.inr ⟨_, hd⟩⟩
  · rintro ⟨rfl, hnone, hnested | ⟨d, hd⟩⟩
    · exact .plain hnone hnested
    · exact .loose hnone hd

/-- The modules among the roots are the walked directories with a manifest and the owners of the
folders. -/
theorem hasRoot_module_iff (hw : w.IsInMemory) :
    w.HasRoot c folders .module m ↔ c.hasManifest (w.entries m) = true ∧
      ((∃ f ∈ folders, w.nearestManifest c (canonical w.cwd f) = some m) ∨
        w.IsWalked c folders m) := by
  constructor
  · rintro ⟨f, hf, hat⟩
    rcases hasRootAt_module_iff.mp hat with hown | hm
    · have hloc := isLocation_canonical hw.rooted f
      exact ⟨((w.nearestManifest_eq_some_iff c hloc).mp hown).2.2.1, Or.inl ⟨f, hf, hown⟩⟩
    · exact ⟨hm.hasManifest, Or.inr hm.walked⟩
  · rintro ⟨hman, ⟨f, hf, hown⟩ | hwalked⟩
    · exact ⟨f, hf, .owner hown⟩
    · obtain ⟨f, hf, hwalk⟩ := id hwalked
      obtain ⟨hloc, hin⟩ := hwalk.isAtOrBelow hw (isLocation_canonical hw.rooted f)
      refine ⟨f, hf, ?_⟩
      -- a walked module is the folder itself or lies inside it
      by_cases hsame : m = canonical w.cwd f
      · exact .owner (hsame ▸ w.nearestManifest_of_hasManifest c hloc hman)
      · exact .nested ⟨hwalked, hin, hsame, hman⟩

/-- The folders among the roots are those without an owner in which either no walked directory
holds a manifest or some walked directory without an owner holds a source. -/
theorem hasRoot_workspace_iff :
    w.HasRoot c folders .workspace root ↔
      root ∈ folders.map (canonical w.cwd) ∧ w.nearestManifest c root = none ∧
        ((∀ m, ¬ w.IsNestedModule c folders root m) ∨
          ∃ d, w.IsLooseDirectory c folders root d) := by
  constructor
  · rintro ⟨f, hf, hat⟩
    obtain ⟨rfl, hrest⟩ := hasRootAt_workspace_iff.mp hat
    exact ⟨List.mem_map_of_mem hf, hrest⟩
  · rintro ⟨hmem, hrest⟩
    obtain ⟨f, hf, rfl⟩ := List.mem_map.mp hmem
    exact ⟨f, hf, hasRootAt_workspace_iff.mpr ⟨rfl, hrest⟩⟩

end Workspace

namespace Survey

variable {w : Workspace} {c : Conventions} {folders : List String} {s : Survey}

/-- Among the roots, that of the module comes before the given one. -/
def StandsBehind (roots : List Container) (k : Container) (m : String) : Prop :=
  ∃ before after, roots = before ++ k :: after ∧ HasRoot before .module m

/-- Every module inside a folder that is a root comes before the folder. -/
def ModulesFirst (roots : List Container) : Prop :=
  ∀ k ∈ roots, k.kind = .workspace → ∀ m, HasRoot roots .module m →
    isAtOrBelow m k.location = true → StandsBehind roots k m

/-! ## Where a folder stands among the roots -/

theorem keptByEmit_startsWith (w : Workspace) (c : Conventions) (first : List Container) :
    KeptByEmit w c fun roots => first <+: roots := by
  intro roots s kind path _ h
  unfold emit
  split
  · exact h
  · split
    · exact h.trans (List.prefix_append _ _)
    · exact h.trans (List.prefix_append _ _)

theorem fst_emit_of_not_hasRoot {roots : List Container} {kind : Kind} {path : String}
    (hkind : kind ≠ .module) (h : ¬ HasRoot roots kind path) :
    (emit w c roots s kind path).1 = roots ++ [.plain kind path] := by
  have hnew : ¬ (roots.any fun r => r.kind == kind && r.location == path) = true := by
    rw [List.any_eq_true]
    rintro ⟨r, hr, hcond⟩
    rw [Bool.and_eq_true, beq_iff_eq, beq_iff_eq] at hcond
    exact h ⟨r, hr, hcond⟩
  rw [emit, if_neg hnew, if_neg hkind]

/-- The roots of a folder that is a root itself: the modules inside it, and behind them the
folder. -/
theorem Maps.folderRoots_eq (h : Maps w c folders s) (hw : w.IsInMemory) {f : String}
    (hf : f ∈ folders) {roots : List Container}
    (hroot : w.HasRootAt c folders (canonical w.cwd f) .workspace (canonical w.cwd f))
    (hnew : ¬ HasRoot roots .workspace (canonical w.cwd f)) :
    ∃ before, (folderRoots w c roots s f).1 =
        before ++ [.plain .workspace (canonical w.cwd f)] ∧
      ∀ m, HasRoot before .module m ↔
        HasRoot roots .module m ∨ w.IsNestedModule c folders (canonical w.cwd f) m := by
  have hloc := isLocation_canonical hw.rooted f
  obtain ⟨howner, howners⟩ := ownerOf_of_get? (c := c) hloc (h.get?_folder hf)
  cases hfound : ownerOf w c s (canonical w.cwd f) with
  | mk owner t =>
      rw [hfound] at howner howners
      simp only at howner howners
      have ht := h.of_owners_eq howners
      obtain ⟨-, hnone, hreason⟩ := Workspace.hasRootAt_workspace_iff.mp hroot
      obtain rfl : owner = none := howner.trans hnone
      have hmodules : ∀ kind location,
          HasRoot (emitModules w c roots t (nestedModules w t (canonical w.cwd f))).1 kind
              location ↔ HasRoot roots kind location ∨
            kind = .module ∧ w.IsNestedModule c folders (canonical w.cwd f) location := by
        intro kind location
        rw [hasRoot_emitModules_iff, ht.mem_nestedModules_iff hw hloc]
      -- of the two reasons to put the folder there, one holds
      have hemits : ((nestedModules w t (canonical w.cwd f)).isEmpty ||
          (findLooseSource w c (canonical w.cwd f) t.owners.entries).1) = true := by
        rw [Bool.or_eq_true]
        refine hreason.imp (fun hnested => ?_) (ht.findLooseSource_iff hloc).mpr
        rw [List.isEmpty_iff, List.eq_nil_iff_forall_not_mem]
        exact fun m hm => hnested m ((ht.mem_nestedModules_iff hw hloc).mp hm)
      refine ⟨_, ?_, fun m => (hmodules .module m).trans (by simp)⟩
      rw [folderRoots_of_no_owner hfound, fst_emitFolder, owners_emitModules, hemits, if_pos rfl]
      refine fst_emit_of_not_hasRoot (by simp) fun hthere => ?_
      exact ((hmodules _ _).mp hthere).elim hnew fun h => absurd h.1 (by simp)

/-- Before a folder that is a root stand the modules inside it and the roots of the folders that
are named before it. -/
theorem Maps.buildRoots_split (h : Maps w c folders s) (hw : w.IsInMemory) {f : String}
    {fs gs : List String} (hsplit : folders = fs ++ f :: gs)
    (hfirst : ∀ g ∈ fs, canonical w.cwd g ≠ canonical w.cwd f)
    (hroot : w.HasRootAt c folders (canonical w.cwd f) .workspace (canonical w.cwd f)) :
    ∃ before after, (buildRoots w c s folders).1 =
        before ++ .plain .workspace (canonical w.cwd f) :: after ∧
      ∀ m, HasRoot before .module m ↔
        (∃ g ∈ fs, w.HasRootAt c folders (canonical w.cwd g) .module m) ∨
          w.IsNestedModule c folders (canonical w.cwd f) m := by
  have hf : f ∈ folders := hsplit ▸ List.mem_append_right _ List.mem_cons_self
  have hfs : ∀ g ∈ fs, g ∈ folders := fun g hg => hsplit ▸ List.mem_append_left _ hg
  have hearlier : ∀ kind location, HasRoot (fs.foldl (addFolder w c) ([], s)).1 kind location ↔
      ∃ g ∈ fs, w.HasRootAt c folders (canonical w.cwd g) kind location := by
    intro kind location
    have hnone : ¬ HasRoot ([] : List Container) kind location := by
      rintro ⟨r, hr, -⟩
      exact absurd hr (by simp)
    have hstart : Maps w c folders (([], s) : List Container × Survey).2 := h
    exact (hstart.hasRoot_foldl_iff hw hfs).trans (or_iff_right hnone)
  have howners : (fs.foldl (addFolder w c) ([], s)).2.owners = s.owners :=
    owners_foldl_addFolder hw fun g hg => (h.knows _).mpr (isWalked_folder (hfs g hg))
  have hroots : (buildRoots w c s folders).1 = (gs.foldl (addFolder w c)
      (addFolder w c (fs.foldl (addFolder w c) ([], s)) f)).1 := by
    rw [buildRoots_eq]
    simp only [hsplit, List.foldl_append, List.foldl_cons]
  generalize fs.foldl (addFolder w c) ([], s) = found at hearlier howners hroots
  have hnew : ¬ HasRoot found.1 .workspace (canonical w.cwd f) := by
    rw [hearlier]
    rintro ⟨g, hg, hat⟩
    -- a folder is a root at its own place only
    exact hfirst g hg (Workspace.hasRootAt_workspace_iff.mp hat).1.symm
  obtain ⟨before, hbefore, hmodules⟩ := (h.of_owners_eq howners).folderRoots_eq hw hf hroot hnew
  have hkept := (keptByEmit_startsWith w c (addFolder w c found f).1).foldl_addFolder
    (List.prefix_refl _) gs
  obtain ⟨after, hafter⟩ := hkept
  refine ⟨before, after, ?_, fun m => (hmodules m).trans (or_congr_left (hearlier _ m))⟩
  rw [hroots, ← hafter, addFolder, hbefore, List.append_assoc, List.singleton_append]

/-- The folders are cut at the first that is named in a place. -/
theorem exists_first_folder {cwd root : String} (h : root ∈ folders.map (canonical cwd)) :
    ∃ fs f gs, folders = fs ++ f :: gs ∧ canonical cwd f = root ∧
      (∀ g ∈ fs, canonical cwd g ≠ root) ∧
      (folders.map (canonical cwd)).takeWhile (· ≠ root) = fs.map (canonical cwd) := by
  obtain ⟨places, rest, hplaces, hfirst⟩ := List.eq_append_cons_of_mem h
  obtain ⟨fs, gs', rfl, rfl, hgs⟩ := List.map_eq_append_iff.mp hplaces
  obtain ⟨f, gs, rfl, hplace, -⟩ := List.map_eq_cons_iff.mp hgs
  have hother : ∀ g ∈ fs, canonical cwd g ≠ root := by
    intro g hg heq
    exact hfirst (heq ▸ List.mem_map_of_mem hg)
  refine ⟨fs, f, gs, rfl, hplace, hother, ?_⟩
  rw [hplaces, List.takeWhile_append_of_pos, List.takeWhile_cons_of_neg (by simp),
    List.append_nil]
  intro place hp
  rw [decide_eq_true_eq]
  rintro rfl
  exact hfirst hp

/-- What comes before a root is found where the roots are cut at it. -/
theorem standsBehind_iff {before after : List Container} {k : Container} {m : String}
    (h : AreDistinct (before ++ k :: after)) :
    StandsBehind (before ++ k :: after) k m ↔ HasRoot before .module m := by
  have hnodup := List.Nodup.of_map _ h
  rw [List.nodup_middle, List.nodup_cons, List.mem_append, not_or] at hnodup
  constructor
  · rintro ⟨before', after', hcut, hmodule⟩
    rw [List.append_cons_inj_of_notMem hnodup.1.1 hnodup.1.2] at hcut
    rwa [hcut.1]
  · exact fun hmodule => ⟨before, after, rfl, hmodule⟩

/-- A module inside a folder that is a root comes before the folder if a walk comes to the module or
one of the folders that are named earlier belongs to it. -/
theorem Maps.standsBehind_buildRoots_iff (h : Maps w c folders s) (hw : w.IsInMemory)
    {k : Container} (hk : k ∈ (buildRoots w c s folders).1) (hkind : k.kind = .workspace)
    {m : String} (hm : HasRoot (buildRoots w c s folders).1 .module m)
    (hin : isAtOrBelow m k.location = true) :
    StandsBehind (buildRoots w c s folders).1 k m ↔ w.IsWalked c folders m ∨
      ∃ g ∈ (folders.map (canonical w.cwd)).takeWhile (· ≠ k.location),
        w.nearestManifest c g = some m := by
  have hroot := (h.hasRoot_buildRoots_iff hw).mp ⟨k, hk, hkind, rfl⟩
  obtain ⟨hmem, hnone, hreason⟩ := Workspace.hasRoot_workspace_iff.mp hroot
  have hman := (Workspace.hasRoot_module_iff hw).mp ((h.hasRoot_buildRoots_iff hw).mp hm)
  obtain ⟨fs, f, gs, hsplit, hplace, hother, hearlier⟩ := exists_first_folder hmem
  have hrootAt : w.HasRootAt c folders (canonical w.cwd f) .workspace (canonical w.cwd f) := by
    rw [hplace]
    exact Workspace.hasRootAt_workspace_iff.mpr ⟨rfl, hnone, hreason⟩
  rw [← hplace] at hother
  obtain ⟨before, after, hroots, hmodules⟩ := h.buildRoots_split hw hsplit hother hrootAt
  have hdistinct := areDistinct_buildRoots w c s folders
  rw [hroots] at hdistinct hk ⊢
  obtain rfl : k = .plain .workspace (canonical w.cwd f) :=
    List.inj_on_of_nodup_map hdistinct hk (List.mem_append_right _ List.mem_cons_self)
      (Prod.ext hkind hplace.symm)
  rw [standsBehind_iff hdistinct, hmodules, hearlier]
  constructor
  · rintro (⟨g, hg, hat⟩ | hnested)
    · rcases Workspace.hasRootAt_module_iff.mp hat with hown | hm
      · exact Or.inr ⟨_, List.mem_map_of_mem hg, hown⟩
      · exact Or.inl hm.walked
    · exact Or.inl hnested.walked
  · rintro (hwalked | ⟨place, hp, hown⟩)
    · obtain ⟨d, -, hwalk⟩ := id hwalked
      have hloc := (hwalk.isAtOrBelow hw (isLocation_canonical hw.rooted d)).1
      refine Or.inr ⟨hwalked, hin, ?_, hman.1⟩
      -- the folder has no owner, so it holds no manifest itself
      rintro rfl
      exact absurd ((w.nearestManifest_of_hasManifest c hloc hman.1).symm.trans hnone) (by simp)
    · obtain ⟨g, hg, rfl⟩ := List.mem_map.mp hp
      exact Or.inl ⟨g, hg, .owner hown⟩

/-- The roots of some folders, from a survey made for them: no root is there twice; the modules are
the directories with a manifest that own a folder or to which a walk comes; the folders are those
without an owner in which no walked directory holds a manifest, or in which a walked directory
without an owner holds a source; and of the modules inside such a folder those come before it to
which a walk comes, or which own a folder that is named earlier. -/
theorem buildRoots_characterized (w : Workspace) (hw : w.IsInMemory) (c : Conventions) (s : Survey)
    (folders : List String) :
    let roots := (buildRoots w c (build w c s folders) folders).1
    (AreDistinct roots ∧ ∀ k ∈ roots, k.kind = .module ∨ k.kind = .workspace) ∧
      (∀ m, HasRoot roots .module m ↔ c.hasManifest (w.entries m) = true ∧
        ((∃ f ∈ folders, w.nearestManifest c (canonical w.cwd f) = some m) ∨
          w.IsWalked c folders m)) ∧
      (∀ root, HasRoot roots .workspace root ↔
        root ∈ folders.map (canonical w.cwd) ∧ w.nearestManifest c root = none ∧
          ((∀ m, ¬ w.IsNestedModule c folders root m) ∨
            ∃ d, w.IsLooseDirectory c folders root d)) ∧
      ∀ k ∈ roots, k.kind = .workspace → ∀ m, HasRoot roots .module m →
        isAtOrBelow m k.location = true →
          (StandsBehind roots k m ↔ w.IsWalked c folders m ∨
            ∃ g ∈ (folders.map (canonical w.cwd)).takeWhile (· ≠ k.location),
              w.nearestManifest c g = some m) := by
  intro roots
  have hmaps := maps_build hw c s folders
  refine ⟨⟨areDistinct_buildRoots .., fun k hk => ?_⟩, fun m => ?_, fun root => ?_,
    fun k hk hkind m hm hin => hmaps.standsBehind_buildRoots_iff hw hk hkind hm hin⟩
  · have hroot := isRoot_of_mem_buildRoots hk
    cases hkind : k.kind <;> simp_all [Kind.isRoot]
  · exact (hmaps.hasRoot_buildRoots_iff hw).trans (Workspace.hasRoot_module_iff hw)
  · exact (hmaps.hasRoot_buildRoots_iff hw).trans Workspace.hasRoot_workspace_iff

/-- A module that no walk comes to stands before the folder around it, because a folder that it owns
is named first. -/
theorem buildRoots_characterized_overlapping :
    let w := Workspace.holding "/" [("/w/a/go.mod", "module a"), ("/w/x.go", ""),
      ("/w/vendor/m/go.mod", "module m"), ("/w/vendor/m/sub/y.go", "")]
    let c := Conventions.leavingOut ["^vendor$"]
    let folders := ["/w/vendor/m/sub", "/w", "/w/a"]
    let roots := (buildRoots w c (build w c .empty folders) folders).1
    w.IsInMemory ∧
      roots = [⟨.module, "/w/vendor/m", "m"⟩, ⟨.module, "/w/a", "a"⟩, ⟨.workspace, "/w", "w"⟩] ∧
      AreDistinct roots ∧ StandsBehind roots ⟨.workspace, "/w", "w"⟩ "/w/vendor/m" := by
  intro w c folders roots
  have hw : w.IsInMemory := Workspace.isInMemory_holding (by decide) _
  have hroots : roots = [⟨.module, "/w/vendor/m", "m"⟩, ⟨.module, "/w/a", "a"⟩,
      ⟨.workspace, "/w", "w"⟩] := by decide +kernel
  obtain ⟨⟨hdistinct, -⟩, -, -, hbehind⟩ := buildRoots_characterized w hw c .empty folders
  have hk : ⟨.workspace, "/w", "w"⟩ ∈ roots := by simp [hroots]
  have hm : HasRoot roots .module "/w/vendor/m" := ⟨⟨.module, "/w/vendor/m", "m"⟩, by simp [hroots]⟩
  refine ⟨hw, hroots, hdistinct, (hbehind _ hk rfl _ hm (by decide +kernel)).mpr (Or.inr ?_)⟩
  exact ⟨"/w/vendor/m/sub", by decide +kernel, by decide +kernel⟩

/-- In general a module inside a folder that is a root need not come before it: one that owns a
later folder, below a directory that is left out, comes behind. -/
theorem not_modulesFirst :
    ¬ ∀ (w : Workspace), w.IsInMemory → ∀ (c : Conventions) (s : Survey) (folders : List String),
      ModulesFirst (buildRoots w c (build w c s folders) folders).1 := by
  intro hall
  let w := Workspace.holding "/" [("/w/vendor/m/go.mod", "module m"), ("/w/vendor/m/sub/x.go", "")]
  have hfirst := hall w (Workspace.isInMemory_holding (by decide) _) (.leavingOut ["^vendor$"])
    .empty ["/w", "/w/vendor/m/sub"]
  have hroots : (buildRoots w (.leavingOut ["^vendor$"])
      (build w (.leavingOut ["^vendor$"]) .empty ["/w", "/w/vendor/m/sub"])
      ["/w", "/w/vendor/m/sub"]).1 =
        [⟨.workspace, "/w", "w"⟩, ⟨.module, "/w/vendor/m", "m"⟩] := by decide +kernel
  rw [hroots] at hfirst
  have hdistinct : AreDistinct ([] ++ ⟨.workspace, "/w", "w"⟩ ::
      [(⟨.module, "/w/vendor/m", "m"⟩ : Container)]) := by
    rw [AreDistinct]
    decide
  have hbehind := hfirst ⟨.workspace, "/w", "w"⟩ (by simp) rfl "/w/vendor/m"
    ⟨⟨.module, "/w/vendor/m", "m"⟩, by simp, rfl, rfl⟩ (by decide +kernel)
  obtain ⟨r, hr, -⟩ := (standsBehind_iff hdistinct).mp hbehind
  exact absurd hr (by simp)

end Survey

end TestAtlas
