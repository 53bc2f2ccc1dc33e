import TestAtlas.Proofs.Workspace.Coverage

/-!
# Which roots there are

The roots of some folders are described by the files alone: the modules that own a folder, the
modules inside a folder to which a walk comes, and the folders without an owner that have no modules
inside or a loose source.  A survey that was made for the folders finds just these:
`Maps.hasRoot_buildRoots_iff`.
-/

namespace TestAtlas

open TestAtlas.Path

namespace Workspace

variable (w : Workspace) (c : Conventions) (folders : List String)

/-- A walk from one of the folders comes to the directory. -/
def IsWalked (d : String) : Prop := ∃ f ∈ folders, w.Walks c (canonical w.cwd f) d

/-- A module strictly inside a folder to which a walk from one of the folders comes. -/
structure IsNestedModule (folder m : String) : Prop where
  walked : w.IsWalked c folders m
  inside : isAtOrBelow m folder = true
  ne : m ≠ folder
  hasManifest : c.hasManifest (w.entries m) = true

/-- A directory in a folder that belongs to no module and holds a source, and to which a walk from
one of the folders comes. -/
structure IsLooseDirectory (folder d : String) : Prop where
  walked : w.IsWalked c folders d
  inside : isAtOrBelow d folder = true
  unowned : w.nearestManifest c d = none
  hasSource : c.hasSource (w.entries d) = true

/-- One of the folders, at the given place, has the given root. -/
inductive HasRootAt (folder : String) : Kind → String → Prop
  | owner {m : String} : w.nearestManifest c folder = some m → HasRootAt folder .module m
  | nested {m : String} : w.IsNestedModule c folders folder m → HasRootAt folder .module m
  | plain : w.nearestManifest c folder = none → (∀ m, ¬ w.IsNestedModule c folders folder m) →
      HasRootAt folder .workspace folder
  | loose {d : String} : w.nearestManifest c folder = none →
      w.IsLooseDirectory c folders folder d → HasRootAt folder .workspace folder

/-- The folders have the given root. -/
def HasRoot (kind : Kind) (location : String) : Prop :=
  ∃ f ∈ folders, w.HasRootAt c folders (canonical w.cwd f) kind location

variable {w c folders}

/-- Of the folders it only counts to which directories the walks from them come. -/
theorem HasRootAt.congr {folders' : List String} {folder : String} {kind : Kind}
    {location : String} (hwalked : ∀ d, w.IsWalked c folders d ↔ w.IsWalked c folders' d)
    (h : w.HasRootAt c folders folder kind location) :
    w.HasRootAt c folders' folder kind location := by
  cases h with
  | owner hown => exact .owner hown
  | nested hm => exact .nested ⟨(hwalked _).mp hm.walked, hm.inside, hm.ne, hm.hasManifest⟩
  | plain hnone hnested =>
      refine .plain hnone fun m hm => hnested m ?_
      exact ⟨(hwalked m).mpr hm.walked, hm.inside, hm.ne, hm.hasManifest⟩
  | loose hnone hd =>
      exact .loose hnone ⟨(hwalked _).mp hd.walked, hd.inside, hd.unowned, hd.hasSource⟩

theorem IsWalked.of_canonical {folders' : List String} {d : String}
    (hfolders : ∀ f ∈ folders, ∃ f' ∈ folders', canonical w.cwd f' = canonical w.cwd f)
    (h : w.IsWalked c folders d) : w.IsWalked c folders' d := by
  obtain ⟨f, hf, hwalks⟩ := h
  obtain ⟨f', hf', heq⟩ := hfolders f hf
  exact ⟨f', hf', heq ▸ hwalks⟩

end Workspace

namespace Survey

variable {w : Workspace} {c : Conventions} {folders : List String} {kind : Kind}
  {location folder : String} {roots : List Container} {s t : Survey}

/-! ## What each part of the discovery adds -/

theorem hasRoot_emit_iff {k : Kind} {path : String} :
    HasRoot (emit w c roots s k path).1 kind location ↔
      HasRoot roots kind location ∨ kind = k ∧ location = path := by
  constructor
  · rintro ⟨r, hr, rfl, rfl⟩
    rcases mem_emit hr with hr | rfl
    · exact Or.inl ⟨r, hr, rfl, rfl⟩
    · exact Or.inr ⟨rfl, rfl⟩
  · rintro (h | ⟨rfl, rfl⟩)
    · exact h.emit k path
    · exact hasRoot_emit w c roots s kind location

theorem hasRoot_emitModules_iff {paths : List String} :
    HasRoot (emitModules w c roots s paths).1 kind location ↔
      HasRoot roots kind location ∨ kind = .module ∧ location ∈ paths := by
  induction paths generalizing roots s with
  | nil => simp [emitModules]
  | cons path paths ih =>
      rw [emitModules_cons, ih, hasRoot_emit_iff, List.mem_cons, and_or_left, or_assoc]

theorem findLooseSource_iff {root : String} {known : List (String × Owner)} :
    (findLooseSource w c root known).1 = true ↔
      ∃ d, (d, none) ∈ known ∧ isWithin w.cwd d root = true ∧
        c.hasSource (w.entries d) = true := by
  constructor
  · intro h
    induction known with
    | nil => exact absurd h (by simp [findLooseSource])
    | cons first rest ih =>
        obtain ⟨d, owner⟩ := first
        have hrest : (findLooseSource w c root rest).1 = true → ∃ d', (d', none) ∈
            (d, owner) :: rest ∧ isWithin w.cwd d' root = true ∧
              c.hasSource (w.entries d') = true := by
          intro hlater
          obtain ⟨d', hd', hsource⟩ := ih hlater
          exact ⟨d', List.mem_cons_of_mem _ hd', hsource⟩
        rw [findLooseSource] at h
        split at h
        · exact hrest h
        · rename_i hhere
          split at h
          · rename_i hsource
            rw [Bool.or_eq_true, not_or, Bool.not_eq_true', Bool.not_eq_false] at hhere
            obtain rfl : owner = none := by simpa using hhere.1
            exact ⟨d, List.mem_cons_self, hhere.2, hsource⟩
          · exact hrest h
  · rintro ⟨d, hd, hin, hsource⟩
    exact findLooseSource_of_mem hd hin hsource

theorem hasRoot_emitFolder_iff {isPlain : Bool} {found : List Container × Survey} :
    HasRoot (emitFolder w c folder isPlain found).1 kind location ↔
      HasRoot found.1 kind location ∨ (kind = .workspace ∧ location = folder) ∧
        (isPlain = true ∨ (findLooseSource w c folder found.2.owners.entries).1 = true) := by
  unfold emitFolder
  cases isPlain with
  | true => simp [hasRoot_emit_iff]
  | false =>
      simp only [Bool.false_eq_true, if_false, false_or]
      generalize findLooseSource w c folder found.2.owners.entries = loose
      cases loose.1 with
      | true => simp [hasRoot_emit_iff]
      | false => simp

/-- Every root that is found is a module or a folder. -/
theorem isRoot_of_mem_buildRoots {k : Container} (hk : k ∈ (buildRoots w c s folders).1) :
    k.kind.isRoot = true := by
  have hkept : KeptByEmit w c fun roots => ∀ r ∈ roots, r.kind.isRoot = true := by
    intro roots s kind path hkind h r hr
    rcases mem_emit hr with hr | rfl
    · exact h r hr
    · exact hkind
  exact hkept.buildRoots (by simp) s folders k hk

/-- No two of the containers are of one kind at one location. -/
def AreDistinct (roots : List Container) : Prop :=
  (roots.map fun r => (r.kind, r.location)).Nodup

/-- A root is emitted only if it is not there yet. -/
theorem keptByEmit_areDistinct (w : Workspace) (c : Conventions) : KeptByEmit w c AreDistinct := by
  intro roots s kind path _ h
  unfold emit
  split
  · exact h
  · rename_i hnew
    have hfree : (kind, path) ∉ roots.map fun r => (r.kind, r.location) := by
      intro hmem
      obtain ⟨r, hr, heq⟩ := List.mem_map.mp hmem
      rw [Prod.mk.injEq] at heq
      exact hnew (List.any_eq_true.mpr ⟨r, hr, by simp [heq.1, heq.2]⟩)
    have hadd : ∀ label, AreDistinct (roots ++ [⟨kind, path, label⟩]) := by
      intro label
      rw [AreDistinct, List.map_append, List.map_singleton, List.nodup_append]
      refine ⟨h, by simp, ?_⟩
      rintro a ha b hb rfl
      exact hfree (List.mem_singleton.mp hb ▸ ha)
    split
    · rename_i hkind
      subst hkind
      exact hadd _
    · exact hadd _

theorem areDistinct_buildRoots (w : Workspace) (c : Conventions) (s : Survey)
    (folders : List String) : AreDistinct (buildRoots w c s folders).1 :=
  (keptByEmit_areDistinct w c).buildRoots List.nodup_nil s folders

/-! ## A survey made for the folders -/

/-- The survey knows just the directories that the walks come to, with the right owners. -/
structure Maps (w : Workspace) (c : Conventions) (folders : List String) (s : Survey) : Prop where
  agrees : Agrees (fun d o => o = w.nearestManifest c d) s.owners
  knows : ∀ d, d ∈ s.owners.keys ↔ w.IsWalked c folders d

theorem maps_build (hw : w.IsInMemory) (c : Conventions) (s : Survey) (folders : List String) :
    Maps w c folders (build w c s folders) where
  agrees := build_agrees hw (isInherited_nearestManifest w c) s folders
  knows := fun _ => mem_keys_build hw s folders

theorem Maps.of_owners_eq (h : Maps w c folders s) (heq : t.owners = s.owners) :
    Maps w c folders t := by
  obtain ⟨hagrees, hknows⟩ := h
  rw [← heq] at hagrees hknows
  exact ⟨hagrees, hknows⟩

theorem Maps.mem_entries_iff (h : Maps w c folders s) {d : String} {o : Owner} :
    (d, o) ∈ s.owners.entries ↔ w.IsWalked c folders d ∧ o = w.nearestManifest c d := by
  constructor
  · intro hmem
    exact ⟨(h.knows d).mp (List.mem_map.mpr ⟨_, hmem, rfl⟩), (h.agrees d o hmem).2⟩
  · rintro ⟨hwalked, rfl⟩
    obtain ⟨e, he, rfl⟩ := List.mem_map.mp ((h.knows d).mpr hwalked)
    rw [← (h.agrees e.1 e.2 he).2]
    exact he

theorem isWalked_folder {f : String} (hf : f ∈ folders) :
    w.IsWalked c folders (canonical w.cwd f) :=
  ⟨f, hf, .refl _⟩

/-- What is known is looked up without looking into any directory. -/
theorem ownerOf_of_get? {d : String} (hd : IsLocation d) {o : Owner}
    (h : s.owners.get? d = some o) :
    (ownerOf w c s d).1 = o ∧ (ownerOf w c s d).2.owners = s.owners := by
  obtain ⟨above, habove⟩ := ancestors_eq_cons hd
  have hsearch : search w c s.owners (ancestors (canonical w.cwd d)) = ([], o) := by
    rw [canonical_of_isLocation hd, habove, search, h]
  rw [fst_ownerOf, owners_ownerOf, hsearch]
  exact ⟨rfl, rfl⟩

theorem Maps.get?_folder (h : Maps w c folders s) {f : String} (hf : f ∈ folders) :
    s.owners.get? (canonical w.cwd f) = some (w.nearestManifest c (canonical w.cwd f)) :=
  (Keyed.get?_eq_some_iff _ _ _).mpr (h.mem_entries_iff.mpr ⟨isWalked_folder hf, rfl⟩)

theorem Maps.mem_nestedModules_iff (h : Maps w c folders s) (hw : w.IsInMemory)
    (hfolder : IsLocation folder) {m : String} :
    m ∈ nestedModules w s folder ↔ w.IsNestedModule c folders folder m := by
  rw [nestedModules, List.mem_filter, moduleRootsWithin, List.mem_filter, decide_eq_true_eq,
    canonical_of_isLocation hfolder]
  constructor
  · rintro ⟨⟨hmodule, hinside⟩, hne⟩
    obtain ⟨e, he, rfl⟩ := List.mem_map.mp hmodule
    obtain ⟨hmem, hself⟩ := List.mem_filter.mp he
    obtain ⟨hwalked, howner⟩ := h.mem_entries_iff.mp hmem
    have hloc := (h.agrees e.1 e.2 hmem).1
    have heq : e.2 = some e.1 := by simpa using hself
    rw [heq] at howner
    exact ⟨hwalked, hinside, hne,
      ((w.nearestManifest_eq_some_iff c hloc).mp howner.symm).2.2.1⟩
  · rintro ⟨hwalked, hinside, hne, hman⟩
    refine ⟨⟨List.mem_map.mpr ⟨(m, some m), List.mem_filter.mpr ⟨?_, by simp⟩, rfl⟩, hinside⟩, hne⟩
    obtain ⟨f, hf, hwalks⟩ := id hwalked
    have hloc := (hwalks.isAtOrBelow hw (isLocation_canonical hw.rooted f)).1
    exact h.mem_entries_iff.mpr
      ⟨hwalked, (w.nearestManifest_of_hasManifest c hloc hman).symm⟩

theorem Maps.findLooseSource_iff (h : Maps w c folders s) (hfolder : IsLocation folder) :
    (findLooseSource w c folder s.owners.entries).1 = true ↔
      ∃ d, w.IsLooseDirectory c folders folder d := by
  rw [Survey.findLooseSource_iff]
  constructor
  · rintro ⟨d, hmem, hin, hsource⟩
    obtain ⟨hwalked, howner⟩ := h.mem_entries_iff.mp hmem
    rw [isWithin_of_isLocation (h.agrees d none hmem).1 hfolder] at hin
    exact ⟨d, hwalked, hin, howner.symm, hsource⟩
  · rintro ⟨d, hwalked, hin, howner, hsource⟩
    have hmem := h.mem_entries_iff.mpr ⟨hwalked, howner.symm⟩
    refine ⟨d, hmem, ?_, hsource⟩
    rw [isWithin_of_isLocation (h.agrees d none hmem).1 hfolder]
    exact hin

/-- The roots of one folder. -/
theorem Maps.hasRoot_folderRoots_iff (h : Maps w c folders s) (hw : w.IsInMemory) {f : String}
    (hf : f ∈ folders) : HasRoot (folderRoots w c roots s f).1 kind location ↔
      HasRoot roots kind location ∨ w.HasRootAt c folders (canonical w.cwd f) kind location := by
  have hloc := isLocation_canonical hw.rooted f
  obtain ⟨howner, howners⟩ := ownerOf_of_get? (c := c) hloc (h.get?_folder hf)
  cases hfound : ownerOf w c s (canonical w.cwd f) with
  | mk owner t =>
      rw [hfound] at howner howners
      simp only at howner howners
      have ht := h.of_owners_eq howners
      have hnested : ∀ m, m ∈ nestedModules w t (canonical w.cwd f) ↔
          w.IsNestedModule c folders (canonical w.cwd f) m :=
        fun m => ht.mem_nestedModules_iff hw hloc
      cases owner with
      | some o =>
          rw [folderRoots_of_owner hfound, hasRoot_emitModules_iff, List.mem_cons, hnested]
          refine or_congr_right ⟨?_, fun hat => ?_⟩
          · rintro ⟨rfl, rfl | hm⟩
            · exact .owner howner.symm
            · exact .nested hm
          · cases hat with
            | owner hm => exact ⟨rfl, Or.inl (Option.some.inj (hm.symm.trans howner.symm))⟩
            | nested hm => exact ⟨rfl, Or.inr hm⟩
            | plain hnone => exact absurd (howner.trans hnone) (by simp)
            | loose hnone => exact absurd (howner.trans hnone) (by simp)
      | none =>
          have hempty : (nestedModules w t (canonical w.cwd f)).isEmpty = true ↔
              ∀ m, ¬ w.IsNestedModule c folders (canonical w.cwd f) m := by
            rw [List.isEmpty_iff, List.eq_nil_iff_forall_not_mem]
            exact forall_congr' fun m => not_congr (hnested m)
          rw [folderRoots_of_no_owner hfound, hasRoot_emitFolder_iff, owners_emitModules,
            ht.findLooseSource_iff hloc, hasRoot_emitModules_iff, hnested, hempty, or_assoc]
          refine or_congr_right ⟨?_, fun hat => ?_⟩
          · rintro (⟨rfl, hm⟩ | ⟨⟨rfl, rfl⟩, hplain | ⟨d, hd⟩⟩)
            · exact .nested hm
            · exact .plain howner.symm hplain
            · exact .loose howner.symm hd
          · cases hat with
            | owner hm => exact absurd (howner.trans hm) (by simp)
            | nested hm => exact Or.inl ⟨rfl, hm⟩
            | plain _ hplain => exact Or.inr ⟨⟨rfl, rfl⟩, Or.inl hplain⟩
            | loose _ hd => exact Or.inr ⟨⟨rfl, rfl⟩, Or.inr ⟨_, hd⟩⟩

theorem Maps.owners_folderRoots (h : Maps w c folders s) (hw : w.IsInMemory) {f : String}
    (hf : f ∈ folders) : (folderRoots w c roots s f).2.owners = s.owners := by
  rw [Survey.owners_folderRoots]
  exact (ownerOf_of_get? (isLocation_canonical hw.rooted f) (h.get?_folder hf)).2

theorem Maps.hasRoot_foldl_iff (hw : w.IsInMemory) {fs : List String}
    (hfs : ∀ f ∈ fs, f ∈ folders) {found : List Container × Survey}
    (h : Maps w c folders found.2) :
    HasRoot (fs.foldl (addFolder w c) found).1 kind location ↔
      HasRoot found.1 kind location ∨
        ∃ f ∈ fs, w.HasRootAt c folders (canonical w.cwd f) kind location := by
  induction fs generalizing found with
  | nil => simp
  | cons f fs ih =>
      have hf := hfs f (by simp)
      have howners : (addFolder w c found f).2.owners = found.2.owners := by
        rw [addFolder]
        exact h.owners_folderRoots hw hf
      have hnext := h.of_owners_eq howners
      rw [List.foldl_cons, ih (fun g hg => hfs g (by simp [hg])) hnext, addFolder,
        h.hasRoot_folderRoots_iff hw hf, List.exists_mem_cons_iff, or_assoc]

/-- The roots that are found are those that the files give. -/
theorem Maps.hasRoot_buildRoots_iff (h : Maps w c folders s) (hw : w.IsInMemory) :
    HasRoot (buildRoots w c s folders).1 kind location ↔ w.HasRoot c folders kind location := by
  have hnone : ¬ HasRoot [] kind location := by
    rintro ⟨r, hr, -⟩
    exact absurd hr (by simp)
  have hfold : HasRoot (folders.foldl (addFolder w c) ([], s)).1 kind location ↔
      HasRoot [] kind location ∨ w.HasRoot c folders kind location :=
    Maps.hasRoot_foldl_iff hw (fun f hf => hf) h
  rw [buildRoots_eq]
  exact hfold.trans (or_iff_right hnone)

end Survey

end TestAtlas
