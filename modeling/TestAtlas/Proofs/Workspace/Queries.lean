import TestAtlas.Proofs.Workspace.Roots

/-!
# What asking for owners changes

The owner of a directory is remembered when it was asked for, and so are the owners of the
directories looked into on the way up.  The answers never depend on that.  The roots may: among the
directories looked into can be one in a folder to which no walk comes, and if it holds a manifest,
or a source outside all modules, it counts when the roots are found: `asked_ne_fresh`.  In all other
cases the roots stay the same: `asked_eq_fresh`.
-/

namespace TestAtlas

open TestAtlas.Path

namespace Workspace

variable (w : Workspace) (c : Conventions) (folders : List String)

/-- On the way up from a path to the directory, the directory itself included, no walk from one of
the folders comes by. -/
structure IsBypassed (path d : String) : Prop where
  location : IsLocation d
  above : isAtOrBelow path d = true
  unwalked : ∀ x, IsLocation x → isAtOrBelow path x = true → isAtOrBelow x d = true →
    ¬ w.IsWalked c folders x

/-- To know the owner of the directory adds no root for a folder in which it lies: it holds no
manifest, and if it has no owner and holds a source, the folder is a root anyway. -/
structure IsHarmless (d : String) : Prop where
  manifest : ∀ f ∈ folders, isAtOrBelow d (canonical w.cwd f) = true →
    c.hasManifest (w.entries d) = false
  source : ∀ f ∈ folders, isAtOrBelow d (canonical w.cwd f) = true →
    w.nearestManifest c d = none → c.hasSource (w.entries d) = true →
      w.HasRoot c folders .workspace (canonical w.cwd f)

/-- Whatever a search upwards from the path looks into is harmless. -/
def IsNeutral (path : String) : Prop :=
  ∀ d, w.IsBypassed c folders path d → w.IsHarmless c folders d

variable {w c folders}

/-- A path is neutral if on the way up from it there is no manifest and no source. -/
theorem isNeutral_of_bare {path : String} (hpath : IsLocation path)
    (h : ∀ d ∈ ancestors path, c.hasManifest (w.entries d) = false ∧
      c.hasSource (w.entries d) = false) : w.IsNeutral c folders path := by
  intro d hd
  obtain ⟨hman, hsource⟩ := h d ((mem_ancestors_iff hpath).mpr ⟨hd.location, hd.above⟩)
  refine ⟨fun _ _ _ => hman, fun _ _ _ _ hthere => ?_⟩
  rw [hsource] at hthere
  exact absurd hthere (by simp)

end Workspace

namespace Survey

variable {w : Workspace} {c : Conventions} {folders : List String} {s t : Survey}

/-! ## What is looked into -/

theorem search_prefix (owners : Keyed String Owner) (ds : List String) :
    (search w c owners ds).1 <+: ds := by
  induction ds with
  | nil => exact List.nil_prefix
  | cons d above ih =>
      rw [search]
      split
      · exact List.nil_prefix
      · split
        · exact ⟨above, rfl⟩
        · exact List.cons_prefix_cons.mpr ⟨rfl, ih⟩

/-- A search looks into a directory only if neither it nor one on the way up to it is known. -/
theorem not_mem_keys_of_mem_search {owners : Keyed String Owner} {p d : String}
    (hp : IsLocation p) (hd : d ∈ (search w c owners (ancestors p)).1) :
    ∀ x, IsLocation x → isAtOrBelow p x = true → isAtOrBelow x d = true → x ∉ owners.keys := by
  induction hp using IsLocation.below_induction with
  | root =>
      intro x hx hroot _
      have hmem := (mem_ancestors_iff isLocation_root).mpr ⟨hx, hroot⟩
      rw [ancestors_root] at hmem hd
      rw [List.mem_singleton.mp hmem]
      rw [search] at hd
      split at hd
      · exact absurd hd (by simp)
      · rename_i hnone
        exact (Keyed.get?_eq_none_iff owners "/").mp hnone
  | step q name hq hname ih =>
      intro x hx hpx hxd
      rw [ancestors_below hq hname, search] at hd
      split at hd
      · exact absurd hd (by simp)
      · rename_i hnone
        have hself := (Keyed.get?_eq_none_iff owners _).mp hnone
        rcases (isAtOrBelow_below_iff hq hname hx).mp hpx with rfl | hqx
        · exact hself
        · -- if the directory is the path itself, nothing else lies between the two
          have hthere : d = below q name → x ∉ owners.keys := by
            rintro rfl
            rw [isAtOrBelow_antisymm hx (hq.below hname) hxd hpx]
            exact hself
          split at hd
          · exact hthere (List.mem_singleton.mp hd)
          · rcases List.mem_cons.mp hd with hd | hd
            · exact hthere hd
            · exact ih hd x hx hqx hxd

/-- The directories looked into are remembered behind those that were known. -/
theorem entries_ownerOf (hw : w.IsInMemory) (c : Conventions) (s : Survey) (path : String) :
    ∃ more, (ownerOf w c s path).2.owners.entries = s.owners.entries ++ more ∧
      ∀ e ∈ more, IsLocation e.1 ∧ isAtOrBelow (canonical w.cwd path) e.1 = true ∧
        ∀ x, IsLocation x → isAtOrBelow (canonical w.cwd path) x = true →
          isAtOrBelow x e.1 = true → x ∉ s.owners.keys := by
  have hloc := isLocation_canonical hw.rooted path
  have hinitial := search_prefix (w := w) (c := c) s.owners (ancestors (canonical w.cwd path))
  have hunknown : ∀ d ∈ (search w c s.owners (ancestors (canonical w.cwd path))).1,
      IsLocation d ∧ isAtOrBelow (canonical w.cwd path) d = true ∧
        ∀ x, IsLocation x → isAtOrBelow (canonical w.cwd path) x = true →
          isAtOrBelow x d = true → x ∉ s.owners.keys := by
    intro d hd
    obtain ⟨hdloc, habove⟩ := (mem_ancestors_iff hloc).mp (hinitial.subset hd)
    exact ⟨hdloc, habove, not_mem_keys_of_mem_search hloc hd⟩
  have hnodup := hinitial.sublist.nodup (nodup_ancestors hloc)
  rw [owners_ownerOf]
  generalize search w c s.owners (ancestors (canonical w.cwd path)) = found at hunknown hnodup
  refine ⟨found.1.map fun d => (d, found.2), Keyed.entries_insertMany ?_ ?_, ?_⟩
  · simpa [Function.comp_def] using hnodup
  · intro e he
    obtain ⟨d, hd, rfl⟩ := List.mem_map.mp he
    obtain ⟨hdloc, habove, hkeys⟩ := hunknown d hd
    exact hkeys d hdloc habove (isAtOrBelow_refl d)
  · intro e he
    obtain ⟨d, hd, rfl⟩ := List.mem_map.mp he
    exact hunknown d hd

/-- What queries add to a survey that knows what the walks come to are directories that the walks
bypass. -/
theorem entries_askAll (hw : w.IsInMemory)
    (hknows : ∀ d, w.IsWalked c folders d → d ∈ s.owners.keys) (paths : List String) : ∃ more,
      (askAll w c s (paths.map .ownerOf)).owners.entries = s.owners.entries ++ more ∧
        ∀ e ∈ more, ∃ path ∈ paths, w.IsBypassed c folders (canonical w.cwd path) e.1 := by
  induction paths generalizing s with
  | nil => exact ⟨[], (List.append_nil _).symm, by simp⟩
  | cons path paths ih =>
      obtain ⟨first, hfirst, hunknown⟩ := entries_ownerOf hw c s path
      have hthen : ∀ d, w.IsWalked c folders d → d ∈ (ownerOf w c s path).2.owners.keys := by
        intro d hd
        exact mem_keys_ownerOf (hknows d hd) path
      have hstep : askAll w c s ((path :: paths).map .ownerOf) =
          askAll w c (ownerOf w c s path).2 (paths.map .ownerOf) := by
        simp only [askAll, List.map_cons, List.foldl_cons, ask]
      rw [hstep]
      generalize (ownerOf w c s path).2 = t at hfirst hthen
      obtain ⟨more, hmore, hbypassed⟩ := ih hthen
      refine ⟨first ++ more, ?_, ?_⟩
      · rw [hmore, hfirst, List.append_assoc]
      · intro e he
        rcases List.mem_append.mp he with he | he
        · obtain ⟨hloc, habove, hkeys⟩ := hunknown e he
          exact ⟨path, List.mem_cons_self, hloc, habove,
            fun x hx hpx hxd hwalked => hkeys x hx hpx hxd (hknows x hwalked)⟩
        · obtain ⟨p, hp, hby⟩ := hbypassed e he
          exact ⟨p, List.mem_cons_of_mem _ hp, hby⟩

/-! ## What the roots depend on -/

/-- Which roots are put down, and how they are labelled, does not depend on the survey. -/
theorem fst_emit_eq (s t : Survey) (roots : List Container) (kind : Kind) (path : String) :
    (emit w c roots t kind path).1 = (emit w c roots s kind path).1 := by
  unfold emit
  split
  · rfl
  · split
    · simp only [fst_moduleName]
    · rfl

theorem fst_emitModules_eq (s t : Survey) (roots : List Container) (paths : List String) :
    (emitModules w c roots t paths).1 = (emitModules w c roots s paths).1 := by
  induction paths generalizing roots s t with
  | nil => rfl
  | cons path paths ih =>
      rw [emitModules_cons, emitModules_cons, fst_emit_eq s t]
      exact ih _ _ _

theorem fst_emitFolder (folder : String) (isPlain : Bool) (found : List Container × Survey) :
    (emitFolder w c folder isPlain found).1 =
      if isPlain || (findLooseSource w c folder found.2.owners.entries).1 then
        (emit w c found.1 found.2 .workspace folder).1
      else found.1 := by
  unfold emitFolder
  cases isPlain with
  | true => rfl
  | false =>
      simp only [Bool.false_eq_true, if_false, Bool.false_or]
      split
      · exact fst_emit_eq ..
      · rfl

/-- The second survey is that of the folders with harmless directories behind. -/
structure Pads (w : Workspace) (c : Conventions) (folders : List String) (s t : Survey) : Prop where
  maps : Maps w c folders s
  agrees : Agrees (fun d o => o = w.nearestManifest c d) t.owners
  entries : ∃ more, t.owners.entries = s.owners.entries ++ more ∧
    ∀ e ∈ more, w.IsHarmless c folders e.1

theorem Pads.of_owners_eq (h : Pads w c folders s t) {s' t' : Survey}
    (hs : s'.owners = s.owners) (ht : t'.owners = t.owners) : Pads w c folders s' t' := by
  obtain ⟨hmaps, hagrees, hentries⟩ := h
  refine ⟨hmaps.of_owners_eq hs, ?_, ?_⟩
  · rw [ht]
    exact hagrees
  · rw [hs, ht]
    exact hentries

theorem Pads.get?_folder (h : Pads w c folders s t) {f : String} (hf : f ∈ folders) :
    t.owners.get? (canonical w.cwd f) = some (w.nearestManifest c (canonical w.cwd f)) := by
  obtain ⟨more, hmore, -⟩ := h.entries
  rw [Keyed.get?_eq_some_iff, hmore]
  exact List.mem_append_left _ (h.maps.mem_entries_iff.mpr ⟨isWalked_folder hf, rfl⟩)

theorem Pads.nestedModules_eq (h : Pads w c folders s t) (hw : w.IsInMemory) {f : String}
    (hf : f ∈ folders) : nestedModules w t (canonical w.cwd f) =
      nestedModules w s (canonical w.cwd f) := by
  obtain ⟨more, hmore, hharmless⟩ := h.entries
  have hself := canonical_of_isLocation (isLocation_canonical hw.rooted f) w.cwd
  -- a module behind would hold a manifest within the folder
  have hnone : (((more.filter fun e => e.2 == some e.1).map Prod.fst).filter fun d =>
      isAtOrBelow d (canonical w.cwd f)) = [] := by
    rw [List.filter_eq_nil_iff]
    intro d hd hin
    obtain ⟨e, he, rfl⟩ := List.mem_map.mp hd
    obtain ⟨hmem, hown⟩ := List.mem_filter.mp he
    have heq : e.2 = some e.1 := by simpa using hown
    obtain ⟨hloc, hright⟩ := h.agrees e.1 e.2 (hmore ▸ List.mem_append_right _ hmem)
    have hman := ((w.nearestManifest_eq_some_iff c hloc).mp (hright.symm.trans heq)).2.2.1
    rw [(hharmless e hmem).manifest f hf hin] at hman
    exact absurd hman (by simp)
  simp only [nestedModules, moduleRootsWithin, moduleRoots, hself, hmore, List.filter_append,
    List.map_append, hnone, List.append_nil]

/-- Of the two reasons for a folder without an owner to be a root, one holds for both surveys or
for none. -/
theorem Pads.isRoot_eq (h : Pads w c folders s t) (hw : w.IsInMemory) {f : String}
    (hf : f ∈ folders) :
    ((nestedModules w s (canonical w.cwd f)).isEmpty ||
        (findLooseSource w c (canonical w.cwd f) t.owners.entries).1) =
      ((nestedModules w s (canonical w.cwd f)).isEmpty ||
        (findLooseSource w c (canonical w.cwd f) s.owners.entries).1) := by
  have hfolder := isLocation_canonical hw.rooted f
  obtain ⟨more, hmore, hharmless⟩ := h.entries
  rw [Bool.eq_iff_iff, Bool.or_eq_true, Bool.or_eq_true]
  constructor
  · rintro (hempty | hloose)
    · exact Or.inl hempty
    · obtain ⟨d, hmem, hin, hsource⟩ := findLooseSource_iff.mp hloose
      rw [hmore] at hmem
      rcases List.mem_append.mp hmem with hmem | hbehind
      · exact Or.inr (findLooseSource_iff.mpr ⟨d, hmem, hin, hsource⟩)
      · -- a source behind lies in a folder that is a root anyway
        obtain ⟨hloc, hright⟩ := h.agrees d none (hmore ▸ List.mem_append_right _ hbehind)
        rw [isWithin_of_isLocation hloc hfolder] at hin
        obtain ⟨g, hg, hat⟩ := (hharmless _ hbehind).source f hf hin hright.symm hsource
        generalize hroot : canonical w.cwd f = folder at hat
        cases hat with
        | plain _ hnested =>
            left
            rw [List.isEmpty_iff, List.eq_nil_iff_forall_not_mem]
            exact fun m hm => hnested m ((h.maps.mem_nestedModules_iff hw
              (isLocation_canonical hw.rooted g)).mp hm)
        | loose _ hd =>
            right
            exact (h.maps.findLooseSource_iff (isLocation_canonical hw.rooted g)).mpr ⟨_, hd⟩
  · rintro (hempty | hloose)
    · exact Or.inl hempty
    · obtain ⟨d, hmem, hin, hsource⟩ := findLooseSource_iff.mp hloose
      refine Or.inr (findLooseSource_iff.mpr ⟨d, ?_, hin, hsource⟩)
      rw [hmore]
      exact List.mem_append_left _ hmem

theorem Pads.folderRoots (h : Pads w c folders s t) (hw : w.IsInMemory) {f : String}
    (hf : f ∈ folders) (roots : List Container) :
    (Survey.folderRoots w c roots t f).1 = (Survey.folderRoots w c roots s f).1 ∧
      Pads w c folders (Survey.folderRoots w c roots s f).2
        (Survey.folderRoots w c roots t f).2 := by
  have hloc := isLocation_canonical hw.rooted f
  obtain ⟨hsowner, hsowners⟩ := ownerOf_of_get? (c := c) hloc (h.maps.get?_folder hf)
  obtain ⟨htowner, htowners⟩ := ownerOf_of_get? (c := c) hloc (h.get?_folder hf)
  refine ⟨?_, h.of_owners_eq ((owners_folderRoots ..).trans hsowners)
    ((owners_folderRoots ..).trans htowners)⟩
  cases hs : ownerOf w c s (canonical w.cwd f) with
  | mk owner s' =>
      cases ht : ownerOf w c t (canonical w.cwd f) with
      | mk owner' t' =>
          rw [hs] at hsowner hsowners
          rw [ht] at htowner htowners
          simp only at hsowner hsowners htowner htowners
          have h' := h.of_owners_eq hsowners htowners
          obtain rfl : owner' = owner := htowner.trans hsowner.symm
          cases owner' with
          | some m =>
              rw [folderRoots_of_owner hs, folderRoots_of_owner ht, h'.nestedModules_eq hw hf]
              exact fst_emitModules_eq ..
          | none =>
              rw [folderRoots_of_no_owner hs, folderRoots_of_no_owner ht,
                h'.nestedModules_eq hw hf, fst_emitFolder, fst_emitFolder, owners_emitModules,
                owners_emitModules, h'.isRoot_eq hw hf, fst_emitModules_eq s' t']
              rw [fst_emit_eq]

theorem Pads.foldl_addFolder (hw : w.IsInMemory) {fs : List String}
    (hfs : ∀ f ∈ fs, f ∈ folders) (roots : List Container) (h : Pads w c folders s t) :
    (fs.foldl (addFolder w c) (roots, t)).1 = (fs.foldl (addFolder w c) (roots, s)).1 := by
  induction fs generalizing roots s t with
  | nil => rfl
  | cons f fs ih =>
      obtain ⟨hroots, hnext⟩ := h.folderRoots hw (hfs f List.mem_cons_self) roots
      rw [List.foldl_cons, List.foldl_cons, addFolder, addFolder]
      simp only
      generalize Survey.folderRoots w c roots s f = found at hroots hnext
      generalize Survey.folderRoots w c roots t f = found' at hroots hnext
      obtain ⟨roots', t'⟩ := found'
      simp only at hroots
      rw [hroots]
      exact ih (fun g hg => hfs g (List.mem_cons_of_mem _ hg)) found.1 hnext

theorem Pads.buildRoots_eq (h : Pads w c folders s t) (hw : w.IsInMemory) :
    (buildRoots w c t folders).1 = (buildRoots w c s folders).1 := by
  rw [Survey.buildRoots_eq, Survey.buildRoots_eq]
  exact h.foldl_addFolder hw (fun f hf => hf) []

/-! ## Asking changes nothing -/

/-- To ask for owners, in a survey made for the folders, changes no later answer, and it changes no
root if the paths are neutral. -/
theorem asked_eq_fresh (w : Workspace) (hw : w.IsInMemory) (c : Conventions) (s : Survey)
    (folders paths : List String) :
    let fresh := build w c s folders
    let asked := askAll w c fresh (paths.map .ownerOf)
    (∀ path, (ownerOf w c asked path).1 = (ownerOf w c fresh path).1) ∧
      ((∀ path ∈ paths, w.IsNeutral c folders (canonical w.cwd path)) →
        (buildRoots w c asked folders).1 = (buildRoots w c fresh folders).1) := by
  intro fresh asked
  have hin := isInherited_nearestManifest w c
  have hmaps : Maps w c folders fresh := maps_build hw c s folders
  have hagrees := askAll_agrees hw hin hmaps.agrees (paths.map .ownerOf)
  constructor
  · intro path
    rw [(ownerOf_agrees hw.rooted hin hagrees path).1,
      (ownerOf_agrees hw.rooted hin hmaps.agrees path).1]
  · intro hneutral
    obtain ⟨more, hmore, hbypassed⟩ :=
      entries_askAll hw (fun d hd => (hmaps.knows d).mpr hd) paths
    have hpads : Pads w c folders fresh asked := by
      refine ⟨hmaps, hagrees, more, hmore, ?_⟩
      intro e he
      obtain ⟨path, hpath, hby⟩ := hbypassed e he
      exact hneutral path hpath e.1 hby
    exact hpads.buildRoots_eq hw

/-- Neither a directory that is left out nor a missing one changes the roots, if on the way up there
are no manifests and no sources. -/
theorem asked_eq_fresh_bare :
    let w := Workspace.holding "/" [("/w/a/go.mod", ""), ("/w/vendor/readme.md", "")]
    let c := Conventions.leavingOut ["^vendor$"]
    let fresh := build w c .empty ["/w"]
    w.IsInMemory ∧
      (∀ path ∈ ["/w/vendor", "/w/b/c"], w.IsNeutral c ["/w"] (canonical w.cwd path)) ∧
      (buildRoots w c (askAll w c fresh [.ownerOf "/w/vendor", .ownerOf "/w/b/c"]) ["/w"]).1 =
        (buildRoots w c fresh ["/w"]).1 := by
  intro w c fresh
  have hw : w.IsInMemory := Workspace.isInMemory_holding (by decide) _
  have hneutral : ∀ path ∈ ["/w/vendor", "/w/b/c"],
      w.IsNeutral c ["/w"] (canonical w.cwd path) := by
    intro path hpath
    refine Workspace.isNeutral_of_bare (isLocation_canonical hw.rooted path) ?_
    revert path
    decide +kernel
  exact ⟨hw, hneutral,
    (asked_eq_fresh w hw c .empty ["/w"] ["/w/vendor", "/w/b/c"]).2 hneutral⟩

/-- In general asking changes the roots: to ask for the owner of a directory that is left out makes
its folder a root, for the source in it. -/
theorem not_asked_eq_fresh :
    ¬ ∀ (w : Workspace), w.IsInMemory → ∀ (c : Conventions) (s : Survey)
      (folders paths : List String),
        let fresh := build w c s folders
        let asked := askAll w c fresh (paths.map .ownerOf)
        (buildRoots w c asked folders).1 = (buildRoots w c fresh folders).1 ∧
          ∀ path, (ownerOf w c asked path).1 = (ownerOf w c fresh path).1 := by
  intro hall
  let w := Workspace.holding "/" [("/w/a/go.mod", ""), ("/w/vendor/x_test.go", "")]
  have hsame := hall w (Workspace.isInMemory_holding (by decide) _)
    (.leavingOut ["^vendor$"]) .empty ["/w"] ["/w/vendor"]
  exact absurd hsame.1 (by decide +kernel)

/-! ## Asking can change the roots -/

/-- A search finds the nearest manifest by looking into its directory, if nothing on the way up to
it is known. -/
theorem mem_search_of_nearestManifest {owners : Keyed String Owner} {p m : String}
    (hp : IsLocation p) (hown : w.nearestManifest c p = some m)
    (hunknown : ∀ x, IsLocation x → isAtOrBelow p x = true → isAtOrBelow x m = true →
      x ∉ owners.keys) : m ∈ (search w c owners (ancestors p)).1 := by
  obtain ⟨hm, hpm, -⟩ := (w.nearestManifest_eq_some_iff c hp).mp hown
  have hself := (Keyed.get?_eq_none_iff owners p).mpr
    (hunknown p hp (isAtOrBelow_refl p) hpm)
  induction hp using IsLocation.below_induction with
  | root =>
      rw [Workspace.nearestManifest_root] at hown
      split at hown
      · rename_i hman
        obtain rfl : "/" = m := Option.some.inj hown
        simp [ancestors_root, search, hself, hman]
      · exact absurd hown (by simp)
  | step q name hq hname ih =>
      rw [Workspace.nearestManifest_below w c hq hname] at hown
      rw [ancestors_below hq hname, search, hself]
      split at hown
      · rename_i hman
        obtain rfl : below q name = m := Option.some.inj hown
        simp [hman]
      · rename_i hman
        obtain ⟨-, hqm, -⟩ := (w.nearestManifest_eq_some_iff c hq).mp hown
        have hunknown' : ∀ x, IsLocation x → isAtOrBelow q x = true →
            isAtOrBelow x m = true → x ∉ owners.keys :=
          fun x hx hqx => hunknown x hx ((isAtOrBelow_below_iff hq hname hx).mpr (Or.inr hqx))
        have hqself := (Keyed.get?_eq_none_iff owners q).mpr
          (hunknown' q hq (isAtOrBelow_refl q) hqm)
        simp only [hman]
        exact List.mem_cons_of_mem _ (ih hown hunknown' hqm hqself)

/-- Folders that are known are looked up without looking into any directory. -/
theorem owners_foldl_addFolder {fs : List String} {found : List Container × Survey}
    (hw : w.IsInMemory) (hknown : ∀ f ∈ fs, canonical w.cwd f ∈ found.2.owners.keys) :
    (fs.foldl (addFolder w c) found).2.owners = found.2.owners := by
  induction fs generalizing found with
  | nil => rfl
  | cons f fs ih =>
      have hstep : (addFolder w c found f).2.owners = found.2.owners := by
        obtain ⟨o, hget⟩ := Keyed.exists_get?_of_mem_keys (hknown f List.mem_cons_self)
        rw [addFolder, owners_folderRoots]
        exact (ownerOf_of_get? (isLocation_canonical hw.rooted f) hget).2
      rw [List.foldl_cons, ih, hstep]
      rw [hstep]
      exact fun g hg => hknown g (List.mem_cons_of_mem _ hg)

/-- A module that is known becomes a root of the folder in which it lies. -/
theorem hasRoot_folderRoots_of_known {f m : String} {o : Owner} (hw : w.IsInMemory)
    (hget : s.owners.get? (canonical w.cwd f) = some o) (hm : (m, some m) ∈ s.owners.entries)
    (hin : isAtOrBelow m (canonical w.cwd f) = true) (hne : m ≠ canonical w.cwd f)
    (roots : List Container) : HasRoot (Survey.folderRoots w c roots s f).1 .module m := by
  have hloc := isLocation_canonical hw.rooted f
  obtain ⟨-, howners⟩ := ownerOf_of_get? (c := c) hloc hget
  cases hfound : ownerOf w c s (canonical w.cwd f) with
  | mk owner t =>
      rw [hfound] at howners
      simp only at howners
      have hnested : m ∈ nestedModules w t (canonical w.cwd f) := by
        rw [nestedModules, List.mem_filter, moduleRootsWithin, List.mem_filter, moduleRoots,
          howners, canonical_of_isLocation hloc]
        exact ⟨⟨List.mem_map.mpr ⟨(m, some m), List.mem_filter.mpr ⟨hm, by simp⟩, rfl⟩, hin⟩,
          by simpa using hne⟩
      cases owner with
      | some owner =>
          rw [folderRoots_of_owner hfound]
          exact hasRoot_emitModules (List.mem_cons_of_mem _ hnested)
      | none =>
          rw [folderRoots_of_no_owner hfound]
          exact (keptByEmit_hasRoot w c .module m).emitFolder (hasRoot_emitModules hnested) _

/-- A module that is known becomes a root if it lies in one of the folders. -/
theorem hasRoot_buildRoots_of_known {f m : String} (hw : w.IsInMemory) (hf : f ∈ folders)
    (hknown : ∀ g ∈ folders, canonical w.cwd g ∈ t.owners.keys)
    (hm : (m, some m) ∈ t.owners.entries) (hin : isAtOrBelow m (canonical w.cwd f) = true)
    (hne : m ≠ canonical w.cwd f) : HasRoot (buildRoots w c t folders).1 .module m := by
  obtain ⟨o, hget⟩ := Keyed.exists_get?_of_mem_keys (hknown f hf)
  obtain ⟨before, behind, rfl⟩ := List.append_of_mem hf
  -- up to the folder nothing is remembered anew, and what is found for it stays
  have howners : (before.foldl (addFolder w c) ([], t)).2.owners = t.owners :=
    owners_foldl_addFolder hw fun g hg => hknown g (List.mem_append_left _ hg)
  rw [Survey.buildRoots_eq]
  simp only [List.foldl_append, List.foldl_cons]
  generalize before.foldl (addFolder w c) ([], t) = found at howners ⊢
  rw [← howners] at hm hget
  exact (keptByEmit_hasRoot w c .module m).foldl_addFolder
    (hasRoot_folderRoots_of_known hw hget hm hin hne _) behind

/-- After a search a module that the walks bypass is remembered, with itself for its owner. -/
theorem mem_entries_ownerOf (hw : w.IsInMemory) (h : Maps w c folders s) {m path : String}
    (hbypassed : w.IsBypassed c folders (canonical w.cwd path) m)
    (hown : w.nearestManifest c (canonical w.cwd path) = some m) :
    (m, some m) ∈ (ownerOf w c s path).2.owners.entries := by
  have hpath := isLocation_canonical hw.rooted path
  have hagrees := (ownerOf_agrees hw.rooted (isInherited_nearestManifest w c) h.agrees path).2
  have hlooked : m ∈ (ownerOf w c s path).2.owners.keys := by
    have hsearched := mem_search_of_nearestManifest hpath hown fun x hx hpx hxm hknown =>
      hbypassed.unwalked x hx hpx hxm ((h.knows x).mp hknown)
    rw [owners_ownerOf, Keyed.mem_keys_insertMany]
    exact Or.inr (List.mem_map.mpr ⟨_, List.mem_map_of_mem hsearched, rfl⟩)
  obtain ⟨e, he, rfl⟩ := List.mem_map.mp hlooked
  have hright : e.2 = w.nearestManifest c e.1 := (hagrees e.1 e.2 he).2
  rw [Workspace.nearestManifest_self hpath hown] at hright
  rw [← hright]
  exact he

/-- To ask for the owner of a path below a module that the walks bypass changes the roots, if the
module lies in a folder and is none of the roots. -/
theorem asked_ne_fresh (hw : w.IsInMemory) (h : Maps w c folders s) {f m path : String}
    (hf : f ∈ folders) (hin : isAtOrBelow m (canonical w.cwd f) = true)
    (hbypassed : w.IsBypassed c folders (canonical w.cwd path) m)
    (hown : w.nearestManifest c (canonical w.cwd path) = some m)
    (hnew : ¬ w.HasRoot c folders .module m) :
    (buildRoots w c (ownerOf w c s path).2 folders).1 ≠ (buildRoots w c s folders).1 := by
  have hne : m ≠ canonical w.cwd f := by
    rintro rfl
    exact hbypassed.unwalked _ hbypassed.location hbypassed.above (isAtOrBelow_refl _)
      (isWalked_folder hf)
  have hroot := hasRoot_buildRoots_of_known (c := c) hw hf
    (fun g hg => mem_keys_ownerOf ((h.knows _).mpr (isWalked_folder hg)) path)
    (mem_entries_ownerOf hw h hbypassed hown) hin hne
  intro heq
  rw [heq] at hroot
  exact hnew ((h.hasRoot_buildRoots_iff hw).mp hroot)

end Survey

end TestAtlas
