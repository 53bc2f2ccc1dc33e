import TestAtlas.Pattern.Parser
import TestAtlas.Proofs.Workspace.InMemory
import TestAtlas.Workspace.ModuleMap

/-!
# Every survey agrees with the nearest manifest

Owners are found in four ways: handed down by a walk, looked for above the place where a walk
starts, looked for on demand, and taken from what was found before.  All four follow one rule of
inheritance: a directory with a manifest owns itself, any other has the owner of its parent.  So
whatever judgement is closed under this rule holds of everything that a survey remembers.  The main
statement is `owners_eq_nearestManifest`: after any queries, what is remembered and what is answered
is the nearest directory above that holds a manifest.
-/

namespace TestAtlas

open TestAtlas.Path

/-- Conventions by which no directory is left out. -/
def Conventions.usual : Conventions := ⟨"go.mod", "_test.go", [".go"], []⟩

/-- The usual conventions, but that directories are left out in whose names one of the patterns
occurs. -/
def Conventions.leavingOut (patterns : List String) : Conventions :=
  { usual with excluded := (Expression.ofTexts patterns).toOption.getD [] }

namespace Workspace

/-- The nearest directory that holds a manifest, from the given one upwards. -/
def nearestManifest (w : Workspace) (c : Conventions) (directory : String) : Owner :=
  (ancestors directory).find? fun d => c.hasManifest (w.entries d)

theorem nearestManifest_root (w : Workspace) (c : Conventions) :
    w.nearestManifest c "/" = if c.hasManifest (w.entries "/") then some "/" else none := by
  rw [nearestManifest, ancestors_root, List.find?_singleton]

theorem nearestManifest_below (w : Workspace) (c : Conventions) {d s : String}
    (hd : IsLocation d) (hs : IsSegment s) :
    w.nearestManifest c (below d s) =
      if c.hasManifest (w.entries (below d s)) then some (below d s)
      else w.nearestManifest c d := by
  rw [nearestManifest, ancestors_below hd hs, List.find?_cons]
  split
  · rename_i h
    rw [if_pos h]
  · rename_i h
    rw [if_neg (by simpa using h), nearestManifest]

theorem nearestManifest_of_hasManifest (w : Workspace) (c : Conventions) {d : String}
    (hd : IsLocation d) (h : c.hasManifest (w.entries d) = true) :
    w.nearestManifest c d = some d := by
  obtain ⟨above, habove⟩ := ancestors_eq_cons hd
  rw [nearestManifest, habove, List.find?_cons, h]

/-- The nearest manifest lies at or above the directory, and no directory between the two holds
one. -/
theorem nearestManifest_eq_some_iff (w : Workspace) (c : Conventions) {d m : String}
    (hd : IsLocation d) :
    w.nearestManifest c d = some m ↔
      IsLocation m ∧ isAtOrBelow d m = true ∧ c.hasManifest (w.entries m) = true ∧
        ∀ a, IsLocation a → isAtOrBelow d a = true → c.hasManifest (w.entries a) = true →
          isAtOrBelow m a = true := by
  induction hd using IsLocation.below_induction with
  | root =>
      have honly : ∀ a, IsLocation a → isAtOrBelow "/" a = true → a = "/" := by
        intro a ha hroot
        have hmem := (mem_ancestors_iff isLocation_root).mpr ⟨ha, hroot⟩
        rwa [ancestors_root, List.mem_singleton] at hmem
      rw [nearestManifest_root]
      constructor
      · intro h
        split at h
        · rename_i hman
          rw [← Option.some.inj h]
          refine ⟨isLocation_root, isAtOrBelow_refl _, hman, ?_⟩
          intro a ha hroot _
          rw [honly a ha hroot]
          exact isAtOrBelow_refl _
        · exact absurd h (by simp)
      · rintro ⟨hm, hroot, hman, -⟩
        have hmroot := honly m hm hroot
        rw [hmroot] at hman ⊢
        rw [if_pos hman]
  | step d s hd hs ih =>
      rw [nearestManifest_below w c hd hs]
      have hself := hd.below hs
      by_cases hman : c.hasManifest (w.entries (below d s)) = true
      · rw [if_pos hman]
        constructor
        · intro h
          rw [← Option.some.inj h]
          exact ⟨hself, isAtOrBelow_refl _, hman, fun a _ habove _ => habove⟩
        · rintro ⟨hm, habove, -, hnearest⟩
          have hback := hnearest _ hself (isAtOrBelow_refl _) hman
          rw [isAtOrBelow_antisymm hself hm habove hback]
      · -- without a manifest here, the directories to look at are those above the parent
        rw [if_neg hman, ih]
        constructor
        · rintro ⟨hm, habove, hmanm, hnearest⟩
          refine ⟨hm, (isAtOrBelow_below_iff hd hs hm).mpr (Or.inr habove), hmanm, ?_⟩
          intro a ha hda hmana
          rcases (isAtOrBelow_below_iff hd hs ha).mp hda with rfl | hda
          · exact absurd hmana hman
          · exact hnearest a ha hda hmana
        · rintro ⟨hm, habove, hmanm, hnearest⟩
          rcases (isAtOrBelow_below_iff hd hs hm).mp habove with rfl | habove
          · exact absurd hmanm hman
          · refine ⟨hm, habove, hmanm, ?_⟩
            intro a ha hda
            exact hnearest a ha ((isAtOrBelow_below_iff hd hs ha).mpr (Or.inr hda))

/-- The directory that owns another one owns itself. -/
theorem nearestManifest_self {w : Workspace} {c : Conventions} {d m : String} (hd : IsLocation d)
    (h : w.nearestManifest c d = some m) : w.nearestManifest c m = some m := by
  obtain ⟨hm, -, hman, -⟩ := (w.nearestManifest_eq_some_iff c hd).mp h
  exact w.nearestManifest_of_hasManifest c hm hman

/-- Above a directory without an owner no directory has one. -/
theorem nearestManifest_eq_none_of_isAtOrBelow {w : Workspace} {c : Conventions} {d a : String}
    (hd : IsLocation d) (ha : IsLocation a) (hin : isAtOrBelow d a = true)
    (h : w.nearestManifest c d = none) : w.nearestManifest c a = none := by
  rw [nearestManifest, List.find?_eq_none] at h ⊢
  intro m hm
  obtain ⟨hmloc, ham⟩ := (mem_ancestors_iff ha).mp hm
  exact h m ((mem_ancestors_iff hd).mpr ⟨hmloc, isAtOrBelow_trans hd ha hmloc hin ham⟩)

end Workspace

namespace Survey

/-- A judgement about owners that is closed under inheritance: a directory with a manifest owns
itself, any other has the owner of its parent, and the root without a manifest has none. -/
structure IsInherited (w : Workspace) (c : Conventions) (owns : String → Owner → Prop) : Prop where
  manifest : ∀ d, IsLocation d → c.hasManifest (w.entries d) = true → owns d (some d)
  root : c.hasManifest (w.entries "/") = false → owns "/" none
  below : ∀ d s o, IsLocation d → IsSegment s → c.hasManifest (w.entries (below d s)) = false →
    owns d o → owns (Path.below d s) o

/-- All that is remembered of the owners is right by a judgement. -/
def Agrees (owns : String → Owner → Prop) (owners : Keyed String Owner) : Prop :=
  ∀ d o, (d, o) ∈ owners.entries → IsLocation d ∧ owns d o

theorem agrees_empty (owns : String → Owner → Prop) : Agrees owns Keyed.empty := by
  intro d o h
  exact absurd h (by simp [Keyed.empty])

theorem Agrees.insertMany {owns : String → Owner → Prop} {owners : Keyed String Owner}
    (h : Agrees owns owners) {found : List (String × Owner)}
    (hfound : ∀ v ∈ found, IsLocation v.1 ∧ owns v.1 v.2) :
    Agrees owns (owners.insertMany found) := by
  intro d o hmem
  rcases Keyed.mem_entries_insertMany hmem with hmem | hmem
  · exact hfound _ hmem
  · exact h d o hmem

theorem Agrees.insertSame {owns : String → Owner → Prop} {owners : Keyed String Owner}
    (h : Agrees owns owners) {ds : List String} {o : Owner}
    (hds : ∀ d ∈ ds, IsLocation d ∧ owns d o) :
    Agrees owns (owners.insertMany (ds.map fun d => (d, o))) := by
  apply h.insertMany
  intro v hv
  obtain ⟨d, hd, rfl⟩ := List.mem_map.mp hv
  exact hds d hd

theorem Agrees.of_get? {owns : String → Owner → Prop} {owners : Keyed String Owner}
    (h : Agrees owns owners) {d : String} {o : Owner} (hget : owners.get? d = some o) : owns d o :=
  (h d o ((Keyed.get?_eq_some_iff owners d o).mp hget)).2

variable {w : Workspace} {c : Conventions} {owns : String → Owner → Prop}

/-! ## Looking upwards -/

/-- A search upwards finds a right owner, also for each directory that it looked into. -/
theorem search_agrees (hin : IsInherited w c owns) {owners : Keyed String Owner}
    (h : Agrees owns owners) {d : String} (hd : IsLocation d) :
    owns d (search w c owners (ancestors d)).2 ∧
      ∀ v ∈ (search w c owners (ancestors d)).1,
        IsLocation v ∧ owns v (search w c owners (ancestors d)).2 := by
  induction hd using IsLocation.below_induction with
  | root =>
      rw [ancestors_root, search]
      split
      · rename_i o hget
        exact ⟨h.of_get? hget, by simp⟩
      · split
        · rename_i hman
          have hroot := hin.manifest "/" isLocation_root hman
          simpa using ⟨hroot, isLocation_root, hroot⟩
        · rename_i hman
          have hroot := hin.root (by simpa using hman)
          simpa [search] using ⟨hroot, isLocation_root, hroot⟩
  | step d s hd hs ih =>
      have hself := hd.below hs
      rw [ancestors_below hd hs, search]
      split
      · rename_i o hget
        exact ⟨h.of_get? hget, by simp⟩
      · split
        · rename_i hman
          have hown := hin.manifest _ hself hman
          simpa using ⟨hown, hself, hown⟩
        · rename_i hman
          have hown := hin.below d s _ hd hs (by simpa using hman) ih.1
          refine ⟨hown, ?_⟩
          intro v hv
          rcases List.mem_cons.mp hv with rfl | hv
          · exact ⟨hself, hown⟩
          · exact ih.2 v hv

theorem owners_ownerOf (w : Workspace) (c : Conventions) (s : Survey) (path : String) :
    (ownerOf w c s path).2.owners = s.owners.insertMany
      ((search w c s.owners (ancestors (canonical w.cwd path))).1.map fun d =>
        (d, (search w c s.owners (ancestors (canonical w.cwd path))).2)) := by
  simp only [ownerOf]

theorem ownerOf_agrees (hrooted : isRooted w.cwd.toList = true) (hin : IsInherited w c owns)
    {s : Survey} (h : Agrees owns s.owners) (path : String) :
    owns (canonical w.cwd path) (ownerOf w c s path).1 ∧
      Agrees owns (ownerOf w c s path).2.owners := by
  have hfound := search_agrees hin h (isLocation_canonical hrooted path)
  rw [fst_ownerOf, owners_ownerOf]
  exact ⟨hfound.1, h.insertSame hfound.2⟩

/-- Above a root the search for the handed down owner finds what any search finds. -/
theorem fst_ownerAbove (owners : Keyed String Owner) (ds : List String) :
    (ownerAbove w c owners ds).1 = (search w c owners ds).2 := by
  induction ds with
  | nil => rfl
  | cons d above ih =>
      rw [ownerAbove, search]
      split
      · rfl
      · cases hread : w.readDirectory d with
        | ok entries =>
            have hentries : w.entries d = entries := by rw [Workspace.entries, hread]
            simp only [hentries]
            split
            · rfl
            · exact ih
        -- what cannot be read holds no manifest for either search
        | error e =>
            have hentries : w.entries d = [] := by rw [Workspace.entries, hread]
            have hman : c.hasManifest (w.entries d) = false := by
              rw [hentries]
              rfl
            simp only [hman, Bool.false_eq_true, if_false]
            exact ih

theorem directoriesAbove_eq {d : String} (hd : IsLocation d) :
    directoriesAbove d = ancestors (directoryPart d) := by
  induction hd using IsLocation.below_induction with
  | root => simp only [directoryPart_root, directoriesAbove, ancestors_root]
  | step d s hd hs _ =>
      obtain ⟨above, habove⟩ := ancestors_eq_cons hd
      rw [directoryPart_below hd hs, directoriesAbove, ancestors_below hd hs, habove]
      rfl

/-! ## Walking down -/

/-- A walk hands right owners down. -/
theorem visits_agrees (hw : w.IsInMemory) (hin : IsInherited w c owns) (depth : Nat) {d : String}
    (hd : IsLocation d) {owner : Owner}
    (howner : owns d (if c.hasManifest (w.entries d) then some d else owner)) :
    ∀ v ∈ visits w c depth owner d, IsLocation v.1 ∧ owns v.1 v.2 := by
  induction depth generalizing d owner with
  | zero => simp [visits]
  | succ depth ih =>
      intro v hv
      rw [visits, List.mem_cons] at hv
      rcases hv with rfl | hv
      · exact ⟨hd, howner⟩
      · obtain ⟨sub, hsub, hv⟩ := List.mem_flatMap.mp hv
        rw [Conventions.subdirectories, List.mem_map] at hsub
        obtain ⟨e, he, rfl⟩ := hsub
        have hseg := Workspace.isSegment_of_mem_entries hw (List.mem_of_mem_filter he)
        have hself := hd.below hseg
        refine ih hself ?_ v hv
        split
        · rename_i hman
          exact hin.manifest _ hself hman
        · rename_i hman
          exact hin.below d e.1 _ hd hseg (by simpa using hman) howner

theorem walk_agrees (hw : w.IsInMemory) (hin : IsInherited w c owns) {s : Survey}
    (h : Agrees owns s.owners) {root : String} (hroot : IsLocation root) :
    Agrees owns (walk w c s root).owners := by
  have habove := search_agrees hin h (isLocation_directoryPart hroot)
  refine h.insertMany (visits_agrees hw hin _ hroot ?_)
  rw [fst_ownerAbove, directoriesAbove_eq hroot]
  split
  · rename_i hman
    exact hin.manifest root hroot hman
  · rename_i hman
    -- the root of all has no parent of its own, so the owner found above it is its own
    by_cases hne : root = "/"
    · have hown := habove.1
      rw [hne, directoryPart_root] at hown
      rw [hne, directoryPart_root]
      exact hown
    · obtain ⟨hdir, hlast, heq⟩ := eq_below_of_ne_root hroot hne
      have hown := hin.below _ _ _ hdir hlast (by rw [← heq]; simpa using hman) habove.1
      rw [← heq] at hown
      exact hown

theorem foldl_walk_agrees (hw : w.IsInMemory) (hin : IsInherited w c owns) {roots : List String}
    (hroots : ∀ r ∈ roots, IsLocation r) {s : Survey} (h : Agrees owns s.owners) :
    Agrees owns (roots.foldl (walk w c) s).owners := by
  induction roots generalizing s with
  | nil => exact h
  | cons r roots ih =>
      -- a later walk starts from what the earlier ones remembered
      have hstep := walk_agrees hw hin h (hroots r (by simp))
      rw [List.foldl_cons]
      exact ih (fun r' hr' => hroots r' (by simp [hr'])) hstep

theorem build_agrees (hw : w.IsInMemory) (hin : IsInherited w c owns) (s : Survey)
    (roots : List String) : Agrees owns (build w c s roots).owners := by
  rw [build, owners_report]
  apply foldl_walk_agrees hw hin
  · intro r hr
    obtain ⟨root, -, rfl⟩ := List.mem_map.mp hr
    exact isLocation_canonical hw.rooted root
  · exact agrees_empty owns

/-! ## The nearest manifest -/

/-- The nearest manifest is inherited. -/
theorem isInherited_nearestManifest (w : Workspace) (c : Conventions) :
    IsInherited w c fun d o => o = w.nearestManifest c d where
  manifest := fun d hd hman => (w.nearestManifest_of_hasManifest c hd hman).symm
  root := fun hman => by
    rw [Workspace.nearestManifest_root, if_neg (by simpa using hman)]
  below := fun d s o hd hs hman ho => by
    rw [w.nearestManifest_below c hd hs, if_neg (by simpa using hman)]
    exact ho

/-- What is asked of a survey. -/
inductive Query where
  | build (roots : List String)
  | ownerOf (path : String)
  deriving DecidableEq, Repr

/-- The survey after a query. -/
def ask (w : Workspace) (c : Conventions) (s : Survey) : Query → Survey
  | .build roots => build w c s roots
  | .ownerOf path => (ownerOf w c s path).2

/-- The survey after several queries. -/
def askAll (w : Workspace) (c : Conventions) (s : Survey) (queries : List Query) : Survey :=
  queries.foldl (ask w c) s

theorem ask_agrees (hw : w.IsInMemory) (hin : IsInherited w c owns) {s : Survey}
    (h : Agrees owns s.owners) (q : Query) : Agrees owns (ask w c s q).owners := by
  cases q with
  | build roots => exact build_agrees hw hin s roots
  | ownerOf path => exact (ownerOf_agrees hw.rooted hin h path).2

theorem askAll_agrees (hw : w.IsInMemory) (hin : IsInherited w c owns) {s : Survey}
    (h : Agrees owns s.owners) (queries : List Query) :
    Agrees owns (askAll w c s queries).owners := by
  induction queries generalizing s with
  | nil => exact h
  | cons q queries ih => exact ih (ask_agrees hw hin h q)

/-- After any queries of a new survey, every remembered owner and every answer is the nearest
directory that holds a manifest, at or above the directory asked for. -/
theorem owners_eq_nearestManifest (w : Workspace) (hw : w.IsInMemory) (c : Conventions)
    (queries : List Query) :
    (∀ d o, (d, o) ∈ (askAll w c .empty queries).owners.entries → o = w.nearestManifest c d) ∧
      ∀ path, (ownerOf w c (askAll w c .empty queries) path).1 =
        w.nearestManifest c (canonical w.cwd path) := by
  have hin := isInherited_nearestManifest w c
  have hempty : Agrees (fun d o => o = w.nearestManifest c d) Survey.empty.owners := agrees_empty _
  have hagrees := askAll_agrees hw hin hempty queries
  constructor
  · intro d o hmem
    exact (hagrees d o hmem).2
  · intro path
    exact (ownerOf_agrees hw.rooted hin hagrees path).1

/-- A module inside another one owns what is below it, also where the survey was built elsewhere. -/
theorem owners_eq_nearestManifest_nested :
    let w := Workspace.holding "/" [("/a/go.mod", ""), ("/a/b/go.mod", ""), ("/a/b/c/x.go", "")]
    w.IsInMemory ∧ ∀ path, (ownerOf w .usual
      (askAll w .usual .empty [.build ["/a/b/c", "/a"], .ownerOf "/d"]) path).1 =
        w.nearestManifest .usual (canonical "/" path) := by
  intro w
  have hw : w.IsInMemory := Workspace.isInMemory_holding (by decide) _
  exact ⟨hw, (owners_eq_nearestManifest w hw .usual [.build ["/a/b/c", "/a"], .ownerOf "/d"]).2⟩

end Survey

end TestAtlas
