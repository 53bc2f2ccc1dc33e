import TestAtlas.Proofs.Workspace.Queries

/-!
# Looking for the same things twice

All that discovery does to a survey is to look up owners.  So a property of what is remembered that
a look-up keeps is kept by discovery: `IsKept`.  One such property is to remember all that was
remembered before.  What was looked up once is remembered, and so a second search for the packages
of a root gives the same packages and remembers nothing new: `rootChildren_again`.
-/

namespace TestAtlas

open TestAtlas.Path

namespace Keyed

variable {κ : Type u} {α : Type v} [DecidableEq κ]

theorem get?_insertMany_same (m : Keyed κ α) (ks : List κ) (v : α) (k : κ) :
    (m.insertMany (ks.map fun l => (l, v))).get? k = if k ∈ ks then some v else m.get? k := by
  induction ks generalizing m with
  | nil => simp [insertMany]
  | cons l ks ih =>
      have hstep : m.insertMany ((l :: ks).map fun l => (l, v)) =
          (m.insert l v).insertMany (ks.map fun l => (l, v)) := rfl
      rw [hstep, ih, get?_insert]
      by_cases hk : k ∈ ks
      · rw [if_pos hk, if_pos (List.mem_cons_of_mem _ hk)]
      · rw [if_neg hk]
        simp only [List.mem_cons, hk, or_false]

end Keyed

namespace Survey

variable {w : Workspace} {c : Conventions} {P : Keyed String Owner → Prop} {s t : Survey}

/-! ## What a look-up keeps -/

/-- Looking up an owner keeps the property of what is remembered. -/
def IsKept (w : Workspace) (c : Conventions) (P : Keyed String Owner → Prop) : Prop :=
  ∀ s path, P s.owners → P (ownerOf w c s path).2.owners

theorem IsKept.foldl_addFolder (hP : IsKept w c P) (folders : List String)
    {found : List Container × Survey} (h : P found.2.owners) :
    P (folders.foldl (addFolder w c) found).2.owners := by
  induction folders generalizing found with
  | nil => exact h
  | cons f folders ih =>
      have hstep : P (addFolder w c found f).2.owners := by
        rw [addFolder, owners_folderRoots]
        exact hP found.2 _ h
      rw [List.foldl_cons]
      exact ih hstep

theorem IsKept.buildRoots (hP : IsKept w c P) (h : P s.owners) (folders : List String) :
    P (buildRoots w c s folders).2.owners := by
  rw [Survey.buildRoots_eq]
  have hstart : P (([], s) : List Container × Survey).2.owners := h
  exact hP.foldl_addFolder folders hstart

theorem IsKept.enter (hP : IsKept w c P) {owner : Owner}
    {deeper : List String → Survey → List String × Survey}
    (hdeeper : ∀ ds s, P s.owners → P (deeper ds s).2.owners) (d : String)
    {found : List String × Survey} (h : P found.2.owners) :
    P (enter w c owner deeper found d).2.owners := by
  have hasked := hP found.2 d h
  unfold Survey.enter
  generalize ownerOf w c found.2 d = answer at hasked
  simp only
  split
  · exact hasked
  · exact hdeeper _ _ hasked

theorem IsKept.foldl_enter (hP : IsKept w c P) {owner : Owner}
    {deeper : List String → Survey → List String × Survey}
    (hdeeper : ∀ ds s, P s.owners → P (deeper ds s).2.owners) (ds : List String)
    {found : List String × Survey} (h : P found.2.owners) :
    P (ds.foldl (Survey.enter w c owner deeper) found).2.owners := by
  induction ds generalizing found with
  | nil => exact h
  | cons d ds ih =>
      rw [List.foldl_cons]
      exact ih (hP.enter hdeeper d h)

theorem IsKept.packagesFrom (hP : IsKept w c P) (owner : Owner) (depth : Nat) (ds : List String)
    (h : P s.owners) : P (packagesFrom w c owner depth ds s).2.owners := by
  induction depth generalizing ds s with
  | zero => exact h
  | succ depth ih =>
      rw [packagesFrom_succ]
      exact hP.foldl_enter (fun ds s h => ih ds h) ds h

theorem IsKept.rootChildren (hP : IsKept w c P) (h : P s.owners) (root : String) (owner : Owner) :
    P (rootChildren w c s root owner).2.2.owners :=
  hP.packagesFrom owner w.depthBound _ h

/-! ## What was looked up once -/

/-- All that one map of owners knows another knows as well. -/
def Extends (before after : Keyed String Owner) : Prop :=
  ∀ d o, before.get? d = some o → after.get? d = some o

theorem Extends.refl (owners : Keyed String Owner) : Extends owners owners := fun _ _ h => h

theorem Extends.trans {first second third : Keyed String Owner} (h : Extends first second)
    (h' : Extends second third) : Extends first third :=
  fun d o hd => h' d o (h d o hd)

/-- Only directories whose owners are not known are looked into. -/
theorem get?_eq_none_of_mem_search {owners : Keyed String Owner} {ds : List String} {d : String}
    (h : d ∈ (search w c owners ds).1) : owners.get? d = none := by
  induction ds with
  | nil => exact absurd h (by simp [search])
  | cons first rest ih =>
      rw [search] at h
      split at h
      · exact absurd h (by simp)
      · rename_i hfirst
        split at h
        · rw [List.mem_singleton.mp h]
          exact hfirst
        · rcases List.mem_cons.mp h with rfl | h
          · exact hfirst
          · exact ih h

theorem isKept_extends (owners : Keyed String Owner) : IsKept w c (Extends owners) := by
  intro s path h d o hd
  have hknown := h d o hd
  rw [owners_ownerOf, Keyed.get?_insertMany_same]
  split
  · rename_i hmem
    rw [get?_eq_none_of_mem_search hmem] at hknown
    exact absurd hknown (by simp)
  · exact hknown

/-- What was looked up is remembered. -/
theorem get?_ownerOf (hw : w.IsInMemory) (s : Survey) (path : String) :
    (ownerOf w c s path).2.owners.get? (canonical w.cwd path) = some (ownerOf w c s path).1 := by
  obtain ⟨above, habove⟩ := ancestors_eq_cons (isLocation_canonical hw.rooted path)
  rw [fst_ownerOf, owners_ownerOf, Keyed.get?_insertMany_same, habove, search]
  cases hself : s.owners.get? (canonical w.cwd path) with
  | some o => simp
  | none =>
      -- the directory itself was looked into
      simp only
      split <;> simp

theorem ownerOf_of_get?_canonical (hw : w.IsInMemory) {path : String} {o : Owner}
    (h : s.owners.get? (canonical w.cwd path) = some o) :
    (ownerOf w c s path).1 = o ∧ (ownerOf w c s path).2.owners = s.owners := by
  have hsame : ownerOf w c s path = ownerOf w c s (canonical w.cwd path) := by
    unfold ownerOf
    rw [canonical_canonical hw.rooted]
  rw [hsame]
  exact ownerOf_of_get? (isLocation_canonical hw.rooted path) h

section Again

variable {owner : Owner} {deeper : List String → Survey → List String × Survey}

/-- To enter a directory once more, with all still known that was found out there, finds the same
and remembers nothing new. -/
theorem enter_again (hw : w.IsInMemory)
    (hextends : ∀ ds s, Extends s.owners (deeper ds s).2.owners)
    (hdeeper : ∀ ds s t, Extends (deeper ds s).2.owners t.owners →
      (deeper ds t).1 = (deeper ds s).1 ∧ (deeper ds t).2.owners = t.owners)
    {found found' : List String × Survey} (hsame : found'.1 = found.1) (d : String)
    (h : Extends (enter w c owner deeper found d).2.owners found'.2.owners) :
    (enter w c owner deeper found' d).1 = (enter w c owner deeper found d).1 ∧
      (enter w c owner deeper found' d).2.owners = found'.2.owners := by
  have hasked : Extends (ownerOf w c found.2 d).2.owners
      (enter w c owner deeper found d).2.owners := by
    unfold enter
    generalize ownerOf w c found.2 d = answer
    simp only
    split
    · exact .refl _
    · exact hextends (c.subdirectories d (w.entries d)) (answer.2.list w d).2
  have hknown := hasked.trans h _ _ (get?_ownerOf (c := c) hw found.2 d)
  obtain ⟨howner, howners⟩ := ownerOf_of_get?_canonical (c := c) hw hknown
  unfold enter at h ⊢
  generalize ownerOf w c found'.2 d = answer' at howner howners ⊢
  generalize ownerOf w c found.2 d = answer at h howner hknown hasked ⊢
  simp only [howner, hsame] at h ⊢
  by_cases hown : answer.1 = owner
  · simp only [hown, ne_eq, not_true_eq_false, if_false] at h ⊢
    have hlisted := (owners_list w answer'.2 d).trans howners
    rw [← hlisted] at h
    obtain ⟨hbelow, hafter⟩ := hdeeper (c.subdirectories d (w.entries d)) (answer.2.list w d).2
      (answer'.2.list w d).2 h
    rw [hbelow]
    exact ⟨rfl, hafter.trans hlisted⟩
  · simp only [ne_eq, hown, not_false_eq_true, if_true]
    exact ⟨trivial, howners⟩

theorem foldl_enter_again (hw : w.IsInMemory)
    (hextends : ∀ ds s, Extends s.owners (deeper ds s).2.owners)
    (hdeeper : ∀ ds s t, Extends (deeper ds s).2.owners t.owners →
      (deeper ds t).1 = (deeper ds s).1 ∧ (deeper ds t).2.owners = t.owners)
    (ds : List String) {found found' : List String × Survey} (hsame : found'.1 = found.1)
    (h : Extends (ds.foldl (enter w c owner deeper) found).2.owners found'.2.owners) :
    (ds.foldl (enter w c owner deeper) found').1 = (ds.foldl (enter w c owner deeper) found).1 ∧
      (ds.foldl (enter w c owner deeper) found').2.owners = found'.2.owners := by
  induction ds generalizing found found' with
  | nil => exact ⟨hsame, rfl⟩
  | cons d ds ih =>
      rw [List.foldl_cons] at h ⊢
      rw [List.foldl_cons]
      -- what the first directory gave is known to the end of the first search
      have hlater : Extends (enter w c owner deeper found d).2.owners
          (ds.foldl (enter w c owner deeper) (enter w c owner deeper found d)).2.owners :=
        (isKept_extends _).foldl_enter (fun ds s hs => hs.trans (hextends ds s)) ds (.refl _)
      have hknown := hlater.trans h
      obtain ⟨hfirst, howners⟩ := enter_again hw hextends hdeeper hsame d hknown
      rw [← howners] at h
      obtain ⟨hrest, hafter⟩ := ih hfirst h
      exact ⟨hrest, hafter.trans howners⟩

end Again

theorem extends_packagesFrom (w : Workspace) (c : Conventions) (owner : Owner) (depth : Nat)
    (ds : List String) (s : Survey) :
    Extends s.owners (packagesFrom w c owner depth ds s).2.owners :=
  (isKept_extends s.owners).packagesFrom owner depth ds (.refl _)

/-- A second search from the same directories gives the same packages and remembers nothing new, if
all that the first one came to know is still known. -/
theorem packagesFrom_again (hw : w.IsInMemory) (owner : Owner) (depth : Nat) (ds : List String)
    (h : Extends (packagesFrom w c owner depth ds s).2.owners t.owners) :
    (packagesFrom w c owner depth ds t).1 = (packagesFrom w c owner depth ds s).1 ∧
      (packagesFrom w c owner depth ds t).2.owners = t.owners := by
  induction depth generalizing ds s t with
  | zero => exact ⟨rfl, rfl⟩
  | succ depth ih =>
      rw [packagesFrom_succ] at h
      rw [packagesFrom_succ, packagesFrom_succ]
      have hnone : (([] : List String), t).1 = (([] : List String), s).1 := rfl
      exact foldl_enter_again hw (extends_packagesFrom w c owner depth)
        (fun ds _ _ hlater => ih ds hlater) ds hnone h

/-- A second look at a root finds the same packages and files and remembers nothing new. -/
theorem rootChildren_again (hw : w.IsInMemory) (root : String) (owner : Owner)
    (h : t.owners = (rootChildren w c s root owner).2.2.owners) :
    (rootChildren w c t root owner).1 = (rootChildren w c s root owner).1 ∧
      (rootChildren w c t root owner).2.1 = (rootChildren w c s root owner).2.1 ∧
      (rootChildren w c t root owner).2.2.owners = t.owners := by
  unfold rootChildren at h ⊢
  simp only [fst_list] at h ⊢
  have hextends : Extends (packagesFrom w c owner w.depthBound (c.subdirectories
      (canonical w.cwd root) (w.entries (canonical w.cwd root)))
        (s.list w (canonical w.cwd root)).2).2.owners
      (t.list w (canonical w.cwd root)).2.owners := by
    rw [← h, owners_list]
    exact .refl _
  obtain ⟨hsame, howners⟩ := packagesFrom_again hw owner w.depthBound _ hextends
  exact ⟨hsame, trivial, howners⟩

/-- A second look for the roots of folders that are known remembers nothing new. -/
theorem owners_buildRoots (hw : w.IsInMemory) {folders : List String}
    (h : ∀ f ∈ folders, canonical w.cwd f ∈ s.owners.keys) :
    (buildRoots w c s folders).2.owners = s.owners := by
  have hstart : (([], s) : List Container × Survey).2.owners = s.owners := rfl
  rw [buildRoots_eq]
  exact (owners_foldl_addFolder hw h).trans hstart

end Survey

end TestAtlas
