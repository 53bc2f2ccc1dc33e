import TestAtlas.Proofs.Workspace.Changes

/-!
# What lies above a directory

A store may let one location be a file and a directory, but above each of its directories and files
there is always a directory, up to the root.  Every operation keeps this (`IsClosed.writeAt`,
`IsClosed.makeDirectoriesAt` and `IsClosed.remove`), and the directories that are there after some
were made are known: `IsClosed.isDirectory_makeDirectoriesAt`.
-/

namespace TestAtlas.FileStore

open TestAtlas.Path

variable {s : FileStore}

/-! ## Which directories there are -/

theorem isDirectory_mk (s : FileStore) (files : Keyed String String) (d : String) :
    (FileStore.mk s.directories files).isDirectory d = s.isDirectory d := rfl

theorem isDirectory_changeListing (directory d : String)
    (change : Keyed String EntryType → Keyed String EntryType) :
    (s.changeListing directory change).isDirectory d = s.isDirectory d := by
  rw [isDirectory, isDirectory, Keyed.contains, Keyed.contains, get?_changeListing]
  split <;> simp

theorem isDirectory_writeAt (s : FileStore) (p content d : String) :
    (s.writeAt p content).isDirectory d =
      (s.makeDirectoriesAt (directoryPart p)).isDirectory d := by
  rw [writeAt_eq, isDirectory_changeListing, isDirectory_mk]

theorem isDirectory_unlist (s : FileStore) (p d : String) :
    (s.unlist p).isDirectory d = s.isDirectory d := by
  rw [unlist, isDirectory_changeListing]

theorem isDirectory_dropSubtree {p : String} (hp : IsLocation p) (hroot : p ≠ "/") (d : String) :
    (s.dropSubtree p).isDirectory d = (s.isDirectory d && !isAtOrBelow d p) := by
  rw [isDirectory, isDirectory, Keyed.contains, Keyed.contains, get?_dropSubtree hp hroot]
  cases isAtOrBelow d p <;> simp

theorem missingDirectories_of_isDirectory {p : String} (hp : IsLocation p)
    (h : s.isDirectory p = true) : s.missingDirectories p = [] := by
  obtain ⟨above, habove⟩ := ancestors_eq_cons hp
  rw [missingDirectories, habove, List.takeWhile_cons_of_neg (by simp [h])]

theorem missingDirectories_below {d name : String} (hd : IsLocation d) (hname : IsSegment name)
    (h : s.isDirectory (below d name) = false) :
    s.missingDirectories (below d name) = below d name :: s.missingDirectories d := by
  rw [missingDirectories, ancestors_below hd hname, List.takeWhile_cons_of_pos (by simp [h])]
  rfl

theorem makeDirectoriesAt_of_isDirectory {p : String} (hp : IsLocation p)
    (h : s.isDirectory p = true) : s.makeDirectoriesAt p = s := by
  rw [makeDirectoriesAt, missingDirectories_of_isDirectory hp h, List.foldr_nil]

theorem makeDirectoriesAt_below {d name : String} (hd : IsLocation d) (hname : IsSegment name)
    (h : s.isDirectory (below d name) = false) :
    s.makeDirectoriesAt (below d name) = (s.makeDirectoriesAt d).addDirectory (below d name) := by
  rw [makeDirectoriesAt, missingDirectories_below hd hname h, List.foldr_cons]
  rfl

/-! ## Closed stores -/

/-- Directly above each directory and each file there is a directory. -/
structure IsClosed (s : FileStore) : Prop where
  root : s.isDirectory "/" = true
  directories : ∀ d, s.isDirectory d = true →
    IsLocation d ∧ s.isDirectory (directoryPart d) = true
  files : ∀ p, s.files.contains p = true → IsLocation p ∧ s.isDirectory (directoryPart p) = true

theorem isClosed_empty : IsClosed .empty where
  root := by decide
  directories := by
    intro d hd
    have hroot : d = "/" := by
      by_contra hne
      simp [isDirectory, empty, Keyed.contains, Keyed.get?_insert, hne] at hd
    rw [hroot, directoryPart_root]
    exact ⟨isLocation_root, by decide⟩
  files := fun p hp => absurd hp (by simp [empty, Keyed.contains])

namespace IsClosed

/-- All that lies above a directory is a directory. -/
theorem isDirectory_above (h : s.IsClosed) {p a : String} (ha : IsLocation a)
    (hp : s.isDirectory p = true) (hpa : isAtOrBelow p a = true) : s.isDirectory a = true := by
  have hloc := (h.directories p hp).1
  induction hloc using IsLocation.below_induction with
  | root =>
      have hmem := (mem_ancestors_iff isLocation_root).mpr ⟨ha, hpa⟩
      rw [ancestors_root, List.mem_singleton] at hmem
      exact hmem ▸ h.root
  | step d name hd hname ih =>
      rcases (isAtOrBelow_below_iff hd hname ha).mp hpa with rfl | hda
      · exact hp
      · have hup := (h.directories _ hp).2
        rw [directoryPart_below hd hname] at hup
        exact ih hup hda

/-- The directories that are made are those at and above the location. -/
theorem isDirectory_makeDirectoriesAt (h : s.IsClosed) {p : String} (hp : IsLocation p)
    (q : String) : (s.makeDirectoriesAt p).isDirectory q = true ↔
      s.isDirectory q = true ∨ q ∈ ancestors p := by
  induction hp using IsLocation.below_induction with
  | root =>
      rw [makeDirectoriesAt_of_isDirectory isLocation_root h.root, ancestors_root,
        List.mem_singleton]
      constructor
      · exact Or.inl
      · rintro (hq | rfl)
        · exact hq
        · exact h.root
  | step d name hd hname ih =>
      by_cases hthere : s.isDirectory (below d name) = true
      · rw [makeDirectoriesAt_of_isDirectory (hd.below hname) hthere]
        constructor
        · exact Or.inl
        · rintro (hq | hq)
          · exact hq
          · obtain ⟨hloc, habove⟩ := (mem_ancestors_iff (hd.below hname)).mp hq
            exact h.isDirectory_above hloc hthere habove
      · rw [Bool.not_eq_true] at hthere
        rw [makeDirectoriesAt_below hd hname hthere, isDirectory_addDirectory, Bool.or_eq_true,
          decide_eq_true_eq, ih, ancestors_below hd hname, List.mem_cons]
        exact or_left_comm

theorem isDirectory_made (h : s.IsClosed) {p : String} (hp : IsLocation p) :
    (s.makeDirectoriesAt p).isDirectory p = true :=
  (h.isDirectory_makeDirectoriesAt hp p).mpr
    (Or.inr ((mem_ancestors_iff hp).mpr ⟨hp, isAtOrBelow_refl p⟩))

/-! ### An operation at a time -/

theorem makeDirectoriesAt (h : s.IsClosed) {p : String} (hp : IsLocation p) :
    (s.makeDirectoriesAt p).IsClosed where
  root := (h.isDirectory_makeDirectoriesAt hp "/").mpr (Or.inl h.root)
  directories := by
    intro d hd
    rw [h.isDirectory_makeDirectoriesAt hp] at hd ⊢
    rcases hd with hd | hd
    · exact ⟨(h.directories d hd).1, Or.inl (h.directories d hd).2⟩
    · -- the directory above a location at or above this one is at or above it as well
      obtain ⟨hloc, habove⟩ := (mem_ancestors_iff hp).mp hd
      have hup := isLocation_directoryPart hloc
      refine ⟨hloc, Or.inr ((mem_ancestors_iff hp).mpr ⟨hup, ?_⟩)⟩
      exact isAtOrBelow_trans hp hloc hup habove (isAtOrBelow_directoryPart_self hloc)
  files := by
    intro q hq
    rw [files_makeDirectoriesAt] at hq
    rw [h.isDirectory_makeDirectoriesAt hp]
    exact ⟨(h.files q hq).1, Or.inl (h.files q hq).2⟩

theorem writeAt (h : s.IsClosed) {p : String} (hp : IsLocation p) (content : String) :
    (s.writeAt p content).IsClosed := by
  have hdir := isLocation_directoryPart hp
  have hmade := h.makeDirectoriesAt hdir
  constructor
  · rw [isDirectory_writeAt]
    exact hmade.root
  · intro d hd
    rw [isDirectory_writeAt] at hd ⊢
    exact hmade.directories d hd
  · intro q hq
    rw [isDirectory_writeAt]
    rw [files_writeAt, Keyed.contains_insert, Bool.or_eq_true, decide_eq_true_eq] at hq
    rcases hq with rfl | hq
    · exact ⟨hp, h.isDirectory_made hdir⟩
    · rw [← files_makeDirectoriesAt s (directoryPart p)] at hq
      exact hmade.files q hq

theorem remove (h : s.IsClosed) {cwd path : String} (hcwd : isRooted cwd.toList = true)
    {s' : FileStore} (hremove : s.remove cwd path = .ok s') : s'.IsClosed := by
  have hp := isLocation_canonical hcwd path
  rcases remove_cases hremove with ⟨-, rfl⟩ | ⟨hfile, -, hroot, rfl⟩
  · constructor
    · rw [isDirectory_unlist]
      exact h.root
    · intro d hd
      rw [isDirectory_unlist] at hd ⊢
      exact h.directories d hd
    · intro q hq
      rw [files_unlist, Keyed.contains_erase, Bool.and_eq_true] at hq
      rw [isDirectory_unlist]
      exact h.files q hq.2
  · generalize canonical cwd path = p at hp hfile hroot
    -- what is not at or below the location has its directory neither
    have hleft : ∀ q, IsLocation q ∧ s.isDirectory (directoryPart q) = true →
        isAtOrBelow q p = false →
        IsLocation q ∧ ((s.dropSubtree p).unlist p).isDirectory (directoryPart q) = true := by
      rintro q ⟨hq, hup⟩ hout
      refine ⟨hq, ?_⟩
      rw [isDirectory_unlist, isDirectory_dropSubtree hp hroot, hup, Bool.true_and,
        Bool.not_eq_true', Bool.eq_false_iff]
      intro hin
      have hdir := isLocation_directoryPart hq
      rw [isAtOrBelow_trans hq hdir hp (isAtOrBelow_directoryPart_self hq) hin] at hout
      exact absurd hout (by decide)
    constructor
    · have hout : isAtOrBelow "/" p = false := by
        rw [Bool.eq_false_iff]
        intro hin
        have hmem := (mem_ancestors_iff isLocation_root).mpr ⟨hp, hin⟩
        rw [ancestors_root, List.mem_singleton] at hmem
        exact hroot hmem
      rw [isDirectory_unlist, isDirectory_dropSubtree hp hroot, h.root, hout]
      rfl
    · intro d hd
      rw [isDirectory_unlist, isDirectory_dropSubtree hp hroot, Bool.and_eq_true,
        Bool.not_eq_true'] at hd
      exact hleft d (h.directories d hd.1) hd.2
    · intro q hq
      rw [files_unlist, contains_dropSubtree hp hroot hfile, Bool.and_eq_true,
        Bool.not_eq_true'] at hq
      exact hleft q (h.files q hq.1) hq.2

end IsClosed

end TestAtlas.FileStore
