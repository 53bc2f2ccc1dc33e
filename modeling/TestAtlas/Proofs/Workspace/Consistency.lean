import TestAtlas.Proofs.Workspace.Closure

/-!
# Listings, directories and files

A store keeps three records: which directories there are, what each of them lists, and which files
there are.  The records agree for as long as each call is one that a disk admits: no file is written
in the place of a directory, and nothing is made at or below a file.  The first call that is not
admitted makes a location both a file and a directory.  The main statement is `holdsAlong_iff`.
-/

namespace TestAtlas.FileStore

open TestAtlas.Path

/-! ## Calls -/

/-- A call that changes a store. -/
inductive Operation where
  | write (path content : String)
  | makeDirectories (path : String)
  | remove (path : String)
  deriving DecidableEq, Repr

namespace Operation

/-- The store after a call.  A removal that is refused changes nothing. -/
def apply (cwd : String) (s : FileStore) : Operation → FileStore
  | write path content => s.write cwd path content
  | makeDirectories path => s.makeDirectories cwd path
  | remove path =>
    match s.remove cwd path with
    | .ok s' => s'
    | .error _ => s

/-- The call is one that a disk admits: no file is written in the place of a directory or below a
file, and no directory is made at or below a file. -/
def IsTidy (cwd : String) (s : FileStore) : Operation → Prop
  | write path _ => s.isDirectory (canonical cwd path) = false ∧
      ∀ a ∈ ancestors (parent cwd path), s.files.contains a = false
  | makeDirectories path => ∀ a ∈ ancestors (canonical cwd path), s.files.contains a = false
  | remove _ => True

instance (cwd : String) (s : FileStore) : DecidablePred (IsTidy cwd s)
  | write path _ => inferInstanceAs (Decidable (s.isDirectory (canonical cwd path) = false ∧
      ∀ a ∈ ancestors (parent cwd path), s.files.contains a = false))
  | makeDirectories path => inferInstanceAs (Decidable
      (∀ a ∈ ancestors (canonical cwd path), s.files.contains a = false))
  | remove _ => inferInstanceAs (Decidable True)

/-- Each call is admitted when its turn comes. -/
def AllTidy (cwd : String) (s : FileStore) : List Operation → Prop
  | [] => True
  | o :: os => o.IsTidy cwd s ∧ AllTidy cwd (o.apply cwd s) os

end Operation

/-! ## What a reader of the store sees -/

/-- A name of something in a directory. -/
def IsName (name : String) : Prop := name ≠ "" ∧ '/' ∉ name.toList

/-- What is listed is what is stored. -/
structure IsConsistent (cwd : String) (s : FileStore) : Prop where
  /-- Nothing is both a file and a directory. -/
  apart : ∀ p, ¬ (s.files.contains p = true ∧ s.isDirectory p = true)
  /-- A directory can be listed, and shows exactly the files and directories right below it. -/
  shows : ∀ d, s.isDirectory d = true → ∃ listed, s.readDirectory cwd d = .ok listed ∧
    ∀ name, IsName name →
      ((name, .file) ∈ listed ↔ s.files.contains (below d name) = true) ∧
      ((name, .directory) ∈ listed ↔ s.isDirectory (below d name) = true)
  /-- Whatever is stored is shown by the directory above it. -/
  shown : ∀ p, p ≠ "/" → s.files.contains p = true ∨ s.isDirectory p = true →
    ∃ listed type, s.readDirectory cwd (directoryPart p) = .ok listed ∧ (lastPart p, type) ∈ listed

/-- Nothing at or below a location can be read or listed. -/
def IsGone (cwd : String) (s : FileStore) (location : String) : Prop :=
  ∀ path, isAtOrBelow (canonical cwd path) location = true →
    s.readContent cwd path = .error (.notFound path) ∧
    s.readDirectory cwd path = .error (.notFound path)

/-- The store is consistent before and after each call, and what a call removes is gone. -/
def HoldsAlong (cwd : String) (s : FileStore) : List Operation → Prop
  | [] => s.IsConsistent cwd
  | o :: os => s.IsConsistent cwd ∧
      (∀ path s', o = .remove path → s.remove cwd path = .ok s' →
        s'.IsGone cwd (canonical cwd path)) ∧
      HoldsAlong cwd (o.apply cwd s) os

/-! ## What is stored, and what is listed -/

/-- What is stored at a location. -/
def type? (s : FileStore) (p : String) : Option EntryType :=
  if s.files.contains p then some .file
  else if s.isDirectory p then some .directory
  else none

/-- What a directory lists under a name. -/
def listed? (s : FileStore) (d name : String) : Option EntryType :=
  (s.directories.get? d).bind fun listing => listing.get? name

variable {cwd : String} {s : FileStore}

theorem listed?_eq_none {d : String} (h : s.isDirectory d = false) (name : String) :
    s.listed? d name = none := by
  rw [isDirectory, Keyed.contains, Option.isSome_eq_false_iff, Option.isNone_iff_eq_none] at h
  rw [listed?, h, Option.bind_none]

theorem type?_eq_none_iff {p : String} :
    s.type? p = none ↔ s.files.contains p = false ∧ s.isDirectory p = false := by
  unfold type?
  cases s.files.contains p <;> cases s.isDirectory p <;> simp

theorem type?_eq_file_iff {p : String} :
    s.type? p = some .file ↔ s.files.contains p = true := by
  unfold type?
  cases s.files.contains p <;> cases s.isDirectory p <;> simp

theorem type?_eq_directory_iff {p : String} :
    s.type? p = some .directory ↔ s.files.contains p = false ∧ s.isDirectory p = true := by
  unfold type?
  cases s.files.contains p <;> cases s.isDirectory p <;> simp

/-- A changed listing is seen in its directory only. -/
theorem listed?_changeListing (directory d name : String)
    (change : Keyed String EntryType → Keyed String EntryType) :
    (s.changeListing directory change).listed? d name =
      if d = directory then (s.directories.get? d).bind fun listing => (change listing).get? name
      else s.listed? d name := by
  rw [listed?, get?_changeListing]
  split
  · rw [Option.bind_map]
    rfl
  · rfl

/-- A location that is put into the listing of an existing directory. -/
theorem listed?_list {p : String} (hp : s.isDirectory (directoryPart p) = true) (type : EntryType)
    (d name : String) :
    (s.changeListing (directoryPart p) fun listing =>
      listing.insert (lastPart p) type).listed? d name =
      if d = directoryPart p ∧ name = lastPart p then some type else s.listed? d name := by
  rw [isDirectory, Keyed.contains, Option.isSome_iff_exists] at hp
  obtain ⟨listing, hlisting⟩ := hp
  rw [listed?_changeListing]
  by_cases hd : d = directoryPart p
  · subst hd
    by_cases hname : name = lastPart p
    · simp [hlisting, hname, Keyed.get?_insert]
    · simp [hlisting, hname, Keyed.get?_insert, listed?]
  · simp [hd]

theorem listed?_unlist (p d name : String) :
    (s.unlist p).listed? d name =
      if d = directoryPart p ∧ name = lastPart p then none else s.listed? d name := by
  rw [unlist, listed?_changeListing]
  by_cases hd : d = directoryPart p
  · subst hd
    by_cases hname : name = lastPart p
    · cases s.directories.get? (directoryPart p) <;> simp [hname, Keyed.get?_erase]
    · simp [hname, Keyed.get?_erase, listed?]
  · simp [hd]

theorem listed?_addDirectory {p : String} (hp : s.isDirectory (directoryPart p) = true)
    (d name : String) :
    (s.addDirectory p).listed? d name =
      if d = p then none
      else if d = directoryPart p ∧ name = lastPart p then some .directory
      else s.listed? d name := by
  rw [addDirectory, listed?, Keyed.get?_insert]
  split
  · rfl
  · exact listed?_list hp .directory d name

/-! ## Stores whose records agree -/

/-- Each location but the root is listed as what is stored there. -/
structure IsExact (s : FileStore) : Prop where
  sound : s.IsSound
  apart : ∀ p, s.files.contains p = true → s.isDirectory p = false
  located : ∀ p, s.type? p ≠ none → IsLocation p
  listed : ∀ p, IsLocation p → p ≠ "/" → s.listed? (directoryPart p) (lastPart p) = s.type? p

theorem isExact_empty : IsExact .empty where
  sound := isSound_empty
  apart := fun p h => absurd h (by simp [empty, Keyed.contains])
  located := by
    intro p h
    have hroot : p = "/" := by
      by_contra hne
      exact h (by simp [type?, isDirectory, empty, Keyed.contains, Keyed.get?_insert, hne])
    rw [hroot]
    exact isLocation_root
  listed := by
    intro p hp hne
    have hlisted : (empty).listed? (directoryPart p) (lastPart p) = none := by
      rw [listed?, empty, Keyed.get?_insert]
      split <;> simp
    rw [hlisted, eq_comm]
    simp [type?, isDirectory, empty, Keyed.contains, Keyed.get?_insert, hne]

theorem listed?_mk (s : FileStore) (files : Keyed String String) (d name : String) :
    (FileStore.mk s.directories files).listed? d name = s.listed? d name := rfl

theorem listed?_writeAt {p : String} (content : String)
    (hp : (s.makeDirectoriesAt (directoryPart p)).isDirectory (directoryPart p) = true)
    (d name : String) : (s.writeAt p content).listed? d name =
      if d = directoryPart p ∧ name = lastPart p then some .file
      else (s.makeDirectoriesAt (directoryPart p)).listed? d name := by
  rw [writeAt_eq, listed?_list (by rwa [isDirectory_mk]), listed?_mk]

namespace IsExact

/-- What is stored stands in a directory. -/
theorem isDirectory_directoryPart (h : s.IsExact) {p : String} (hp : s.type? p ≠ none) :
    s.isDirectory (directoryPart p) = true := by
  by_cases hroot : p = "/"
  · rw [hroot, directoryPart_root]
    exact h.sound.root
  · by_contra hnot
    rw [Bool.not_eq_true] at hnot
    rw [← h.listed p (h.located p hp) hroot, listed?_eq_none hnot] at hp
    exact hp rfl

theorem isClosed (h : s.IsExact) : s.IsClosed where
  root := h.sound.root
  directories := by
    intro d hd
    have htype : s.type? d ≠ none := by
      rw [ne_eq, type?_eq_none_iff, hd]
      simp
    exact ⟨h.located d htype, h.isDirectory_directoryPart htype⟩
  files := by
    intro p hp
    have htype : s.type? p ≠ none := by
      rw [type?_eq_file_iff.mpr hp]
      simp
    exact ⟨h.located p htype, h.isDirectory_directoryPart htype⟩

/-- All that lies above what is stored is a directory. -/
theorem isDirectory_above (h : s.IsExact) {p a : String} (ha : IsLocation a)
    (hp : s.type? p ≠ none) (hpa : isAtOrBelow p a = true) (hne : p ≠ a) :
    s.isDirectory a = true := by
  have hup := isAtOrBelow_directoryPart (h.located p hp) ha hpa hne
  exact h.isClosed.isDirectory_above ha (h.isDirectory_directoryPart hp) hup

/-- Nothing is stored below a location that is not a directory. -/
theorem type?_below (h : s.IsExact) {p a : String} (ha : IsLocation a)
    (hnot : s.isDirectory a = false) (hpa : isAtOrBelow p a = true) (hne : p ≠ a) :
    s.type? p = none := by
  by_contra hp
  rw [h.isDirectory_above ha hp hpa hne] at hnot
  exact absurd hnot (by decide)

/-! ### A call at a time -/

/-- A new directory in an existing one. -/
theorem addDirectory (h : s.IsExact) {p : String} (hp : IsLocation p) (hne : p ≠ "/")
    (hfree : s.type? p = none) (hdirectory : s.isDirectory (directoryPart p) = true) :
    (s.addDirectory p).IsExact := by
  obtain ⟨hfile, hnew⟩ := type?_eq_none_iff.mp hfree
  have htype : ∀ q, (s.addDirectory p).type? q = if q = p then some .directory else s.type? q := by
    intro q
    rw [type?, type?, files_addDirectory, isDirectory_addDirectory]
    by_cases hq : q = p
    · subst hq
      simp [hfile]
    · simp [hq]
  constructor
  · exact h.sound.addDirectory hp hne
  · intro q hq
    rw [files_addDirectory] at hq
    have hqp : q ≠ p := by
      rintro rfl
      rw [hfile] at hq
      exact absurd hq (by decide)
    rw [isDirectory_addDirectory, h.apart q hq, decide_eq_false hqp]
    rfl
  · intro q hq
    rw [htype] at hq
    split at hq
    · rename_i heq
      exact heq ▸ hp
    · exact h.located q hq
  · intro q hq hqroot
    rw [listed?_addDirectory hdirectory, htype]
    obtain ⟨hdir, hlast, hbelow⟩ := eq_below_of_ne_root hq hqroot
    by_cases hin : directoryPart q = p
    · -- nothing was stored below the new directory
      have hself : isAtOrBelow q p = true := by
        rw [hbelow, ← hin]
        exact isAtOrBelow_below_self hdir hlast
      have hqp : q ≠ p := by
        rw [hbelow, ← hin]
        exact below_ne_self hdir hlast
      rw [if_pos hin, if_neg hqp, h.type?_below hp hnew hself hqp]
    · rw [if_neg hin]
      by_cases hqp : q = p
      · subst hqp
        rw [if_pos ⟨rfl, rfl⟩, if_pos rfl]
      · rw [if_neg fun hsame => hqp (eq_of_parts_eq hq hp hsame.1 hsame.2), if_neg hqp,
          h.listed q hq hqroot]

end IsExact

namespace IsExact

/-- Directories that are made where no file is at or above the location. -/
theorem makeDirectoriesAt (h : s.IsExact) {p : String} (hp : IsLocation p)
    (hfree : ∀ a ∈ ancestors p, s.files.contains a = false) :
    (s.makeDirectoriesAt p).IsExact := by
  induction hp using IsLocation.below_induction with
  | root =>
      rw [makeDirectoriesAt_of_isDirectory isLocation_root h.sound.root]
      exact h
  | step d name hd hname ih =>
      have hp := hd.below hname
      by_cases hthere : s.isDirectory (below d name) = true
      · rw [makeDirectoriesAt_of_isDirectory hp hthere]
        exact h
      · rw [Bool.not_eq_true] at hthere
        rw [ancestors_below hd hname] at hfree
        have hmade := ih fun a ha => hfree a (List.mem_cons_of_mem _ ha)
        have hdirectory := h.isClosed.isDirectory_makeDirectoriesAt hd
        rw [makeDirectoriesAt_below hd hname hthere]
        refine hmade.addDirectory hp ?_ ?_ ?_
        · intro hroot
          rw [hroot, h.sound.root] at hthere
          exact absurd hthere (by decide)
        · refine type?_eq_none_iff.mpr ⟨?_, ?_⟩
          · rw [files_makeDirectoriesAt]
            exact hfree _ List.mem_cons_self
          · rw [Bool.eq_false_iff, ne_eq, hdirectory, hthere, mem_ancestors_iff hd]
            rintro (hnot | ⟨-, hback⟩)
            · exact absurd hnot (by decide)
            · exact below_ne_self hd hname
                (isAtOrBelow_antisymm hp hd (isAtOrBelow_below_self hd hname) hback)
        · rw [directoryPart_below hd hname, hdirectory, mem_ancestors_iff hd]
          exact Or.inr ⟨hd, isAtOrBelow_refl d⟩

/-- A file that is written where no directory is and no file is above. -/
theorem writeAt (h : s.IsExact) {p : String} (hp : IsLocation p) (content : String)
    (hnot : s.isDirectory p = false)
    (hfree : ∀ a ∈ ancestors (directoryPart p), s.files.contains a = false) :
    (s.writeAt p content).IsExact := by
  have hroot : p ≠ "/" := by
    rintro rfl
    rw [h.sound.root] at hnot
    exact absurd hnot (by decide)
  obtain ⟨hdir, hlast, hbelow⟩ := eq_below_of_ne_root hp hroot
  have hmade := h.makeDirectoriesAt hdir hfree
  have hdirectory := h.isClosed.isDirectory_makeDirectoriesAt hdir
  have hparent : (s.makeDirectoriesAt (directoryPart p)).isDirectory (directoryPart p) = true := by
    rw [hdirectory, mem_ancestors_iff hdir]
    exact Or.inr ⟨hdir, isAtOrBelow_refl _⟩
  have hstill : (s.makeDirectoriesAt (directoryPart p)).isDirectory p = false := by
    rw [Bool.eq_false_iff, ne_eq, hdirectory, hnot, mem_ancestors_iff hdir]
    rintro (hp' | ⟨-, hback⟩)
    · exact absurd hp' (by decide)
    · have hdown := isAtOrBelow_below_self hdir hlast
      rw [← hbelow] at hdown
      exact below_ne_self hdir hlast (hbelow ▸ isAtOrBelow_antisymm hp hdir hdown hback)
  have hfiles : ∀ q, (s.writeAt p content).files.contains q =
      (decide (q = p) || (s.makeDirectoriesAt (directoryPart p)).files.contains q) := by
    intro q
    rw [files_writeAt, Keyed.contains_insert, files_makeDirectoriesAt]
  have hdirectories := fun q => isDirectory_writeAt s p content q
  have hlisted := listed?_writeAt content hparent
  have hsound := h.sound.writeAt hp content
  generalize s.writeAt p content = written at hfiles hdirectories hlisted hsound ⊢
  generalize s.makeDirectoriesAt (directoryPart p) = made at hmade hfiles hdirectories hlisted hstill
  have htype : ∀ q, written.type? q = if q = p then some .file else made.type? q := by
    intro q
    rw [type?, type?, hfiles, hdirectories]
    by_cases hq : q = p <;> simp [hq]
  constructor
  · exact hsound
  · intro q hq
    rw [hdirectories]
    rw [hfiles, Bool.or_eq_true, decide_eq_true_eq] at hq
    rcases hq with rfl | hq
    · exact hstill
    · exact hmade.apart q hq
  · intro q hq
    rw [htype] at hq
    split at hq
    · rename_i heq
      exact heq ▸ hp
    · exact hmade.located q hq
  · intro q hq hqroot
    rw [hlisted, htype]
    by_cases hqp : q = p
    · subst hqp
      rw [if_pos ⟨rfl, rfl⟩, if_pos rfl]
    · rw [if_neg fun hsame => hqp (eq_of_parts_eq hq hp hsame.1 hsame.2), if_neg hqp,
        hmade.listed q hq hqroot]

end IsExact

theorem type?_unlist (s : FileStore) (p q : String) : (s.unlist p).type? q = s.type? q := by
  rw [type?, type?, files_unlist, isDirectory_unlist]

/-- The second store is the first one without what is at or below a location, though the location
may still be listed. -/
structure IsPruned (s t : FileStore) (p : String) : Prop where
  files : ∀ q, t.files.contains q = (s.files.contains q && !isAtOrBelow q p)
  directories : ∀ q, t.isDirectory q = (s.isDirectory q && !isAtOrBelow q p)
  listed : ∀ d name, t.listed? d name =
    if isAtOrBelow d p = true then none else s.listed? d name

theorem IsPruned.type?_eq {t : FileStore} {p : String} (h : s.IsPruned t p) (q : String) :
    t.type? q = if isAtOrBelow q p = true then none else s.type? q := by
  rw [type?, type?, h.files, h.directories]
  cases isAtOrBelow q p <;> simp

namespace IsExact

/-- Without a file the store is pruned there, since nothing is below a file. -/
theorem isPruned_erase (h : s.IsExact) {p : String} (hp : IsLocation p)
    (hfile : s.files.contains p = true) :
    s.IsPruned { s with files := s.files.erase p } p := by
  have hnot := h.apart p hfile
  have hbelow : ∀ q, isAtOrBelow q p = true → q ≠ p → s.type? q = none :=
    fun q hq hne => h.type?_below hp hnot hq hne
  have hnone : ∀ q, isAtOrBelow q p = true → s.isDirectory q = false := by
    intro q hq
    by_cases hqp : q = p
    · exact hqp ▸ hnot
    · exact (type?_eq_none_iff.mp (hbelow q hq hqp)).2
  constructor
  · intro q
    rw [Keyed.contains_erase]
    by_cases hqp : q = p
    · subst hqp
      simp [isAtOrBelow_refl]
    · cases hq : isAtOrBelow q p with
      | false => simp [hqp]
      | true => simp [(type?_eq_none_iff.mp (hbelow q hq hqp)).1]
  · intro q
    rw [isDirectory_mk]
    cases hq : isAtOrBelow q p with
    | false => simp
    | true => simp [hnone q hq]
  · intro d name
    rw [listed?_mk]
    split
    · rename_i hd
      exact listed?_eq_none (hnone d hd) name
    · rfl

theorem isPruned_dropSubtree {p : String} (hp : IsLocation p) (hroot : p ≠ "/")
    (hfile : s.files.contains p = false) : s.IsPruned (s.dropSubtree p) p where
  files := fun q => contains_dropSubtree hp hroot hfile
  directories := isDirectory_dropSubtree hp hroot
  listed := by
    intro d name
    rw [listed?, get?_dropSubtree hp hroot]
    split
    · rfl
    · rfl

/-- What comes of a removal: the store is pruned, and then the location is no longer listed. -/
theorem exists_isPruned (h : s.IsExact) (hcwd : isRooted cwd.toList = true) {path : String}
    {s' : FileStore} (hremove : s.remove cwd path = .ok s') :
    canonical cwd path ≠ "/" ∧
      ∃ t, s.IsPruned t (canonical cwd path) ∧ s' = t.unlist (canonical cwd path) := by
  have hp := isLocation_canonical hcwd path
  rcases remove_cases hremove with ⟨hfile, rfl⟩ | ⟨hfile, -, hroot, rfl⟩
  · refine ⟨?_, _, h.isPruned_erase hp hfile, rfl⟩
    intro hroot
    have hnot := h.apart _ hfile
    rw [hroot, h.sound.root] at hnot
    exact absurd hnot (by decide)
  · exact ⟨hroot, _, isPruned_dropSubtree hp hroot hfile, rfl⟩

theorem remove (h : s.IsExact) (hcwd : isRooted cwd.toList = true) {path : String}
    {s' : FileStore} (hremove : s.remove cwd path = .ok s') : s'.IsExact := by
  have hp := isLocation_canonical hcwd path
  have hsound := h.sound.remove hcwd hremove
  obtain ⟨-, t, hpruned, rfl⟩ := h.exists_isPruned hcwd hremove
  generalize canonical cwd path = p at hp hpruned hsound
  have htype : ∀ q, (t.unlist p).type? q =
      if isAtOrBelow q p = true then none else s.type? q := fun q => by
    rw [type?_unlist, hpruned.type?_eq]
  constructor
  · exact hsound
  · intro q hq
    rw [files_unlist, hpruned.files, Bool.and_eq_true] at hq
    rw [isDirectory_unlist, hpruned.directories, h.apart q hq.1, Bool.false_and]
  · intro q hq
    rw [htype] at hq
    split at hq
    · exact absurd rfl hq
    · exact h.located q hq
  · intro q hq hqroot
    rw [listed?_unlist, hpruned.listed, htype]
    by_cases hqp : q = p
    · subst hqp
      rw [if_pos ⟨rfl, rfl⟩, if_pos (isAtOrBelow_refl q)]
    · -- below the location is what has its directory at or below it
      have hdir := (eq_below_of_ne_root hq hqroot)
      have hiff : isAtOrBelow (directoryPart q) p = true ↔ isAtOrBelow q p = true := by
        constructor
        · intro hin
          rw [hdir.2.2]
          exact (isAtOrBelow_below_iff hdir.1 hdir.2.1 hp).mpr (Or.inr hin)
        · intro hin
          exact isAtOrBelow_directoryPart hq hp hin hqp
      rw [if_neg fun hparts => hqp (eq_of_parts_eq hq hp hparts.1 hparts.2),
        h.listed q hq hqroot]
      simp only [hiff]

/-- What was removed is gone. -/
theorem isGone_of_remove (h : s.IsExact) (hcwd : isRooted cwd.toList = true) {path : String}
    {s' : FileStore} (hremove : s.remove cwd path = .ok s') :
    s'.IsGone cwd (canonical cwd path) := by
  obtain ⟨-, t, hpruned, rfl⟩ := h.exists_isPruned hcwd hremove
  intro other hother
  have hnone : (t.unlist (canonical cwd path)).type? (canonical cwd other) = none := by
    rw [type?_unlist, hpruned.type?_eq, if_pos hother]
  obtain ⟨hfile, hdirectory⟩ := type?_eq_none_iff.mp hnone
  generalize t.unlist (canonical cwd path) = left at hfile hdirectory
  constructor
  · rw [Keyed.contains, Option.isSome_eq_false_iff, Option.isNone_iff_eq_none] at hfile
    rw [readContent, hfile]
  · rw [isDirectory, Keyed.contains, Option.isSome_eq_false_iff,
      Option.isNone_iff_eq_none] at hdirectory
    simp [readDirectory, hfile, hdirectory]

/-- Each admitted call keeps the records in agreement. -/
theorem apply (h : s.IsExact) (hcwd : isRooted cwd.toList = true) {o : Operation}
    (ho : o.IsTidy cwd s) : (o.apply cwd s).IsExact := by
  cases o with
  | write path content =>
      exact h.writeAt (isLocation_canonical hcwd path) content ho.1 ho.2
  | makeDirectories path =>
      exact h.makeDirectoriesAt (isLocation_canonical hcwd path) ho
  | remove path =>
      rw [Operation.apply]
      split
      · rename_i hremove
        exact h.remove hcwd hremove
      · exact h

/-- A call that is not admitted makes a file and a directory of one location. -/
theorem exists_both (h : s.IsExact) (hcwd : isRooted cwd.toList = true) {o : Operation}
    (ho : ¬ o.IsTidy cwd s) : ∃ p, (o.apply cwd s).files.contains p = true ∧
      (o.apply cwd s).isDirectory p = true := by
  cases o with
  | write path content =>
      have hp := isLocation_canonical hcwd path
      simp only [Operation.IsTidy, Operation.apply, parent, write] at ho ⊢
      generalize canonical cwd path = p at hp ho ⊢
      have hdir := isLocation_directoryPart hp
      by_cases hdirectory : s.isDirectory p = true
      · refine ⟨p, ?_, ?_⟩
        · rw [files_writeAt, Keyed.contains_insert, decide_eq_true rfl, Bool.true_or]
        · rw [isDirectory_writeAt, h.isClosed.isDirectory_makeDirectoriesAt hdir]
          exact Or.inl hdirectory
      · rw [not_and, not_forall] at ho
        obtain ⟨a, ha⟩ := ho (Bool.not_eq_true _ ▸ hdirectory)
        rw [not_forall, exists_prop, Bool.not_eq_false] at ha
        refine ⟨a, ?_, ?_⟩
        · rw [files_writeAt, Keyed.contains_insert, ha.2, Bool.or_true]
        · rw [isDirectory_writeAt, h.isClosed.isDirectory_makeDirectoriesAt hdir]
          exact Or.inr ha.1
  | makeDirectories path =>
      have hp := isLocation_canonical hcwd path
      simp only [Operation.IsTidy, not_forall, exists_prop, Bool.not_eq_false] at ho
      obtain ⟨a, ha, hfile⟩ := ho
      refine ⟨a, ?_, ?_⟩
      · rw [Operation.apply, makeDirectories, files_makeDirectoriesAt]
        exact hfile
      · rw [Operation.apply, makeDirectories, h.isClosed.isDirectory_makeDirectoriesAt hp]
        exact Or.inr ha
  | remove path => exact absurd trivial ho

/-! ### Reading the records -/

theorem not_contains_of_isDirectory (h : s.IsExact) {p : String} (hp : s.isDirectory p = true) :
    s.files.contains p = false := by
  rw [Bool.eq_false_iff]
  intro hfile
  rw [h.apart p hfile] at hp
  exact absurd hp (by decide)

theorem isLocation_of_isDirectory (h : s.IsExact) {p : String} (hp : s.isDirectory p = true) :
    IsLocation p := by
  refine h.located p ?_
  rw [ne_eq, type?_eq_none_iff, hp]
  simp

theorem readDirectory_eq (h : s.IsExact) (cwd : String) {d : String} (hd : s.isDirectory d = true) :
    ∃ listed, s.readDirectory cwd d = .ok listed ∧
      ∀ name type, (name, type) ∈ listed ↔ s.listed? d name = some type := by
  have hfile := h.not_contains_of_isDirectory hd
  have hloc := h.isLocation_of_isDirectory hd
  rw [isDirectory, Keyed.contains, Option.isSome_iff_exists] at hd
  obtain ⟨listing, hlisting⟩ := hd
  refine ⟨listing.entries, ?_, fun name type => ?_⟩
  · simp [readDirectory, canonical_of_isLocation hloc, hfile, hlisting]
  · rw [← Keyed.get?_eq_some_iff, listed?, hlisting, Option.bind_some]

/-- A directory lists under a name what is stored there. -/
theorem listed?_name (h : s.IsExact) {d name : String} (hd : IsLocation d) (hname : IsName name) :
    s.listed? d name = s.type? (below d name) := by
  have hlast := lastPart_below_of_no_slash hd hname.2
  by_cases hseg : IsSegment name
  · have hroot : below d name ≠ "/" := by
      intro heq
      rw [heq, lastPart_root] at hlast
      exact hname.1 hlast.symm
    have hlisted := h.listed _ (hd.below hseg) hroot
    rwa [directoryPart_below hd hseg, hlast] at hlisted
  · -- no location has such a name
    have hnone : s.type? (below d name) = none := by
      by_contra hsome
      have hloc := h.located _ hsome
      rcases isSegment_lastPart hloc with hseg' | hroot
      · exact hseg (hlast ▸ hseg')
      · rw [hroot, lastPart_root] at hlast
        exact hname.1 hlast.symm
    rw [hnone]
    by_contra hsome
    obtain ⟨type, htype⟩ := Option.ne_none_iff_exists'.mp hsome
    rw [listed?, Option.bind_eq_some_iff] at htype
    obtain ⟨listing, hlisting, hget⟩ := htype
    rcases h.sound.named d listing hlisting name type hget with hseg' | ⟨-, hempty, -⟩
    · exact hseg hseg'
    · exact hname.1 hempty

theorem isConsistent (h : s.IsExact) (cwd : String) : s.IsConsistent cwd where
  apart := by
    rintro p ⟨hfile, hdirectory⟩
    rw [h.apart p hfile] at hdirectory
    exact absurd hdirectory (by decide)
  shows := by
    intro d hd
    have hloc := h.isLocation_of_isDirectory hd
    obtain ⟨listed, hread, hmem⟩ := h.readDirectory_eq cwd hd
    refine ⟨listed, hread, fun name hname => ?_⟩
    rw [hmem, hmem, h.listed?_name hloc hname, type?_eq_file_iff, type?_eq_directory_iff]
    exact ⟨Iff.rfl, fun hdir => hdir.2, fun hdir => ⟨h.not_contains_of_isDirectory hdir, hdir⟩⟩
  shown := by
    intro p hroot hp
    have htype : s.type? p ≠ none := by
      rw [ne_eq, type?_eq_none_iff]
      rintro ⟨hfile, hdirectory⟩
      rw [hfile, hdirectory] at hp
      simp at hp
    obtain ⟨listed, hread, hmem⟩ :=
      h.readDirectory_eq cwd (h.isDirectory_directoryPart htype)
    obtain ⟨type, htype⟩ := Option.ne_none_iff_exists'.mp htype
    refine ⟨listed, type, hread, (hmem _ _).mpr ?_⟩
    rw [h.listed p (h.located p (by simp [htype])) hroot, htype]

end IsExact

/-- From a store whose records agree, they agree all along exactly when each call is admitted. -/
theorem IsExact.holdsAlong (h : s.IsExact) (hcwd : isRooted cwd.toList = true)
    (os : List Operation) : s.HoldsAlong cwd os ↔ Operation.AllTidy cwd s os := by
  induction os generalizing s with
  | nil => exact iff_of_true (h.isConsistent cwd) trivial
  | cons o os ih =>
      by_cases ho : o.IsTidy cwd s
      · rw [HoldsAlong, Operation.AllTidy, ih (h.apply hcwd ho)]
        constructor
        · exact fun hall => ⟨ho, hall.2.2⟩
        · rintro ⟨-, hrest⟩
          refine ⟨h.isConsistent cwd, ?_, hrest⟩
          intro path s' _ hremove
          exact h.isGone_of_remove hcwd hremove
      · refine iff_of_false ?_ fun hall => ho hall.1
        rintro ⟨-, -, hrest⟩
        obtain ⟨p, hboth⟩ := h.exists_both hcwd ho
        have hafter : (o.apply cwd s).IsConsistent cwd := by
          cases os with
          | nil => exact hrest
          | cons => exact hrest.1
        exact hafter.apart p hboth

/-- A store that is filled from nothing is consistent all along, and what is removed from it is
gone, exactly when each call is one that a disk admits. -/
theorem holdsAlong_iff (hcwd : isRooted cwd.toList = true) (os : List Operation) :
    HoldsAlong cwd .empty os ↔ Operation.AllTidy cwd .empty os :=
  isExact_empty.holdsAlong hcwd os

/-- A directory is made, a file is written in it, and both are removed. -/
theorem holdsAlong_iff_madeAndRemoved :
    let os : List Operation := [.makeDirectories "/a", .write "a\\b" "x", .remove "/a/"]
    isRooted "/".toList = true ∧ HoldsAlong "/" .empty os ∧
      (os.foldl (Operation.apply "/") .empty).listed? "/" "a" = none := by
  intro os
  have htidy : Operation.AllTidy "/" .empty os := by
    refine ⟨?_, ?_, ?_, trivial⟩ <;> decide +kernel
  exact ⟨by decide, (holdsAlong_iff (by decide) os).mpr htidy, by decide +kernel⟩

/-- A file is written in the place of a directory.  What is removed then is the file alone, and
what was in the directory can still be read. -/
theorem not_holdsAlong : ¬ ∀ (cwd : String) (os : List Operation), isRooted cwd.toList = true →
    HoldsAlong cwd .empty os := by
  intro hall
  let os : List Operation := [.write "/a/b" "x", .write "/a" "y", .remove "/a"]
  have hread : ((((empty.write "/" "/a/b" "x").write "/" "/a" "y").remove "/" "/a").toOption.bind
      fun s' => (s'.readContent "/" "/a/b").toOption) = some "x" := by
    decide +kernel
  have hlast := (hall "/" os (by decide)).2.2.2.2.2.1
  cases hremove : ((empty.write "/" "/a/b" "x").write "/" "/a" "y").remove "/" "/a" with
  | error e =>
      rw [hremove] at hread
      exact absurd hread (by simp [Except.toOption])
  | ok s' =>
      have hgone := hlast "/a" s' rfl hremove "/a/b" (by decide +kernel)
      rw [hremove, Except.toOption, Option.bind_some, hgone.1] at hread
      exact absurd hread (by simp [Except.toOption])

end TestAtlas.FileStore
