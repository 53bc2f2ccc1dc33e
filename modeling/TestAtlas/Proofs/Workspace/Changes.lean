import TestAtlas.Proofs.Workspace.InMemory

/-!
# What a change of the files does to the manifests

A file is written, or a file or a directory with all below it is removed.  If the changed path does
not bear the name of the manifest, then a file takes no manifest from any directory and gives none
to any, and a directory that is removed takes away its own manifest and those below it:
`FileChange.hasManifest_apply`.  This is so for changes that a disk admits.  The store itself lets
one location be a file and a directory, and then a change of the one hides or bares the other.
-/

namespace TestAtlas

open TestAtlas.Path

/-- A change of the files. -/
inductive FileChange where
  | write (path content : String)
  | remove (path : String)
  deriving DecidableEq, Repr

namespace FileChange

def path : FileChange → String
  | .write path _ => path
  | .remove path => path

/-- The workspace after a change.  What is not there cannot be removed. -/
def apply (w : Workspace) : FileChange → Except FileError Workspace
  | .write path content => .ok { w with store := w.store.write w.cwd path content }
  | .remove path => do
    let store ← w.store.remove w.cwd path
    return { w with store }

/-- The change takes a directory away, with all that is below it. -/
def removesDirectory (w : Workspace) : FileChange → Bool
  | .write _ _ => false
  | .remove path => w.store.isDirectory (canonical w.cwd path)

/-- The change is one that a disk admits: no file is written in the place of a directory or below a
file, and what is removed is not both. -/
def IsTidy (w : Workspace) : FileChange → Prop
  | .write path _ => w.store.isDirectory (canonical w.cwd path) = false ∧
      ∀ a ∈ ancestors (parent w.cwd path), w.store.files.contains a = false
  | .remove path => w.store.isDirectory (canonical w.cwd path) = true →
      w.store.files.contains (canonical w.cwd path) = false

end FileChange

namespace FileStore

/-! ## Listed files -/

/-- The listing of a directory has a file of the given name. -/
def ListsFile (s : FileStore) (directory name : String) : Prop :=
  ∃ listing, s.directories.get? directory = some listing ∧ listing.get? name = some .file

/-- What is listed does not depend on what the files are. -/
theorem listsFile_mk (s : FileStore) (files : Keyed String String) (d name : String) :
    (FileStore.mk s.directories files).ListsFile d name ↔ s.ListsFile d name :=
  Iff.rfl

theorem listsFile_changeListing (s : FileStore) (directory d name : String)
    (change : Keyed String EntryType → Keyed String EntryType) :
    (s.changeListing directory change).ListsFile d name ↔
      if d = directory then
        ∃ listing, s.directories.get? d = some listing ∧ (change listing).get? name = some .file
      else s.ListsFile d name := by
  unfold ListsFile
  rw [get?_changeListing]
  split
  · simp [Option.map_eq_some_iff]
  · rfl

/-- To list a location as a directory, or not to list it, matters to no other location. -/
theorem listsFile_changeListing_of_ne {s : FileStore} {directory last d name : String}
    {change : Keyed String EntryType → Keyed String EntryType}
    (hchange : ∀ listing, name ≠ last → (change listing).get? name = listing.get? name)
    (hne : d ≠ directory ∨ name ≠ last) :
    (s.changeListing directory change).ListsFile d name ↔ s.ListsFile d name := by
  rw [listsFile_changeListing]
  split
  · rename_i hd
    have hname := hne.resolve_left (not_not.mpr hd)
    simp only [hchange _ hname, ListsFile]
  · rfl

theorem listsFile_listed (s : FileStore) (type : EntryType) {p d name : String}
    (hne : d ≠ directoryPart p ∨ name ≠ lastPart p) :
    (s.changeListing (directoryPart p) fun listing =>
      listing.insert (lastPart p) type).ListsFile d name ↔ s.ListsFile d name :=
  listsFile_changeListing_of_ne
    (fun listing hname => by rw [Keyed.get?_insert, if_neg hname]) hne

theorem listsFile_unlist {s : FileStore} {p d name : String}
    (hne : d ≠ directoryPart p ∨ name ≠ lastPart p) :
    (s.unlist p).ListsFile d name ↔ s.ListsFile d name :=
  listsFile_changeListing_of_ne
    (fun listing hname => by rw [Keyed.get?_erase, if_neg hname]) hne

theorem not_listsFile_unlist (s : FileStore) (p : String) :
    ¬ (s.unlist p).ListsFile (directoryPart p) (lastPart p) := by
  rw [unlist, listsFile_changeListing, if_pos rfl]
  rintro ⟨listing, -, hget⟩
  rw [Keyed.get?_erase, if_pos rfl] at hget
  exact absurd hget (by simp)

theorem isDirectory_addDirectory (s : FileStore) (d d' : String) :
    (s.addDirectory d).isDirectory d' = (decide (d' = d) || s.isDirectory d') := by
  rw [isDirectory, isDirectory, addDirectory, Keyed.contains_insert, Keyed.contains, Keyed.contains,
    get?_changeListing]
  split <;> simp

/-- A new directory takes the name of no file that was not listed under it. -/
theorem ListsFile.of_addDirectory {s : FileStore} {d d' name : String}
    (h : (s.addDirectory d).ListsFile d' name) :
    s.ListsFile d' name ∧ (d' ≠ directoryPart d ∨ name ≠ lastPart d) := by
  obtain ⟨listing, hlisting, hget⟩ := h
  rw [addDirectory, Keyed.get?_insert] at hlisting
  split at hlisting
  · rw [← Option.some.inj hlisting] at hget
    exact absurd hget (by simp)
  · have hlisted : (s.changeListing (directoryPart d) fun listing =>
        listing.insert (lastPart d) .directory).ListsFile d' name := ⟨listing, hlisting, hget⟩
    have hne : d' ≠ directoryPart d ∨ name ≠ lastPart d := by
      by_contra hsame
      rw [not_or, not_not, not_not] at hsame
      obtain ⟨rfl, rfl⟩ := hsame
      rw [listsFile_changeListing, if_pos rfl] at hlisted
      obtain ⟨old, -, hold⟩ := hlisted
      rw [Keyed.get?_insert, if_pos rfl] at hold
      exact absurd hold (by simp)
    refine ⟨?_, hne⟩
    exact (listsFile_listed s .directory hne).mp hlisted

theorem listsFile_addDirectory {s : FileStore} {d d' name : String} (hd : s.isDirectory d = false)
    (hfile : ¬ s.ListsFile (directoryPart d) (lastPart d)) :
    (s.addDirectory d).ListsFile d' name ↔ s.ListsFile d' name := by
  refine ⟨fun h => h.of_addDirectory.1, fun h => ?_⟩
  have hne : d' ≠ d := by
    rintro rfl
    obtain ⟨listing, hlisting, -⟩ := h
    rw [isDirectory, Keyed.contains, hlisting] at hd
    exact absurd hd (by simp)
  have hsame : d' ≠ directoryPart d ∨ name ≠ lastPart d := by
    by_contra hsame
    rw [not_or, not_not, not_not] at hsame
    obtain ⟨rfl, rfl⟩ := hsame
    exact hfile h
  obtain ⟨listing, hlisting, hget⟩ := (listsFile_listed s .directory hsame).mpr h
  refine ⟨listing, ?_, hget⟩
  rw [addDirectory, Keyed.get?_insert, if_neg hne]
  exact hlisting

/-! ## What is listed as a file is one -/

/-- Every location that is listed as a file is one. -/
def IsListed (s : FileStore) : Prop :=
  ∀ p, IsLocation p → s.ListsFile (directoryPart p) (lastPart p) → s.files.contains p = true

theorem isListed_empty : IsListed .empty := by
  rintro p - ⟨listing, hlisting, hget⟩
  have hempty : (FileStore.empty).directories.get? (directoryPart p) =
      if directoryPart p = "/" then some Keyed.empty else none := by
    rw [FileStore.empty, Keyed.get?_insert]
    rfl
  rw [hempty] at hlisting
  split at hlisting
  · rw [← Option.some.inj hlisting] at hget
    exact absurd hget (by simp)
  · exact absurd hlisting (by simp)

theorem ListsFile.of_makeDirectoriesAt {s : FileStore} {p d name : String}
    (h : (s.makeDirectoriesAt p).ListsFile d name) : s.ListsFile d name := by
  unfold makeDirectoriesAt at h
  generalize s.missingDirectories p = ds at h
  induction ds with
  | nil => exact h
  | cons d' ds ih => exact ih h.of_addDirectory.1

theorem listsFile_writeAt {s : FileStore} {p d name content : String}
    (hne : d ≠ directoryPart p ∨ name ≠ lastPart p) :
    (s.writeAt p content).ListsFile d name ↔
      (s.makeDirectoriesAt (directoryPart p)).ListsFile d name := by
  have hlisting := listsFile_listed (s.makeDirectoriesAt (directoryPart p)) .file hne
  rw [← hlisting, ListsFile, ListsFile, writeAt]

theorem IsListed.makeDirectoriesAt {s : FileStore} (hs : s.IsListed) (location : String) :
    (s.makeDirectoriesAt location).IsListed := by
  intro p hp h
  rw [files_makeDirectoriesAt]
  exact hs p hp h.of_makeDirectoriesAt

theorem IsListed.writeAt {s : FileStore} (hs : s.IsListed) {location : String}
    (hlocation : IsLocation location) (content : String) : (s.writeAt location content).IsListed := by
  intro p hp h
  rw [files_writeAt, Keyed.contains_insert]
  by_cases hne : p = location
  · rw [decide_eq_true hne, Bool.true_or]
  · have hparts : directoryPart p ≠ directoryPart location ∨ lastPart p ≠ lastPart location := by
      by_contra hsame
      rw [not_or, not_not, not_not] at hsame
      exact hne (eq_of_parts_eq hp hlocation hsame.1 hsame.2)
    rw [hs p hp ((listsFile_writeAt hparts).mp h).of_makeDirectoriesAt, Bool.or_true]

/-- What is inside a directory by its text is what lies strictly below it. -/
theorem isInside_iff {directory p : String} (hd : IsLocation directory)
    (hroot : directory ≠ "/") :
    isInside directory p = true ↔ isAtOrBelow p directory = true ∧ p ≠ directory := by
  have hbeneath : beneath directory = directory.toList ++ ['/'] := by
    obtain ⟨ss, hss, rfl⟩ := hd
    have hne : ss ≠ [] := by
      rintro rfl
      exact hroot ofSegments_nil
    rw [beneath_ofSegments hss, stem, if_neg hne]
  have hself : isInside directory directory = false := by
    rw [isInside, Bool.eq_false_iff, ne_eq, List.isPrefixOf_iff_prefix]
    intro hprefix
    have hlength := hprefix.length_le
    rw [List.length_append, List.length_singleton] at hlength
    omega
  rw [isAtOrBelow, hbeneath, Bool.or_eq_true, decide_eq_true_eq]
  constructor
  · intro h
    refine ⟨Or.inr h, ?_⟩
    rintro rfl
    rw [hself] at h
    exact absurd h (by simp)
  · rintro ⟨heq | h, hne⟩
    · exact absurd heq hne
    · exact h

theorem isInside_or_eq {directory p : String} (hd : IsLocation directory)
    (hroot : directory ≠ "/") :
    (p == directory || isInside directory p) = isAtOrBelow p directory := by
  rw [Bool.eq_iff_iff, Bool.or_eq_true, beq_iff_eq, isInside_iff hd hroot]
  constructor
  · rintro (rfl | ⟨h, -⟩)
    · exact isAtOrBelow_refl p
    · exact h
  · intro h
    by_cases hne : p = directory
    · exact Or.inl hne
    · exact Or.inr ⟨h, hne⟩

theorem get?_dropSubtree {s : FileStore} {directory d : String} (hdir : IsLocation directory)
    (hroot : directory ≠ "/") :
    (s.dropSubtree directory).directories.get? d =
      if isAtOrBelow d directory = true then none else s.directories.get? d := by
  rw [dropSubtree, Keyed.get?_filter_key _ fun d => !(d == directory || isInside directory d),
    isInside_or_eq hdir hroot]
  cases isAtOrBelow d directory <;> simp

theorem contains_dropSubtree {s : FileStore} {directory p : String} (hdir : IsLocation directory)
    (hroot : directory ≠ "/") (hfile : s.files.contains directory = false) :
    (s.dropSubtree directory).files.contains p =
      (s.files.contains p && !isAtOrBelow p directory) := by
  rw [Keyed.contains, dropSubtree, Keyed.get?_filter_key _ fun p => !isInside directory p]
  by_cases heq : p = directory
  · subst heq
    rw [hfile, Bool.false_and]
    split
    · rw [Keyed.contains] at hfile
      exact hfile
    · rfl
  · rw [← isInside_or_eq hdir hroot, beq_eq_false_iff_ne.mpr heq, Bool.false_or]
    cases isInside directory p <;> simp [Keyed.contains]

/-- What comes of removing something: a file is gone, or a directory with all below it. -/
theorem remove_cases {s s' : FileStore} {cwd path : String} (h : s.remove cwd path = .ok s') :
    (s.files.contains (canonical cwd path) = true ∧
      s' = { s with files := s.files.erase (canonical cwd path) }.unlist (canonical cwd path)) ∨
    (s.files.contains (canonical cwd path) = false ∧
      s.isDirectory (canonical cwd path) = true ∧ canonical cwd path ≠ "/" ∧
      s' = (s.dropSubtree (canonical cwd path)).unlist (canonical cwd path)) := by
  unfold remove at h
  simp only at h
  generalize canonical cwd path = location at h ⊢
  split at h
  · rename_i hfile
    exact Or.inl ⟨hfile, (Except.ok.inj h).symm⟩
  · rename_i hfile
    split at h
    · rename_i hdirectory
      rw [Bool.and_eq_true, bne_iff_ne] at hdirectory
      exact Or.inr ⟨by simpa using hfile, hdirectory.1, hdirectory.2, (Except.ok.inj h).symm⟩
    · exact absurd h (by simp)

theorem files_unlist (s : FileStore) (p : String) : (s.unlist p).files = s.files :=
  files_changeListing s _ _

theorem IsListed.remove {s s' : FileStore} (hs : s.IsListed) {cwd path : String}
    (hcwd : isRooted cwd.toList = true) (h : s.remove cwd path = .ok s') : s'.IsListed := by
  have hlocation := isLocation_canonical hcwd path
  intro p hp hlisted
  -- what is still listed is not what was removed
  have hparts : ∀ {t : FileStore}, (t.unlist (canonical cwd path)).ListsFile (directoryPart p)
      (lastPart p) → p ≠ canonical cwd path ∧ t.ListsFile (directoryPart p) (lastPart p) := by
    intro t ht
    have hne : p ≠ canonical cwd path := by
      rintro rfl
      exact not_listsFile_unlist t _ ht
    refine ⟨hne, (listsFile_unlist ?_).mp ht⟩
    by_contra hsame
    rw [not_or, not_not, not_not] at hsame
    exact hne (eq_of_parts_eq hp hlocation hsame.1 hsame.2)
  rcases remove_cases h with ⟨-, rfl⟩ | ⟨hfile, -, hroot, rfl⟩
  · obtain ⟨hne, hold⟩ := hparts hlisted
    rw [files_unlist, Keyed.contains_erase, hs p hp hold, decide_eq_false hne]
    rfl
  · obtain ⟨hne, listing, hlisting, hget⟩ := hparts hlisted
    rw [get?_dropSubtree hlocation hroot] at hlisting
    split at hlisting
    · exact absurd hlisting (by simp)
    · rename_i hout
      have hin : isAtOrBelow p (canonical cwd path) = false := by
        rw [Bool.eq_false_iff]
        exact fun hin => hout (isAtOrBelow_directoryPart hp hlocation hin hne)
      rw [files_unlist, contains_dropSubtree hlocation hroot hfile, hin,
        hs p hp ⟨listing, hlisting, hget⟩]
      rfl

/-- In every store made from the empty one, what is listed as a file is one. -/
theorem IsBuilt.isListed {cwd : String} (hcwd : isRooted cwd.toList = true) {s : FileStore}
    (h : s.IsBuilt cwd) : s.IsListed := by
  induction h with
  | empty => exact isListed_empty
  | write path content _ ih => exact ih.writeAt (isLocation_canonical hcwd path) content
  | makeDirectories path _ ih => exact ih.makeDirectoriesAt (canonical cwd path)
  | remove path _ hremove ih => exact ih.remove hcwd hremove

/-! ## Making directories -/

/-- Directories that are made where no file is list no file and hide none. -/
theorem listsFile_makeDirectoriesAt {s : FileStore} (hs : s.IsListed) {p : String}
    (hp : IsLocation p) (hfree : ∀ a ∈ ancestors p, s.files.contains a = false) {d name : String} :
    (s.makeDirectoriesAt p).ListsFile d name ↔ s.ListsFile d name := by
  have hmissing : ∀ d ∈ s.missingDirectories p,
      IsLocation d ∧ s.isDirectory d = false ∧ s.files.contains d = false := by
    intro d hd
    have hmem : d ∈ ancestors p := List.takeWhile_subset _ hd
    have hnot := List.mem_takeWhile_imp hd
    rw [Bool.not_eq_true'] at hnot
    exact ⟨((mem_ancestors_iff hp).mp hmem).1, hnot, hfree d hmem⟩
  have hnodup : (s.missingDirectories p).Nodup :=
    (List.takeWhile_sublist _).nodup (nodup_ancestors hp)
  unfold makeDirectoriesAt
  generalize s.missingDirectories p = ds at hmissing hnodup
  -- a directory is made when those above it are there and it is not
  suffices h : (∀ d', (ds.foldr (fun d s => s.addDirectory d) s).isDirectory d' =
      (decide (d' ∈ ds) || s.isDirectory d')) ∧
      ∀ d' name', (ds.foldr (fun d s => s.addDirectory d) s).ListsFile d' name' ↔
        s.ListsFile d' name' from h.2 d name
  induction ds with
  | nil => exact ⟨fun d' => by simp, fun _ _ => Iff.rfl⟩
  | cons first ds ih =>
      obtain ⟨hdirectories, hlists⟩ := ih (fun d hd => hmissing d (by simp [hd]))
        (List.nodup_cons.mp hnodup).2
      obtain ⟨hloc, hnew, hfile⟩ := hmissing first (by simp)
      rw [List.foldr_cons]
      generalize ds.foldr (fun d s => s.addDirectory d) s = made at hdirectories hlists
      constructor
      · intro d'
        rw [isDirectory_addDirectory, hdirectories, ← Bool.or_assoc, ← Bool.decide_or]
        simp only [List.mem_cons]
      · intro d' name'
        rw [← hlists d' name']
        apply listsFile_addDirectory
        · rw [hdirectories, hnew, decide_eq_false (List.nodup_cons.mp hnodup).1]
          rfl
        · rw [hlists]
          intro hlisted
          rw [hs first hloc hlisted] at hfile
          exact absurd hfile (by simp)

end FileStore

/-! ## Manifests -/

theorem Workspace.readDirectory_eq_ok_iff {w : Workspace} {d : String} (hd : IsLocation d)
    {listed : List Entry} : w.readDirectory d = .ok listed ↔
      w.unreadable.contains d = false ∧ w.store.files.contains d = false ∧
        ∃ listing, w.store.directories.get? d = some listing ∧ listing.entries = listed := by
  simp only [readDirectory, FileStore.readDirectory, canonical_of_isLocation hd]
  cases w.unreadable.contains d with
  | true => simp
  | false =>
      cases w.store.files.contains d with
      | true => simp
      | false => cases w.store.directories.get? d <;> simp

/-- A directory has a manifest when it is no file itself, can be listed, and lists the manifest. -/
theorem Workspace.hasManifest_iff {w : Workspace} {c : Conventions} {d : String}
    (hd : IsLocation d) : c.hasManifest (w.entries d) = true ↔
      w.unreadable.contains d = false ∧ w.store.files.contains d = false ∧
        w.store.ListsFile d c.manifestName := by
  have hlisted : c.hasManifest (w.entries d) = true ↔
      ∃ listed, w.readDirectory d = .ok listed ∧ c.hasManifest listed = true := by
    unfold entries
    cases w.readDirectory d <;> simp [Conventions.hasManifest]
  have hmem : ∀ listing : Keyed String EntryType,
      c.hasManifest listing.entries = true ↔ listing.get? c.manifestName = some .file := by
    intro listing
    rw [Keyed.get?_eq_some_iff, Conventions.hasManifest, List.any_eq_true]
    constructor
    · rintro ⟨⟨name, type⟩, hmem, heq⟩
      rw [Bool.and_eq_true, beq_iff_eq, beq_iff_eq] at heq
      obtain ⟨rfl, rfl⟩ := heq
      exact hmem
    · intro hmem
      exact ⟨_, hmem, by simp⟩
  rw [hlisted]
  constructor
  · rintro ⟨listed, hread, hman⟩
    obtain ⟨hreadable, hfile, listing, hget, rfl⟩ := (readDirectory_eq_ok_iff hd).mp hread
    exact ⟨hreadable, hfile, listing, hget, (hmem listing).mp hman⟩
  · rintro ⟨hreadable, hfile, listing, hget, hman⟩
    exact ⟨_, (readDirectory_eq_ok_iff hd).mpr ⟨hreadable, hfile, listing, hget, rfl⟩,
      (hmem listing).mpr hman⟩

theorem FileStore.not_listsFile_of_not_isDirectory {s : FileStore} {d : String}
    (h : s.isDirectory d = false) (name : String) : ¬ s.ListsFile d name := by
  rintro ⟨listing, hlisting, -⟩
  rw [FileStore.isDirectory, Keyed.contains, hlisting] at h
  exact absurd h (by simp)

namespace FileChange

variable {w w' : Workspace} {c : Conventions}

theorem of_apply_remove {path : String} (h : (FileChange.remove path).apply w = .ok w') :
    ∃ store, w.store.remove w.cwd path = .ok store ∧ w' = { w with store } := by
  rw [apply] at h
  cases hremove : w.store.remove w.cwd path with
  | error err =>
      rw [hremove] at h
      exact absurd h (by simp [bind, Except.bind])
  | ok store =>
      rw [hremove] at h
      exact ⟨store, rfl, (Except.ok.inj h).symm⟩

theorem isInMemory_apply (hw : w.IsInMemory) {change : FileChange}
    (h : change.apply w = .ok w') : w'.IsInMemory ∧ w'.cwd = w.cwd := by
  cases change with
  | write path content =>
      rw [← Except.ok.inj h]
      exact ⟨⟨hw.rooted, .write path content hw.built⟩, rfl⟩
  | remove path =>
      obtain ⟨store, hremove, rfl⟩ := of_apply_remove h
      exact ⟨⟨hw.rooted, .remove path hw.built hremove⟩, rfl⟩

theorem hasManifest_write (hw : w.IsInMemory) {path content : String}
    (htidy : (FileChange.write path content).IsTidy w)
    (hname : lastPart (canonical w.cwd path) ≠ c.manifestName) {d : String} (hd : IsLocation d) :
    c.hasManifest (Workspace.entries { w with store := w.store.write w.cwd path content } d) =
      c.hasManifest (w.entries d) := by
  obtain ⟨hfree, habove⟩ := htidy
  have hlocation := isLocation_canonical hw.rooted path
  unfold parent at habove
  unfold FileStore.write
  generalize canonical w.cwd path = p at hfree habove hname hlocation ⊢
  rw [Bool.eq_iff_iff, Workspace.hasManifest_iff hd, Workspace.hasManifest_iff hd]
  simp only
  rw [FileStore.listsFile_writeAt (Or.inr (Ne.symm hname)),
    FileStore.listsFile_makeDirectoriesAt (hw.built.isListed hw.rooted)
      (isLocation_directoryPart hlocation) habove,
    FileStore.files_writeAt, Keyed.contains_insert]
  -- where the file is written there was no listing before
  by_cases heq : d = p
  · subst heq
    have hnone := FileStore.not_listsFile_of_not_isDirectory hfree c.manifestName
    simp [hnone]
  · simp [heq]

theorem hasManifest_remove (hw : w.IsInMemory) {path : String}
    (htidy : (FileChange.remove path).IsTidy w)
    (hname : lastPart (canonical w.cwd path) ≠ c.manifestName) {store : FileStore}
    (hremove : w.store.remove w.cwd path = .ok store) {d : String} (hd : IsLocation d) :
    c.hasManifest (Workspace.entries { w with store } d) = (c.hasManifest (w.entries d) &&
      !(w.store.isDirectory (canonical w.cwd path) && isAtOrBelow d (canonical w.cwd path))) := by
  have hlocation := isLocation_canonical hw.rooted path
  have hcases := FileStore.remove_cases hremove
  have honce : w.store.isDirectory (canonical w.cwd path) = true →
      w.store.files.contains (canonical w.cwd path) = false := htidy
  generalize canonical w.cwd path = p at honce hname hlocation hcases ⊢
  rw [Bool.eq_iff_iff, Bool.and_eq_true, Workspace.hasManifest_iff hd,
    Workspace.hasManifest_iff hd]
  rcases hcases with ⟨hfile, rfl⟩ | ⟨hfile, hdirectory, hroot, rfl⟩
  · -- a file: where it was there was no listing before
    have hnot : w.store.isDirectory p = false := by
      rw [Bool.eq_false_iff]
      intro hdirectory
      rw [honce hdirectory] at hfile
      exact absurd hfile (by simp)
    simp only [hnot, Bool.false_and, Bool.not_false, and_true]
    rw [FileStore.listsFile_unlist (Or.inr (Ne.symm hname)), FileStore.listsFile_mk,
      FileStore.files_unlist, Keyed.contains_erase]
    by_cases heq : d = p
    · subst heq
      have hnone := FileStore.not_listsFile_of_not_isDirectory hnot c.manifestName
      simp [hnone]
    · simp [heq]
  · simp only [hdirectory, Bool.true_and, Bool.not_eq_true']
    rw [FileStore.listsFile_unlist (Or.inr (Ne.symm hname)), FileStore.files_unlist,
      FileStore.contains_dropSubtree hlocation hroot hfile, FileStore.ListsFile,
      FileStore.get?_dropSubtree hlocation hroot]
    cases isAtOrBelow d p <;> simp [FileStore.ListsFile]

/-- A change under another name than that of the manifest takes the manifests out of a directory that
it removes and out of those below, and changes no other directory in this. -/
theorem hasManifest_apply (hw : w.IsInMemory) {change : FileChange}
    (happly : change.apply w = .ok w') (htidy : change.IsTidy w)
    (hname : lastPart (canonical w.cwd change.path) ≠ c.manifestName) {d : String}
    (hd : IsLocation d) : c.hasManifest (w'.entries d) = (c.hasManifest (w.entries d) &&
      !(change.removesDirectory w && isAtOrBelow d (canonical w.cwd change.path))) := by
  cases change with
  | write path content =>
      rw [← Except.ok.inj happly, hasManifest_write hw htidy hname hd, removesDirectory]
      simp
  | remove path =>
      obtain ⟨store, hremove, rfl⟩ := of_apply_remove happly
      exact hasManifest_remove hw htidy hname hremove hd

end FileChange

end TestAtlas
