import TestAtlas.Proofs.Keyed
import TestAtlas.Proofs.Path.Descent
import TestAtlas.Workspace.Basic
import Mathlib.Data.List.TakeWhile

/-!
# Workspaces that are held in memory

A store that is filled from nothing by writing files, making directories and removing both lists
every entry under a name that can stand in a location.  The main statement is
`isSegment_of_mem_entries`.
-/

namespace TestAtlas

open TestAtlas.Path

namespace FileStore

/-- The stores that can be made from the empty one. -/
inductive IsBuilt (cwd : String) : FileStore → Prop
  | empty : IsBuilt cwd .empty
  | write {s : FileStore} (path content : String) : IsBuilt cwd s →
      IsBuilt cwd (s.write cwd path content)
  | makeDirectories {s : FileStore} (path : String) : IsBuilt cwd s →
      IsBuilt cwd (s.makeDirectories cwd path)
  | remove {s s' : FileStore} (path : String) : IsBuilt cwd s → s.remove cwd path = .ok s' →
      IsBuilt cwd s'

/-- An entry has a name that can stand in a location.  Only a file written at the root itself is
listed without a name, and then the root is no longer listed. -/
structure IsSound (s : FileStore) : Prop where
  root : s.isDirectory "/" = true
  named : ∀ d listing, s.directories.get? d = some listing →
    ∀ name type, listing.get? name = some type →
      IsSegment name ∨ d = "/" ∧ name = "" ∧ s.files.contains "/" = true

theorem isSound_empty : IsSound .empty where
  root := by decide
  named := by
    intro d listing hd name type hname
    have hempty : (FileStore.empty).directories.get? d =
        if d = "/" then some Keyed.empty else none := by
      rw [FileStore.empty, Keyed.get?_insert]
      rfl
    rw [hempty] at hd
    split at hd
    · rw [← Option.some.inj hd] at hname
      exact absurd hname (by simp)
    · exact absurd hd (by simp)

/-- More files may be there than are needed. -/
theorem IsSound.of_files {s : FileStore} (hs : s.IsSound) (files : Keyed String String)
    (h : s.files.contains "/" = true → files.contains "/" = true) :
    (FileStore.mk s.directories files).IsSound where
  root := by
    have hroot := hs.root
    rw [isDirectory] at hroot ⊢
    exact hroot
  named := by
    intro d listing hd name type hname
    rcases hs.named d listing hd name type hname with hseg | ⟨hd, hname, hfile⟩
    · exact Or.inl hseg
    · exact Or.inr ⟨hd, hname, h hfile⟩

theorem get?_changeListing (s : FileStore) (directory d : String)
    (change : Keyed String EntryType → Keyed String EntryType) :
    (s.changeListing directory change).directories.get? d =
      if d = directory then (s.directories.get? d).map change else s.directories.get? d := by
  unfold changeListing
  split
  · rename_i listing hlisting
    simp only [Keyed.get?_insert]
    split
    · rename_i hd
      rw [hd, hlisting]
      rfl
    · rfl
  · rename_i hnone
    split
    · rename_i hd
      rw [hd, hnone]
      rfl
    · rfl

/-- The name under which a location is listed. -/
theorem isSegment_lastPart {location : String} (h : IsLocation location) :
    IsSegment (lastPart location) ∨ location = "/" := by
  by_cases hroot : location = "/"
  · exact Or.inr hroot
  · exact Or.inl (eq_below_of_ne_root h hroot).2.1

/-- Listing a name that can stand in a location keeps a store sound, and so does listing the file
at the root. -/
theorem IsSound.changeListing_insert {s : FileStore} (hs : s.IsSound) {location : String}
    (type : EntryType) (h : IsSegment (lastPart location) ∨
      location = "/" ∧ s.files.contains "/" = true) :
    (s.changeListing (directoryPart location) fun listing =>
      listing.insert (lastPart location) type).IsSound where
  root := by
    have hroot := hs.root
    rw [isDirectory, Keyed.contains, get?_changeListing] at *
    split
    · simpa using hroot
    · exact hroot
  named := by
    intro d listing hd name t hname
    rw [files_changeListing]
    rw [get?_changeListing] at hd
    split at hd
    · rename_i hdir
      obtain ⟨old, hold, rfl⟩ := Option.map_eq_some_iff.mp hd
      rw [Keyed.get?_insert] at hname
      split at hname
      · rename_i hlast
        subst hlast
        rcases h with h | ⟨rfl, hfile⟩
        · exact Or.inl h
        · exact Or.inr ⟨by rw [hdir, directoryPart_root], lastPart_root, hfile⟩
      · exact hs.named d old hold name t hname
    · exact hs.named d listing hd name t hname

theorem IsSound.addDirectory {s : FileStore} (hs : s.IsSound) {location : String}
    (h : IsLocation location) (hne : location ≠ "/") : (s.addDirectory location).IsSound := by
  have hlist := hs.changeListing_insert .directory
    (Or.inl (eq_below_of_ne_root h hne).2.1)
  constructor
  · have hroot := hlist.root
    rw [isDirectory] at hroot ⊢
    rw [FileStore.addDirectory, Keyed.contains_insert, hroot, Bool.or_true]
  · intro d listing hd name t hname
    rw [FileStore.addDirectory, Keyed.get?_insert] at hd
    split at hd
    · rw [← Option.some.inj hd] at hname
      exact absurd hname (by simp)
    · exact hlist.named d listing hd name t hname

theorem IsSound.makeDirectoriesAt {s : FileStore} (hs : s.IsSound) {location : String}
    (h : IsLocation location) : (s.makeDirectoriesAt location).IsSound := by
  have hmissing : ∀ d ∈ s.missingDirectories location, IsLocation d ∧ d ≠ "/" := by
    intro d hd
    have hmem : d ∈ ancestors location := List.takeWhile_subset _ hd
    refine ⟨((mem_ancestors_iff h).mp hmem).1, ?_⟩
    rintro rfl
    have hnot := List.mem_takeWhile_imp hd
    rw [hs.root] at hnot
    exact absurd hnot (by decide)
  rw [FileStore.makeDirectoriesAt]
  generalize s.missingDirectories location = ds at hmissing
  induction ds with
  | nil => exact hs
  | cons d ds ih =>
      obtain ⟨hd, hne⟩ := hmissing d (by simp)
      exact (ih fun d' hd' => hmissing d' (by simp [hd'])).addDirectory hd hne

theorem writeAt_eq (s : FileStore) (location content : String) :
    s.writeAt location content =
      (FileStore.mk (s.makeDirectoriesAt (directoryPart location)).directories
        (s.files.insert location content)).changeListing (directoryPart location)
          fun listing => listing.insert (lastPart location) .file := by
  have hfiles := files_makeDirectoriesAt s (directoryPart location)
  rw [FileStore.writeAt]
  generalize s.makeDirectoriesAt (directoryPart location) = made at hfiles ⊢
  unfold changeListing
  simp only
  split <;> simp [hfiles]

theorem IsSound.writeAt {s : FileStore} (hs : s.IsSound) {location : String}
    (h : IsLocation location) (content : String) : (s.writeAt location content).IsSound := by
  have hmade := hs.makeDirectoriesAt (isLocation_directoryPart h)
  -- the file may as well be there before it is listed
  have hfile := hmade.of_files (s.files.insert location content) (by
    rw [files_makeDirectoriesAt, Keyed.contains_insert]
    intro hroot
    rw [hroot, Bool.or_true])
  have hlast : IsSegment (lastPart location) ∨
      location = "/" ∧ (s.files.insert location content).contains "/" = true := by
    rcases isSegment_lastPart h with hseg | rfl
    · exact Or.inl hseg
    · exact Or.inr ⟨rfl, by rw [Keyed.contains_insert, decide_eq_true rfl, Bool.true_or]⟩
  rw [writeAt_eq]
  exact hfile.changeListing_insert .file hlast

/-- A location may be taken out of the listing above it, and other listings may be gone. -/
theorem IsSound.unlist {s t : FileStore} (hs : s.IsSound) (location : String)
    (hroot : t.isDirectory "/" = true)
    (hlisted : ∀ d listing, t.directories.get? d = some listing →
      s.directories.get? d = some listing)
    (hfile : s.files.contains "/" = true → location ≠ "/" → t.files.contains "/" = true) :
    (t.unlist location).IsSound where
  root := by
    rw [isDirectory, Keyed.contains] at *
    rw [FileStore.unlist, get?_changeListing]
    split
    · simpa using hroot
    · exact hroot
  named := by
    intro d listing hd name type hname
    rw [FileStore.unlist, get?_changeListing] at hd
    rw [FileStore.unlist, files_changeListing]
    by_cases hpath : location = "/"
    · -- the file at the root itself is listed there without a name
      rw [hpath, directoryPart_root, lastPart_root] at hd
      split at hd
      · obtain ⟨old, hold, rfl⟩ := Option.map_eq_some_iff.mp hd
        rw [Keyed.get?_erase] at hname
        split at hname
        · exact absurd hname (by simp)
        · rename_i hne
          rcases hs.named d old (hlisted d old hold) name type hname with hseg | ⟨-, hempty, -⟩
          · exact Or.inl hseg
          · exact absurd hempty hne
      · rename_i hne
        rcases hs.named d listing (hlisted d listing hd) name type hname with hseg | ⟨hd', -, -⟩
        · exact Or.inl hseg
        · exact absurd hd' hne
    · have hold : ∃ old, t.directories.get? d = some old ∧ old.get? name = some type := by
        split at hd
        · obtain ⟨old, hold, rfl⟩ := Option.map_eq_some_iff.mp hd
          rw [Keyed.get?_erase] at hname
          split at hname
          · exact absurd hname (by simp)
          · exact ⟨old, hold, hname⟩
        · exact ⟨listing, hd, hname⟩
      obtain ⟨old, hold, hname⟩ := hold
      rcases hs.named d old (hlisted d old hold) name type hname with hseg | ⟨hd', hempty, hroot'⟩
      · exact Or.inl hseg
      · exact Or.inr ⟨hd', hempty, hfile hroot' hpath⟩

/-- The root does not lie inside a location. -/
theorem isInside_root {location : String} (h : IsLocation location) :
    isInside location "/" = false := by
  rw [isInside, Bool.eq_false_iff, ne_eq, List.isPrefixOf_iff_prefix]
  intro hprefix
  have hlength := hprefix.length_le
  obtain ⟨ss, -, rfl⟩ := h
  rw [ofSegments, String.toList_ofList] at hlength
  simp at hlength

theorem IsSound.remove {s s' : FileStore} (hs : s.IsSound) {cwd path : String}
    (hcwd : isRooted cwd.toList = true) (h : s.remove cwd path = .ok s') : s'.IsSound := by
  have hinside := isInside_root (isLocation_canonical hcwd path)
  unfold FileStore.remove at h
  simp only at h
  generalize canonical cwd path = location at h hinside
  split at h
  · -- a file
    rw [← Except.ok.inj h]
    apply hs.unlist
    · exact hs.root
    · exact fun d listing hd => hd
    · intro hroot hne
      rw [Keyed.contains_erase, hroot]
      simpa using Ne.symm hne
  · split at h
    · rename_i hcond
      rw [Bool.and_eq_true, bne_iff_ne] at hcond
      obtain ⟨-, hne⟩ := hcond
      rw [← Except.ok.inj h]
      apply hs.unlist
      · rw [dropSubtree, isDirectory, Keyed.contains,
          Keyed.get?_filter_key _ fun d => !(d == location || isInside location d)]
        have hroot := hs.root
        rw [isDirectory, Keyed.contains] at hroot
        rw [if_pos]
        · exact hroot
        · simp [hinside, Ne.symm hne]
      · intro d listing hd
        rw [dropSubtree, Keyed.get?_filter_key _
          fun d => !(d == location || isInside location d)] at hd
        split at hd
        · exact hd
        · exact absurd hd (by simp)
      · intro hroot _
        rw [dropSubtree, Keyed.contains, Keyed.get?_filter_key _ fun f => !isInside location f]
        rw [if_pos (by simp [hinside])]
        exact hroot
    · exact absurd h (by simp)

/-- Every store made from the empty one is sound. -/
theorem IsBuilt.isSound {cwd : String} (hcwd : isRooted cwd.toList = true) {s : FileStore}
    (h : s.IsBuilt cwd) : s.IsSound := by
  induction h with
  | empty => exact isSound_empty
  | write path content _ ih => exact ih.writeAt (isLocation_canonical hcwd path) content
  | makeDirectories path _ ih => exact ih.makeDirectoriesAt (isLocation_canonical hcwd path)
  | remove path _ hremove ih => exact ih.remove hcwd hremove

end FileStore

namespace Workspace

/-- The workspace holds its files in memory, and relative paths continue an absolute directory. -/
structure IsInMemory (w : Workspace) : Prop where
  rooted : isRooted w.cwd.toList = true
  built : w.store.IsBuilt w.cwd

/-- The workspace in which some files were written, one after another. -/
def holding (cwd : String) (files : List (String × String)) : Workspace where
  cwd := cwd
  store := files.foldl (fun s f => s.write cwd f.1 f.2) .empty
  unreadable := []

theorem isInMemory_holding {cwd : String} (h : isRooted cwd.toList = true)
    (files : List (String × String)) : (holding cwd files).IsInMemory where
  rooted := h
  built := by
    show (files.foldl (fun s f => s.write cwd f.1 f.2) FileStore.empty).IsBuilt cwd
    induction files using List.reverseRecOn with
    | nil => exact .empty
    | append_singleton files f ih =>
        rw [List.foldl_append]
        exact .write f.1 f.2 ih

/-- The entries that are listed have names that can stand in a location. -/
theorem isSegment_of_mem_entries {w : Workspace} (hw : w.IsInMemory) {directory : String}
    {e : Entry} (h : e ∈ w.entries directory) : IsSegment e.1 := by
  have hsound := hw.built.isSound hw.rooted
  unfold entries readDirectory at h
  split at h
  · rename_i listed hread
    split at hread
    · exact absurd hread (by simp)
    · unfold FileStore.readDirectory at hread
      simp only at hread
      split at hread
      · exact absurd hread (by simp)
      · rename_i hfile
        split at hread
        · rename_i listing hlisting
          rw [← Except.ok.inj hread] at h
          have hget := (Keyed.get?_eq_some_iff listing e.1 e.2).mpr h
          -- the one name that cannot stand in a location is that of a file at the root, and then
          -- the root cannot be listed
          rcases hsound.named _ listing hlisting e.1 e.2 hget with hseg | ⟨hroot, -, hroot'⟩
          · exact hseg
          · rw [hroot] at hfile
            exact absurd hroot' hfile
        · exact absurd hread (by simp)
  · exact absurd h (by simp)

end Workspace

end TestAtlas
