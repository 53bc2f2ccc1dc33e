import TestAtlas.Proofs.Explorer.Shape
import TestAtlas.Proofs.Explorer.Unreached
import TestAtlas.Proofs.Path.Containment

/-!
# The innermost folder

Folders are told apart by the lengths of their texts, yet the longest folder that contains a
directory is the deepest one and lies inside every other that does: the paths above a directory are
a chain.  The main statement, `isWithin_isAncestry`, puts this together with what containment is.
-/

namespace TestAtlas

open TestAtlas.Path

namespace Explorer

variable {e : Explorer} {w : Workspace}

/-- The folder around a directory hangs on the place of the directory and not on its spelling. -/
theorem folderAround_canonical (hcwd : isRooted w.cwd.toList = true) (d : String) :
    e.folderAround w (canonical w.cwd d) = e.folderAround w d := by
  simp only [folderAround, isWithin, canonical_canonical hcwd]

/-- The folder around a directory is the deepest of those that contain it. -/
theorem folderAround_eq_some_iff (hfolders : ∀ f ∈ e.folders, IsLocation f) {d f : String}
    (hd : IsLocation d) :
    e.folderAround w d = some f ↔ f ∈ e.folders ∧ isAtOrBelow d f = true ∧
      ∀ g ∈ e.folders, isAtOrBelow d g = true → (segments g).length ≤ (segments f).length := by
  constructor
  · intro h
    obtain ⟨hf, hdf, -⟩ := of_folderAround_eq_some hfolders hd h
    refine ⟨hf, hdf, fun g hg hdg => ?_⟩
    have hinside := isAtOrBelow_of_folderAround hfolders hd hg hdg h
    rwa [isAtOrBelow_iff_length_segments_le hd (hfolders f hf) (hfolders g hg) hdf hdg] at hinside
  · rintro ⟨hf, hdf, hdeepest⟩
    refine folderAround_eq hfolders hd hf hdf fun g hg hdg hne => ?_
    -- a folder with no more segments is one around the deepest, so its text is shorter
    have hinside := (isAtOrBelow_iff_length_segments_le hd (hfolders f hf) (hfolders g hg) hdf
      hdg).mpr (hdeepest g hg hdg)
    exact length_lt_of_isAtOrBelow (hfolders f hf) (hfolders g hg) hinside (Ne.symm hne)

end Explorer

/-- Containment is ancestry: one path lies within another exactly when the segments of the other
start its own, and exactly when steps to the parent lead from it to the other.  So it orders the
canonical paths with the root on top, and the paths above one are a chain.  The folders of every
explorer are canonical, and the longest of them around a directory is the deepest and lies inside
the others. -/
theorem isWithin_isAncestry {cwd : String} (hcwd : isRooted cwd.toList = true) :
    (∀ p r, isWithin cwd p r = true ↔
      segments (canonical cwd r) <+: segments (canonical cwd p)) ∧
    (∀ p r, isWithin cwd p r = true ↔
      ∃ n : ℕ, (parent cwd)^[n] (canonical cwd p) = canonical cwd r) ∧
    OrdersPaths cwd (fun p r => isWithin cwd p r = true) ∧
    (∀ c s, Session.Arises (fun w => w.IsInMemory ∧ w.cwd = cwd) c s →
      ∀ f ∈ s.explorer.folders, IsNormal f) ∧
    ∀ (e : Explorer) (w : Workspace), w.cwd = cwd → (∀ f ∈ e.folders, IsNormal f) → ∀ d f,
      (e.folderAround w d = some f ↔ f ∈ e.folders ∧ isWithin cwd d f = true ∧
        ∀ g ∈ e.folders, isWithin cwd d g = true →
          (segments g).length ≤ (segments f).length) ∧
      (e.folderAround w d = some f →
        ∀ g ∈ e.folders, isWithin cwd d g = true → isWithin cwd f g = true) := by
  refine ⟨isWithin_iff_prefix_segments hcwd, isWithin_iff_iterate_parent hcwd,
    ordersPaths_isWithin hcwd,
    fun c s h f hf => (h.isOrderly_loose.1.explorer.folders f hf).isNormal, ?_⟩
  rintro e w rfl hnormal d f
  have hfolders : ∀ g ∈ e.folders, IsLocation g := fun g hg => (hnormal g hg).isLocation
  have hd := isLocation_canonical hcwd d
  -- whether a folder contains the directory is a matter of the directory's canonical form
  have hwithin : ∀ g ∈ e.folders,
      isWithin w.cwd d g = isAtOrBelow (canonical w.cwd d) g := fun g hg => by
    rw [isWithin, canonical_of_isLocation (hfolders g hg)]
  rw [← Explorer.folderAround_canonical hcwd]
  constructor
  · rw [Explorer.folderAround_eq_some_iff hfolders hd]
    refine and_congr_right fun hf => and_congr (by rw [hwithin f hf]) ?_
    exact forall₂_congr fun g hg => by rw [hwithin g hg]
  · intro h g hg hdg
    have hf := (Explorer.of_folderAround_eq_some hfolders hd h).1
    rw [hwithin g hg] at hdg
    rw [isWithin_of_isLocation (hfolders f hf) (hfolders g hg)]
    exact Explorer.isAtOrBelow_of_folderAround hfolders hd hg hdg h

/-- A name that another one starts with, in spellings with a backslash, dots and doubled slashes,
and a folder inside another one. -/
theorem isWithin_isAncestry_sharedStart :
    let w := Workspace.holding "/home" []
    let e := Explorer.start w .usual ["/src", "..\\src//proj/", "/src/project"]
    isRooted "/home".toList = true ∧ isWithin "/home" "/src/./proj\\a/../sub" "//src/proj/" = true ∧
      isWithin "/home" "/src/project" "/src/proj" = false ∧
      (∀ f ∈ e.folders, IsNormal f) ∧ e.folderAround w "/src/proj/sub/" = some "/src/proj" := by
  intro w e
  have hcwd : isRooted "/home".toList = true := by decide
  have hw : w.IsInMemory := Workspace.isInMemory_holding hcwd _
  obtain ⟨hsegments, hsteps, -, hnormal, hfolder⟩ := isWithin_isAncestry hcwd
  have hfolders : ∀ f ∈ e.folders, IsNormal f := hnormal .usual (.ofExplorer e) (.start _ ⟨hw, rfl⟩)
  refine ⟨hcwd, (hsteps _ _).mpr ⟨1, by decide⟩, ?_, hfolders, ?_⟩
  · rw [← Bool.not_eq_true, hsegments]
    decide
  · rw [(hfolder e w rfl hfolders _ _).1]
    decide

end TestAtlas
