import TestAtlas.Proofs.Path.NormalForm
import Mathlib.Logic.Function.Iterate

/-!
# Containment is ancestry

One path lies within another when the segments of the second start those of the first, which is when
going up from the first often enough leads to the second.  So containment orders the canonical
paths: the root is above all of them, and the paths above a given one are a chain, in which a longer
text stands for a deeper path.
-/

namespace TestAtlas.Path

variable {cwd : String}

/-! ## Segments and steps up -/

/-- One path lies within another exactly when the segments of the other start its own, whatever the
two spellings are. -/
theorem isWithin_iff_prefix_segments (hcwd : isRooted cwd.toList = true) (path root : String) :
    isWithin cwd path root = true ↔
      segments (canonical cwd root) <+: segments (canonical cwd path) := by
  obtain ⟨ps, hps, hpath⟩ := isLocation_canonical hcwd path
  obtain ⟨rs, hrs, hroot⟩ := isLocation_canonical hcwd root
  rw [isWithin, hpath, hroot, isAtOrBelow_ofSegments hps hrs, segments_ofSegments hps,
    segments_ofSegments hrs]

theorem parent_of_isLocation {path : String} (h : IsLocation path) :
    parent cwd path = directoryPart path := by
  rw [parent, canonical_of_isLocation h]

theorem isLocation_parent {path : String} (h : IsLocation path) : IsLocation (parent cwd path) := by
  rw [parent_of_isLocation h]
  exact isLocation_directoryPart h

/-- A location lies in its parent; the root is its own. -/
theorem isAtOrBelow_parent {path : String} (h : IsLocation path) :
    isAtOrBelow path (parent cwd path) = true := by
  rw [parent_of_isLocation h]
  exact isAtOrBelow_directoryPart_self h

/-- A location lies at or below another exactly when some number of steps to the parent leads from
the first to the second. -/
theorem isAtOrBelow_iff_iterate_parent {path root : String} (hpath : IsLocation path)
    (hroot : IsLocation root) :
    isAtOrBelow path root = true ↔ ∃ n : ℕ, (parent cwd)^[n] path = root := by
  constructor
  · intro h
    induction hpath using IsLocation.below_induction with
    | root =>
        have hmem := (mem_ancestors_iff isLocation_root).mpr ⟨hroot, h⟩
        rw [ancestors_root, List.mem_singleton] at hmem
        exact ⟨0, hmem.symm⟩
    | step d s hd hs ih =>
        rcases (isAtOrBelow_below_iff hd hs hroot).mp h with heq | hin
        · exact ⟨0, heq.symm⟩
        · obtain ⟨n, hn⟩ := ih hin
          have hstep : parent cwd (below d s) = d := by
            rw [parent_of_isLocation (hd.below hs), directoryPart_below hd hs]
          exact ⟨n + 1, by rw [Function.iterate_succ_apply, hstep, hn]⟩
  · rintro ⟨n, hn⟩
    induction n generalizing path with
    | zero =>
        obtain rfl : path = root := hn
        exact isAtOrBelow_refl path
    | succ n ih =>
        rw [Function.iterate_succ_apply] at hn
        have hup : IsLocation (parent cwd path) := isLocation_parent hpath
        exact isAtOrBelow_trans hpath hup hroot (isAtOrBelow_parent hpath) (ih hup hn)

/-- One path lies within another exactly when going up from its canonical form leads to that of the
other. -/
theorem isWithin_iff_iterate_parent (hcwd : isRooted cwd.toList = true) (path root : String) :
    isWithin cwd path root = true ↔
      ∃ n : ℕ, (parent cwd)^[n] (canonical cwd path) = canonical cwd root :=
  isAtOrBelow_iff_iterate_parent (isLocation_canonical hcwd path) (isLocation_canonical hcwd root)

/-! ## The order of the canonical paths -/

/-- A relation of spellings orders the canonical paths like a tree: it is reflexive, transitive and,
up to spelling, antisymmetric, the root stands above every path, and of two paths above a third one
is above the other. -/
structure OrdersPaths (cwd : String) (within : String → String → Prop) : Prop where
  refl : ∀ p, within p p
  trans : ∀ p q r, within p q → within q r → within p r
  antisymm : ∀ p q, within p q → within q p → canonical cwd p = canonical cwd q
  top : ∀ p, within p "/"
  chain : ∀ p q r, within p q → within p r → within q r ∨ within r q

theorem ordersPaths_isWithin (hcwd : isRooted cwd.toList = true) :
    OrdersPaths cwd fun p r => isWithin cwd p r = true where
  refl := fun p => isAtOrBelow_refl _
  trans := fun p q r => isAtOrBelow_trans (isLocation_canonical hcwd p)
    (isLocation_canonical hcwd q) (isLocation_canonical hcwd r)
  antisymm := fun p q => isAtOrBelow_antisymm (isLocation_canonical hcwd p)
    (isLocation_canonical hcwd q)
  top := by
    intro p
    have hroot : canonical cwd "/" = "/" := canonical_of_isLocation isLocation_root cwd
    rw [isWithin_iff_prefix_segments hcwd, hroot, ← ofSegments_nil, segments_ofSegments (by simp)]
    exact List.nil_prefix
  chain := fun p q r => isAtOrBelow_total (isLocation_canonical hcwd q)
    (isLocation_canonical hcwd r) (isLocation_canonical hcwd p)

/-- Of two locations around a third one the inner one has no fewer segments. -/
theorem isAtOrBelow_iff_length_segments_le {d p r : String} (hd : IsLocation d) (hp : IsLocation p)
    (hr : IsLocation r) (hdp : isAtOrBelow d p = true) (hdr : isAtOrBelow d r = true) :
    isAtOrBelow p r = true ↔ (segments r).length ≤ (segments p).length := by
  obtain ⟨ds, hds, rfl⟩ := hd
  obtain ⟨ps, hps, rfl⟩ := hp
  obtain ⟨rs, hrs, rfl⟩ := hr
  rw [isAtOrBelow_ofSegments hds hps] at hdp
  rw [isAtOrBelow_ofSegments hds hrs] at hdr
  rw [isAtOrBelow_ofSegments hps hrs, segments_ofSegments hps, segments_ofSegments hrs]
  exact ⟨List.IsPrefix.length_le, List.prefix_of_prefix_length_le hdr hdp⟩

end TestAtlas.Path
