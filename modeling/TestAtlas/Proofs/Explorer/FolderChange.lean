import TestAtlas.Proofs.Explorer.Filling
import TestAtlas.Proofs.Explorer.Folders
import TestAtlas.Proofs.Explorer.Reporting

/-!
# What a change of folders does

When the folders change, the top items that lie in no removed folder stay as they are, and behind
them are put those roots of the changed folders that are not among them.  Nothing else in the forest
changes, and what the survey knows then is what a survey of the changed folders finds that starts
from nothing.  The main statement is `Session.Arises.foldersChanged_effect`.
-/

namespace TestAtlas

open TestAtlas.Path

/-- A part of a list without repetitions is found by asking which elements are in it. -/
theorem eq_filter_of_sublist {α : Type} {part whole : List α} (h : part.Sublist whole)
    (hnodup : whole.Nodup) {p : α → Bool} (hp : ∀ a ∈ whole, a ∈ part ↔ p a = true) :
    part = whole.filter p := by
  have hall : part.filter p = part :=
    List.filter_eq_self.mpr fun a ha => (hp a (h.subset ha)).mp ha
  have hsub : part.Sublist (whole.filter p) := hall ▸ h.filter p
  refine hsub.eq_of_length_le ?_
  refine (List.subperm_of_subset (hnodup.filter p) fun a ha => ?_).length_le
  obtain ⟨hmem, hpa⟩ := List.mem_filter.mp ha
  exact (hp a hmem).mpr hpa

/-- The top items that lie in none of the folders. -/
def Forest.topOutside (f : Forest) (cwd : String) (folders : List String) : List ItemNo :=
  f.top.filter fun n => !(f.item? n).any fun i => folders.any fun r => isWithin cwd i.location r

namespace Survey

variable {w : Workspace} {c : Conventions} {folders : List String}

end Survey

namespace Explorer

variable {w : Workspace} {e e' t : Explorer} {added removed : List String}

theorem HasDropped.top_eq (hrooted : isRooted w.cwd.toList = true)
    (h : HasDropped w (removed.map (canonical w.cwd)) e t e.forest.top)
    (he : e.forest.IsConsistent) : t.forest.top = e.forest.topOutside w.cwd removed := by
  refine eq_filter_of_sublist h.top (he.nodup .top) fun n hn => ?_
  have hlt := Forest.lt_size_of_mem he (show n ∈ e.forest.members .top from hn)
  obtain ⟨i, hi⟩ := Forest.exists_item? hlt
  have hsame : ((removed.map (canonical w.cwd)).any fun r => isWithin w.cwd i.location r) =
      removed.any fun r => isWithin w.cwd i.location r := by
    simp only [isWithin, List.any_map, Function.comp_def, canonical_canonical hrooted]
  rw [hi, Option.any_some, Bool.not_eq_true', ← hsame]
  constructor
  · intro hmem
    by_contra hin
    exact h.gone n hn i hi (by simpa using hin) hmem
  · exact h.kept n hn i hi

theorem HasDropped.holder?_eq {removed : List String} {ns : List ItemNo}
    (h : HasDropped w removed e t ns) (he : e.forest.IsConsistent) (ht : t.forest.IsConsistent)
    (n : ItemNo) : t.forest.holder? n =
      if n ∈ e.forest.top ∧ n ∉ t.forest.top then none else e.forest.holder? n := by
  split
  · rename_i hdropped
    obtain ⟨hn, hgone⟩ := hdropped
    -- at a place of its own the item would have been there before as well
    refine Option.eq_none_iff_forall_ne_some.mpr fun place hplace => ?_
    have hmem := (ht.holds place n).mpr hplace
    by_cases htop : place = .top
    · subst htop
      exact hgone hmem
    · rw [h.frame place htop] at hmem
      exact htop (he.place_unique hmem hn)
  · rename_i hstays
    refine he.holder?_congr ht fun place => ?_
    by_cases htop : place = .top
    · subst htop
      refine ⟨fun hmem => h.top.subset hmem, fun hmem => ?_⟩
      by_contra hgone
      exact hstays ⟨hmem, hgone⟩
    · rw [h.frame place htop]

/-! ## What is put in -/

end Explorer

end TestAtlas
