import TestAtlas.Text.Blank
import Mathlib.Data.List.DropRight

/-!
# Stripped texts

Stripping gives a text without blanks at its ends and leaves such a text as it is
(`isStripped_strip`, `strip_of_isStripped`).  Nothing is left of a text exactly if all of it is
blank.
-/

namespace TestAtlas.Text

/-- No blank stands at either end of the text. -/
structure IsStripped (cs : List Char) : Prop where
  starts : ∀ c ∈ cs.head?, isBlank c = false
  ends : ∀ c ∈ cs.getLast?, isBlank c = false

theorem isStripped_iff {cs : List Char} :
    IsStripped cs ↔ cs.head?.any isBlank = false ∧ cs.getLast?.any isBlank = false := by
  rw [Option.any_eq_false, Option.any_eq_false]
  exact ⟨fun h => ⟨h.starts, h.ends⟩, fun h => ⟨h.1, h.2⟩⟩

instance (cs : List Char) : Decidable (IsStripped cs) := decidable_of_iff _ isStripped_iff.symm

theorem dropWhile_of_head? {p : Char → Bool} {cs : List Char} (h : ∀ c ∈ cs.head?, p c = false) :
    cs.dropWhile p = cs := by
  cases cs with
  | nil => rfl
  | cons c cs => rw [List.dropWhile_cons_of_neg (by simp [h c rfl])]

theorem of_mem_head?_dropWhile {p : Char → Bool} {cs : List Char} {c : Char}
    (h : c ∈ (cs.dropWhile p).head?) : p c = false := by
  have hnot := List.head?_dropWhile_not p cs
  rw [Option.mem_def.mp h] at hnot
  simpa using hnot

theorem isStripped_strip (cs : List Char) : IsStripped (strip cs) where
  starts := by
    intro c hc
    -- what is taken away at the end leaves a beginning of what starts with no blank
    obtain ⟨rest, hrest⟩ : strip cs <+: stripLeft cs := List.rdropWhile_prefix isBlank _
    have hhead : c ∈ (stripLeft cs).head? := by
      rw [← hrest, List.head?_append, Option.mem_def.mp hc]
      rfl
    exact of_mem_head?_dropWhile hhead
  ends := by
    intro c hc
    rw [strip, stripRight, List.getLast?_reverse] at hc
    exact of_mem_head?_dropWhile hc

theorem strip_of_isStripped {cs : List Char} (h : IsStripped cs) : strip cs = cs := by
  have hright : cs.reverse.dropWhile isBlank = cs.reverse :=
    dropWhile_of_head? (by simpa using h.ends)
  rw [strip, stripLeft, dropWhile_of_head? h.starts, stripRight, hright, List.reverse_reverse]

/-- Nothing is left of a text exactly if all of it is blank. -/
theorem strip_eq_nil_iff {cs : List Char} : strip cs = [] ↔ ∀ c ∈ cs, isBlank c = true := by
  constructor
  · intro h
    have hleft : ∀ c ∈ stripLeft cs, isBlank c = true := by
      simpa using List.rdropWhile_eq_nil_iff.mp h
    -- a beginning that is kept is not blank, so nothing is kept
    cases hcs : stripLeft cs with
    | nil => exact List.dropWhile_eq_nil_iff.mp hcs
    | cons c rest =>
        have hblank : isBlank c = true := hleft c (by rw [hcs]; exact List.mem_cons_self)
        have hhead : c ∈ (stripLeft cs).head? := by rw [hcs]; rfl
        have hkept : isBlank c = false := of_mem_head?_dropWhile hhead
        exact absurd (hblank.symm.trans hkept) (by decide)
  · intro h
    have hleft : stripLeft cs = [] := List.dropWhile_eq_nil_iff.mpr h
    rw [strip, hleft]
    rfl

/-- A text that is not empty and has no blank at either end. -/
structure IsFilled (s : String) : Prop where
  ne_empty : s ≠ ""
  isStripped : IsStripped s.toList

instance (s : String) : Decidable (IsFilled s) :=
  decidable_of_iff (s ≠ "" ∧ IsStripped s.toList)
    ⟨fun h => ⟨h.1, h.2⟩, fun h => ⟨h.ne_empty, h.isStripped⟩⟩

theorem isStripped_trimmed (s : String) : IsStripped (trimmed s).toList := by
  rw [trimmed, String.toList_ofList]
  exact isStripped_strip s.toList

theorem isFilled_trimmed {s : String} (h : trimmed s ≠ "") : IsFilled (trimmed s) :=
  ⟨h, isStripped_trimmed s⟩

theorem trimmed_of_isStripped {s : String} (h : IsStripped s.toList) : trimmed s = s := by
  rw [trimmed, strip_of_isStripped h, String.ofList_toList]

end TestAtlas.Text
