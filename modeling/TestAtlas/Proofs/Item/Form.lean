import TestAtlas.Item.Id
import TestAtlas.Proofs.Text.Escape

/-!
# The outer form of an identifier

A text is read as an identifier exactly if it has the outer form of one (`HasForm`) and, for a leaf,
a fragment; the form is unique, so what is read is determined by it.  The main statement is
`parse_eq_ok_iff`.
-/

namespace TestAtlas

namespace Text

theorem cutFirst_of_not_mem {sep : Char} {cs : List Char} (h : sep ∉ cs) :
    cutFirst sep cs = (cs, none) := by
  induction cs with
  | nil => rfl
  | cons c cs ih =>
      rw [List.mem_cons, not_or] at h
      rw [cutFirst, if_neg (Ne.symm h.1), ih h.2]

theorem cutFirst_eq_iff {sep : Char} {cs before : List Char} {after : Option (List Char)} :
    cutFirst sep cs = (before, after) ↔
      cs = before ++ (after.map (sep :: ·)).getD [] ∧ sep ∉ before := by
  constructor
  · intro h
    have hcs := cutFirst_eq sep cs
    have hnot := not_mem_cutFirst sep cs
    rw [h] at hcs hnot
    exact ⟨hcs, hnot⟩
  · rintro ⟨rfl, hnot⟩
    cases after with
    | none => simpa using cutFirst_of_not_mem hnot
    | some rest => simpa using cutFirst_append hnot rest

theorem cutLast_eq_some_iff {sep : Char} {cs before after : List Char} :
    cutLast sep cs = some (before, after) ↔ cs = before ++ sep :: after ∧ sep ∉ after := by
  constructor
  · intro h
    unfold cutLast at h
    split at h
    · rename_i reversed rest hcut
      rw [Option.some.injEq, Prod.mk.injEq] at h
      obtain ⟨rfl, rfl⟩ := h
      obtain ⟨hcs, hnot⟩ := cutFirst_eq_iff.mp hcut
      refine ⟨?_, by simpa using hnot⟩
      rw [← List.reverse_reverse cs, hcs]
      simp
    · exact absurd h (by simp)
  · rintro ⟨rfl, hnot⟩
    exact cutLast_append hnot before

end Text

namespace Id

open Text

theorem not_mem_word {c : Char} (hc : c = '#' ∨ c = '?') (kind : Kind) :
    c ∉ kind.word.toList := by
  rcases hc with rfl | rfl <;> cases kind <;> decide

theorem afterScheme?_scheme_append (cs : List Char) : afterScheme? (scheme ++ cs) = some cs := by
  rw [afterScheme?, if_pos]
  · rw [List.drop_left]
  · rw [List.isPrefixOf_iff_prefix]
    exact List.prefix_append _ _

/-! ## The outer form -/

/-- The outer form of an identifier: the scheme, a path that is not empty and has no number sign, a
question mark and the word of a kind, and possibly a number sign and a fragment. -/
structure HasForm (text : String) (path : List Char) (kind : Kind)
    (fragment : Option (List Char)) : Prop where
  chars : text.toList =
    scheme ++ path ++ '?' :: kind.word.toList ++ (fragment.map ('#' :: ·)).getD []
  path_ne_nil : path ≠ []
  not_mem_path : '#' ∉ path

theorem afterScheme?_eq_some_iff {cs rest : List Char} :
    afterScheme? cs = some rest ↔ cs = scheme ++ rest := by
  rw [afterScheme?]
  constructor
  · intro h
    split at h
    · rename_i hprefix
      obtain ⟨tail, rfl⟩ := List.isPrefixOf_iff_prefix.mp hprefix
      rw [List.drop_left, Option.some.injEq] at h
      rw [h]
    · exact absurd h (by simp)
  · rintro rfl
    exact afterScheme?_scheme_append rest

/-- A text is split into what its outer form has. -/
theorem split?_eq_some_iff {text : String} {path : List Char} {kind : Kind}
    {fragment : Option (List Char)} :
    split? text.toList = some (path, kind, fragment) ↔ HasForm text path kind fragment := by
  constructor
  · intro h
    cases hrest : afterScheme? text.toList with
    | none => simp [split?, hrest] at h
    | some rest =>
        rcases hcut : cutFirst '#' rest with ⟨head, tail⟩
        cases hlast : cutLast '?' head with
        | none => simp [split?, hrest, hcut, hlast] at h
        | some ends =>
            obtain ⟨before, word⟩ := ends
            cases hword : Kind.ofWord? (String.ofList word) with
            | none => simp [split?, hrest, hcut, hlast, hword] at h
            | some k =>
                simp only [split?, hrest, hcut, hlast, hword, Option.ite_none_left_eq_some,
                  Option.some.injEq, Prod.mk.injEq] at h
                obtain ⟨hne, rfl, rfl, rfl⟩ := h
                obtain ⟨hrest', hsign⟩ := cutFirst_eq_iff.mp hcut
                obtain ⟨rfl, -⟩ := cutLast_eq_some_iff.mp hlast
                have hkind := Kind.word_of_ofWord? hword
                refine ⟨?_, hne, fun hmem => hsign (List.mem_append_left _ hmem)⟩
                rw [afterScheme?_eq_some_iff.mp hrest, hrest', hkind]
                simp
  · rintro ⟨hchars, hne, hsign⟩
    have hhead : '#' ∉ path ++ '?' :: kind.word.toList := by
      rw [List.mem_append, List.mem_cons]
      rintro (hmem | hmem | hmem)
      · exact hsign hmem
      · exact absurd hmem (by decide)
      · exact not_mem_word (Or.inl rfl) kind hmem
    have hcut : cutFirst '#' (path ++ '?' :: kind.word.toList ++
        (fragment.map ('#' :: ·)).getD []) = (path ++ '?' :: kind.word.toList, fragment) :=
      cutFirst_eq_iff.mpr ⟨rfl, hhead⟩
    rw [hchars, List.append_assoc, List.append_assoc, split?, afterScheme?_scheme_append]
    rw [List.append_assoc] at hcut
    simp only [hcut, cutLast_append (not_mem_word (Or.inr rfl) kind), String.ofList_toList,
      Kind.ofWord?_word]
    rw [if_neg hne]

/-- The outer form of a text is unique. -/
theorem HasForm.unique {text : String} {path path' : List Char} {kind kind' : Kind}
    {fragment fragment' : Option (List Char)} (h : HasForm text path kind fragment)
    (h' : HasForm text path' kind' fragment') :
    path = path' ∧ kind = kind' ∧ fragment = fragment' := by
  rw [← split?_eq_some_iff] at h h'
  simpa using h.symm.trans h'

/-! ## What is read -/

/-- A leaf has a fragment that is not empty. -/
def NamesLeaf (kind : Kind) (fragment : Option (List Char)) : Prop :=
  kind.isLeaf = true → ∃ cs, fragment = some cs ∧ cs ≠ []

/-- The parts that are read of a path, a kind and a fragment. -/
def readParts (path : List Char) (kind : Kind) (fragment : Option (List Char)) : Parts where
  location := String.ofList (Percent.unescape path)
  kind := kind
  name := if kind.isLeaf then fragment.map fun cs => String.ofList (Percent.unescape cs) else none

section Parse

variable {text : String} {path : List Char} {kind : Kind} {fragment : Option (List Char)}

theorem parse_of_not_hasForm (h : ∀ path kind fragment, ¬ HasForm text path kind fragment) :
    parse text = .error (.notAnIdentifier text) := by
  have hsplit : split? text.toList = none := by
    rw [Option.eq_none_iff_forall_ne_some]
    rintro ⟨path, kind, fragment⟩ hsome
    exact h path kind fragment (split?_eq_some_iff.mp hsome)
  rw [parse, hsplit]

theorem parse_of_namesLeaf (h : HasForm text path kind fragment) (hleaf : NamesLeaf kind fragment) :
    parse text = .ok (readParts path kind fragment) := by
  rw [parse, split?_eq_some_iff.mpr h]
  cases hk : kind.isLeaf with
  | false => simp [readParts, hk]
  | true =>
      obtain ⟨cs, rfl, hcs⟩ := hleaf hk
      obtain ⟨d, ds, hd⟩ := List.exists_cons_of_ne_nil (mt Percent.unescape_eq_nil_iff.mp hcs)
      simp [readParts, hk, hd]

theorem parse_of_not_namesLeaf (h : HasForm text path kind fragment)
    (hleaf : ¬ NamesLeaf kind fragment) : parse text = .error (.leafWithoutName text) := by
  rw [parse, split?_eq_some_iff.mpr h]
  rw [NamesLeaf, Classical.not_imp] at hleaf
  obtain ⟨hk, hnone⟩ := hleaf
  cases fragment with
  | none => simp [hk]
  | some cs =>
      obtain rfl : cs = [] := Classical.byContradiction fun hcs => hnone ⟨cs, rfl, hcs⟩
      simp [hk]

/-- The three ways in which reading a text can end. -/
theorem parse_cases (text : String) :
    (parse text = .error (.notAnIdentifier text) ∧
      ∀ path kind fragment, ¬ HasForm text path kind fragment) ∨
    ∃ path kind fragment, HasForm text path kind fragment ∧
      (NamesLeaf kind fragment ∧ parse text = .ok (readParts path kind fragment) ∨
        ¬ NamesLeaf kind fragment ∧ parse text = .error (.leafWithoutName text)) := by
  by_cases hform : ∃ path kind fragment, HasForm text path kind fragment
  · obtain ⟨path, kind, fragment, hform⟩ := hform
    refine Or.inr ⟨path, kind, fragment, hform, ?_⟩
    by_cases hleaf : NamesLeaf kind fragment
    · exact Or.inl ⟨hleaf, parse_of_namesLeaf hform hleaf⟩
    · exact Or.inr ⟨hleaf, parse_of_not_namesLeaf hform hleaf⟩
  · simp only [not_exists] at hform
    exact Or.inl ⟨parse_of_not_hasForm hform, hform⟩

/-- A text is read exactly if it has the outer form of an identifier, with a fragment for a leaf. -/
theorem parse_eq_ok_iff {parts : Parts} :
    parse text = .ok parts ↔ ∃ path kind fragment, HasForm text path kind fragment ∧
      NamesLeaf kind fragment ∧ parts = readParts path kind fragment := by
  constructor
  · intro h
    rcases parse_cases text with
      ⟨hparse, -⟩ | ⟨path, kind, fragment, hform, ⟨hleaf, hparse⟩ | ⟨-, hparse⟩⟩
    · exact absurd (h.symm.trans hparse) (by simp)
    · exact ⟨path, kind, fragment, hform, hleaf, Except.ok.inj (h.symm.trans hparse)⟩
    · exact absurd (h.symm.trans hparse) (by simp)
  · rintro ⟨path, kind, fragment, hform, hleaf, rfl⟩
    exact parse_of_namesLeaf hform hleaf

/-- What is not read is refused as a text without the outer form or as a leaf without a name. -/
theorem eq_of_parse_eq_error {e : ParseError} (h : parse text = .error e) :
    e = .notAnIdentifier text ∨ e = .leafWithoutName text := by
  rcases parse_cases text with ⟨hparse, -⟩ | ⟨_, _, _, -, ⟨-, hparse⟩ | ⟨-, hparse⟩⟩
  · exact Or.inl (Except.error.inj (h.symm.trans hparse))
  · exact absurd (h.symm.trans hparse) (by simp)
  · exact Or.inr (Except.error.inj (h.symm.trans hparse))

end Parse

end Id

end TestAtlas
