import TestAtlas.Proofs.Settings.Checked

/-!
# Strict and lenient validation

Strict validation fails where lenient validation warns, and where neither happens both give the same
settings.  There is one exception: a list given as a text of commas and blanks has the wrong type
for strict validation, while lenient validation takes the default for it and says nothing.
`validate_strict_agrees_iff` says that there is no other.
-/

namespace TestAtlas

namespace Text

/-- What the pieces of a cut hold is everything but the separators. -/
theorem forall_mem_cut_iff {sep : Char} {cs : List Char} {p : Char → Prop} :
    (∀ piece ∈ cut sep cs, ∀ c ∈ piece, p c) ↔ ∀ c ∈ cs, c = sep ∨ p c := by
  induction cs with
  | nil => simp
  | cons c cs ih =>
      by_cases hc : c = sep
      · rw [hc, cut_cons_self, List.forall_mem_cons, List.forall_mem_cons, ← ih]
        simp
      · cases hcut : cut sep cs with
        | nil => exact absurd hcut (cut_ne_nil sep cs)
        | cons piece pieces =>
            have hcons : cut sep (c :: cs) = (c :: piece) :: pieces := by simp [cut, hc, hcut]
            rw [hcut, List.forall_mem_cons] at ih
            rw [hcons, List.forall_mem_cons, List.forall_mem_cons, List.forall_mem_cons, ← ih,
              or_iff_right hc, and_assoc]

end Text

namespace Settings

open Text

/-! ## Lists given as texts -/

/-- The text consists of commas and blanks, or is empty. -/
def IsBlankList (s : String) : Prop := ∀ c ∈ s.toList, c = ',' ∨ isBlank c = true

/-- Such a text has no parts, and no other. -/
theorem commaParts_eq_nil_iff {s : String} : commaParts s = [] ↔ IsBlankList s := by
  rw [commaParts, List.filter_eq_nil_iff, List.forall_mem_map, IsBlankList, ← forall_mem_cut_iff]
  refine forall₂_congr fun piece _ => ?_
  rw [← strip_eq_nil_iff]
  simp

theorem mendTextList_strict_of_ne_str {value : Json} (h : ∀ s, value ≠ .str s) (field : String)
    (fallback : List String) :
    mendTextList .strict field fallback value = mendTextList .lenient field fallback value := by
  cases value with
  | str s => exact absurd rfl (h s)
  | _ => rfl

theorem mendTextList_strict_str_ne_nil (field s : String) (fallback : List String) :
    (mendTextList .strict field fallback (.str s)).2 ≠ [] :=
  List.cons_ne_nil _ _

/-- Lenient validation warns of a text unless it has no parts. -/
theorem mendTextList_lenient_str_eq_nil_iff (field s : String) (fallback : List String) :
    (mendTextList .lenient field fallback (.str s)).2 = [] ↔ IsBlankList s := by
  rw [← commaParts_eq_nil_iff, mendTextList]
  cases commaParts s <;> simp

/-- The list fields and their defaults. -/
def listFields : List (String × List String) :=
  [("workspace_folders", default.workspaceFolders),
    ("source_extensions", default.sourceExtensions),
    ("exclude_patterns", default.excludePatterns)]

/-- One of the list fields is given as a text of commas and blanks. -/
def HasBlankList (config : Json) : Prop :=
  ∃ field ∈ listFields, ∃ s, Json.member? field.1 config = some (.str s) ∧ IsBlankList s

section Members

variable {given : List (String × Json)}

theorem memberOr_textList_eq_str_iff {name s : String} {fallback : List String} :
    memberOr given name (textList fallback) = .str s ↔
      Json.member? name (.object given) = some (.str s) := by
  rw [memberOr]
  cases Json.member? name (.object given) with
  | none => simp [textList]
  | some value => simp

/-- A list field on which both modes say nothing is the same in both. -/
theorem listField_strict_eq_nil {name : String} {fallback : List String}
    (h : (listField .strict given name fallback).2 = []) :
    listField .strict given name fallback = listField .lenient given name fallback ∧
      ∀ s, Json.member? name (.object given) ≠ some (.str s) := by
  have hvalue : ∀ s, memberOr given name (textList fallback) ≠ .str s := by
    intro s hs
    rw [listField, hs] at h
    exact mendTextList_strict_str_ne_nil name s fallback h
  exact ⟨mendTextList_strict_of_ne_str hvalue name fallback,
    fun s hs => hvalue s (memberOr_textList_eq_str_iff.mpr hs)⟩

theorem listField_strict_of_lenient {name : String} {fallback : List String}
    (h : (listField .lenient given name fallback).2 = [])
    (hblank : ∀ s, Json.member? name (.object given) = some (.str s) → ¬ IsBlankList s) :
    listField .strict given name fallback = listField .lenient given name fallback := by
  refine mendTextList_strict_of_ne_str (fun s hs => ?_) name fallback
  rw [listField, hs, mendTextList_lenient_str_eq_nil_iff] at h
  exact hblank s (memberOr_textList_eq_str_iff.mp hs) h

theorem listField_eq_nil_of_ofMembers {mode : Mode} (h : (ofMembers mode given).2 = []) :
    ∀ field ∈ listFields, (listField mode given field.1 field.2).2 = [] := by
  rw [ofMembers_eq] at h
  simp only [List.append_eq_nil_iff] at h
  simp [listFields, h]

/-- The modes differ at the list fields alone. -/
theorem ofMembers_strict_of_listFields
    (h : ∀ field ∈ listFields, listField .strict given field.1 field.2 =
      listField .lenient given field.1 field.2) :
    ofMembers .strict given = ofMembers .lenient given := by
  simp only [listFields, List.forall_mem_cons] at h
  rw [ofMembers_eq, ofMembers_eq, h.1, h.2.1, h.2.2.1]

end Members

section Config

variable {config : Json}

/-- If strict validation finds nothing, lenient validation does the same. -/
theorem inspect_strict_of_eq_nil (h : (inspect .strict config).2 = []) :
    inspect .strict config = inspect .lenient config ∧ ¬ HasBlankList config := by
  cases config with
  | object given =>
      have hfields := listField_eq_nil_of_ofMembers h
      refine ⟨ofMembers_strict_of_listFields fun field hfield =>
        (listField_strict_eq_nil (hfields field hfield)).1, ?_⟩
      rintro ⟨field, hfield, s, hs, -⟩
      exact (listField_strict_eq_nil (hfields field hfield)).2 s hs
  | _ => exact absurd h (List.cons_ne_nil _ _)

/-- If lenient validation warns of nothing and no blank text stands for a list, strict validation
does the same. -/
theorem inspect_strict_of_lenient (h : (inspect .lenient config).2 = [])
    (hblank : ¬ HasBlankList config) : inspect .strict config = inspect .lenient config := by
  cases config with
  | object given =>
      have hfields := listField_eq_nil_of_ofMembers h
      exact ofMembers_strict_of_listFields fun field hfield =>
        listField_strict_of_lenient (hfields field hfield) fun s hs hs' =>
          hblank ⟨field, hfield, s, hs, hs'⟩
  | _ => exact absurd h (List.cons_ne_nil _ _)

theorem exists_validate_strict_eq_error_iff :
    (∃ problem, validate .strict config = .error problem) ↔ (inspect .strict config).2 ≠ [] := by
  unfold validate
  rcases inspect .strict config with ⟨s, problems⟩
  cases problems <;> simp

theorem inspect_strict_eq_nil_iff :
    (inspect .strict config).2 = [] ↔
      (validateLenient config).2 = [] ∧ ¬ HasBlankList config := by
  constructor
  · intro h
    obtain ⟨heq, hblank⟩ := inspect_strict_of_eq_nil h
    exact ⟨by rw [validateLenient, ← heq, h], hblank⟩
  · rintro ⟨h, hblank⟩
    rw [inspect_strict_of_lenient h hblank]
    exact h

end Config

/-- Strict validation fails exactly if lenient validation warns or a list is given as a text of
commas and blanks.  What it accepts is accepted by lenient validation without a warning and as the
same settings.  So the modes agree but for such a text and nothing else to warn of. -/
theorem validate_strict_agrees_iff (config : Json) :
    ((∃ problem, validate .strict config = .error problem) ↔
        (validateLenient config).2 ≠ [] ∨ HasBlankList config) ∧
      (∀ result, validate .strict config = .ok result →
        validateLenient config = result ∧ result.2 = []) ∧
      (((∃ problem, validate .strict config = .error problem) ↔
          (validateLenient config).2 ≠ []) ↔
        ¬ ((validateLenient config).2 = [] ∧ HasBlankList config)) := by
  have hfails : (∃ problem, validate .strict config = .error problem) ↔
      (validateLenient config).2 ≠ [] ∨ HasBlankList config := by
    rw [exists_validate_strict_eq_error_iff, ne_eq, inspect_strict_eq_nil_iff]
    tauto
  refine ⟨hfails, fun result hresult => ?_, by rw [hfails]; tauto⟩
  obtain ⟨rfl, hnone⟩ := validate_strict_eq_ok_iff.mp hresult
  exact ⟨(inspect_strict_of_eq_nil hnone).1.symm, hnone⟩

/-- An empty text for the workspace folders fails strictly, and leniently nobody is told. -/
theorem not_validate_strict_agrees :
    ¬ ∀ config, (∃ problem, validate .strict config = .error problem) ↔
      (validateLenient config).2 ≠ [] := by
  intro h
  have hfails : validate .strict (.object [("workspace_folders", .str "")]) =
      .error (.notATextList "workspace_folders" "str") := rfl
  exact (h _).mp ⟨_, hfails⟩ rfl

end Settings

end TestAtlas
