import TestAtlas.Proofs.Text.Stripped
import TestAtlas.Settings.Validation

/-!
# Checked settings

Validation ends at settings that it leaves as they are.  Every field is mended on its own, and for
each of them `Settles` says that mending any value gives a good one, and that a good one is found
again in what is written of it, without a problem.  `isChecked_inspect` and `inspect_toJson` say the
same of the settings as a whole.  The main statement is `validate_lenient_settles`.
-/

namespace TestAtlas.Settings

open Text

/-- Whatever is mended becomes good, and what is good is found again without a problem. -/
structure Settles {α : Type} (mend : Json → Mended α) (write : α → Json) (Good : α → Prop) :
    Prop where
  good : ∀ value, Good (mend value).1
  keeps : ∀ a, Good a → mend (write a) = (a, [])

/-! ## Text fields -/

theorem mendText_str {s fallback : String} (h : IsStripped s.toList)
    (hempty : s = "" → fallback = "") (field : String) :
    mendText field fallback (.str s) = (s, []) := by
  rw [mendText, trimmed_of_isStripped h]
  split
  · rename_i hs
    rw [hempty hs, hs]
  · rfl

/-- What is not taken from the fallback is filled. -/
theorem mendText_eq_fallback_or_isFilled (field fallback : String) (value : Json) :
    (mendText field fallback value).1 = fallback ∨ IsFilled (mendText field fallback value).1 := by
  cases value with
  | str s =>
      rw [mendText]
      split
      · exact Or.inl rfl
      · rename_i hs
        exact Or.inr (isFilled_trimmed hs)
  | _ => exact Or.inl rfl

theorem settles_mendText (field : String) {fallback : String} (h : IsFilled fallback) :
    Settles (mendText field fallback) .str IsFilled where
  good value := by
    rcases mendText_eq_fallback_or_isFilled field fallback value with hv | hv
    · rwa [hv]
    · exact hv
  keeps s hs := mendText_str hs.isStripped (fun hempty => absurd hempty hs.ne_empty) field

/-- A text field that may be empty. -/
theorem settles_mendText_empty (field : String) :
    Settles (mendText field "") .str fun s => IsStripped s.toList where
  good value := by
    rcases mendText_eq_fallback_or_isFilled field "" value with hv | hv
    · rw [hv]
      decide
    · exact hv.isStripped
  keeps s hs := mendText_str hs (fun _ => rfl) field

/-! ## List fields -/

theorem mendItems_str_cons (field s : String) (n : Nat) (items : List Json) :
    mendItems field n (.str s :: items) =
      (if trimmed s = "" then (mendItems field (n + 1) items).1
        else trimmed s :: (mendItems field (n + 1) items).1, (mendItems field (n + 1) items).2) :=
  rfl

theorem isFilled_of_mem_mendItems {field s : String} {n : Nat} {items : List Json}
    (h : s ∈ (mendItems field n items).1) : IsFilled s := by
  induction items generalizing n with
  | nil => exact absurd h List.not_mem_nil
  | cons item items ih =>
      cases item with
      | str t =>
          rw [mendItems_str_cons] at h
          dsimp only at h
          split at h
          · exact ih h
          · rename_i ht
            rcases List.mem_cons.mp h with rfl | h
            · exact isFilled_trimmed ht
            · exact ih h
      | _ => exact ih h

theorem mendItems_str {texts : List String} (h : ∀ s ∈ texts, IsFilled s) (field : String)
    (n : Nat) : mendItems field n (texts.map .str) = (texts, []) := by
  induction texts generalizing n with
  | nil => rfl
  | cons s texts ih =>
      have hs : IsFilled s := h s List.mem_cons_self
      have hrest := ih (fun t ht => h t (List.mem_cons_of_mem s ht)) (n + 1)
      rw [List.map_cons, mendItems_str_cons, hrest, trimmed_of_isStripped hs.isStripped,
        if_neg hs.ne_empty]

theorem mendTextList_list (mode : Mode) (field : String) (fallback : List String)
    (items : List Json) :
    mendTextList mode field fallback (.list items) =
      (if (mendItems field 0 items).1.isEmpty && !items.isEmpty then fallback
        else (mendItems field 0 items).1, (mendItems field 0 items).2) := rfl

theorem isFilled_of_mem_commaParts {s part : String} (h : part ∈ commaParts s) : IsFilled part := by
  obtain ⟨hmem, hne⟩ := List.mem_filter.mp h
  obtain ⟨cs, -, rfl⟩ := List.mem_map.mp hmem
  refine ⟨by simpa using hne, ?_⟩
  rw [String.toList_ofList]
  exact isStripped_strip cs

/-- A list that is not the fallback is made of items or of the parts of a text. -/
theorem mendTextList_cases (mode : Mode) (field : String) (fallback : List String) (value : Json) :
    (mendTextList mode field fallback value).1 = fallback ∨
      (∃ items, (mendTextList mode field fallback value).1 = (mendItems field 0 items).1) ∨
      ∃ s, (mendTextList mode field fallback value).1 = commaParts s := by
  cases value with
  | list items =>
      rw [mendTextList_list]
      dsimp only
      split
      · exact Or.inl rfl
      · exact Or.inr (Or.inl ⟨items, rfl⟩)
  | str s =>
      cases mode with
      | strict => exact Or.inl rfl
      | lenient =>
          rw [mendTextList]
          split
          · exact Or.inl rfl
          · exact Or.inr (Or.inr ⟨s, rfl⟩)
  | _ => exact Or.inl rfl

theorem settles_mendTextList (mode : Mode) (field : String) {fallback : List String}
    (h : ∀ s ∈ fallback, IsFilled s) :
    Settles (mendTextList mode field fallback) textList fun texts => ∀ s ∈ texts, IsFilled s where
  good value := by
    rcases mendTextList_cases mode field fallback value with hv | ⟨items, hv⟩ | ⟨s, hv⟩
    · rwa [hv]
    · rw [hv]
      exact fun _ hs => isFilled_of_mem_mendItems hs
    · rw [hv]
      exact fun _ hs => isFilled_of_mem_commaParts hs
  keeps texts htexts := by
    rw [textList, mendTextList_list, mendItems_str htexts]
    -- an empty list stays empty: the fallback is for a list of which nothing is left
    cases texts <;> rfl

/-! ## Extensions and levels -/

theorem isFilled_dotted {e : String} (h : IsFilled e) : IsFilled ("." ++ e) := by
  refine ⟨by simp, ?_, ?_⟩
  · intro c hc
    rw [String.toList_append] at hc
    obtain rfl : '.' = c := by simpa using hc
    decide
  · intro c hc
    refine h.isStripped.ends c ?_
    have hne : e.toList ≠ [] := by simpa using h.ne_empty
    rwa [String.toList_append, List.getLast?_append_of_ne_nil _ hne] at hc

/-- The extension is filled and starts with a dot. -/
structure IsExtension (e : String) : Prop where
  isFilled : IsFilled e
  startsWithDot : startsWithDot e = true

theorem isExtension_default : ∀ e ∈ default.sourceExtensions, IsExtension e := by
  intro e he
  obtain rfl : e = ".go" := List.mem_singleton.mp he
  exact ⟨by decide, by decide⟩

theorem isExtension_mendExtensions {extensions : List String} (h : ∀ e ∈ extensions, IsFilled e) :
    (mendExtensions extensions).1 ≠ [] ∧ ∀ e ∈ (mendExtensions extensions).1, IsExtension e := by
  rw [mendExtensions]
  dsimp only
  split
  · exact ⟨List.cons_ne_nil _ _, isExtension_default⟩
  · rename_i hne
    refine ⟨by simpa using hne, fun e he => ?_⟩
    obtain ⟨given, hgiven, rfl⟩ := List.mem_map.mp he
    split
    · rename_i hdot
      exact ⟨h given hgiven, hdot⟩
    · exact ⟨isFilled_dotted (h given hgiven), by simp [startsWithDot]⟩

theorem mendExtensions_of_isExtension {extensions : List String} (hne : extensions ≠ [])
    (h : ∀ e ∈ extensions, IsExtension e) : mendExtensions extensions = (extensions, []) := by
  have hmap : (extensions.map fun e => if startsWithDot e then e else "." ++ e) = extensions :=
    (List.map_congr_left fun e he => if_pos (h e he).startsWithDot).trans (List.map_id' _)
  have hwrong : (extensions.filter fun e => !startsWithDot e) = [] :=
    List.filter_eq_nil_iff.mpr fun e he => by simp [(h e he).startsWithDot]
  rw [mendExtensions, hmap, hwrong]
  simp [hne]

theorem mendLevel_mem_levelNames (level : String) : (mendLevel level).1 ∈ levelNames := by
  rw [mendLevel]
  split
  · rename_i hlevel
    exact List.contains_iff_mem.mp hlevel
  · have hdefault : default.logLevel ∈ levelNames := by decide
    exact hdefault

theorem mendLevel_of_mem {level : String} (h : level ∈ levelNames) :
    mendLevel level = (level, []) := by
  have hupper : ∀ level ∈ levelNames, upperAscii level = level := by decide
  rw [mendLevel, hupper level h]
  exact if_pos (List.contains_iff_mem.mpr h)

/-! ## The settings -/

/-- A text field of the given members, mended. -/
def textField (given : List (String × Json)) (name fallback : String) : Mended String :=
  mendText name fallback (memberOr given name (.str fallback))

/-- A list field of the given members, mended. -/
def listField (mode : Mode) (given : List (String × Json)) (name : String)
    (fallback : List String) : Mended (List String) :=
  mendTextList mode name fallback (memberOr given name (textList fallback))

/-- The settings that validation accepts as they are: the fields are filled, the extensions start
with a dot and the level is known. -/
structure IsChecked (s : Settings) : Prop where
  manifestName : IsFilled s.manifestName
  testFileSuffix : IsFilled s.testFileSuffix
  logLevel : IsFilled s.logLevel
  logLevel_mem : s.logLevel ∈ levelNames
  logFile : IsStripped s.logFile.toList
  workspaceFolders : ∀ folder ∈ s.workspaceFolders, IsFilled folder
  sourceExtensions : ∀ e ∈ s.sourceExtensions, IsExtension e
  sourceExtensions_ne_nil : s.sourceExtensions ≠ []
  excludePatterns : ∀ pattern ∈ s.excludePatterns, IsFilled pattern
  others : ∀ m ∈ s.others, m.1 ∉ knownNames

theorem isFilled_of_mem_levelNames : ∀ level ∈ levelNames, IsFilled level := by decide

section Fields

variable (mode : Mode) (given : List (String × Json))

/-- The settings and their problems, field by field. -/
theorem ofMembers_eq :
    ofMembers mode given =
      let manifestName := textField given "manifest_name" default.manifestName
      let testFileSuffix := textField given "test_file_suffix" default.testFileSuffix
      let level := textField given "log_level" default.logLevel
      let logFile := textField given "log_file" default.logFile
      let workspaceFolders := listField mode given "workspace_folders" default.workspaceFolders
      let extensions := listField mode given "source_extensions" default.sourceExtensions
      let excludePatterns := listField mode given "exclude_patterns" default.excludePatterns
      ({ version := memberOr given "version" default.version
         workspaceFolders := workspaceFolders.1
         manifestName := manifestName.1
         testFileSuffix := testFileSuffix.1
         sourceExtensions := (mendExtensions extensions.1).1
         excludePatterns := excludePatterns.1
         logLevel := (mendLevel level.1).1
         logFile := logFile.1
         others := given.filter fun m => !knownNames.contains m.1 },
        manifestName.2 ++ testFileSuffix.2 ++ level.2 ++ logFile.2 ++ workspaceFolders.2 ++
          extensions.2 ++ excludePatterns.2 ++ (mendExtensions extensions.1).2 ++
          (mendLevel level.1).2) := rfl

theorem isFilled_textField (name : String) {fallback : String} (h : IsFilled fallback) :
    IsFilled (textField given name fallback).1 :=
  (settles_mendText name h).good _

theorem isFilled_of_mem_listField (name : String) {fallback : List String}
    (h : ∀ s ∈ fallback, IsFilled s) : ∀ s ∈ (listField mode given name fallback).1, IsFilled s :=
  (settles_mendTextList mode name h).good _

theorem isChecked_ofMembers : (ofMembers mode given).1.IsChecked := by
  have hextensions := isExtension_mendExtensions (isFilled_of_mem_listField mode given
    "source_extensions" fun e he => (isExtension_default e he).isFilled)
  rw [ofMembers_eq]
  exact {
    manifestName := isFilled_textField given _ (by decide)
    testFileSuffix := isFilled_textField given _ (by decide)
    logLevel := isFilled_of_mem_levelNames _ (mendLevel_mem_levelNames _)
    logLevel_mem := mendLevel_mem_levelNames _
    logFile := (settles_mendText_empty "log_file").good _
    workspaceFolders := isFilled_of_mem_listField mode given _ (by decide)
    sourceExtensions := hextensions.2
    sourceExtensions_ne_nil := hextensions.1
    excludePatterns := isFilled_of_mem_listField mode given _ (by decide)
    others := by
      intro m hm
      simpa using (List.mem_filter.mp hm).2 }

end Fields

variable {s : Settings}

theorem textField_members {name text fallback : String} {Good : String → Prop}
    (hmember : Json.member? name s.toJson = some (.str text))
    (hsettles : Settles (mendText name fallback) .str Good) (h : Good text) :
    textField s.members name fallback = (text, []) := by
  have hgiven : memberOr s.members name (.str fallback) = .str text := by
    rw [memberOr, ← toJson, hmember]
    rfl
  rw [textField, hgiven]
  exact hsettles.keeps text h

theorem listField_members {name : String} {texts fallback : List String} (mode : Mode)
    (hmember : Json.member? name s.toJson = some (textList texts))
    (hfallback : ∀ t ∈ fallback, IsFilled t) (h : ∀ t ∈ texts, IsFilled t) :
    listField mode s.members name fallback = (texts, []) := by
  have hgiven : memberOr s.members name (textList fallback) = textList texts := by
    rw [memberOr, ← toJson, hmember]
    rfl
  rw [listField, hgiven]
  exact (settles_mendTextList mode name hfallback).keeps texts h

theorem filter_members (h : ∀ m ∈ s.others, m.1 ∉ knownNames) :
    (s.members.filter fun m => !knownNames.contains m.1) = s.others := by
  have hothers : (s.others.filter fun m => !knownNames.contains m.1) = s.others :=
    List.filter_eq_self.mpr fun m hm => by simpa using h m hm
  rw [members, List.filter_append, hothers]
  rfl

/-- Checked settings are found again in what is written of them. -/
theorem inspect_toJson (h : s.IsChecked) (mode : Mode) : inspect mode s.toJson = (s, []) := by
  have hmanifest : textField s.members "manifest_name" default.manifestName =
      (s.manifestName, []) :=
    textField_members rfl (settles_mendText _ (by decide)) h.manifestName
  have hsuffix : textField s.members "test_file_suffix" default.testFileSuffix =
      (s.testFileSuffix, []) :=
    textField_members rfl (settles_mendText _ (by decide)) h.testFileSuffix
  have hlevel : textField s.members "log_level" default.logLevel = (s.logLevel, []) :=
    textField_members rfl (settles_mendText _ (by decide)) h.logLevel
  have hlogFile : textField s.members "log_file" default.logFile = (s.logFile, []) :=
    textField_members rfl (settles_mendText_empty _) h.logFile
  have hfolders : listField mode s.members "workspace_folders" default.workspaceFolders =
      (s.workspaceFolders, []) :=
    listField_members mode rfl (by decide) h.workspaceFolders
  have hextensions : listField mode s.members "source_extensions" default.sourceExtensions =
      (s.sourceExtensions, []) :=
    listField_members mode rfl (by decide) fun e he => (h.sourceExtensions e he).isFilled
  have hpatterns : listField mode s.members "exclude_patterns" default.excludePatterns =
      (s.excludePatterns, []) :=
    listField_members mode rfl (by decide) h.excludePatterns
  rw [toJson, inspect, ofMembers_eq, hmanifest, hsuffix, hlevel, hlogFile, hfolders, hextensions,
    hpatterns]
  dsimp only
  rw [mendExtensions_of_isExtension h.sourceExtensions_ne_nil h.sourceExtensions,
    mendLevel_of_mem h.logLevel_mem, filter_members h.others]
  rfl

theorem isChecked_default : default.IsChecked where
  manifestName := by decide
  testFileSuffix := by decide
  logLevel := by decide
  logLevel_mem := by decide
  logFile := by decide
  workspaceFolders := by decide
  sourceExtensions := isExtension_default
  sourceExtensions_ne_nil := by decide
  excludePatterns := by decide
  others m hm := absurd hm List.not_mem_nil

/-- Whatever is given, validation ends at checked settings. -/
theorem isChecked_inspect (mode : Mode) (config : Json) : (inspect mode config).1.IsChecked := by
  cases config with
  | object given => exact isChecked_ofMembers mode given
  | _ => exact isChecked_default

/-- Written settings that are checked pass in both modes, with nothing to report. -/
theorem validate_toJson (h : s.IsChecked) (mode : Mode) :
    validate mode s.toJson = .ok (s, []) := by
  unfold validate
  rw [inspect_toJson h mode]
  cases mode <;> rfl

/-- Lenient validation turns every value into checked settings, which keep the version and the
further members of an object as they are and are the default ones for any other value; and both
modes accept these settings unchanged, with nothing to report. -/
theorem validate_lenient_settles (config : Json) :
    ∃ s problems, validate .lenient config = .ok (s, problems) ∧ s.IsChecked ∧
      (match config with
        | .object given =>
          s.version = memberOr given "version" (.str currentVersion) ∧
            s.others = given.filter fun m => !knownNames.contains m.1
        | _ => s = default) ∧
      ∀ mode, validate mode s.toJson = .ok (s, []) := by
  have hchecked := isChecked_inspect .lenient config
  refine ⟨_, _, validate_lenient config, hchecked, ?_, validate_toJson hchecked⟩
  cases config with
  | object given => exact ⟨rfl, rfl⟩
  | _ => rfl

end TestAtlas.Settings
