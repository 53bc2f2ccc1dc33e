import TestAtlas.Proofs.Outline.LineForm

/-!
# The patterns of declarations

Methods, functions and types are declared on lines that start as one of three patterns says.  Each
element of these patterns describes the parts of one form, wherever they stand, so a pattern
describes the start of a line exactly if the line has the form that the elements make up one by one
(`opens_cons_iff`).
-/

namespace TestAtlas.Outline

open Text Expression Pattern

/-- The pattern for lines that declare a method. -/
def methodPattern : String :=
  r"^[ \t]*func\s+\(\s*(?:\w+\s+)?(?P<ptr>\*?)\s*(?P<recv>\w+)(?:\[[^\]]*\])?\s*\)\s*(?P<name>\w+)\s*\((?P<params>[^)]*)\)"

/-- The pattern for lines that declare a function. -/
def functionPattern : String :=
  r"^[ \t]*func\s+(?P<name>\w+)\s*(?:\[[^\]]*\])?\s*\((?P<params>[^)]*)\)"

/-- The pattern for lines that declare a type. -/
def typePattern : String :=
  r"^[ \t]*type\s+(?P<name>\w+)(?:\[[^\]]*\])?\s+(?P<kind>struct|interface)\b"

/-! ## Elements -/

/-- Any number of characters of a set. -/
def anyOf (s : CharSet) : Element := .repeated (.times (.one s) 0 none)

/-- One character of a set or more. -/
def someOf (s : CharSet) : Element := .repeated (.times (.one s) 1 none)

/-- Some elements or nothing. -/
def optional (es : List Element) : Element := .repeated (.times (Expression.sequence es) 0 (some 1))

/-- Blanks and tabulations. -/
def indentSet : CharSet := ⟨false, [.char ' ', .char '\t']⟩

/-- White space. -/
def blankSet : CharSet := ⟨false, [.inClass .blank]⟩

/-- Word characters. -/
def wordSet : CharSet := ⟨false, [.inClass .word]⟩

/-- All characters but one. -/
def butSet (c : Char) : CharSet := ⟨true, [.char c]⟩

/-- A word that is taken from the line. -/
def nameElement : Element := .closed (Expression.sequence [someOf wordSet])

/-- The star of a pointer, or none. -/
def starElement : Element :=
  .closed (Expression.sequence [.repeated (.times (.one (.single '*')) 0 (some 1))])

/-- Brackets, or none. -/
def bracketsElement : Element :=
  optional (literal ['['] ++ (anyOf (butSet ']') :: literal [']']))

/-- A variable and white space, or neither. -/
def variableElement : Element := optional [someOf wordSet, someOf blankSet]

/-- Parentheses and the parameters between them. -/
def parametersElements : List Element :=
  literal ['('] ++ (.closed (Expression.sequence [anyOf (butSet ')')]) :: literal [')'])

/-- The keyword of either kind of types. -/
def kindElement : Element :=
  .closed (.either (Expression.sequence (literal structWord))
    (Expression.sequence (literal interfaceWord)))

theorem ofText_functionPattern :
    ofText functionPattern = .ok ⟨false, Expression.sequence (.anchor .textStart ::
      anyOf indentSet :: (literal funcWord ++ (someOf blankSet :: nameElement :: anyOf blankSet ::
        bracketsElement :: anyOf blankSet :: parametersElements)))⟩ := by
  with_unfolding_all rfl

set_option maxRecDepth 4000 in
theorem ofText_methodPattern :
    ofText methodPattern = .ok ⟨false, Expression.sequence (.anchor .textStart ::
      anyOf indentSet :: (literal funcWord ++ (someOf blankSet :: (literal ['('] ++
        (anyOf blankSet :: variableElement :: starElement :: anyOf blankSet :: nameElement ::
          bracketsElement :: anyOf blankSet :: (literal [')'] ++ (anyOf blankSet :: nameElement ::
            anyOf blankSet :: parametersElements)))))))⟩ := by
  with_unfolding_all rfl

theorem ofText_typePattern :
    ofText typePattern = .ok ⟨false, Expression.sequence (.anchor .textStart ::
      anyOf indentSet :: (literal typeWord ++ (someOf blankSet :: nameElement ::
        bracketsElement :: someOf blankSet :: [kindElement, .anchor .wordEdge])))⟩ := by
  with_unfolding_all rfl

section Elements

variable {before part after rest : List Char}

theorem holds_indentSet (c : Char) : indentSet.holds false c = (c == ' ' || c == '\t') := by
  simp [CharSet.holds, CharSet.isListed, SetItem.holds, indentSet]

theorem holds_blankSet (c : Char) : blankSet.holds false c = isBlank c := by
  simp [CharSet.holds, CharSet.isListed, SetItem.holds, CharClass.holds, blankSet]

theorem holds_butSet (c d : Char) : (butSet d).holds false c = (c != d) := by
  simp [CharSet.holds, CharSet.isListed, SetItem.holds, butSet, bne]

theorem describes_indent_iff :
    (anyOf indentSet).pattern.Describes false before part after ↔ IsIndent part := by
  simp [anyOf, Element.pattern, describes_times_one_iff, holds_indentSet, IsIndent]

theorem describes_space_iff :
    (anyOf blankSet).pattern.Describes false before part after ↔ IsSpace part := by
  simp [anyOf, Element.pattern, describes_times_one_iff, holds_blankSet, IsSpace]

theorem describes_gap_iff :
    (someOf blankSet).pattern.Describes false before part after ↔ IsGap part := by
  simp [someOf, Element.pattern, describes_times_one_iff, holds_blankSet, IsSpace, IsGap,
    Nat.one_le_iff_ne_zero]

theorem describes_word_iff :
    (someOf wordSet).pattern.Describes false before part after ↔ IsWord part := by
  simp [someOf, Element.pattern, describes_times_one_iff, Leaf.holds_wordCharacter, IsWord, wordSet,
    Nat.one_le_iff_ne_zero]

theorem describes_but_iff (c : Char) :
    (anyOf (butSet c)).pattern.Describes false before part after ↔ c ∉ part := by
  simp only [anyOf, Element.pattern, describes_times_one_iff, holds_butSet, Nat.zero_le, true_and,
    bne_iff_ne]
  exact ⟨fun h hmem => h c hmem rfl, fun h d hd heq => h (heq ▸ hd)⟩

/-- What may be there is there or not. -/
theorem describes_times_optional_iff {p : Pattern} :
    (times p 0 (some 1)).Describes false before part after ↔
      part = [] ∨ p.Describes false before part after := by
  rw [describes_times_iff]
  constructor
  · rintro ⟨n, -, hmost, hrow⟩
    have hn : n ≤ 1 := hmost 1 rfl
    obtain rfl | rfl : n = 0 ∨ n = 1 := by omega
    · exact .inl (describesRow_zero_iff.mp hrow)
    · obtain ⟨first, second, rfl, h, hnil⟩ := describesRow_succ_iff.mp hrow
      obtain rfl := describesRow_zero_iff.mp hnil
      exact .inr (by simpa using h)
  · rintro (rfl | h)
    · exact ⟨0, Nat.le_refl _, by simp, describesRow_zero_iff.mpr rfl⟩
    · exact ⟨1, Nat.zero_le _, by simp, describesRow_succ_iff.mpr
        ⟨part, [], by simp, by simpa using h, describesRow_zero_iff.mpr rfl⟩⟩

theorem describes_name_iff :
    nameElement.pattern.Describes false before part after ↔ IsWord part :=
  describes_word_iff

theorem describes_star_iff :
    starElement.pattern.Describes false before part after ↔ ∃ pointer, IsStar pointer part := by
  have h : starElement.pattern.Describes false before part after ↔
      part = [] ∨ ∃ c, part = [c] ∧ (c == '*') = true := by
    change (times _ 0 (some 1)).Describes false before part after ↔ _
    simp only [describes_times_optional_iff, describes_one_iff, CharSet.holds_single]
  rw [h]
  simp only [IsStar, Bool.exists_bool, Bool.false_eq_true, if_false, if_true, beq_iff_eq,
    exists_eq_right]

theorem describes_brackets_iff :
    bracketsElement.pattern.Describes false before part after ↔ IsBrackets part := by
  refine describes_times_optional_iff.trans (or_congr_right ?_)
  simp only [describes_sequence_append_iff, describes_sequence_cons_iff, describes_literal_iff,
    describes_but_iff]
  constructor
  · rintro ⟨_, _, rfl, rfl, inner, _, rfl, hinner, rfl⟩
    exact ⟨inner, rfl, hinner⟩
  · rintro ⟨inner, rfl, hinner⟩
    exact ⟨['['], inner ++ [']'], rfl, rfl, inner, [']'], rfl, hinner, rfl⟩

theorem describes_variable_iff :
    variableElement.pattern.Describes false before part after ↔ IsVariable part := by
  refine describes_times_optional_iff.trans (or_congr_right ?_)
  simp only [describes_sequence_cons_iff, describes_word_iff, describes_gap_iff]
  constructor
  · rintro ⟨name, _, rfl, hname, gap, _, rfl, hgap, hnil⟩
    obtain rfl := describes_empty_iff.mp hnil
    exact ⟨name, gap, by simp, hname, hgap⟩
  · rintro ⟨name, gap, rfl, hname, hgap⟩
    exact ⟨name, gap, rfl, hname, gap, [], by simp, hgap, describes_empty_iff.mpr rfl⟩

theorem describes_kind_iff :
    kindElement.pattern.Describes false before part after ↔
      ∃ isStruct, part = kindWord isStruct := by
  refine describes_either_iff.trans ?_
  simp only [describes_literal_iff, Bool.exists_bool, kindWord, if_true, Bool.false_eq_true,
    if_false]
  exact or_comm

end Elements

/-! ## Lines -/

section Lines

variable {before rest : List Char} {es : List Element} {next : List Char → Prop}

/-- An element of a form in front of elements that stand for what follows. -/
theorem opens_cons_iff {e : Element} {form : List Char → Prop}
    (he : ∀ {before part after}, e.pattern.Describes false before part after ↔ form part)
    (hes : ∀ {before rest}, (Expression.sequence es).Opens false before rest ↔ next rest) :
    (Expression.sequence (e :: es)).Opens false before rest ↔ Starts form next rest := by
  simp only [opens_sequence_cons_iff, he, hes, Starts]

/-- A word in front of elements that stand for what follows. -/
theorem opens_word_iff {word : List Char}
    (hes : ∀ {before rest}, (Expression.sequence es).Opens false before rest ↔ next rest) :
    (Expression.sequence (literal word ++ es)).Opens false before rest ↔
      Starts (· = word) next rest := by
  simp only [opens_sequence_append_iff, describes_literal_iff, hes, Starts]

/-- What is taken from a part behind the first is taken from what follows the first. -/
theorem exists_starts_next {α : Type} {form : List Char → Prop} {next : α → List Char → Prop} :
    (∃ x, Starts form (next x) rest) ↔ Starts form (fun after => ∃ x, next x after) rest := by
  constructor
  · rintro ⟨x, part, after, heq, hpart, hafter⟩
    exact ⟨part, after, heq, hpart, x, hafter⟩
  · rintro ⟨part, after, heq, hpart, x, hafter⟩
    exact ⟨x, part, after, heq, hpart, hafter⟩

/-- What is taken from the first part does not matter for what follows. -/
theorem exists_starts_form {α : Type} {form : α → List Char → Prop} :
    (∃ x, Starts (form x) next rest) ↔ Starts (fun part => ∃ x, form x part) next rest := by
  constructor
  · rintro ⟨x, part, after, heq, hpart, hafter⟩
    exact ⟨part, after, heq, ⟨x, hpart⟩, hafter⟩
  · rintro ⟨part, after, heq, ⟨x, hpart⟩, hafter⟩
    exact ⟨x, part, after, heq, hpart, hafter⟩

theorem exists_isName {part : List Char} : (∃ name, IsName name part) ↔ IsWord part := by
  simp [IsName]

theorem exists_isParameters {part : List Char} :
    (∃ parameters, IsParameters parameters part) ↔ ')' ∉ part := by
  simp [IsParameters]

/-- Parentheses and parameters between them. -/
theorem opens_parameters_iff :
    (Expression.sequence parametersElements).Opens false before rest ↔
      ∃ parameters, HasParameters parameters rest := by
  have hclosing : ∀ {before rest}, (Expression.sequence (literal [')'])).Opens false before rest ↔
      Starts (· = [')']) (fun _ => True) rest := by
    simp only [Opens, describes_literal_iff, Starts, and_true, implies_true]
  simp only [HasParameters, exists_starts_next, exists_starts_form, exists_isParameters]
  exact opens_word_iff (opens_cons_iff (describes_but_iff ')') hclosing)

/-- A line declares a function exactly if the pattern for functions describes what it starts
with. -/
theorem describesStart_functionPattern_iff {line : List Char} :
    DescribesStart functionPattern (String.ofList line) ↔
      ∃ name parameters, Declares line (.function name parameters) := by
  rw [describesStart_iff ofText_functionPattern, String.toList_ofList, opens_textStart_cons_iff]
  simp only [Declares, HasFunctionForm, exists_starts_next, exists_starts_form, exists_isName]
  exact opens_cons_iff describes_indent_iff <| opens_word_iff <|
    opens_cons_iff describes_gap_iff <| opens_cons_iff describes_name_iff <|
    opens_cons_iff describes_space_iff <| opens_cons_iff describes_brackets_iff <|
    opens_cons_iff describes_space_iff opens_parameters_iff

/-- A line declares a method exactly if the pattern for methods describes what it starts with. -/
theorem describesStart_methodPattern_iff {line : List Char} :
    DescribesStart methodPattern (String.ofList line) ↔
      ∃ pointer receiver name parameters,
        Declares line (.method pointer receiver name parameters) := by
  rw [describesStart_iff ofText_methodPattern, String.toList_ofList, opens_textStart_cons_iff]
  simp only [Declares, HasMethodForm, HasReceiver, exists_starts_next, exists_starts_form,
    exists_isName]
  exact opens_cons_iff describes_indent_iff <| opens_word_iff <|
    opens_cons_iff describes_gap_iff <| opens_word_iff <|
    opens_cons_iff describes_space_iff <| opens_cons_iff describes_variable_iff <|
    opens_cons_iff describes_star_iff <| opens_cons_iff describes_space_iff <|
    opens_cons_iff describes_name_iff <| opens_cons_iff describes_brackets_iff <|
    opens_cons_iff describes_space_iff <| opens_word_iff <|
    opens_cons_iff describes_space_iff <| opens_cons_iff describes_name_iff <|
    opens_cons_iff describes_space_iff opens_parameters_iff

/-- Behind a word character the end of the word is told by what follows. -/
theorem opens_wordEdge_iff {c : Char} (hc : isWord c = true) :
    (Expression.sequence [.anchor .wordEdge]).Opens false (before ++ [c]) rest ↔
      AtWordEnd rest := by
  have hbefore : wordAt (charBefore? (before ++ [c] ++ rest).toArray (before ++ [c]).length) =
      true := by
    simp [wordAt, charBefore?, hc]
  have hafter : wordAt (before ++ [c] ++ rest).toArray[(before ++ [c]).length]? = false ↔
      AtWordEnd rest := by
    cases rest <;> simp [wordAt, AtWordEnd]
  have hedge : (Expression.sequence [.anchor .wordEdge]).Opens false (before ++ [c]) rest ↔
      Anchor.holds (before ++ [c] ++ rest).toArray (before ++ [c]).length .wordEdge = true := by
    constructor
    · rintro ⟨part, after, rfl, h⟩
      obtain ⟨rfl, hholds⟩ := describes_at_iff.mp h
      exact hholds
    · exact fun hholds => ⟨[], rest, rfl, describes_at_iff.mpr ⟨rfl, hholds⟩⟩
  rw [hedge, Anchor.holds, hbefore, bne_iff_ne, ne_comm, ne_eq, Bool.not_eq_true, hafter]

/-- The keyword of a kind of types, as a whole word. -/
theorem opens_kind_iff :
    (Expression.sequence [kindElement, .anchor .wordEdge]).Opens false before rest ↔
      ∃ isStruct, Starts (· = kindWord isStruct) AtWordEnd rest := by
  have hlast : ∀ isStruct, ∃ word c, kindWord isStruct = word ++ [c] ∧ isWord c = true := by
    intro isStruct
    cases isStruct with
    | true => exact ⟨['s', 't', 'r', 'u', 'c'], 't', rfl, by decide⟩
    | false => exact ⟨['i', 'n', 't', 'e', 'r', 'f', 'a', 'c'], 'e', rfl, by decide⟩
  have hedge : ∀ isStruct {before rest}, (Expression.sequence [.anchor .wordEdge]).Opens false
      (before ++ kindWord isStruct) rest ↔ AtWordEnd rest := by
    intro isStruct before rest
    obtain ⟨word, c, hword, hc⟩ := hlast isStruct
    rw [hword, ← List.append_assoc, opens_wordEdge_iff hc]
  rw [opens_sequence_cons_iff]
  constructor
  · rintro ⟨part, after, rfl, hpart, hafter⟩
    obtain ⟨isStruct, rfl⟩ := describes_kind_iff.mp hpart
    exact ⟨isStruct, _, after, rfl, rfl, (hedge isStruct).mp hafter⟩
  · rintro ⟨isStruct, _, after, rfl, rfl, hafter⟩
    exact ⟨_, after, rfl, describes_kind_iff.mpr ⟨isStruct, rfl⟩, (hedge isStruct).mpr hafter⟩

/-- A line declares a type exactly if the pattern for types describes what it starts with. -/
theorem describesStart_typePattern_iff {line : List Char} :
    DescribesStart typePattern (String.ofList line) ↔
      ∃ name isStruct, Declares line (.type name isStruct) := by
  rw [describesStart_iff ofText_typePattern, String.toList_ofList, opens_textStart_cons_iff]
  simp only [Declares, HasTypeForm, exists_starts_next, exists_starts_form, exists_isName]
  exact opens_cons_iff describes_indent_iff <| opens_word_iff <|
    opens_cons_iff describes_gap_iff <| opens_cons_iff describes_name_iff <|
    opens_cons_iff describes_brackets_iff <| opens_cons_iff describes_gap_iff <|
    opens_kind_iff.trans exists_starts_form

end Lines

end TestAtlas.Outline
