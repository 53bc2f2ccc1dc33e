import TestAtlas.Outline.Leaf
import TestAtlas.Proofs.Pattern.Matching

/-!
# The names of tests as patterns

Which functions and methods count is a matter of their names, and each of the three conditions on a
name is written as a pattern.  The conditions of the model are what these patterns describe.
-/

namespace TestAtlas

open Text Outline Expression Pattern

namespace Outline

theorem after?_eq_some_iff {word cs rest : List Char} :
    after? word cs = some rest ↔ cs = word ++ rest := by
  unfold after?
  constructor
  · intro h
    split at h
    · rename_i hstart
      obtain ⟨tail, rfl⟩ := List.isPrefixOf_iff_prefix.mp hstart
      rw [← Option.some.inj h, List.drop_left]
    · exact absurd h (by simp)
  · rintro rfl
    simp

theorem spanTo?_eq_some_iff {close : Char} {cs before after : List Char} :
    spanTo? close cs = some (before, after) ↔ cs = before ++ close :: after ∧ close ∉ before := by
  constructor
  · intro h
    have heq := cutFirst_eq close cs
    have hnot := not_mem_cutFirst close cs
    unfold spanTo? at h
    split at h
    · rename_i hcut
      rw [hcut] at heq hnot
      cases h
      exact ⟨by simpa using heq, hnot⟩
    · cases h
  · rintro ⟨rfl, hnot⟩
    rw [spanTo?, cutFirst_append hnot]

end Outline

namespace Leaf

/-- The pattern for the names of functions that count. -/
def functionText : String := r"^(?P<type>Test|Benchmark|Example)[A-Z]\w*$"

/-- The pattern for the names of methods that have their receiver with them. -/
def methodText : String := r"^\((?P<receiver>[^)]+)\)\.(?P<name>Test[A-Z]\w*)$"

/-- The pattern for the names of methods inside their receiver. -/
def suiteNameText : String := r"^Test[A-Z]\w*$"

/-- The elements for a capital and the word characters behind it. -/
def capitalized : List Element :=
  [.chars ⟨false, [.range 'A' 'Z']⟩, .repeated (.times (.one ⟨false, [.inClass .word]⟩) 0 none)]

theorem ofText_functionText :
    ofText functionText = .ok ⟨false, Expression.sequence (.anchor .textStart ::
      .closed (eitherOf ([testWord, benchmarkWord, exampleWord].map fun word =>
        Expression.sequence (literal word))) :: (capitalized ++ [.anchor .lineEnd]))⟩ := by
  with_unfolding_all rfl

theorem ofText_methodText :
    ofText methodText = .ok ⟨false, Expression.sequence (.anchor .textStart :: (literal ['('] ++
      .closed (.times (.one ⟨true, [.char ')']⟩) 1 none) :: (literal [')', '.'] ++
        [.closed (Expression.sequence (literal testWord ++ capitalized)), .anchor .lineEnd])))⟩ := by
  with_unfolding_all rfl

theorem ofText_suiteNameText :
    ofText suiteNameText = .ok ⟨false, Expression.sequence (.anchor .textStart ::
      (literal testWord ++ (capitalized ++ [.anchor .lineEnd])))⟩ := by
  with_unfolding_all rfl

/-- A capital, word characters, and nothing or a line feed behind them. -/
theorem isCapitalized_iff {cs : List Char} :
    isCapitalized cs = true ↔
      ∃ c word rest, cs = c :: (word ++ rest) ∧ isCapital c = true ∧
        (∀ d ∈ word, isWord d = true) ∧ (rest = [] ∨ rest = ['\n']) := by
  cases cs with
  | nil => simp [isCapitalized]
  | cons c cs =>
    constructor
    · intro h
      rw [isCapitalized, Bool.and_eq_true] at h
      refine ⟨c, cs.takeWhile isWord, cs.dropWhile isWord, by simp, h.1,
        List.all_eq_true.mp List.all_takeWhile, ?_⟩
      have hrest := h.2
      split at hrest
      · exact .inl ‹_›
      · exact .inr (by simpa using hrest)
    · rintro ⟨_, word, rest, heq, hc, hword, hrest⟩
      obtain ⟨rfl, rfl⟩ := List.cons.inj heq
      have hdrop : (word ++ rest).dropWhile isWord = rest := by
        rw [List.dropWhile_append_of_pos hword]
        rcases hrest with rfl | rfl <;> decide
      rw [isCapitalized, Bool.and_eq_true, hdrop]
      rcases hrest with rfl | rfl <;> exact ⟨hc, rfl⟩

theorem hasForm_iff {word cs : List Char} :
    hasForm word cs = true ↔ ∃ rest, cs = word ++ rest ∧ isCapitalized rest = true := by
  simp only [← after?_eq_some_iff]
  unfold hasForm
  cases after? word cs <;> simp

theorem holds_capital (c : Char) :
    CharSet.holds false ⟨false, [.range 'A' 'Z']⟩ c = isCapital c := by
  simp [CharSet.holds, CharSet.isListed, SetItem.holds, isCapital]

theorem holds_wordCharacter (c : Char) :
    CharSet.holds false ⟨false, [.inClass .word]⟩ c = isWord c := by
  simp [CharSet.holds, CharSet.isListed, SetItem.holds, CharClass.holds]

theorem holds_notClosing (c : Char) :
    CharSet.holds false ⟨true, [.char ')']⟩ c = (c != ')') := by
  simp [CharSet.holds, CharSet.isListed, SetItem.holds, bne]

theorem describes_capitalized_iff {before part after : List Char} :
    (Expression.sequence capitalized).Describes false before part after ↔
      ∃ c word, part = c :: word ∧ isCapital c = true ∧ ∀ d ∈ word, isWord d = true := by
  simp only [capitalized, describes_sequence_cons_iff, Element.pattern, describes_one_iff,
    describes_times_one_iff, holds_capital, holds_wordCharacter]
  constructor
  · rintro ⟨_, _, rfl, ⟨c, rfl, hc⟩, word, _, rfl, ⟨-, hword⟩, hnil⟩
    obtain rfl := describes_empty_iff.mp hnil
    exact ⟨c, word, by simp, hc, hword⟩
  · rintro ⟨c, word, rfl, hc, hword⟩
    exact ⟨[c], word, rfl, ⟨c, rfl, hc⟩, word, [], by simp, ⟨Nat.zero_le _, hword⟩,
      describes_empty_iff.mpr rfl⟩

/-- A capitalized text to the end of the name. -/
theorem opens_capitalized_iff {before rest : List Char} :
    (Expression.sequence (capitalized ++ [.anchor .lineEnd])).Opens false before rest ↔
      isCapitalized rest = true := by
  rw [opens_sequence_append_iff, isCapitalized_iff]
  simp only [describes_capitalized_iff, opens_lineEnd_iff]
  constructor
  · rintro ⟨_, second, rfl, ⟨c, word, rfl, hc, hword⟩, h⟩
    exact ⟨c, word, second, rfl, hc, hword, h⟩
  · rintro ⟨c, word, second, rfl, hc, hword, h⟩
    exact ⟨c :: word, second, rfl, ⟨c, word, rfl, hc, hword⟩, h⟩

/-- A word and a capitalized text to the end of the name. -/
theorem opens_form_iff {word before rest : List Char} :
    (Expression.sequence (literal word ++ (capitalized ++ [.anchor .lineEnd]))).Opens false before
      rest ↔ hasForm word rest = true := by
  rw [opens_literal_append_iff, hasForm_iff]
  simp only [opens_capitalized_iff]

theorem describesStart_suiteNameText_iff {name : String} :
    DescribesStart suiteNameText name ↔ hasForm testWord name.toList = true := by
  rw [describesStart_iff ofText_suiteNameText, opens_textStart_cons_iff, opens_form_iff]

/-- The words that the names of functions start with, and the kinds they stand for. -/
def functionWords : List (List Char × Kind) :=
  [(testWord, .test), (benchmarkWord, .benchmark), (exampleWord, .example)]

theorem describesStart_functionText_iff {name : String} :
    DescribesStart functionText name ↔
      ∃ w ∈ functionWords, hasForm w.1 name.toList = true := by
  rw [describesStart_iff ofText_functionText, opens_textStart_cons_iff, opens_sequence_cons_iff]
  simp only [opens_capitalized_iff, Element.pattern, List.map_cons, List.map_nil, eitherOf,
    describes_either_iff, describes_literal_iff, functionWords, List.mem_cons, List.not_mem_nil,
    or_false, exists_eq_or_imp, exists_eq_left, hasForm_iff]
  constructor
  · rintro ⟨_, rest, hname, rfl | rfl | rfl, h⟩
    · exact .inl ⟨rest, hname, h⟩
    · exact .inr (.inl ⟨rest, hname, h⟩)
    · exact .inr (.inr ⟨rest, hname, h⟩)
  · rintro (⟨rest, hname, h⟩ | ⟨rest, hname, h⟩ | ⟨rest, hname, h⟩)
    · exact ⟨_, rest, hname, .inl rfl, h⟩
    · exact ⟨_, rest, hname, .inr (.inl rfl), h⟩
    · exact ⟨_, rest, hname, .inr (.inr rfl), h⟩

/-- No two of the words have the same first letter, so a name starts with one of them at most. -/
theorem functionWord_unique {v w : List Char × Kind} {cs : List Char} (hv : v ∈ functionWords)
    (hw : w ∈ functionWords) (hvs : v.1 <+: cs) (hws : w.1 <+: cs) : v = w := by
  have hne : ∀ w ∈ functionWords, w.1 ≠ [] := by decide
  have hfirst : ∀ v ∈ functionWords, ∀ w ∈ functionWords, v.1.head? = w.1.head? → v = w := by
    decide
  have hhead : ∀ w ∈ functionWords, w.1 <+: cs → w.1.head? = cs.head? := by
    rintro w hw ⟨rest, rfl⟩
    obtain ⟨c, word, hcons⟩ := List.exists_cons_of_ne_nil (hne w hw)
    simp [hcons]
  exact hfirst v hv w hw ((hhead v hv hvs).trans (hhead w hw hws).symm)

theorem starts_of_hasForm {word cs : List Char} (h : hasForm word cs = true) : word <+: cs := by
  obtain ⟨rest, rfl, -⟩ := hasForm_iff.mp h
  exact List.prefix_append word rest

theorem kindOfFunction?_eq (name : String) :
    kindOfFunction? name =
      (functionWords.find? fun w => hasForm w.1 name.toList).map Prod.snd := by
  simp only [kindOfFunction?, functionWords, List.find?_cons, List.find?_nil]
  cases hasForm testWord name.toList <;> cases hasForm benchmarkWord name.toList <;>
    cases hasForm exampleWord name.toList <;> rfl

/-- The kind of a function is told by the word its name starts with. -/
theorem kindOfFunction?_eq_some_iff {name : String} {kind : Kind} :
    kindOfFunction? name = some kind ↔
      DescribesStart functionText name ∧
        ∃ word, (word, kind) ∈ functionWords ∧ word <+: name.toList := by
  rw [kindOfFunction?_eq, Option.map_eq_some_iff, describesStart_functionText_iff]
  constructor
  · rintro ⟨w, hfind, rfl⟩
    have hw := List.mem_of_find?_eq_some hfind
    have hform := List.find?_some hfind
    exact ⟨⟨w, hw, hform⟩, w.1, hw, starts_of_hasForm hform⟩
  · rintro ⟨⟨v, hv, hform⟩, word, hword, hstart⟩
    have hsome : (functionWords.find? fun w => hasForm w.1 name.toList).isSome :=
      List.find?_isSome.mpr ⟨v, hv, hform⟩
    obtain ⟨w, hfind⟩ := Option.isSome_iff_exists.mp hsome
    have hw : hasForm w.1 name.toList = true := by simpa using List.find?_some hfind
    refine ⟨w, hfind, ?_⟩
    rw [functionWord_unique (List.mem_of_find?_eq_some hfind) hword (starts_of_hasForm hw) hstart]

/-- A receiver in parentheses, a dot and the name of a test. -/
theorem isSuiteMethod_iff {name : String} :
    isSuiteMethod name = true ↔
      ∃ receiver method, name.toList = '(' :: (receiver ++ ')' :: '.' :: method) ∧
        receiver ≠ [] ∧ ')' ∉ receiver ∧ hasForm testWord method = true := by
  unfold isSuiteMethod
  constructor
  · intro h
    split at h
    · rename_i cs hcs
      split at h
      · rename_i c before method hspan
        obtain ⟨rfl, hnot⟩ := spanTo?_eq_some_iff.mp hspan
        exact ⟨c :: before, method, hcs, by simp, hnot, h⟩
      · exact absurd h (by simp)
    · exact absurd h (by simp)
  · rintro ⟨receiver, method, hname, hne, hnot, h⟩
    obtain ⟨c, before, rfl⟩ := List.exists_cons_of_ne_nil hne
    have hspan : spanTo? ')' (c :: before ++ ')' :: '.' :: method) =
        some (c :: before, '.' :: method) := spanTo?_eq_some_iff.mpr ⟨rfl, hnot⟩
    rw [hname]
    simp only [hspan, h]

theorem describesStart_methodText_iff {name : String} :
    DescribesStart methodText name ↔ isSuiteMethod name = true := by
  rw [describesStart_iff ofText_methodText, opens_textStart_cons_iff, opens_literal_append_iff,
    isSuiteMethod_iff]
  constructor
  · rintro ⟨rest, hname, hrest⟩
    obtain ⟨receiver, second, rfl, hreceiver, hsecond⟩ := opens_sequence_cons_iff.mp hrest
    obtain ⟨method, rfl, hmethod⟩ := opens_literal_append_iff.mp hsecond
    obtain ⟨hlength, hnot⟩ := describes_times_one_iff.mp hreceiver
    rw [opens_group_cons_iff, List.append_assoc, opens_form_iff] at hmethod
    refine ⟨receiver, method, hname, List.ne_nil_of_length_pos hlength, ?_, hmethod⟩
    intro hmem
    simpa [holds_notClosing] using hnot _ hmem
  · rintro ⟨receiver, method, hname, hne, hnot, h⟩
    refine ⟨receiver ++ ')' :: '.' :: method, hname, opens_sequence_cons_iff.mpr
      ⟨receiver, ')' :: '.' :: method, rfl, describes_times_one_iff.mpr
        ⟨List.length_pos_iff.mpr hne, ?_⟩, opens_literal_append_iff.mpr ⟨method, rfl, ?_⟩⟩⟩
    · intro c hc
      have hne : c ≠ ')' := fun heq => hnot (heq ▸ hc)
      simpa [holds_notClosing] using hne
    · rw [opens_group_cons_iff, List.append_assoc, opens_form_iff]
      exact h

end Leaf

end TestAtlas
