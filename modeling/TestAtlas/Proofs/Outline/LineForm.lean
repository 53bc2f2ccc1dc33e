import TestAtlas.Proofs.Outline.Names

/-!
# The forms of declarations

A line declares a method, a function or a type if it starts with certain parts in a row, some of
which are taken from it as names and parameters.  Next to each other the parts are told apart by
their first characters, so a line is read from left to right without going back; only whether the
first word of a receiver is a variable shows by what follows it.  A line is read in one way at most
(`ofLine?_eq_some_iff`).
-/

namespace TestAtlas.Outline

open Text Expression Pattern

/-! ## Parts of a line -/

/-- The text starts with a part of the given form, and what follows the part is as said. -/
def Starts (form next : List Char → Prop) (text : List Char) : Prop :=
  ∃ part rest, text = part ++ rest ∧ form part ∧ next rest

/-- Blanks and tabulations. -/
def IsIndent (part : List Char) : Prop := ∀ c ∈ part, (c == ' ' || c == '\t') = true

/-- White space, or nothing. -/
def IsSpace (part : List Char) : Prop := ∀ c ∈ part, isBlank c = true

/-- White space. -/
def IsGap (part : List Char) : Prop := part ≠ [] ∧ IsSpace part

/-- Word characters. -/
def IsWord (part : List Char) : Prop := part ≠ [] ∧ ∀ c ∈ part, isWord c = true

/-- The given name, made of word characters. -/
def IsName (name part : List Char) : Prop := part = name ∧ IsWord part

/-- Type parameters in brackets, or nothing. -/
def IsBrackets (part : List Char) : Prop :=
  part = [] ∨ ∃ inner, part = '[' :: (inner ++ [']']) ∧ ']' ∉ inner

/-- The name of a variable and white space behind it, or nothing. -/
def IsVariable (part : List Char) : Prop :=
  part = [] ∨ ∃ name gap, part = name ++ gap ∧ IsWord name ∧ IsGap gap

/-- The star of a pointer. -/
def IsStar (pointer : Bool) (part : List Char) : Prop := part = if pointer then ['*'] else []

/-- The given parameters, which a closing parenthesis ends. -/
def IsParameters (parameters part : List Char) : Prop := part = parameters ∧ ')' ∉ part

/-- Parameters in parentheses. -/
def HasParameters (parameters : List Char) : List Char → Prop :=
  Starts (· = ['(']) <| Starts (IsParameters parameters) <| Starts (· = [')']) fun _ => True

/-- A receiver in parentheses and what follows it. -/
def HasReceiver (pointer : Bool) (receiver : List Char) (next : List Char → Prop) :
    List Char → Prop :=
  Starts (· = ['(']) <| Starts IsSpace <| Starts IsVariable <| Starts (IsStar pointer) <|
    Starts IsSpace <| Starts (IsName receiver) <| Starts IsBrackets <| Starts IsSpace <|
      Starts (· = [')']) next

/-- The form of a method, with what it declares. -/
def HasMethodForm (pointer : Bool) (receiver name parameters : List Char) : List Char → Prop :=
  Starts IsIndent <| Starts (· = funcWord) <| Starts IsGap <| HasReceiver pointer receiver <|
    Starts IsSpace <| Starts (IsName name) <| Starts IsSpace <| HasParameters parameters

/-- The form of a function, with what it declares. -/
def HasFunctionForm (name parameters : List Char) : List Char → Prop :=
  Starts IsIndent <| Starts (· = funcWord) <| Starts IsGap <| Starts (IsName name) <|
    Starts IsSpace <| Starts IsBrackets <| Starts IsSpace <| HasParameters parameters

/-- The keyword of a kind of types. -/
def kindWord (isStruct : Bool) : List Char := if isStruct then structWord else interfaceWord

/-- No word character comes first. -/
def AtWordEnd (rest : List Char) : Prop := ∀ c, rest.head? = some c → isWord c = false

/-- The form of a type, with what it declares. -/
def HasTypeForm (name : List Char) (isStruct : Bool) : List Char → Prop :=
  Starts IsIndent <| Starts (· = typeWord) <| Starts IsGap <| Starts (IsName name) <|
    Starts IsBrackets <| Starts IsGap <| Starts (· = kindWord isStruct) AtWordEnd

/-- The line has the form of the declaration. -/
def Declares (line : List Char) : Declaration → Prop
  | .method pointer receiver name parameters => HasMethodForm pointer receiver name parameters line
  | .function name parameters => HasFunctionForm name parameters line
  | .type name isStruct => HasTypeForm name isStruct line

/-! ## Reading a part -/

section Reading

variable {next : List Char → Prop}

/-- As many characters of a kind as there are, if what follows holds without them too. -/
theorem starts_all {p : Char → Bool} (h : ∀ c rest, p c = true → next (c :: rest) → next rest) :
    Starts (fun part => ∀ c ∈ part, p c = true) next = fun text => next (text.dropWhile p) := by
  have hdrop : ∀ rest, next rest → next (rest.dropWhile p) := by
    intro rest hrest
    induction rest with
    | nil => exact hrest
    | cons c rest ih =>
        rw [List.dropWhile_cons]
        split
        · rename_i hc
          exact ih (h c rest hc hrest)
        · exact hrest
  funext text
  apply propext
  constructor
  · rintro ⟨part, rest, rfl, hpart, hrest⟩
    rw [List.dropWhile_append_of_pos hpart]
    exact hdrop rest hrest
  · intro hnext
    exact ⟨text.takeWhile p, text.dropWhile p, by simp, List.all_eq_true.mp List.all_takeWhile,
      hnext⟩

theorem starts_indent
    (h : ∀ c rest, (c == ' ' || c == '\t') = true → next (c :: rest) → next rest) :
    Starts IsIndent next = fun text => next (skipIndent text) :=
  starts_all h

theorem starts_space (h : ∀ c rest, isBlank c = true → next (c :: rest) → next rest) :
    Starts IsSpace next = fun text => next (stripLeft text) :=
  starts_all h

theorem starts_word (word : List Char) :
    Starts (· = word) next = fun text => ∃ rest, after? word text = some rest ∧ next rest := by
  funext text
  apply propext
  simp only [after?_eq_some_iff]
  constructor
  · rintro ⟨part, rest, htext, rfl, hrest⟩
    exact ⟨rest, htext, hrest⟩
  · rintro ⟨rest, htext, hrest⟩
    exact ⟨word, rest, htext, rfl, hrest⟩

theorem starts_gap (h : ∀ c rest, isBlank c = true → next (c :: rest) → next rest) :
    Starts IsGap next = fun text => ∃ rest, afterBlanks? text = some rest ∧ next rest := by
  funext text
  apply propext
  constructor
  · rintro ⟨part, rest, rfl, ⟨hne, hpart⟩, hrest⟩
    obtain ⟨c, part, rfl⟩ := List.exists_cons_of_ne_nil hne
    obtain ⟨hc, hpart⟩ := List.forall_mem_cons.mp hpart
    have hstrip : next (stripLeft (part ++ rest)) := by
      have hspace : Starts IsSpace next (part ++ rest) := ⟨part, rest, rfl, hpart, hrest⟩
      rwa [starts_space h] at hspace
    exact ⟨_, by rw [List.cons_append, afterBlanks?, if_pos hc], hstrip⟩
  · rintro ⟨rest, hafter, hrest⟩
    cases text with
    | nil => exact absurd hafter (by simp [afterBlanks?])
    | cons c text =>
        rw [afterBlanks?] at hafter
        split at hafter
        · rename_i hc
          obtain rfl := Option.some.inj hafter
          have hspace : Starts IsSpace next text := by rwa [starts_space h]
          obtain ⟨part, rest, rfl, hpart, hrest⟩ := hspace
          exact ⟨c :: part, rest, rfl, ⟨by simp, List.forall_mem_cons.mpr ⟨hc, hpart⟩⟩, hrest⟩
        · exact absurd hafter (by simp)

theorem spanWord?_eq_some_iff {text name rest : List Char} :
    spanWord? text = some (name, rest) ↔
      name ≠ [] ∧ text.takeWhile isWord = name ∧ text.dropWhile isWord = rest := by
  unfold spanWord?
  split
  · rename_i hnil
    simp only [reduceCtorEq, false_iff]
    rintro ⟨hne, rfl, -⟩
    exact hne hnil
  · rename_i hne
    simp only [Option.some.injEq, Prod.mk.injEq]
    constructor
    · rintro ⟨rfl, rfl⟩
      exact ⟨hne, rfl, rfl⟩
    · rintro ⟨-, rfl, rfl⟩
      exact ⟨rfl, rfl⟩

theorem starts_name (h : ∀ c rest, isWord c = true → ¬ next (c :: rest)) (name : List Char) :
    Starts (IsName name) next =
      fun text => ∃ rest, spanWord? text = some (name, rest) ∧ next rest := by
  funext text
  apply propext
  simp only [spanWord?_eq_some_iff]
  constructor
  · rintro ⟨part, rest, rfl, ⟨rfl, hne, hpart⟩, hrest⟩
    have hhead : rest.takeWhile isWord = [] ∧ rest.dropWhile isWord = rest := by
      cases rest with
      | nil => exact ⟨rfl, rfl⟩
      | cons c rest =>
          have hc : ¬ isWord c = true := fun hc => h c rest hc hrest
          exact ⟨List.takeWhile_cons_of_neg hc, List.dropWhile_cons_of_neg hc⟩
    refine ⟨rest, ⟨hne, ?_, ?_⟩, hrest⟩
    · rw [List.takeWhile_append_of_pos hpart, hhead.1, List.append_nil]
    · rw [List.dropWhile_append_of_pos hpart, hhead.2]
  · rintro ⟨rest, ⟨hne, rfl, rfl⟩, hrest⟩
    exact ⟨text.takeWhile isWord, text.dropWhile isWord, by simp,
      ⟨rfl, hne, List.all_eq_true.mp List.all_takeWhile⟩, hrest⟩

theorem skipBrackets_cons {c : Char} (h : c ≠ '[') (cs : List Char) :
    skipBrackets (c :: cs) = c :: cs := by
  unfold skipBrackets
  split
  · rename_i heq
    exact absurd (List.cons.inj heq).1 h
  · rfl

theorem starts_brackets (h : ∀ rest, ¬ next ('[' :: rest)) :
    Starts IsBrackets next = fun text => next (skipBrackets text) := by
  funext text
  apply propext
  constructor
  · rintro ⟨_, rest, rfl, rfl | ⟨inner, rfl, hinner⟩, hrest⟩
    · rw [List.nil_append]
      cases rest with
      | nil => exact hrest
      | cons c rest =>
          have hc : c ≠ '[' := by
            rintro rfl
            exact h rest hrest
          rwa [skipBrackets_cons hc]
    · have hspan : spanTo? ']' (inner ++ [']'] ++ rest) = some (inner, rest) :=
        spanTo?_eq_some_iff.mpr ⟨by simp, hinner⟩
      rw [List.cons_append]
      simpa only [skipBrackets, hspan] using hrest
  · intro hnext
    by_cases hopen : ∃ tail, text = '[' :: tail
    · obtain ⟨tail, rfl⟩ := hopen
      cases hspan : spanTo? ']' tail with
      | none =>
          simp only [skipBrackets, hspan] at hnext
          exact absurd hnext (h tail)
      | some found =>
          obtain ⟨inner, rest⟩ := found
          simp only [skipBrackets, hspan] at hnext
          obtain ⟨rfl, hinner⟩ := spanTo?_eq_some_iff.mp hspan
          exact ⟨'[' :: (inner ++ [']']), rest, by simp, .inr ⟨inner, rfl, hinner⟩, hnext⟩
    · refine ⟨[], text, rfl, .inl rfl, ?_⟩
      cases text with
      | nil => exact hnext
      | cons c text =>
          have hc : c ≠ '[' := by
            rintro rfl
            exact hopen ⟨text, rfl⟩
          rwa [skipBrackets_cons hc] at hnext

end Reading

/-! ## What a part can start with -/

section Heads

variable {c : Char} {cs : List Char}

theorem eq_of_after?_cons {w : Char} {word rest : List Char}
    (h : after? (w :: word) (c :: cs) = some rest) : c = w := by
  rw [after?_eq_some_iff, List.cons_append] at h
  exact (List.cons.inj h).1

theorem isWord_of_spanWord?_cons {found : List Char × List Char}
    (h : spanWord? (c :: cs) = some found) : isWord c = true := by
  obtain ⟨hne, hname, -⟩ := spanWord?_eq_some_iff.mp h
  rw [List.takeWhile_cons] at hname
  split at hname
  · assumption
  · exact absurd hname.symm hne

theorem isBlank_of_afterBlanks?_cons {rest : List Char} (h : afterBlanks? (c :: cs) = some rest) :
    isBlank c = true := by
  rw [afterBlanks?] at h
  split at h
  · assumption
  · exact absurd h (by simp)

theorem eq_of_parameters?_cons {parameters : List Char}
    (h : parameters? (c :: cs) = some parameters) : c = '(' := by
  unfold parameters? at h
  split at h
  · rename_i heq
    exact (List.cons.inj heq).1
  · exact absurd h (by simp)

/-- An interval in front of a set of code points. -/
theorem changesInside_cons_cons_iff {lo hi n : Nat} (h : lo ≤ hi) (changes : List Nat) :
    changesInside (lo :: hi :: changes) n = true ↔
      (lo ≤ n ∧ n < hi) ∨ (hi ≤ n ∧ changesInside changes n = true) := by
  rcases Nat.lt_or_ge n lo with hlo | hlo
  · rw [changesInside_of_lt _ hlo]
    simp only [Bool.false_eq_true, false_iff, not_or, not_and]
    exact ⟨fun _ => by omega, fun _ => by omega⟩
  · rw [changesInside_of_le _ hlo]
    rcases Nat.lt_or_ge n hi with hhi | hhi
    · simp [changesInside_of_lt _ hhi, hlo, hhi]
    · simp [changesInside_of_le _ hhi, hhi, Nat.not_lt.mpr hhi]

/-- The blank characters above the ASCII range. -/
def wideBlanks : List Nat :=
  [133, 160, 5760, 8192, 8193, 8194, 8195, 8196, 8197, 8198, 8199, 8200, 8201, 8202, 8232, 8233,
    8239, 8287, 12288]

theorem mem_wideBlanks {n : Nat} (h : changesInside blankChanges n = true) : n ∈ wideBlanks := by
  simp only [blankChanges, changesInside_cons_cons_iff, Nat.reduceLeDiff, changesInside_nil,
    Bool.false_eq_true, and_false, or_false] at h
  simp only [wideBlanks, List.mem_cons, List.not_mem_nil, or_false]
  omega

/-- No blank is a word character. -/
theorem isBlank_eq_false_of_isWord (h : isWord c = true) : isBlank c = false := by
  have hascii : ∀ n : Fin 128, isWord (Char.ofNat n) = true → isBlank (Char.ofNat n) = false := by
    decide +kernel
  have hwide : ∀ n ∈ wideBlanks, changesInside letterOrNumberChanges n = false := by
    decide +kernel
  by_cases hc : c.toNat < 128
  · have hchar := hascii ⟨c.toNat, hc⟩
    simp only [Char.ofNat_toNat] at hchar
    exact hchar h
  · simp only [isWord, isBlank, if_neg hc] at h ⊢
    rw [Bool.eq_false_iff]
    intro hblank
    rw [hwide _ (mem_wideBlanks hblank)] at h
    exact absurd h (by simp)

theorem spanWord?_of_blank (h : isBlank c = true) : spanWord? (c :: cs) = none := by
  cases hname : spanWord? (c :: cs) with
  | none => rfl
  | some found =>
      rw [isBlank_eq_false_of_isWord (isWord_of_spanWord?_cons hname)] at h
      exact absurd h (by simp)

theorem afterBlanks?_of_isWord (h : isWord c = true) : afterBlanks? (c :: cs) = none := by
  rw [afterBlanks?, isBlank_eq_false_of_isWord h, if_neg (by simp)]

end Heads

/-! ## Reading a line -/

section Lines

variable {next : List Char → Prop}

theorem hasParameters_eq (parameters : List Char) :
    HasParameters parameters = fun text => parameters? text = some parameters := by
  funext text
  apply propext
  constructor
  · rintro ⟨_, _, rfl, rfl, part, _, rfl, ⟨heq, hnot⟩, _, rest, rfl, rfl, -⟩
    have hspan : spanTo? ')' (part ++ ([')'] ++ rest)) = some (part, rest) :=
      spanTo?_eq_some_iff.mpr ⟨rfl, hnot⟩
    simp only [List.singleton_append, parameters?] at hspan ⊢
    rw [hspan, Option.map_some, heq]
  · intro h
    unfold parameters? at h
    split at h
    · obtain ⟨⟨before, rest⟩, hspan, rfl⟩ := Option.map_eq_some_iff.mp h
      obtain ⟨rfl, hnot⟩ := spanTo?_eq_some_iff.mp hspan
      exact ⟨['('], _, rfl, rfl, before, ')' :: rest, rfl, ⟨rfl, hnot⟩, [')'], rest, rfl, rfl,
        trivial⟩
    · exact absurd h (by simp)

theorem ne_of_class {p : Char → Bool} {c d : Char} (hc : p c = true) (hd : p d = false) :
    c ≠ d := by
  rintro rfl
  rw [hc] at hd
  exact absurd hd (by simp)

/-- What stands behind the name of a method. -/
theorem starts_space_hasParameters (parameters : List Char) :
    Starts IsSpace (HasParameters parameters) =
      fun text => parameters? (stripLeft text) = some parameters := by
  rw [hasParameters_eq, starts_space]
  intro c rest hc h
  exact absurd (eq_of_parameters?_cons h) (ne_of_class hc (by decide))

/-- What stands behind the name of a function. -/
theorem starts_brackets_hasParameters (parameters : List Char) :
    (Starts IsSpace <| Starts IsBrackets <| Starts IsSpace <| HasParameters parameters) =
      fun text => parameters? (stripLeft (skipBrackets (stripLeft text))) = some parameters := by
  rw [starts_space_hasParameters, starts_brackets, starts_space]
  · -- a blank before brackets is one before the parameters, unless the brackets are there
    intro c rest hc h
    rw [skipBrackets_cons (ne_of_class hc (by decide)), stripLeft, List.dropWhile_cons_of_pos hc,
      ← stripLeft] at h
    cases rest with
    | nil => exact h
    | cons d rest =>
        have hd : d ≠ '[' := by
          rintro rfl
          exact absurd (eq_of_parameters?_cons h) (by decide)
        rwa [skipBrackets_cons hd]
  · intro rest h
    exact absurd (eq_of_parameters?_cons h) (by decide)

/-- A function is read from left to right. -/
theorem hasFunctionForm_iff {name parameters line : List Char} :
    HasFunctionForm name parameters line ↔ function? line = some (.function name parameters) := by
  rw [HasFunctionForm, starts_brackets_hasParameters, starts_name, starts_gap, starts_word,
    starts_indent]
  · unfold function?
    simp only [Option.bind_eq_bind, Option.bind_eq_some_iff]
    constructor
    · rintro ⟨afterFunc, hfunc, afterGap, hgap, afterName, hname, hparameters⟩
      exact ⟨afterFunc, hfunc, afterGap, hgap, (name, afterName), hname, parameters, hparameters,
        rfl⟩
    · rintro ⟨afterFunc, hfunc, afterGap, hgap, ⟨_, afterName⟩, hname, _, hparameters, heq⟩
      obtain ⟨rfl, rfl⟩ : _ = name ∧ _ = parameters := by simpa using heq
      exact ⟨afterFunc, hfunc, afterGap, hgap, afterName, hname, hparameters⟩
  · rintro c rest hc ⟨_, hfunc, -⟩
    rw [eq_of_after?_cons hfunc] at hc
    exact absurd hc (by decide)
  · rintro c rest hc ⟨_, hname, -⟩
    rw [spanWord?_of_blank hc] at hname
    cases hname
  · intro c rest hc h
    rw [stripLeft_eq_self (isBlank_eq_false_of_isWord hc),
      skipBrackets_cons (ne_of_class hc (by decide)),
      stripLeft_eq_self (isBlank_eq_false_of_isWord hc)] at h
    exact absurd (eq_of_parameters?_cons h) (ne_of_class hc (by decide))

/-- What stands behind the name of a receiver. -/
theorem starts_brackets_closing :
    (Starts IsBrackets <| Starts IsSpace <| Starts (· = [')']) next) =
      fun text => ∃ rest, after? [')'] (stripLeft (skipBrackets text)) = some rest ∧ next rest := by
  rw [starts_word, starts_space, starts_brackets]
  · rintro rest ⟨_, hclosing, -⟩
    rw [stripLeft_eq_self (by decide)] at hclosing
    exact absurd (eq_of_after?_cons hclosing) (by decide)
  · rintro c rest hc ⟨_, hclosing, -⟩
    exact absurd (eq_of_after?_cons hclosing) (ne_of_class hc (by decide))

/-- The name of a receiver, with what follows the closing parenthesis. -/
def receiverName? (cs : List Char) : Option (List Char × List Char) := do
  let (name, cs) ← spanWord? (stripLeft cs)
  let cs ← after? [')'] (stripLeft (skipBrackets cs))
  return (name, cs)

theorem receiverType?_star (cs : List Char) :
    receiverType? ('*' :: cs) = (receiverName? cs).map (true, ·) := by
  simp only [receiverType?, receiverName?, Option.bind_eq_bind, Option.pure_def, Option.map_bind,
    Option.map_some, Function.comp_def]

theorem receiverType?_of_ne {cs : List Char} (h : cs.head? ≠ some '*') :
    receiverType? cs = (receiverName? cs).map (false, ·) := by
  unfold receiverType?
  split
  · rename_i heq
    split at heq
    · exact absurd List.head?_cons h
    · cases heq
      simp only [receiverName?, Option.bind_eq_bind, Option.pure_def, Option.map_bind,
        Option.map_some, Function.comp_def]

theorem receiverName?_eq_some_iff {receiver cs rest : List Char} :
    receiverName? cs = some (receiver, rest) ↔
      ∃ afterName, spanWord? (stripLeft cs) = some (receiver, afterName) ∧
        after? [')'] (stripLeft (skipBrackets afterName)) = some rest := by
  simp only [receiverName?, Option.bind_eq_bind, Option.bind_eq_some_iff]
  constructor
  · rintro ⟨⟨_, afterName⟩, hname, _, hclosing, heq⟩
    obtain ⟨rfl, rfl⟩ : _ = receiver ∧ _ = rest := by simpa using heq
    exact ⟨afterName, hname, hclosing⟩
  · rintro ⟨afterName, hname, hclosing⟩
    exact ⟨(receiver, afterName), hname, rest, hclosing, rfl⟩

/-- No name starts with a star. -/
theorem head?_ne_star_of_receiverName? {cs : List Char} {found : List Char × List Char}
    (h : receiverName? cs = some found) : cs.head? ≠ some '*' := by
  obtain ⟨afterName, hname, -⟩ := receiverName?_eq_some_iff.mp h
  intro hstar
  obtain ⟨rest, rfl⟩ := List.head?_eq_some_iff.mp hstar
  rw [stripLeft_eq_self (by decide)] at hname
  exact absurd (isWord_of_spanWord?_cons hname) (by decide)

/-- A pointer is told by the star in front of it. -/
theorem receiverType?_eq_some_iff {pointer : Bool} {receiver cs rest : List Char} :
    receiverType? cs = some (pointer, receiver, rest) ↔
      ∃ named, cs = (if pointer then ['*'] else []) ++ named ∧
        receiverName? named = some (receiver, rest) := by
  constructor
  · intro h
    by_cases hstar : cs.head? = some '*'
    · obtain ⟨named, rfl⟩ := List.head?_eq_some_iff.mp hstar
      rw [receiverType?_star] at h
      obtain ⟨⟨_, _⟩, hnamed, heq⟩ := Option.map_eq_some_iff.mp h
      cases heq
      exact ⟨named, rfl, hnamed⟩
    · rw [receiverType?_of_ne hstar] at h
      obtain ⟨⟨_, _⟩, hnamed, heq⟩ := Option.map_eq_some_iff.mp h
      cases heq
      exact ⟨cs, rfl, hnamed⟩
  · rintro ⟨named, rfl, hnamed⟩
    cases pointer with
    | true => exact (receiverType?_star named).trans (by rw [hnamed]; rfl)
    | false =>
        exact (receiverType?_of_ne (head?_ne_star_of_receiverName? hnamed)).trans
          (by rw [hnamed]; rfl)

/-- A receiver type in front of its closing parenthesis. -/
theorem starts_receiverType (pointer : Bool) (receiver : List Char) :
    (Starts (IsStar pointer) <| Starts IsSpace <| Starts (IsName receiver) <| Starts IsBrackets <|
      Starts IsSpace <| Starts (· = [')']) next) =
      fun text => ∃ rest, receiverType? text = some (pointer, receiver, rest) ∧ next rest := by
  rw [starts_brackets_closing, starts_name, starts_space]
  · funext text
    apply propext
    simp only [receiverType?_eq_some_iff, receiverName?_eq_some_iff]
    constructor
    · rintro ⟨_, named, rfl, rfl, afterName, hname, rest, hclosing, hrest⟩
      exact ⟨rest, ⟨named, rfl, afterName, hname, hclosing⟩, hrest⟩
    · rintro ⟨rest, ⟨named, rfl, afterName, hname, hclosing⟩, hrest⟩
      exact ⟨_, named, rfl, rfl, afterName, hname, rest, hclosing, hrest⟩
  · rintro c rest hc ⟨_, hname, -⟩
    rw [spanWord?_of_blank hc] at hname
    cases hname
  · rintro c rest hc ⟨_, hclosing, -⟩
    rw [skipBrackets_cons (ne_of_class hc (by decide)),
      stripLeft_eq_self (isBlank_eq_false_of_isWord hc)] at hclosing
    exact absurd (eq_of_after?_cons hclosing) (ne_of_class hc (by decide))

theorem stripLeft_cons_of_blank {c : Char} (hc : isBlank c = true) (cs : List Char) :
    stripLeft (c :: cs) = stripLeft cs :=
  List.dropWhile_cons_of_pos hc

/-- A blank in front of a receiver type can be left out. -/
theorem receiverType?_of_blank {c : Char} {cs : List Char} {found : Bool × List Char × List Char}
    (hc : isBlank c = true) (h : receiverType? (c :: cs) = some found) :
    receiverType? cs = some found := by
  obtain ⟨pointer, receiver, rest⟩ := found
  obtain ⟨named, heq, hnamed⟩ := receiverType?_eq_some_iff.mp h
  cases pointer with
  | true => exact absurd (List.cons.inj heq).1 (ne_of_class hc (by decide))
  | false =>
      obtain rfl : named = c :: cs := heq.symm
      refine receiverType?_eq_some_iff.mpr ⟨cs, rfl, ?_⟩
      rwa [receiverName?, stripLeft_cons_of_blank hc] at hnamed

/-- A variable is read where a word and blanks behind it stand in front of the rest. -/
theorem starts_variable (h : ∀ c rest, isBlank c = true → next (c :: rest) → next rest) :
    Starts IsVariable next = fun text => next text ∨ ∃ name afterName rest,
      spanWord? text = some (name, afterName) ∧ afterBlanks? afterName = some rest ∧
        next rest := by
  have hnamed : ∀ text, (∃ name, Starts (IsName name) (Starts IsGap next) text) ↔
      ∃ name afterName rest, spanWord? text = some (name, afterName) ∧
        afterBlanks? afterName = some rest ∧ next rest := by
    intro text
    simp only [starts_gap h]
    refine exists_congr fun name => ?_
    rw [starts_name]
    · simp only [exists_and_left]
    · rintro c rest hc ⟨_, hgap, -⟩
      rw [afterBlanks?_of_isWord hc] at hgap
      cases hgap
  funext text
  apply propext
  rw [← hnamed text]
  constructor
  · rintro ⟨_, rest, rfl, rfl | ⟨name, gap, rfl, hname, hgap⟩, hrest⟩
    · exact .inl hrest
    · exact .inr ⟨name, name, gap ++ rest, by simp, ⟨rfl, hname⟩, gap, rest, rfl, hgap, hrest⟩
  · rintro (hnext | ⟨_, name, _, rfl, ⟨-, hname⟩, gap, rest, rfl, hgap, hrest⟩)
    · exact ⟨[], text, rfl, .inl rfl, hnext⟩
    · exact ⟨name ++ gap, rest, by simp, .inr ⟨name, gap, rfl, hname, hgap⟩, hrest⟩

/-- A word that is the receiver type itself is no variable: no type follows it. -/
theorem receiverType?_eq_none_of_variable {name afterName rest cs : List Char}
    {found : Bool × List Char × List Char} (hname : spanWord? cs = some (name, afterName))
    (hgap : afterBlanks? afterName = some rest) (h : receiverType? cs = some found) :
    receiverType? rest = none := by
  obtain ⟨c, cs, rfl⟩ : ∃ c tail, cs = c :: tail := by
    cases cs with
    | nil => exact absurd hname (by simp [spanWord?])
    | cons c cs => exact ⟨c, cs, rfl⟩
  have hc := isWord_of_spanWord?_cons hname
  obtain ⟨d, afterName, rfl⟩ : ∃ d tail, afterName = d :: tail := by
    cases afterName with
    | nil => exact absurd hgap (by simp [afterBlanks?])
    | cons d afterName => exact ⟨d, afterName, rfl⟩
  have hd := isBlank_of_afterBlanks?_cons hgap
  rw [afterBlanks?, if_pos hd] at hgap
  obtain rfl := Option.some.inj hgap
  -- the blanks of the receiver type end at its closing parenthesis
  obtain ⟨pointer, receiver, after⟩ := found
  obtain ⟨named, heq, hnamed⟩ := receiverType?_eq_some_iff.mp h
  obtain ⟨_, hspan, hclosing⟩ := receiverName?_eq_some_iff.mp hnamed
  cases pointer with
  | true => exact absurd (List.cons.inj heq).1 (ne_of_class hc (by decide))
  | false =>
      obtain rfl : named = c :: cs := heq.symm
      rw [stripLeft_eq_self (isBlank_eq_false_of_isWord hc), hname] at hspan
      cases hspan
      rw [skipBrackets_cons (ne_of_class hd (by decide)), stripLeft_cons_of_blank hd,
        after?_eq_some_iff] at hclosing
      rw [hclosing]
      rfl

/-- Of the two readings of a receiver one at most is possible. -/
theorem receiver?_eq_some_iff {cs : List Char} {found : Bool × List Char × List Char} :
    (receiverType? (skipVariable cs)).or (receiverType? cs) = some found ↔
      receiverType? cs = some found ∨ ∃ name afterName rest,
        spanWord? cs = some (name, afterName) ∧ afterBlanks? afterName = some rest ∧
          receiverType? rest = some found := by
  cases hname : spanWord? cs with
  | none => simp [skipVariable, hname]
  | some split =>
      obtain ⟨name, afterName⟩ := split
      cases hgap : afterBlanks? afterName with
      | none => simp [skipVariable, hname, hgap]
      | some rest =>
          have hskip : skipVariable cs = rest := by simp [skipVariable, hname, hgap]
          rw [hskip, Option.or_eq_some_iff]
          constructor
          · rintro (h | ⟨-, h⟩)
            · exact .inr ⟨name, afterName, rest, rfl, hgap, h⟩
            · exact .inl h
          · rintro (h | ⟨_, _, _, heq, hgap', h⟩)
            · exact .inr ⟨receiverType?_eq_none_of_variable hname hgap h, h⟩
            · cases heq
              rw [hgap] at hgap'
              cases hgap'
              exact .inl h

/-- A receiver with what follows its closing parenthesis. -/
theorem hasReceiver_eq (pointer : Bool) (receiver : List Char) :
    HasReceiver pointer receiver next = fun text => ∃ opened, after? ['('] text = some opened ∧
      ∃ rest, receiver? opened = some (pointer, receiver, rest) ∧ next rest := by
  have hblank : ∀ c rest, isBlank c = true →
      (∃ after, receiverType? (c :: rest) = some (pointer, receiver, after) ∧ next after) →
        ∃ after, receiverType? rest = some (pointer, receiver, after) ∧ next after :=
    fun c rest hc => Exists.imp fun after => And.imp_left (receiverType?_of_blank hc)
  rw [HasReceiver, starts_receiverType, starts_variable hblank, starts_space, starts_word]
  · funext text
    simp only [receiver?, receiver?_eq_some_iff]
    refine propext (exists_congr fun opened => and_congr_right fun _ => ?_)
    constructor
    · rintro (⟨rest, htype, hrest⟩ | ⟨name, afterName, typed, hname, hgap, rest, htype, hrest⟩)
      · exact ⟨rest, .inl htype, hrest⟩
      · exact ⟨rest, .inr ⟨name, afterName, typed, hname, hgap, htype⟩, hrest⟩
    · rintro ⟨rest, htype | ⟨name, afterName, typed, hname, hgap, htype⟩, hrest⟩
      · exact .inl ⟨rest, htype, hrest⟩
      · exact .inr ⟨name, afterName, typed, hname, hgap, rest, htype, hrest⟩
  · rintro c rest hc (htype | ⟨_, _, _, hname, -⟩)
    · exact .inl (hblank c rest hc htype)
    · rw [spanWord?_of_blank hc] at hname
      cases hname

/-- A method is read from left to right. -/
theorem hasMethodForm_iff {pointer : Bool} {receiver name parameters line : List Char} :
    HasMethodForm pointer receiver name parameters line ↔
      method? line = some (.method pointer receiver name parameters) := by
  rw [HasMethodForm, hasReceiver_eq, starts_space_hasParameters, starts_name, starts_space,
    starts_gap, starts_word, starts_indent]
  · unfold method?
    simp only [Option.bind_eq_bind, Option.bind_eq_some_iff]
    constructor
    · rintro ⟨afterFunc, hfunc, afterGap, hgap, opened, hopened, afterReceiver, hreceiver,
        afterName, hname, hparameters⟩
      exact ⟨afterFunc, hfunc, afterGap, hgap, opened, hopened,
        (pointer, receiver, afterReceiver), hreceiver, (name, afterName), hname, parameters,
        hparameters, rfl⟩
    · rintro ⟨afterFunc, hfunc, afterGap, hgap, opened, hopened, ⟨_, _, afterReceiver⟩, hreceiver,
        ⟨_, afterName⟩, hname, _, hparameters, heq⟩
      cases heq
      exact ⟨afterFunc, hfunc, afterGap, hgap, opened, hopened, afterReceiver, hreceiver,
        afterName, hname, hparameters⟩
  · rintro c rest hc ⟨_, hfunc, -⟩
    rw [eq_of_after?_cons hfunc] at hc
    exact absurd hc (by decide)
  · rintro c rest hc ⟨_, hopened, -⟩
    exact absurd (eq_of_after?_cons hopened) (ne_of_class hc (by decide))
  · rintro c rest hc ⟨_, hname, -⟩
    rw [spanWord?_of_blank hc] at hname
    cases hname
  · intro c rest hc h
    rw [stripLeft_eq_self (isBlank_eq_false_of_isWord hc)] at h
    exact absurd (eq_of_parameters?_cons h) (ne_of_class hc (by decide))

theorem startsWithWord_eq_true_iff {word cs : List Char} :
    startsWithWord word cs = true ↔ ∃ rest, after? word cs = some rest ∧ AtWordEnd rest := by
  unfold startsWithWord
  split
  · rename_i h
    simp [h, AtWordEnd]
  · rename_i h
    simp [h, AtWordEnd]
  · rename_i h
    simp [h]

theorem eq_of_startsWithWord_cons {w c : Char} {word cs : List Char}
    (h : startsWithWord (w :: word) (c :: cs) = true) : c = w := by
  obtain ⟨rest, hword, -⟩ := startsWithWord_eq_true_iff.mp h
  exact eq_of_after?_cons hword

/-- What stands behind the name of a type. -/
theorem starts_kind (isStruct : Bool) :
    (Starts IsBrackets <| Starts IsGap <| Starts (· = kindWord isStruct) AtWordEnd) =
      fun text => ∃ rest, afterBlanks? (skipBrackets text) = some rest ∧
        startsWithWord (kindWord isStruct) rest = true := by
  simp only [starts_word, ← startsWithWord_eq_true_iff]
  rw [starts_gap, starts_brackets]
  · rintro rest ⟨_, hgap, -⟩
    exact absurd (isBlank_of_afterBlanks?_cons hgap) (by decide)
  · intro c rest hc h
    cases isStruct with
    | true => exact absurd (eq_of_startsWithWord_cons h) (ne_of_class hc (by decide))
    | false => exact absurd (eq_of_startsWithWord_cons h) (ne_of_class hc (by decide))

/-- No text starts with the keywords of both kinds. -/
theorem kind_unique {a b : Bool} {cs : List Char} (ha : startsWithWord (kindWord a) cs = true)
    (hb : startsWithWord (kindWord b) cs = true) : a = b := by
  have hhead : ∀ isStruct, startsWithWord (kindWord isStruct) cs = true →
      cs.head? = (kindWord isStruct).head? := by
    intro isStruct h
    obtain ⟨rest, hword, -⟩ := startsWithWord_eq_true_iff.mp h
    rw [after?_eq_some_iff.mp hword]
    cases isStruct <;> rfl
  have heads : ∀ a b : Bool, (kindWord a).head? = (kindWord b).head? → a = b := by decide
  exact heads a b ((hhead a ha).symm.trans (hhead b hb))

/-- A type is read from left to right. -/
theorem hasTypeForm_iff {name line : List Char} {isStruct : Bool} :
    HasTypeForm name isStruct line ↔ type? line = some (.type name isStruct) := by
  rw [HasTypeForm, starts_kind, starts_name, starts_gap, starts_word, starts_indent]
  · unfold type?
    simp only [Option.bind_eq_bind, Option.bind_eq_some_iff]
    constructor
    · rintro ⟨afterType, htype, afterGap, hgap, afterName, hname, rest, hrest, hkind⟩
      refine ⟨afterType, htype, afterGap, hgap, (name, afterName), hname, rest, hrest, ?_⟩
      cases isStruct with
      | true => exact if_pos hkind
      | false =>
          have hstruct : ¬ startsWithWord structWord rest = true := fun hstruct =>
            absurd (kind_unique (a := true) hstruct hkind) (by decide)
          rw [if_neg hstruct]
          exact if_pos hkind
    · rintro ⟨afterType, htype, afterGap, hgap, ⟨_, afterName⟩, hname, rest, hrest, hkind⟩
      split at hkind
      · rename_i hstruct
        cases hkind
        exact ⟨afterType, htype, afterGap, hgap, afterName, hname, rest, hrest, hstruct⟩
      · split at hkind
        · rename_i hinterface
          cases hkind
          exact ⟨afterType, htype, afterGap, hgap, afterName, hname, rest, hrest, hinterface⟩
        · exact absurd hkind (by simp)
  · rintro c rest hc ⟨_, htype, -⟩
    rw [eq_of_after?_cons htype] at hc
    exact absurd hc (by decide)
  · rintro c rest hc ⟨_, hname, -⟩
    rw [spanWord?_of_blank hc] at hname
    cases hname
  · rintro c rest hc ⟨_, hgap, -⟩
    rw [skipBrackets_cons (ne_of_class hc (by decide)), afterBlanks?_of_isWord hc] at hgap
    cases hgap

/-- A method starts as a function does, with a parenthesis in place of the name. -/
theorem method?_cases {line : List Char} {d : Declaration} (h : method? line = some d) :
    (∃ pointer receiver name parameters, d = .method pointer receiver name parameters) ∧
      ∃ afterFunc afterGap opened, after? funcWord (skipIndent line) = some afterFunc ∧
        afterBlanks? afterFunc = some afterGap ∧ after? ['('] afterGap = some opened := by
  unfold method? at h
  simp only [Option.bind_eq_bind, Option.bind_eq_some_iff] at h
  obtain ⟨afterFunc, hfunc, afterGap, hgap, opened, hopened, _, -, _, -, _, -, heq⟩ := h
  exact ⟨⟨_, _, _, _, (Option.some.inj heq).symm⟩, afterFunc, afterGap, opened, hfunc, hgap,
    hopened⟩

theorem function?_cases {line : List Char} {d : Declaration} (h : function? line = some d) :
    (∃ name parameters, d = .function name parameters) ∧
      ∃ afterFunc afterGap found, after? funcWord (skipIndent line) = some afterFunc ∧
        afterBlanks? afterFunc = some afterGap ∧ spanWord? afterGap = some found := by
  unfold function? at h
  simp only [Option.bind_eq_bind, Option.bind_eq_some_iff] at h
  obtain ⟨afterFunc, hfunc, afterGap, hgap, found, hname, _, -, heq⟩ := h
  exact ⟨⟨_, _, (Option.some.inj heq).symm⟩, afterFunc, afterGap, found, hfunc, hgap, hname⟩

theorem type?_cases {line : List Char} {d : Declaration} (h : type? line = some d) :
    (∃ name isStruct, d = .type name isStruct) ∧
      ∃ afterType, after? typeWord (skipIndent line) = some afterType := by
  unfold type? at h
  simp only [Option.bind_eq_bind, Option.bind_eq_some_iff] at h
  obtain ⟨afterType, htype, _, -, _, -, _, -, hkind⟩ := h
  refine ⟨?_, afterType, htype⟩
  split at hkind
  · exact ⟨_, _, (Option.some.inj hkind).symm⟩
  · split at hkind
    · exact ⟨_, _, (Option.some.inj hkind).symm⟩
    · exact absurd hkind (by simp)

/-- The name of a function does not start with a parenthesis. -/
theorem method?_eq_none_of_function? {line : List Char} {d : Declaration}
    (h : function? line = some d) : method? line = none := by
  obtain ⟨-, afterFunc, afterGap, found, hfunc, hgap, hname⟩ := function?_cases h
  cases hmethod : method? line with
  | none => rfl
  | some d' =>
      obtain ⟨-, _, _, opened, hfunc', hgap', hopened⟩ := method?_cases hmethod
      obtain rfl := Option.some.inj (hfunc.symm.trans hfunc')
      obtain rfl := Option.some.inj (hgap.symm.trans hgap')
      obtain rfl := after?_eq_some_iff.mp hopened
      exact absurd (isWord_of_spanWord?_cons hname) (by decide)

/-- The keywords of functions and types start with different letters. -/
theorem after?_funcWord_of_type? {line : List Char} {d : Declaration} (h : type? line = some d) :
    after? funcWord (skipIndent line) = none := by
  obtain ⟨-, afterType, htype⟩ := type?_cases h
  rw [after?_eq_some_iff.mp htype]
  rfl

/-- The three forms have no line in common, so the order in which they are tried does not
matter. -/
theorem ofLine?_eq_some_iff {line : List Char} {d : Declaration} :
    Declaration.ofLine? line = some d ↔ Declares line d := by
  simp only [Declaration.ofLine?, Option.or_eq_some_iff, Option.or_eq_none_iff]
  constructor
  · rintro ((hm | ⟨-, hf⟩) | ⟨-, ht⟩)
    · obtain ⟨⟨pointer, receiver, name, parameters, rfl⟩, -⟩ := method?_cases hm
      exact hasMethodForm_iff.mpr hm
    · obtain ⟨⟨name, parameters, rfl⟩, -⟩ := function?_cases hf
      exact hasFunctionForm_iff.mpr hf
    · obtain ⟨⟨name, isStruct, rfl⟩, -⟩ := type?_cases ht
      exact hasTypeForm_iff.mpr ht
  · intro h
    cases d with
    | method pointer receiver name parameters => exact .inl (.inl (hasMethodForm_iff.mp h))
    | function name parameters =>
        have hf := hasFunctionForm_iff.mp h
        exact .inl (.inr ⟨method?_eq_none_of_function? hf, hf⟩)
    | type name isStruct =>
        have ht := hasTypeForm_iff.mp h
        have hfunc := after?_funcWord_of_type? ht
        exact .inr ⟨⟨by simp [method?, hfunc], by simp [function?, hfunc]⟩, ht⟩

end Lines

end TestAtlas.Outline
