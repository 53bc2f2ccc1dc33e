import TestAtlas.Json.Writer
import TestAtlas.Proofs.Text.Escape
import Mathlib.Data.List.Basic
import Mathlib.Tactic.SplitIfs

/-!
# Tokens of what is written

A string, an integer or a word that is written is read back as one token, whatever follows it that
cannot belong to it.  `StartsWith` says that a text is cut into certain tokens up to a certain rest,
so that the tokens of a whole are those of its parts.
-/

namespace TestAtlas.Json

/-! ## Strings -/

/-- A control character has a code of two hexadecimal digits. -/
theorem hexUnit?_smallHex {n : Nat} (h : n < 32) :
    hexUnit? '0' '0' (smallHex (n / 16)) (smallHex (n % 16)) = some n := by
  have hall : ∀ k < 32, hexUnit? '0' '0' (smallHex (k / 16)) (smallHex (k % 16)) = some k := by
    decide
  exact hall n h

/-- A backslash and a letter that is not `u` stand for one character. -/
theorem readString_escape {e : Char} {n : Nat} (hne : e ≠ 'u') (he : escapedChar? e = some n)
    (cs : List Char) : readString ('\\' :: e :: cs) =
      (readString cs).map fun read => (n :: read.1, read.2) := by
  rw [readString.eq_4 _ _ (by intro _ _ _ _ _ heq; simp_all), he]
  cases readString cs <;> rfl

theorem readString_writeChar (c : Char) (cs : List Char) :
    readString (writeChar c ++ cs) =
      (readString cs).map fun read => (c.toNat :: read.1, read.2) := by
  unfold writeChar
  split_ifs with hself hn hr ht hf hb hcontrol
  · rcases hself with rfl | rfl
    · exact readString_escape (by decide) (by decide) cs
    · exact readString_escape (by decide) (by decide) cs
  · subst hn
    exact readString_escape (by decide) (by decide) cs
  · subst hr
    exact readString_escape (by decide) (by decide) cs
  · subst ht
    exact readString_escape (by decide) (by decide) cs
  · subst hf
    exact readString_escape (by decide) (by decide) cs
  · subst hb
    exact readString_escape (by decide) (by decide) cs
  · show readString ('\\' :: 'u' :: '0' :: '0' :: _ :: _ :: cs) = _
    rw [readString, hexUnit?_smallHex hcontrol]
    cases readString cs <;> rfl
  · rw [not_or] at hself
    rw [List.singleton_append, readString.eq_5 _ _ hself.1 (by simp_all) (by simp_all),
      if_neg (not_or.mpr ⟨hcontrol, hself.2⟩)]
    cases readString cs <;> rfl

/-- What is written between quotes is read up to the closing one. -/
theorem readString_flatMap_writeChar (cs rest : List Char) :
    readString (cs.flatMap writeChar ++ '"' :: rest) = some (cs.map Char.toNat, rest) := by
  induction cs with
  | nil => simp [readString]
  | cons c cs ih =>
      rw [List.flatMap_cons, List.append_assoc, readString_writeChar, ih, Option.map_some,
        List.map_cons]

/-- The code points of characters hold no surrogates. -/
theorem joinSurrogates_map_toNat (cs : List Char) : joinSurrogates (cs.map Char.toNat) = cs := by
  have hnot : ∀ c : Char, ¬ (0xD800 ≤ c.toNat ∧ c.toNat ≤ 0xDFFF) := by
    intro c
    have hbounds := Text.Utf8.toNat_bounds c
    omega
  induction cs with
  | nil => rfl
  | cons c cs ih =>
      cases cs with
      | nil => simp [joinSurrogates, hnot c]
      | cons d cs =>
          have hpair : ¬ (0xD800 ≤ c.toNat ∧ c.toNat < 0xDC00 ∧ 0xDC00 ≤ d.toNat ∧
              d.toNat ≤ 0xDFFF) := by
            intro h
            exact hnot c ⟨h.1, by omega⟩
          rw [List.map_cons, List.map_cons, joinSurrogates, if_neg hpair, if_neg (hnot c),
            Char.ofNat_toNat, ← List.map_cons, ih]

theorem toList_writeString (s : String) (rest : List Char) :
    (writeString s).toList ++ rest = '"' :: (s.toList.flatMap writeChar ++ '"' :: rest) := by
  simp [writeString]

/-- A string that is written is read back. -/
theorem readToken_writeString (s : String) (rest : List Char) :
    readToken ((writeString s).toList ++ rest) = some (.text s, rest) := by
  rw [toList_writeString, readToken, readString_flatMap_writeChar]
  simp [joinSurrogates_map_toNat]

/-! ## Integers and words -/

/-- A number ends before the text: what comes first can be no part of it. -/
def EndsNumber (rest : List Char) : Prop :=
  ∀ c ∈ rest.head?, c.isDigit = false ∧ c ≠ '.' ∧ c ≠ 'e' ∧ c ≠ 'E'

variable {rest : List Char}

theorem spanDigits_append {ds : List Char} (hds : ∀ d ∈ ds, d.isDigit = true)
    (hrest : EndsNumber rest) : spanDigits (ds ++ rest) = (ds, rest) := by
  have hnone : rest.takeWhile Char.isDigit = [] ∧ rest.dropWhile Char.isDigit = rest := by
    cases rest with
    | nil => simp
    | cons c cs => simp [(hrest c (by simp)).1]
  rw [spanDigits, List.takeWhile_append_of_pos hds, List.dropWhile_append_of_pos hds, hnone.1,
    hnone.2, List.append_nil]

theorem spanFraction_eq_none (hrest : EndsNumber rest) : spanFraction rest = none := by
  cases rest with
  | nil => rfl
  | cons c cs =>
      rw [spanFraction.eq_2]
      intro cs' heq
      exact (hrest c (by simp)).2.1 (List.cons.inj heq).1

theorem spanExponent_eq_none (hrest : EndsNumber rest) : spanExponent rest = none := by
  cases rest with
  | nil => rfl
  | cons c cs =>
      obtain ⟨-, -, he, hE⟩ := hrest c (by simp)
      unfold spanExponent
      exact if_neg (not_or.mpr ⟨he, hE⟩)

/-- Only zero is written with a leading zero. -/
theorem head?_toDigits {n : Nat} (hn : n ≠ 0) : (Nat.toDigits 10 n).head? ≠ some '0' := by
  induction n using Nat.strongRecOn with
  | _ n ih =>
      rw [Nat.toDigits_eq_if (by decide)]
      split
      · rename_i hlt
        have hall : ∀ k < 10, k ≠ 0 → k.digitChar ≠ '0' := by decide
        simpa using hall n hlt hn
      · rename_i hge
        have hfirst := ih (n / 10) (by omega) (by omega)
        rwa [List.head?_append_of_ne_nil _ Nat.toDigits_ne_nil]

/-- The digits of a number are cut off whole. -/
theorem spanWhole_toDigits (n : Nat) (hrest : EndsNumber rest) :
    spanWhole (Nat.toDigits 10 n ++ rest) = (Nat.toDigits 10 n, rest) := by
  by_cases hn : n = 0
  · subst hn
    rfl
  · rw [spanWhole.eq_2, spanDigits_append
      (fun d hd => Nat.isDigit_of_mem_toDigits (by decide) (by decide) hd) hrest]
    intro rest' heq
    have hfirst := head?_toDigits hn
    rw [← List.head?_append_of_ne_nil _ Nat.toDigits_ne_nil, heq] at hfirst
    exact hfirst rfl

theorem digitsValue_toDigits (n : Nat) : digitsValue (Nat.toDigits 10 n) = n := by
  have hvalue := Nat.ofDigitChars_ten_toDigits (n := n)
  rwa [Nat.ofDigitChars_eq_foldl] at hvalue

/-- Digits are read as the number that they were written for, if they are not too many. -/
theorem readNumber_toDigits (negative : Bool) {n : Nat} (hrest : EndsNumber rest)
    (hlong : (Nat.toDigits 10 n).length ≤ maxIntegerDigits) :
    readNumber negative (Nat.toDigits 10 n ++ rest) =
      some (.int (if negative then -n else n), rest) := by
  unfold readNumber
  rw [spanWhole_toDigits n hrest]
  split
  · rename_i hnil
    exact absurd (congrArg Prod.fst hnil) Nat.toDigits_ne_nil
  · rename_i ds rest' heq
    obtain ⟨rfl, rfl⟩ := Prod.mk.inj heq
    simp [spanFraction_eq_none hrest, spanExponent_eq_none hrest, Nat.not_lt.mpr hlong,
      digitsValue_toDigits]

/-- What starts neither a bracket nor a string is a number or a word. -/
theorem readToken_of_plain {c : Char} (cs : List Char)
    (hc : c ∉ ['[', ']', '\x7b', '\x7d', ',', ':', '"']) :
    readToken (c :: cs) = (readAtom (c :: cs)).map fun read => (.atom read.1, read.2) := by
  simp only [List.mem_cons, List.not_mem_nil, or_false, not_or] at hc
  obtain ⟨h1, h2, h3, h4, h5, h6, h7⟩ := hc
  unfold readToken
  split <;> simp_all

theorem digit_ne {c : Char} (h : c.isDigit = true) :
    c ≠ '-' ∧ c ∉ ['[', ']', '\x7b', '\x7d', ',', ':', '"'] ∧ isSpace c = false := by
  have hne : ∀ d : Char, d.isDigit = false → c ≠ d := by
    rintro d hd rfl
    rw [h] at hd
    exact absurd hd (by decide)
  refine ⟨hne _ (by decide), ?_, ?_⟩
  · simp only [List.mem_cons, List.not_mem_nil, or_false, not_or]
    exact ⟨hne _ (by decide), hne _ (by decide), hne _ (by decide), hne _ (by decide),
      hne _ (by decide), hne _ (by decide), hne _ (by decide)⟩
  · simp only [isSpace, Bool.or_eq_false_iff, beq_eq_false_iff_ne]
    exact ⟨⟨⟨hne _ (by decide), hne _ (by decide)⟩, hne _ (by decide)⟩, hne _ (by decide)⟩

/-- The text of an integer: its digits, with a minus sign in front of a negative one. -/
theorem toList_toString_int (n : Int) : (toString n).toList =
    if n < 0 then '-' :: Nat.toDigits 10 n.natAbs else Nat.toDigits 10 n.natAbs := by
  rw [Int.toString_eq_repr, Int.repr_eq_if]
  split
  · rename_i h
    rw [if_neg (by omega), Nat.repr_eq_ofList_toDigits, String.toList_ofList]
    congr
    omega
  · rename_i h
    have hneg : (-n).toNat = n.natAbs := by omega
    rw [if_pos (by omega), hneg, Nat.repr_eq_ofList_toDigits]
    simp

/-- An integer that is written is read back, if it has not too many digits. -/
theorem readToken_int (n : Int) (hrest : EndsNumber rest)
    (hlong : (Nat.toDigits 10 n.natAbs).length ≤ maxIntegerDigits) :
    readToken ((toString n).toList ++ rest) = some (.atom (.int n), rest) := by
  have hread := fun negative => readNumber_toDigits negative hrest hlong
  rw [toList_toString_int]
  split
  · rename_i hneg
    have habs : -(n.natAbs : Int) = n := by omega
    rw [List.cons_append, readToken_of_plain _ (by decide), readAtom, hread, if_pos rfl, habs]
    rfl
  · rename_i hneg
    have habs : (n.natAbs : Int) = n := by omega
    obtain ⟨d, ds, hds⟩ := List.exists_cons_of_ne_nil (Nat.toDigits_ne_nil (n := n.natAbs) (b := 10))
    have hdigit : d.isDigit = true :=
      Nat.isDigit_of_mem_toDigits (by decide) (by decide) (hds ▸ List.mem_cons_self)
    rw [hds] at hread ⊢
    rw [List.cons_append, readToken_of_plain _ (digit_ne hdigit).2.1,
      readAtom.eq_2 _ (by rintro cs heq; exact (digit_ne hdigit).1 (List.cons.inj heq).1),
      ← List.cons_append, hread, if_neg (by decide), habs]
    rfl

/-! ## Cutting a text -/

/-- The text begins with the given tokens, and the rest follows. -/
structure StartsWith (cs : List Char) (ts : List Token) (rest : List Char) : Prop where
  read : ∀ limit, readTokens (ts.length + limit) cs =
    (ts ++ (readTokens limit rest).1, (readTokens limit rest).2)
  /-- No token is empty. -/
  length_le : ts.length + rest.length ≤ cs.length

namespace StartsWith

theorem nil (cs : List Char) : StartsWith cs [] cs where
  read := fun limit => by simp
  length_le := by simp

theorem append {cs ds es : List Char} {ts us : List Token} (h : StartsWith cs ts ds)
    (h' : StartsWith ds us es) : StartsWith cs (ts ++ us) es where
  read := by
    intro limit
    rw [List.length_append, Nat.add_assoc, h.read, h'.read, List.append_assoc]
  length_le := by
    have hfirst := h.length_le
    have hsecond := h'.length_le
    rw [List.length_append]
    omega

/-- Blanks between tokens do not count. -/
theorem blank {blanks cs : List Char} {ts : List Token} (hblanks : blanks.all isSpace = true)
    (h : StartsWith cs ts rest) : StartsWith (blanks ++ cs) ts rest where
  read := by
    intro limit
    rw [← h.read limit]
    cases ts.length + limit with
    | zero => rfl
    | succ k =>
        rw [readTokens, readTokens, List.dropWhile_append_of_pos (List.all_eq_true.mp hblanks)]
  length_le := by
    have hlength := h.length_le
    rw [List.length_append]
    omega

theorem token {c : Char} {cs : List Char} {t : Token} (hc : isSpace c = false)
    (h : readToken (c :: cs) = some (t, rest)) (hlength : rest.length ≤ cs.length) :
    StartsWith (c :: cs) [t] rest where
  read := by
    intro limit
    rw [List.length_singleton, Nat.add_comm, readTokens,
      List.dropWhile_cons_of_neg (by simp [hc])]
    simp only [h]
    rfl
  length_le := by
    rw [List.length_singleton, List.length_cons]
    omega

/-- A bracket, comma or colon, and more tokens. -/
theorem mark {c : Char} {cs : List Char} {t : Token} {ts : List Token} (hc : isSpace c = false)
    (h : ∀ cs, readToken (c :: cs) = some (t, cs)) (h' : StartsWith cs ts rest) :
    StartsWith (c :: cs) (t :: ts) rest :=
  (token hc (h cs) (Nat.le_refl _)).append h'

/-- The tokens of a text that ends with them. -/
theorem readTokens_eq {cs : List Char} {ts : List Token} (h : StartsWith cs ts []) :
    readTokens (cs.length + 1) cs = (ts, true) := by
  have hlength := h.length_le
  obtain ⟨k, hk⟩ : ∃ k, cs.length + 1 = ts.length + (k + 1) :=
    ⟨cs.length - ts.length, by rw [List.length_nil] at hlength; omega⟩
  rw [hk, h.read]
  simp [readTokens]

theorem tokens?_eq {cs : List Char} {ts : List Token} (h : StartsWith cs ts []) :
    tokens? cs = some ts := by
  rw [tokens?, h.readTokens_eq]

theorem leadingTokens_eq {cs : List Char} {ts : List Token} (h : StartsWith cs ts []) :
    leadingTokens cs = ts := by
  rw [leadingTokens, h.readTokens_eq]

end StartsWith

theorem startsWith_null (rest : List Char) :
    StartsWith ("null".toList ++ rest) [.atom .null] rest := by
  have hchars : "null".toList = ['n', 'u', 'l', 'l'] := by decide
  rw [hchars]
  exact .token (by decide) rfl (by simp; omega)

theorem startsWith_true (rest : List Char) :
    StartsWith ("true".toList ++ rest) [.atom (.bool true)] rest := by
  have hchars : "true".toList = ['t', 'r', 'u', 'e'] := by decide
  rw [hchars]
  exact .token (by decide) rfl (by simp; omega)

theorem startsWith_false (rest : List Char) :
    StartsWith ("false".toList ++ rest) [.atom (.bool false)] rest := by
  have hchars : "false".toList = ['f', 'a', 'l', 's', 'e'] := by decide
  rw [hchars]
  exact .token (by decide) rfl (by simp; omega)

/-- A string that is written is one token. -/
theorem startsWith_string (s : String) (rest : List Char) :
    StartsWith ((writeString s).toList ++ rest) [.text s] rest := by
  have hread := readToken_writeString s rest
  rw [toList_writeString] at hread ⊢
  exact .token (by decide) hread (by simp; omega)

/-- An integer that is written is one token. -/
theorem startsWith_int (n : Int) (hrest : EndsNumber rest)
    (hlong : (Nat.toDigits 10 n.natAbs).length ≤ maxIntegerDigits) :
    StartsWith ((toString n).toList ++ rest) [.atom (.int n)] rest := by
  have hread := readToken_int n hrest hlong
  obtain ⟨c, cs, hcs, hc⟩ : ∃ c cs, (toString n).toList = c :: cs ∧ isSpace c = false := by
    rw [toList_toString_int]
    split
    · exact ⟨_, _, rfl, by decide⟩
    · obtain ⟨d, ds, hds⟩ :=
        List.exists_cons_of_ne_nil (Nat.toDigits_ne_nil (n := n.natAbs) (b := 10))
      exact ⟨d, ds, hds, (digit_ne (Nat.isDigit_of_mem_toDigits (by decide) (by decide)
        (hds ▸ List.mem_cons_self))).2.2⟩
  rw [hcs, List.cons_append] at hread ⊢
  exact .token hc hread (by simp)

end TestAtlas.Json
