import TestAtlas.Text.Percent

/-!
# Escaped text is read back

Reading the UTF-8 bytes of a text gives its characters, and reading an escaped text gives the text,
as long as the characters that stand for themselves are ASCII and none of them is the percent sign.
The main statements are `decode_encode` and `unescape_escape`.
-/

namespace TestAtlas.Text

namespace Utf8

/-- A byte within the bounds continues a character that still owes several bytes. -/
theorem decodeFrom_continue {owed low high value b : Nat} (howed : 1 < owed) (hlow : low ≤ b)
    (hhigh : b ≤ high) (hb : b < 256) (bs : List UInt8) :
    decodeFrom (some ⟨owed, low, high, value⟩) (b.toUInt8 :: bs) =
      decodeFrom (some ⟨owed - 1, 0x80, 0xBF, value * 64 + (b - 0x80)⟩) bs := by
  have hnat : b.toUInt8.toNat = b := by
    simp [Nat.mod_eq_of_lt hb]
  rw [decodeFrom, hnat, readByte, readNext, if_pos ⟨hlow, hhigh⟩, if_neg (by simpa using howed)]
  rfl

/-- A byte within the bounds ends a character that owes one byte. -/
theorem decodeFrom_last {low high value b : Nat} (hlow : low ≤ b) (hhigh : b ≤ high)
    (hb : b < 256) (bs : List UInt8) :
    decodeFrom (some ⟨1, low, high, value⟩) (b.toUInt8 :: bs) =
      some (Char.ofNat (value * 64 + (b - 0x80))) :: decode bs := by
  have hnat : b.toUInt8.toNat = b := by
    simp [Nat.mod_eq_of_lt hb]
  rw [decodeFrom, hnat, readByte, readNext, if_pos ⟨hlow, hhigh⟩]
  rfl

theorem decode_lead {b : Nat} (hb : b < 256) {reading : Reading} (h : readLead b = reading)
    (bs : List UInt8) : decode (b.toUInt8 :: bs) = reading.1 ++ decodeFrom reading.2 bs := by
  have hnat : b.toUInt8.toNat = b := by
    simp [Nat.mod_eq_of_lt hb]
  rw [decode, decodeFrom, hnat, readByte, h]

/-- The first byte of a character of two bytes. -/
theorem readLead_two {b : Nat} (hlow : 0xC2 ≤ b) (hhigh : b < 0xE0) :
    readLead b = ([], some ⟨1, 0x80, 0xBF, b - 0xC0⟩) := by
  rw [readLead, if_neg (by omega), if_neg (by omega), if_pos (by omega)]

/-- The first byte of a character of three bytes: the second byte keeps overlong forms and
surrogates out. -/
theorem readLead_three {b : Nat} (hlow : 0xE0 ≤ b) (hhigh : b < 0xF0) :
    readLead b = ([], some ⟨2, if b = 0xE0 then 0xA0 else 0x80, if b = 0xED then 0x9F else 0xBF,
      b - 0xE0⟩) := by
  rw [readLead, if_neg (by omega), if_neg (by omega), if_neg (by omega)]
  by_cases h0 : b = 0xE0
  · simp [h0]
  · by_cases hD : b = 0xED
    · simp [hD]
    · rw [if_neg h0, if_neg hD, if_pos hhigh, if_neg h0, if_neg hD]

/-- The first byte of a character of four bytes. -/
theorem readLead_four {b : Nat} (hlow : 0xF0 ≤ b) (hhigh : b ≤ 0xF4) :
    readLead b = ([], some ⟨3, if b = 0xF0 then 0x90 else 0x80, if b = 0xF4 then 0x8F else 0xBF,
      b - 0xF0⟩) := by
  rw [readLead, if_neg (by omega), if_neg (by omega), if_neg (by omega), if_neg (by omega),
    if_neg (by omega), if_neg (by omega)]
  by_cases h0 : b = 0xF0
  · simp [h0]
  · by_cases h4 : b = 0xF4
    · simp [h4]
    · rw [if_neg h0, if_pos (by omega), if_neg h0, if_neg h4]

/-- Code points are those below the surrogates and those from the surrogates on up to the last. -/
theorem toNat_bounds (c : Char) : c.toNat < 0xD800 ∨ 0xDFFF < c.toNat ∧ c.toNat < 0x110000 :=
  c.valid

/-- Reading the bytes of a character gives it back, whatever follows. -/
theorem decode_encodeChar (c : Char) (bs : List UInt8) :
    decode (encodeChar c ++ bs) = some c :: decode bs := by
  have hbounds := toNat_bounds c
  have hchar : Char.ofNat c.toNat = c := Char.ofNat_toNat c
  -- the cases are those of the encoding: one to four bytes
  simp only [encodeChar]
  split
  · rename_i h1
    have hlead : readLead c.toNat = ([some c], none) := by rw [readLead, if_pos h1, hchar]
    rw [List.singleton_append, decode_lead (by omega) hlead]
    rfl
  · split
    · rename_i h1 h2
      simp only [List.cons_append, List.nil_append]
      rw [decode_lead (by omega) (readLead_two (by omega) (by omega)), List.nil_append,
        decodeFrom_last (by omega) (by omega) (by omega)]
      have hvalue : (0xC0 + c.toNat / 64 - 0xC0) * 64 + (0x80 + c.toNat % 64 - 0x80) =
          c.toNat := by omega
      rw [hvalue, hchar]
    · split
      · rename_i h1 h2 h3
        simp only [List.cons_append, List.nil_append]
        rw [decode_lead (by omega) (readLead_three (by omega) (by omega)), List.nil_append,
          decodeFrom_continue (by omega) (by split <;> omega) (by split <;> omega) (by omega),
          decodeFrom_last (by omega) (by omega) (by omega)]
        have hvalue : ((0xE0 + c.toNat / 4096 - 0xE0) * 64 + (0x80 + c.toNat / 64 % 64 - 0x80)) * 64
            + (0x80 + c.toNat % 64 - 0x80) = c.toNat := by omega
        rw [hvalue, hchar]
      · rename_i h1 h2 h3
        simp only [List.cons_append, List.nil_append]
        rw [decode_lead (by omega) (readLead_four (by omega) (by omega)), List.nil_append,
          decodeFrom_continue (by omega) (by split <;> omega) (by split <;> omega) (by omega),
          decodeFrom_continue (by omega) (by omega) (by omega) (by omega),
          decodeFrom_last (by omega) (by omega) (by omega)]
        have hvalue : (((0xF0 + c.toNat / 262144 - 0xF0) * 64
            + (0x80 + c.toNat / 4096 % 64 - 0x80)) * 64 + (0x80 + c.toNat / 64 % 64 - 0x80)) * 64
            + (0x80 + c.toNat % 64 - 0x80) = c.toNat := by omega
        rw [hvalue, hchar]

/-- Reading the bytes of a text gives its characters. -/
theorem decode_encode (cs : List Char) : decode (encode cs) = cs.map some := by
  induction cs with
  | nil => rfl
  | cons c cs ih => rw [encode_cons, decode_encodeChar, ih, List.map_cons]

theorem decodeLossy_encode (cs : List Char) : decodeLossy (encode cs) = cs := by
  simp [decodeLossy, decode_encode, Function.comp_def]

/-- Each byte completes a character or leaves one unfinished. -/
theorem readLead_shows (b : Nat) : (readLead b).1 ≠ [] ∨ (readLead b).2.isSome = true := by
  unfold readLead
  repeat' split
  all_goals simp

theorem readNext_shows (p : Pending) (b : Nat) :
    (readNext p b).1 ≠ [] ∨ (readNext p b).2.isSome = true := by
  unfold readNext
  split
  · by_cases howed : p.owed ≤ 1 <;> simp [howed]
  · simp

/-- An unfinished character shows up in what is decoded, whatever follows. -/
theorem decodeFrom_some_ne_nil (p : Pending) (bs : List UInt8) : decodeFrom (some p) bs ≠ [] := by
  induction bs generalizing p with
  | nil => simp [decodeFrom]
  | cons b bs ih =>
      rw [decodeFrom, readByte]
      rcases readNext_shows p b.toNat with hout | hnext
      · simp [hout]
      · obtain ⟨q, hq⟩ := Option.isSome_iff_exists.mp hnext
        simp [hq, ih q]

theorem decode_cons_ne_nil (b : UInt8) (bs : List UInt8) : decode (b :: bs) ≠ [] := by
  rw [decode, decodeFrom, readByte]
  rcases readLead_shows b.toNat with hout | hnext
  · simp [hout]
  · obtain ⟨q, hq⟩ := Option.isSome_iff_exists.mp hnext
    simp [hq, decodeFrom_some_ne_nil q]

end Utf8

namespace Percent

open Utf8

/-- Only ASCII characters other than the percent sign stand for themselves. -/
def IsSafe (safe : List Char) : Prop := ∀ c ∈ safe, c.toNat < 128 ∧ c ≠ '%'

theorem isUnreserved_bounds {c : Char} (h : isUnreserved c = true) : c.toNat < 128 ∧ c ≠ '%' := by
  delta isUnreserved Char.isAlphanum Char.isAlpha Char.isUpper Char.isLower Char.isDigit at h
  simp only [Bool.or_eq_true, Bool.and_eq_true, decide_eq_true_eq, beq_iff_eq,
    UInt32.le_iff_toNat_le, ge_iff_le] at h
  change ((((((65 ≤ c.toNat ∧ c.toNat ≤ 90) ∨ (97 ≤ c.toNat ∧ c.toNat ≤ 122)) ∨
    (48 ≤ c.toNat ∧ c.toNat ≤ 57)) ∨ c = '_') ∨ c = '.') ∨ c = '-') ∨ c = '~' at h
  have hpercent : c = '%' → c.toNat = 37 := by
    rintro rfl
    decide
  rcases h with (((((h | h) | h) | rfl) | rfl) | rfl) | rfl
  · exact ⟨by omega, fun hc => by have := hpercent hc; omega⟩
  · exact ⟨by omega, fun hc => by have := hpercent hc; omega⟩
  · exact ⟨by omega, fun hc => by have := hpercent hc; omega⟩
  all_goals exact ⟨by decide, by decide⟩

/-- A character that stands for itself is one byte. -/
theorem bytes_cons {c : Char} (h : c ≠ '%') (cs : List Char) :
    bytes (c :: cs) = c.toNat.toUInt8 :: bytes cs := by
  rw [bytes]
  · rintro a b rest rfl
    exact absurd rfl h

theorem bytes_escapeByte (b : UInt8) (cs : List Char) :
    bytes (escapeByte b ++ cs) = b :: bytes cs := by
  have hb : b.toNat < 256 := b.toNat_lt
  simp only [escapeByte, List.cons_append, List.nil_append]
  rw [bytes, hexValue_hexDigit (by omega), hexValue_hexDigit (by omega)]
  simp only
  have hdiv : b.toNat / 16 * 16 + b.toNat % 16 = b.toNat := by omega
  rw [hdiv]
  simp

theorem bytes_flatMap_escapeByte (bs : List UInt8) (cs : List Char) :
    bytes (bs.flatMap escapeByte ++ cs) = bs ++ bytes cs := by
  induction bs with
  | nil => rfl
  | cons b bs ih => rw [List.flatMap_cons, List.append_assoc, bytes_escapeByte, ih, List.cons_append]

/-- The bytes that an escaped text stands for are those of the text. -/
theorem bytes_escape {safe : List Char} (hsafe : IsSafe safe) (cs : List Char) :
    bytes (escape safe cs) = encode cs := by
  induction cs with
  | nil => rfl
  | cons c cs ih =>
      rw [encode_cons, escape, List.flatMap_cons]
      split
      · rename_i hplain
        have hc : c.toNat < 128 ∧ c ≠ '%' := by
          rcases (Bool.or_eq_true _ _).mp hplain with h | h
          · exact isUnreserved_bounds h
          · exact hsafe c (by simpa using h)
        rw [List.singleton_append, bytes_cons hc.2, ← escape, ih, encodeChar, if_pos hc.1]
        rfl
      · rw [bytes_flatMap_escapeByte, ← escape, ih]

theorem hexDigit_toNat_lt {n : Nat} (h : n < 16) : (hexDigit n).toNat < 128 := by
  revert h
  revert n
  decide

/-- An escaped text is ASCII. -/
theorem toNat_lt_of_mem_escape {safe : List Char} (hsafe : IsSafe safe) {cs : List Char} {c : Char}
    (h : c ∈ escape safe cs) : c.toNat < 128 := by
  obtain ⟨d, -, hd⟩ := List.mem_flatMap.mp h
  split at hd
  · rename_i hplain
    rw [List.mem_singleton.mp hd]
    rcases (Bool.or_eq_true _ _).mp hplain with h | h
    · exact (isUnreserved_bounds h).1
    · exact (hsafe d (by simpa using h)).1
  · obtain ⟨b, -, hb⟩ := List.mem_flatMap.mp hd
    have hlt : b.toNat < 256 := b.toNat_lt
    simp only [escapeByte, List.mem_cons, List.not_mem_nil, or_false] at hb
    rcases hb with rfl | rfl | rfl
    · decide
    · exact hexDigit_toNat_lt (by omega)
    · exact hexDigit_toNat_lt (by omega)

/-- ASCII text is one run. -/
theorem asciiRuns_of_ascii {cs : List Char} (h : ∀ c ∈ cs, c.toNat < 128) :
    asciiRuns cs = if cs = [] then [] else [.inl cs] := by
  induction cs with
  | nil => rfl
  | cons c cs ih =>
      rw [asciiRuns, if_pos (h c (by simp)), ih (fun d hd => h d (by simp [hd])),
        if_neg (List.cons_ne_nil c cs)]
      cases cs with
      | nil => rfl
      | cons d cs => rfl

/-- Reading an escaped text gives the text. -/
theorem unescape_escape {safe : List Char} (hsafe : IsSafe safe) (cs : List Char) :
    unescape (escape safe cs) = cs := by
  rw [unescape, asciiRuns_of_ascii fun c hc => toNat_lt_of_mem_escape hsafe hc]
  have hbytes := bytes_escape hsafe cs
  split
  · rename_i hnil
    rw [hnil] at hbytes
    have hcs : (encode cs) = [] := hbytes.symm
    rw [← decodeLossy_encode cs, hcs]
    rfl
  · simp [hbytes, decodeLossy_encode]

theorem bytes_cons_ne_nil (c : Char) (cs : List Char) : bytes (c :: cs) ≠ [] := by
  rw [bytes.eq_def]
  repeat' split
  all_goals simp_all

/-- Only the empty text stands for the empty text. -/
theorem unescape_eq_nil_iff {cs : List Char} : unescape cs = [] ↔ cs = [] := by
  cases cs with
  | nil => simp
  | cons c cs =>
      have hrun : ∀ d ds, Utf8.decodeLossy (bytes (d :: ds)) ≠ [] := by
        intro d ds
        obtain ⟨b, bs, hbytes⟩ := List.exists_cons_of_ne_nil (bytes_cons_ne_nil d ds)
        rw [hbytes, Utf8.decodeLossy]
        simpa using Utf8.decode_cons_ne_nil b bs
      rw [unescape, asciiRuns]
      repeat' split
      all_goals simp [hrun]

end Percent

end TestAtlas.Text
