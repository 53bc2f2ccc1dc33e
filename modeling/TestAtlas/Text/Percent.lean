import TestAtlas.Text.Utf8

/-!
# Percent escapes

`escape` writes every character outside a safe set as its UTF-8 bytes, each as a percent sign
with two capital hexadecimal digits.  `unescape` reads such escapes back; a percent sign that
starts no escape stands for itself, and bytes that are not UTF-8 become replacement characters.
-/

namespace TestAtlas.Text.Percent

/-- A hexadecimal digit, in capitals. -/
def hexDigit (n : Nat) : Char :=
  if n < 10 then Char.ofNat (48 + n) else Char.ofNat (55 + n)

/-- The value of a hexadecimal digit in either case. -/
def hexValue (c : Char) : Option Nat :=
  let n := c.toNat
  if 48 ≤ n ∧ n ≤ 57 then some (n - 48)
  else if 65 ≤ n ∧ n ≤ 70 then some (n - 55)
  else if 97 ≤ n ∧ n ≤ 102 then some (n - 87)
  else none

/-- A percent sign and the two digits of a byte. -/
def escapeByte (b : UInt8) : List Char :=
  ['%', hexDigit (b.toNat / 16), hexDigit (b.toNat % 16)]

/-- Letters, digits and `_ . - ~` never need an escape. -/
def isUnreserved (c : Char) : Bool :=
  c.isAlphanum || c == '_' || c == '.' || c == '-' || c == '~'

/-- Writes a text so that only unreserved characters and those of `safe` stand for themselves. -/
def escape (safe : List Char) (cs : List Char) : List Char :=
  cs.flatMap fun c =>
    if isUnreserved c || safe.contains c then [c]
    else (Utf8.encodeChar c).flatMap escapeByte

/-- The bytes an ASCII text stands for. -/
def bytes : List Char → List UInt8
  | [] => []
  | '%' :: a :: b :: cs =>
    match hexValue a, hexValue b with
    | some x, some y => (x * 16 + y).toUInt8 :: bytes cs
    | _, _ => '%'.toNat.toUInt8 :: bytes (a :: b :: cs)
  | c :: cs => c.toNat.toUInt8 :: bytes cs

/-- Cuts a text into its runs of ASCII characters and the characters between them. -/
def asciiRuns : List Char → List (List Char ⊕ Char)
  | [] => []
  | c :: cs =>
    if c.toNat < 128 then
      match asciiRuns cs with
      | .inl run :: rest => .inl (c :: run) :: rest
      | rest => .inl [c] :: rest
    else .inr c :: asciiRuns cs

/-- Reads the escapes of a text.  Escapes next to each other are read as one byte text, and
characters outside ASCII stand for themselves. -/
def unescape (cs : List Char) : List Char :=
  (asciiRuns cs).flatMap fun
    | .inl run => Utf8.decodeLossy (bytes run)
    | .inr c => [c]

@[simp]
theorem escape_nil (safe : List Char) : escape safe [] = [] := rfl

@[simp]
theorem unescape_nil : unescape [] = [] := rfl

theorem hexValue_hexDigit {n : Nat} (h : n < 16) : hexValue (hexDigit n) = some n := by
  revert h
  revert n
  decide

end TestAtlas.Text.Percent
