import TestAtlas.Text.Blank
import TestAtlas.Text.Word

/-!
# Whole numbers in texts

The decimal digits of every script stand in blocks of ten, from zero to nine.  A whole number is
written with such digits, possibly with a sign before them, single underscores between them and
blanks around all.  Here the information separators do not count as blanks.
-/

namespace TestAtlas.Text

/-- The place of a code point in the block of ten that it lies in; the blocks are given by the code
points where digits begin and end in turn. -/
def placeInBlock : List Nat → Nat → Option Nat
  | first :: after :: rest, n =>
    if n < first then none
    else if n < after then some ((n - first) % 10)
    else placeInBlock rest n
  | _, _ => none

/-- The value of a decimal digit. -/
def digitValue? (c : Char) : Option Nat := placeInBlock (48 :: 58 :: decimalDigitChanges) c.toNat

/-- The values of digits with single underscores between them, one digit at least. -/
def digitValues? : List Char → Option (List Nat)
  | [] => none
  | [c] => (digitValue? c).map fun d => [d]
  | c :: '_' :: rest => do
    let d ← digitValue? c
    let ds ← digitValues? rest
    return d :: ds
  | c :: rest => do
    let d ← digitValue? c
    let ds ← digitValues? rest
    return d :: ds

/-- The number with the given decimal digits. -/
def ofDigits (ds : List Nat) : Nat := ds.foldl (fun n d => 10 * n + d) 0

/-- More digits than this are not read as a number. -/
def maxDigits : Nat := 4300

/-- The natural number that digits stand for. -/
def natural? (cs : List Char) : Option Nat := do
  let ds ← digitValues? cs
  if ds.length ≤ maxDigits then some (ofDigits ds) else none

/-- The character may stand around a number: a blank that is no information separator. -/
def isNumberMargin (c : Char) : Bool := isBlank c && !(28 ≤ c.toNat && c.toNat ≤ 31)

/-- The text without the blanks around the number that it is to hold. -/
def withoutMargins (cs : List Char) : List Char :=
  ((cs.dropWhile isNumberMargin).reverse.dropWhile isNumberMargin).reverse

/-- The whole number that a text stands for. -/
def wholeNumber? (cs : List Char) : Option Int :=
  match withoutMargins cs with
  | '-' :: ds => (natural? ds).map fun n => -(n : Int)
  | '+' :: ds => (natural? ds).map Int.ofNat
  | ds => (natural? ds).map Int.ofNat

example : wholeNumber? [' ', '-', '1', '_', '2'] = some (-12) := by decide
example : wholeNumber? ['1', '_', '_', '2'] = none := by decide
example : digitValue? '٣' = some 3 := by decide

/-- The place in a block of ten is below ten. -/
theorem placeInBlock_lt {changes : List Nat} {n d : Nat} (h : placeInBlock changes n = some d) :
    d < 10 := by
  fun_induction placeInBlock changes n with
  | case1 => simp at h
  | case2 =>
    simp only [Option.some.injEq] at h
    omega
  | case3 _ _ _ _ _ _ ih => exact ih h
  | case4 => simp at h

end TestAtlas.Text
