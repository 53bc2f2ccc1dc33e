import TestAtlas.Decimal.Shortest

/-!
# Writing decimals

A `NumberForm` records how the digits of a number are laid out: between which places of the decimal
point they are written without an exponent, and how an exponent and the numbers without digits
look.
-/

namespace TestAtlas.Binary64

/-- The layout of a number. -/
structure NumberForm where
  /-- The point stands at least here in positional writing. -/
  firstPoint : Int
  /-- The point stands at most here in positional writing. -/
  lastPoint : Int
  /-- The least number of digits of an exponent. -/
  exponentWidth : Nat
  infinity : String
  notANumber : String

/-- The digits with the point among them; a whole number ends in `.0`. -/
def positional (t : DigitText) : String :=
  let n := t.digits.length
  match t.point with
  | .ofNat 0 => "0." ++ String.ofList t.digits
  | .ofNat p =>
    if n ≤ p then String.ofList t.digits ++ String.ofList (List.replicate (p - n) '0') ++ ".0"
    else String.ofList (t.digits.take p) ++ "." ++ String.ofList (t.digits.drop p)
  | .negSucc z => "0." ++ String.ofList (List.replicate (z + 1) '0') ++ String.ofList t.digits

/-- The digits with the point after the first one, and a signed exponent. -/
def withExponent (form : NumberForm) (t : DigitText) : String :=
  let e := t.point - 1
  let ds := Nat.toDigits 10 e.natAbs
  let mantissa := match t.digits with
    | [] => "0"
    | [d] => String.ofList [d]
    | d :: rest => String.ofList (d :: '.' :: rest)
  mantissa ++ (if e < 0 then "e-" else "e+")
    ++ String.ofList (List.replicate (form.exponentWidth - ds.length) '0' ++ ds)

/-- The text of a positive number with the given digits. -/
def layout (form : NumberForm) (t : DigitText) : String :=
  if form.firstPoint ≤ t.point ∧ t.point ≤ form.lastPoint then positional t
  else withExponent form t

/-- The text of a number, with the fewest digits that read back. -/
def render (form : NumberForm) : Binary64 → String
  | .finite negative m e =>
    (if negative then "-" else "") ++ (if m = 0 then "0.0" else layout form (shortest m e))
  | .infinite negative => (if negative then "-" else "") ++ form.infinity
  | .notANumber => form.notANumber

end TestAtlas.Binary64
