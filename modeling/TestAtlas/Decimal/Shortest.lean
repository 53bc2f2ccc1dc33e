import TestAtlas.Decimal.Binary64

/-!
# The fewest decimal digits that read back

Every finite number is the nearest one to a whole interval of decimals.  `shortest` looks, for one
digit, two digits and so on, at the two decimals with that many digits around the number, and takes
the first count at which one of them lies in the interval; of two that do, the nearer, and of two
equally near the one with the even last digit.
-/

namespace TestAtlas.Binary64

/-- A positive decimal `digits * 10 ^ (point - number of digits)`: its digits follow the decimal
point when `point` is zero. -/
structure DigitText where
  digits : List Char
  point : Int
  deriving DecidableEq, Repr

/-- The interval of the positive numbers that are nearest to one mantissa and exponent.  The value
and the ends are multiples of a unit of `unitNum / unitDen`; the ends belong to it when
`closed`. -/
structure RoundingInterval where
  unitNum : Nat
  unitDen : Nat
  value : Nat
  low : Nat
  high : Nat
  closed : Bool

/-- The rounding interval of `m * 2 ^ e`.  Below a power of two the numbers lie twice as close. -/
def roundingInterval (m : Nat) (e : Int) : RoundingInterval :=
  let (unitNum, unitDen) := match e - 2 with
    | .ofNat k => (twoTo k, 1)
    | .negSucc k => (1, twoTo (k + 1))
  { unitNum, unitDen
    value := 4 * m
    low := if m = twoTo 52 ∧ minExponent < e then 4 * m - 1 else 4 * m - 2
    high := 4 * m + 2
    closed := m % 2 == 0 }

namespace RoundingInterval

/-- The numerator and denominator of `n` units divided by `10 ^ k`. -/
def inTens (i : RoundingInterval) (n : Nat) (k : Int) : Nat × Nat :=
  match k with
  | .ofNat j => (n * i.unitNum, i.unitDen * tenTo j)
  | .negSucc j => (n * i.unitNum * tenTo (j + 1), i.unitDen)

/-- The decimal `f * 10 ^ k` lies in the interval. -/
def contains (i : RoundingInterval) (f : Nat) (k : Int) : Bool :=
  let (ln, d) := i.inTens i.low k
  let (hn, _) := i.inTens i.high k
  if i.closed then ln ≤ f * d && f * d ≤ hn else ln < f * d && f * d < hn

/-- The place of the decimal point before the first digit of the value. -/
def point (i : RoundingInterval) : Int :=
  let num := i.value * i.unitNum
  let den := i.unitDen
  if den ≤ num then digitCount (num / den)
  else 1 - (digitCount ((den + num - 1) / num - 1) : Int)

/-- The decimal of the given number of digits that stands for the value, if one is in the
interval. -/
def candidate? (i : RoundingInterval) (count : Nat) : Option Nat :=
  let k := i.point - count
  let (n, d) := i.inTens i.value k
  let f := n / d
  match i.contains f k, i.contains (f + 1) k with
  | true, false => some f
  | false, true => some (f + 1)
  | false, false => none
  | true, true =>
    let twice := 2 * (n % d)
    if twice < d then some f
    else if d < twice then some (f + 1)
    else some (f + f % 2)

end RoundingInterval

/-- The digits of a decimal without the zeros at its end. -/
def trimZeros (cs : List Char) : List Char := (cs.reverse.dropWhile (· == '0')).reverse

/-- The shortest digits of the positive number `m * 2 ^ e`. -/
def shortest (m : Nat) (e : Int) : DigitText :=
  let i := roundingInterval m e
  match (List.range 17).findSome? fun c => (i.candidate? (c + 1)).map (c + 1, ·) with
  | some (count, f) =>
    let ds := Nat.toDigits 10 f
    { digits := trimZeros ds, point := i.point + ((ds.length : Int) - count) }
  | none => { digits := Nat.toDigits 10 m, point := 0 }

end TestAtlas.Binary64
