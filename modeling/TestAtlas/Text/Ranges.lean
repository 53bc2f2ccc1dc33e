/-!
# Sets of code points

A set of code points is written as the ascending list of the points at which
membership changes: outside before the first one, inside from the first to the
second, and so on.  The tables of the character properties are such lists.
-/

namespace TestAtlas.Text

/-- Membership of `n` in the set whose membership changes at each listed point. -/
def changesInside : List Nat → Nat → Bool
  | [], _ => false
  | b :: bs, n => if n < b then false else !changesInside bs n

@[simp]
theorem changesInside_nil (n : Nat) : changesInside [] n = false := rfl

theorem changesInside_of_lt {b n : Nat} (bs : List Nat) (h : n < b) :
    changesInside (b :: bs) n = false := by
  simp [changesInside, h]

theorem changesInside_of_le {b n : Nat} (bs : List Nat) (h : b ≤ n) :
    changesInside (b :: bs) n = !changesInside bs n := by
  simp [changesInside, Nat.not_lt.mpr h]

end TestAtlas.Text
