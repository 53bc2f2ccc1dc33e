import TestAtlas.Text.Ranges

/-!
# White space

The blank characters are the separators of every width and the control characters
that act as one.  Removing them from the ends of a text is `strip`.
-/

namespace TestAtlas.Text

/-- The changes of the blank characters above the ASCII range. -/
def blankChanges : List Nat :=
   [133, 134, 160, 161, 5760, 5761, 8192, 8203, 8232, 8234, 8239, 8240, 8287, 8288, 12288, 12289]

/-- A tabulation, a line end, one of the four information separators, or a space of any width. -/
def isBlank (c : Char) : Bool :=
  let n := c.toNat
  if n < 128 then n == 32 || (9 ≤ n && n ≤ 13) || (28 ≤ n && n ≤ 31)
  else changesInside blankChanges n

/-- The text without the blanks at its start. -/
def stripLeft (cs : List Char) : List Char := cs.dropWhile isBlank

/-- The text without the blanks at its end. -/
def stripRight (cs : List Char) : List Char := (cs.reverse.dropWhile isBlank).reverse

/-- The text without the blanks at its ends. -/
def strip (cs : List Char) : List Char := stripRight (stripLeft cs)

/-- The text without the blanks at its ends. -/
def trimmed (s : String) : String := String.ofList (strip s.toList)

@[simp]
theorem strip_nil : strip [] = [] := rfl

theorem stripLeft_eq_self {c : Char} {cs : List Char} (h : isBlank c = false) :
    stripLeft (c :: cs) = c :: cs := by
  simp [stripLeft, h]

end TestAtlas.Text
