/-!
# Lines of a text

A line ends at a line feed, a carriage return, the two together, a vertical tabulation,
a form feed, one of the three upper information separators, the next-line control, or the
line and paragraph separators.  The ends are not part of the lines, and an end at the end of the
text starts no further line.
-/

namespace TestAtlas.Text

/-- The character ends a line. -/
def isLineEnd (c : Char) : Bool :=
  let n := c.toNat
  (10 ≤ n && n ≤ 13) || (28 ≤ n && n ≤ 30) || n == 0x85 || n == 0x2028 || n == 0x2029

/-- Puts a character in front of the first line. -/
def ontoFirst (c : Char) : List (List Char) → List (List Char)
  | [] => [[c]]
  | line :: rest => (c :: line) :: rest

/-- The lines of a text. -/
def lines : List Char → List (List Char)
  | [] => []
  | '\r' :: '\n' :: cs => [] :: lines cs
  | c :: cs => if isLineEnd c then [] :: lines cs else ontoFirst c (lines cs)

@[simp]
theorem lines_nil : lines [] = [] := by simp [lines]

end TestAtlas.Text
