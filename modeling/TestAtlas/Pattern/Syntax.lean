import TestAtlas.Text.Blank
import TestAtlas.Text.Case
import TestAtlas.Text.Word

/-!
# Patterns

A pattern describes parts of a text.  `Matches t fold p i j` says that `p` describes the part of
`t` from place `i` to place `j`; the places are counted in characters.  With `fold` on, letters
that differ only in case count as the same.
-/

namespace TestAtlas

/-- One of the classes of characters that patterns have a letter for. -/
inductive CharClass where
  | word
  | digit
  | blank
  deriving DecidableEq, Repr

/-- The character belongs to the class. -/
def CharClass.holds : CharClass → Char → Bool
  | .word => Text.isWord
  | .digit => Text.isDecimalDigit
  | .blank => Text.isBlank

/-- A part of a set of characters. -/
inductive SetItem where
  | char (c : Char)
  | range (first last : Char)
  | inClass (c : CharClass)
  | notInClass (c : CharClass)
  deriving DecidableEq, Repr

/-- A set of characters, given by its parts or by the parts of its complement. -/
structure CharSet where
  negated : Bool
  items : List SetItem
  deriving DecidableEq, Repr

namespace SetItem

/-- The character belongs to the part. -/
def holds (c : Char) : SetItem → Bool
  | char d => c == d
  | range first last => first ≤ c && c ≤ last
  | inClass k => k.holds c
  | notInClass k => !k.holds c

/-- The small form of a character. -/
def small (c : Char) : Char := Char.ofNat (Text.lower c.toNat)

/-- The basic plane ends before this code point. -/
def planeSize : Nat := 65536

/-- The character belongs to the part when case is ignored.  A class is met by the small form of
the character.  A single character in the basic plane is met by any form of it; beyond that plane
only by what has it as its small form.  A range is met by any form of the character, and if it ends
beyond the basic plane also by the first letter of a capital form that has several. -/
def holdsFolded (c : Char) : SetItem → Bool
  | char d => if d.toNat < planeSize then Text.sameUpToCase c.toNat d.toNat else small c == d
  | range first last =>
    let isBetween := fun n => decide (first.toNat ≤ n ∧ n ≤ last.toNat)
    (Text.caseVariants c.toNat).any isBetween ||
      decide (planeSize ≤ last.toNat) && (Text.upperStart? c.toNat).any isBetween
  | inClass k => k.holds (small c)
  | notInClass k => !k.holds (small c)

end SetItem

namespace CharSet

/-- The set of a single character. -/
def single (c : Char) : CharSet := ⟨false, [.char c]⟩

/-- Every character but the line feed. -/
def anyButLineFeed : CharSet := ⟨true, [.range '\n' '\n']⟩

/-- Some part of the set or of its complement holds the character.  When case is ignored, a set of
one single character is met by any form of it, wherever the character lies. -/
def isListed (fold : Bool) (s : CharSet) (c : Char) : Bool :=
  match fold, s.items with
  | false, items => items.any (SetItem.holds c)
  | true, [.char d] => Text.sameUpToCase c.toNat d.toNat
  | true, items => items.any (SetItem.holdsFolded c)

/-- The character belongs to the set. -/
def holds (fold : Bool) (s : CharSet) (c : Char) : Bool := s.isListed fold c != s.negated

end CharSet

/-- A place in a text that takes no character. -/
inductive Anchor where
  /-- The start of the text. -/
  | textStart
  /-- The end of the text, or the place before a line feed that ends it. -/
  | lineEnd
  /-- The end of the text. -/
  | textEnd
  /-- A place between a word character and one that is none; the ends of the text count as none. -/
  | wordEdge
  /-- Any other place of a text that is not empty. -/
  | noWordEdge
  deriving DecidableEq, Repr

/-- A pattern. -/
inductive Pattern where
  | empty
  | one (set : CharSet)
  | at (anchor : Anchor)
  | seq (first second : Pattern)
  | either (first second : Pattern)
  /-- At least `least` and at most `most` times in a row. -/
  | times (body : Pattern) (least : Nat) (most : Option Nat)
  deriving DecidableEq, Repr

/-- The character before place `i`. -/
def charBefore? (t : Array Char) (i : Nat) : Option Char := if i = 0 then none else t[i - 1]?

/-- There is a word character at the given side of a place. -/
def wordAt (c : Option Char) : Bool := (c.map Text.isWord).getD false

/-- Place `i` of `t` is of the given sort. -/
def Anchor.holds (t : Array Char) (i : Nat) : Anchor → Bool
  | textStart => i == 0
  | lineEnd => i == t.size || (i + 1 == t.size && t[i]? == some '\n')
  | textEnd => i == t.size
  | wordEdge => wordAt (charBefore? t i) != wordAt t[i]?
  | noWordEdge => !t.isEmpty && wordAt (charBefore? t i) == wordAt t[i]?

mutual

/-- The pattern describes the part of `t` from `i` to `j`. -/
inductive Matches (t : Array Char) (fold : Bool) : Pattern → Nat → Nat → Prop where
  | empty (i : Nat) : Matches t fold .empty i i
  | one {s : CharSet} {i : Nat} {c : Char} (ht : t[i]? = some c) (hs : s.holds fold c) :
    Matches t fold (.one s) i (i + 1)
  | at {a : Anchor} {i : Nat} (h : a.holds t i) : Matches t fold (.at a) i i
  | seq {p q : Pattern} {i j k : Nat} (hp : Matches t fold p i j) (hq : Matches t fold q j k) :
    Matches t fold (.seq p q) i k
  | left {p q : Pattern} {i j : Nat} (h : Matches t fold p i j) : Matches t fold (.either p q) i j
  | right {p q : Pattern} {i j : Nat} (h : Matches t fold q i j) : Matches t fold (.either p q) i j
  | times {p : Pattern} {least : Nat} {most : Option Nat} {n i j : Nat} (hl : least ≤ n)
    (hm : ∀ m, most = some m → n ≤ m) (h : MatchesRow t fold p n i j) :
    Matches t fold (.times p least most) i j

/-- The pattern describes `n` parts of `t` in a row, from `i` to `j`. -/
inductive MatchesRow (t : Array Char) (fold : Bool) : Pattern → Nat → Nat → Nat → Prop where
  | nil {p : Pattern} (i : Nat) : MatchesRow t fold p 0 i i
  | cons {p : Pattern} {n i j k : Nat} (h : Matches t fold p i j)
    (hr : MatchesRow t fold p n j k) : MatchesRow t fold p (n + 1) i k

end

end TestAtlas
