import TestAtlas.Pattern.Sign

/-!
# Elements of a pattern

A pattern is read as a sequence of elements.  Alternatives are brought into a plain form: the
elements that all of them start with stand before them, and alternatives of one character each make
up one set.  That form matters where a set ignores case in another way than a single character.
-/

namespace TestAtlas.Expression

/-- An element of a sequence. -/
inductive Element where
  | anchor (a : Anchor)
  | chars (s : CharSet)
  /-- A group with a number, or a choice. -/
  | closed (p : Pattern)
  | repeated (p : Pattern)
  deriving DecidableEq, Repr

/-- The pattern of an element. -/
def Element.pattern : Element → Pattern
  | anchor a => .at a
  | chars s => .one s
  | closed p => p
  | repeated p => p

/-- The pattern of a sequence of elements. -/
def sequence : List Element → Pattern
  | [] => .empty
  | [e] => e.pattern
  | e :: es => .seq e.pattern (sequence es)

/-- The pattern that some alternatives make up. -/
def eitherOf : List Pattern → Pattern
  | [] => .empty
  | [p] => p
  | p :: ps => .either p (eitherOf ps)

/-- Alternatives can have the element in common. -/
def Element.canBeShared : Element → Bool
  | anchor _ => true
  | chars _ => true
  | _ => false

/-- Takes off the elements that a first alternative and all others start with. -/
def splitShared : List Element → List (List Element) → List Element × List (List Element)
  | [], others => ([], [] :: others)
  | e :: first, others =>
    if e.canBeShared && others.all fun other => other.head? == some e then
      let (shared, rest) := splitShared first (others.map List.tail)
      (e :: shared, rest)
    else ([], (e :: first) :: others)

/-- The parts of the set that a sequence of one element is. -/
def setItems? : List Element → Option (List SetItem)
  | [.chars ⟨false, items⟩] => some items
  | _ => none

/-- The choice between some alternatives. -/
def choice (alternatives : List (List Element)) : Element :=
  match alternatives.mapM setItems? with
  | some items => .chars ⟨false, items.flatten.eraseDups⟩
  | none => .closed (eitherOf (alternatives.map sequence))

/-- The elements that some alternatives stand for. -/
def alternation : List (List Element) → List Element
  | [] => []
  | [es] => es
  | first :: others =>
    let (shared, rest) := splitShared first others
    shared ++ [choice rest]

/-- What a sequence is made of while it is read.  A group without a number is part of the sequence
around it unless it is repeated. -/
inductive Part where
  | element (e : Element)
  | group (es : List Element)

/-- The elements of a part. -/
def Part.elements : Part → List Element
  | element e => [e]
  | group es => es

/-- The elements of some parts, given last one first. -/
def elementsOf (reversed : List Part) : List Element := reversed.reverse.flatMap Part.elements

/-- The pattern that a part can be repeated as: an anchor or a repetition cannot be. -/
def Part.repeatable? : Part → Option Pattern
  | element (.chars s) => some (.one s)
  | element (.closed p) => some p
  | element _ => none
  | group es => some (sequence es)

/-- The part in front of a repetition, repeated. -/
def repeatLast (least : Nat) (most : Option Nat) : List Part → Option (List Part)
  | part :: before =>
    part.repeatable?.map fun p => .element (.repeated (.times p least most)) :: before
  | [] => none

/-- An escape outside a set. -/
def escape? (c : Char) (rest : List Sign) : Option (Element × List Sign) :=
  match classEscape? c, anchorEscape? c with
  | some item, _ => some (.chars ⟨false, [item]⟩, rest)
  | none, some a => some (.anchor a, rest)
  | none, none => (literalEscape? c rest).map fun (l, rest) => (.chars (.single l), rest)

end TestAtlas.Expression
