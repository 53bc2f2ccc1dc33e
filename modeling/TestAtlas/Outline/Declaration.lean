import TestAtlas.Text.Blank
import TestAtlas.Text.Cut
import TestAtlas.Text.Word

/-!
# Declarations of a line

A line may declare a method, a function or a type.  A method names its receiver in parentheses
before its own name; type parameters may follow a receiver, a function or a type in brackets.  The
parameters run to the first closing parenthesis and have to end on the line.
-/

namespace TestAtlas.Outline

open Text

/-- A declaration found on a line. -/
inductive Declaration where
  | method (pointer : Bool) (receiver name parameters : List Char)
  | function (name parameters : List Char)
  | type (name : List Char) (isStruct : Bool)
  deriving DecidableEq, Repr

/-- The rest of a text that starts with the given word. -/
def after? (word cs : List Char) : Option (List Char) :=
  if word.isPrefixOf cs then some (cs.drop word.length) else none

/-- The text without the blanks and tabulations at its start. -/
def skipIndent (cs : List Char) : List Char := cs.dropWhile fun c => c == ' ' || c == '\t'

/-- The rest after at least one blank. -/
def afterBlanks? : List Char → Option (List Char)
  | c :: cs => if isBlank c then some (stripLeft cs) else none
  | [] => none

/-- The word characters at the start of a text, at least one, and the rest. -/
def spanWord? (cs : List Char) : Option (List Char × List Char) :=
  match cs.takeWhile isWord with
  | [] => none
  | word => some (word, cs.dropWhile isWord)

/-- The text up to the first `close` and the text after it. -/
def spanTo? (close : Char) (cs : List Char) : Option (List Char × List Char) :=
  match cutFirst close cs with
  | (before, some after) => some (before, after)
  | (_, none) => none

/-- The rest after type parameters in brackets; without closed brackets, the text itself. -/
def skipBrackets (cs : List Char) : List Char :=
  match cs with
  | '[' :: rest =>
    match spanTo? ']' rest with
    | some (_, after) => after
    | none => cs
  | _ => cs

/-- The text between parentheses at the start of a text. -/
def parameters? : List Char → Option (List Char)
  | '(' :: cs => (spanTo? ')' cs).map Prod.fst
  | _ => none

/-- The rest after an optional variable name and the blanks behind it. -/
def skipVariable (cs : List Char) : List Char :=
  match spanWord? cs with
  | some (_, rest) => (afterBlanks? rest).getD cs
  | none => cs

/-- A receiver type up to the closing parenthesis: whether it is a pointer, its name, and the
rest. -/
def receiverType? (cs : List Char) : Option (Bool × List Char × List Char) := do
  let (pointer, cs) := match cs with
    | '*' :: cs => (true, cs)
    | cs => (false, cs)
  let (name, cs) ← spanWord? (stripLeft cs)
  let cs ← after? [')'] (stripLeft (skipBrackets cs))
  return (pointer, name, cs)

/-- A receiver after its opening parenthesis: an optional variable and the type. -/
def receiver? (cs : List Char) : Option (Bool × List Char × List Char) :=
  let cs := stripLeft cs
  -- a word before the parenthesis is the type itself if no other type follows it
  (receiverType? (skipVariable cs)).or (receiverType? cs)

/-- The keyword of functions and methods. -/
def funcWord : List Char := ['f', 'u', 'n', 'c']

/-- The keyword of types. -/
def typeWord : List Char := ['t', 'y', 'p', 'e']

/-- The keyword of structures. -/
def structWord : List Char := ['s', 't', 'r', 'u', 'c', 't']

/-- The keyword of interfaces. -/
def interfaceWord : List Char := ['i', 'n', 't', 'e', 'r', 'f', 'a', 'c', 'e']

/-- The keyword of the package clause. -/
def packageWord : List Char := ['p', 'a', 'c', 'k', 'a', 'g', 'e']

/-- Reads a method declaration. -/
def method? (line : List Char) : Option Declaration := do
  let cs ← after? funcWord (skipIndent line)
  let cs ← afterBlanks? cs
  let cs ← after? ['('] cs
  let (pointer, receiver, cs) ← receiver? cs
  let (name, cs) ← spanWord? (stripLeft cs)
  let parameters ← parameters? (stripLeft cs)
  return .method pointer receiver name parameters

/-- Reads a function declaration. -/
def function? (line : List Char) : Option Declaration := do
  let cs ← after? funcWord (skipIndent line)
  let cs ← afterBlanks? cs
  let (name, cs) ← spanWord? cs
  let parameters ← parameters? (stripLeft (skipBrackets (stripLeft cs)))
  return .function name parameters

/-- The text starts with the word, and no further word character follows it. -/
def startsWithWord (word cs : List Char) : Bool :=
  match after? word cs with
  | some (c :: _) => !isWord c
  | some [] => true
  | none => false

/-- Reads a declaration of a structure or an interface. -/
def type? (line : List Char) : Option Declaration := do
  let cs ← after? typeWord (skipIndent line)
  let cs ← afterBlanks? cs
  let (name, cs) ← spanWord? cs
  let cs ← afterBlanks? (skipBrackets cs)
  if startsWithWord structWord cs then some (.type name true)
  else if startsWithWord interfaceWord cs then some (.type name false)
  else none

/-- The declaration on a line: a method, else a function, else a type. -/
def Declaration.ofLine? (line : List Char) : Option Declaration :=
  ((method? line).or (function? line)).or (type? line)

/-- A text starts, after blanks, with a package clause. -/
def startsPackage (cs : List Char) : Bool :=
  match (after? packageWord (stripLeft cs)).bind afterBlanks? with
  | some rest => (spanWord? rest).isSome
  | none => false

/-- A package clause starts after a line feed. -/
def packageAfterLineFeed : List Char → Bool
  | [] => false
  | '\n' :: rest => startsPackage rest || packageAfterLineFeed rest
  | _ :: rest => packageAfterLineFeed rest

/-- Some line starts with a package clause. -/
def hasPackageClause (cs : List Char) : Bool := startsPackage cs || packageAfterLineFeed cs

end TestAtlas.Outline
