import TestAtlas.Item.Kind
import TestAtlas.Outline.Declaration
import TestAtlas.Outline.Symbol

/-!
# Tests, benchmarks and examples of an outline

A function at the top whose name is `Test`, `Benchmark` or `Example` and a word that starts with a
capital is a leaf.  Methods of a suite are leaves when they stand inside such a function, or
anywhere if suites can be run and the outline has a test function at the top.  Of leaves with the
same kind and name the first is kept.
-/

namespace TestAtlas

open Text Outline

/-- A leaf to be shown below a file: the word of its kind, its name and its place. -/
structure Leaf where
  kind : String
  name : String
  range : SourceRange
  deriving DecidableEq, Repr

namespace Leaf

/-- The word `Test`. -/
def testWord : List Char := ['T', 'e', 's', 't']

/-- The word `Benchmark`. -/
def benchmarkWord : List Char := ['B', 'e', 'n', 'c', 'h', 'm', 'a', 'r', 'k']

/-- The word `Example`. -/
def exampleWord : List Char := ['E', 'x', 'a', 'm', 'p', 'l', 'e']

/-- The text is a capital letter, word characters, and possibly a line feed at the end. -/
def isCapitalized : List Char → Bool
  | c :: cs =>
    isCapital c && (match cs.dropWhile isWord with
      | [] => true
      | rest => rest == ['\n'])
  | [] => false

/-- The name is the given word followed by a capitalized text. -/
def hasForm (word name : List Char) : Bool :=
  match after? word name with
  | some rest => isCapitalized rest
  | none => false

/-- The kind of leaf that a function with this name is. -/
def kindOfFunction? (name : String) : Option Kind :=
  if hasForm testWord name.toList then some .test
  else if hasForm benchmarkWord name.toList then some .benchmark
  else if hasForm exampleWord name.toList then some .example
  else none

/-- The name is a receiver in parentheses, a dot and the name of a test. -/
def isSuiteMethod (name : String) : Bool :=
  match name.toList with
  | '(' :: cs =>
    match spanTo? ')' cs with
    | some (_ :: _, '.' :: method) => hasForm testWord method
    | _ => false
  | _ => false

/-- The name of a suite method with its receiver, given the type around it. -/
def suiteName? (type : Option String) (name : String) : Option String :=
  if isSuiteMethod name then some name
  else
    match type with
    | some t =>
      if t ≠ "" ∧ hasForm testWord name.toList then
        some (String.ofList (['(', '*'] ++ t.toList ++ [')', '.'] ++ name.toList))
      else none
    | none => none

/-- The symbol is a function that can run suites. -/
def isRunner (s : Symbol) : Bool :=
  s.kind == .function && kindOfFunction? s.name == some .test

mutual

/-- The leaves of a symbol and the symbols inside it.  `type` is the innermost type around it,
`inTest` says that a test, benchmark or example function is around it, and `suites` that methods
count outside such functions. -/
def ofSymbol (suites inTest : Bool) (type : Option String) : Symbol → List Leaf
  | .node name .function range _ children =>
    if inTest then []
    else
      match kindOfFunction? name with
      | some kind => ⟨kind.word, name, range⟩ :: ofSymbolList suites true none children
      | none => []
  | .node name .method range _ _ =>
    if inTest || suites then
      match suiteName? type name with
      | some full => [⟨Kind.test.word, full, range⟩]
      | none => []
    else []
  | .node name kind _ _ children =>
    ofSymbolList suites inTest (if kind.isType then some name else type) children

/-- The leaves of several symbols. -/
def ofSymbolList (suites inTest : Bool) (type : Option String) : List Symbol → List Leaf
  | [] => []
  | s :: rest => ofSymbol suites inTest type s ++ ofSymbolList suites inTest type rest

end

/-- The leaves whose kind and name none of the leaves before them has. -/
def firsts (seen : List (String × String)) : List Leaf → List Leaf
  | [] => []
  | leaf :: rest =>
    if seen.contains (leaf.kind, leaf.name) then firsts seen rest
    else leaf :: firsts ((leaf.kind, leaf.name) :: seen) rest

/-- The leaves of an outline; `suiteMethods` says that its document can run suites. -/
def ofSymbols (suiteMethods : Bool) (symbols : List Symbol) : List Leaf :=
  firsts [] (ofSymbolList (suiteMethods && symbols.any isRunner) false none symbols)

/-- The quoted path of the package that runs suites. -/
def suiteImport : List Char := "\"github.com/stretchr/testify/suite\"".toList

/-- The text imports the package that runs suites. -/
def importsSuite (text : String) : Bool := occursIn suiteImport text.toList

/-- The label of a leaf: for a method the part after its last dot. -/
def label (name : String) : String :=
  if name.toList.head? = some '(' then
    match cutLast '.' name.toList with
    | some (_, last) => String.ofList last
    | none => name
  else name

end Leaf

end TestAtlas
