import TestAtlas.Keyed
import TestAtlas.Outline.Comment
import TestAtlas.Outline.Declaration
import TestAtlas.Outline.Symbol

/-!
# The outline of a source text

Declarations are read line by line after the block comments are blanked, and functions, types and
methods are collected apart.  At the end a method joins the type that its receiver names, if some
line declares that type, and else stands at the top.  Of several declarations of one type the last
counts.  A declaration that opens a brace extends to the closing brace at its own indentation, if
there is one.
-/

namespace TestAtlas.Outline

open Text

/-- Why a text has no outline. -/
inductive ScanError where
  | openComment
  | noPackageClause (path : String)
  deriving DecidableEq, Repr

/-- The wording of a scan error. -/
def ScanError.message : ScanError → String
  | .openComment => "Unterminated block comment"
  | .noPackageClause path => "No package clause in " ++ path

/-- A declaration with the part of the text it covers. -/
structure Found where
  declaration : Declaration
  range : SourceRange
  deriving DecidableEq, Repr

/-- The number of blanks a line starts with. -/
def indent (line : List Char) : Nat := line.length - (stripLeft line).length

/-- The first of the given lines that starts with a closing brace at most as deep as `depth`: its
number, counted from `n`, and its length. -/
def closingLine (depth : Nat) : Nat → List (List Char) → Option (Nat × Nat)
  | _, [] => none
  | n, line :: rest =>
    if (stripLeft line).head? = some '\x7d' ∧ indent line ≤ depth then some (n, line.length)
    else closingLine depth (n + 1) rest

/-- The line opens a brace that it does not close at its end. -/
def opensBlock (line : List Char) : Bool :=
  line.contains '\x7b' && (stripRight line).getLast? != some '\x7d'

/-- The part of the text that the declaration on line `n` covers. -/
def declarationRange (n : Nat) (line : List Char) (later : List (List Char)) : SourceRange :=
  let depth := indent line
  match (if opensBlock line then closingLine depth (n + 1) later else none) with
  | some (m, length) => ⟨n, depth, m, length⟩
  | none => ⟨n, depth, n, line.length⟩

/-- The declarations on the lines from number `n` on. -/
def foundFrom : Nat → List (List Char) → List Found
  | _, [] => []
  | n, line :: later =>
    match Declaration.ofLine? line with
    | some declaration =>
      ⟨declaration, declarationRange n line later⟩ :: foundFrom (n + 1) later
    | none => foundFrom (n + 1) later

/-- The parameters as shown. -/
def parameterDetail (parameters : List Char) : String :=
  String.ofList ('(' :: (strip parameters ++ [')']))

/-- The name of a method with its receiver. -/
def methodName (pointer : Bool) (receiver name : List Char) : String :=
  String.ofList (('(' :: if pointer then ['*'] else []) ++ receiver ++ ')' :: '.' :: name)

/-- What the scan has collected: the functions with the lines they start on, the types by name, and
the methods by the name of their receiver. -/
structure Collected where
  functions : List (Int × Symbol)
  types : Keyed (List Char) (Bool × SourceRange)
  methods : Keyed (List Char) (List Symbol)

/-- Symbols with the lines they start on. -/
def startLines (symbols : List Symbol) : List (Int × Symbol) :=
  symbols.map fun s => (s.range.startLine, s)

/-- Puts types behind the symbols at the top, each with the methods of its name, which are taken
away from the others. -/
def joinTypes : List (List Char × Bool × SourceRange) → List (Int × Symbol) →
    Keyed (List Char) (List Symbol) → List (Int × Symbol) × Keyed (List Char) (List Symbol)
  | [], top, methods => (top, methods)
  | (name, isStruct, range) :: types, top, methods =>
    let s := .node (String.ofList name) (if isStruct then .struct else .interface) range ""
      ((methods.get? name).getD [])
    joinTypes types (top ++ [(range.startLine, s)]) (methods.erase name)

/-- Puts a symbol before the first one that does not start on an earlier line. -/
def insertByLine (s : Int × Symbol) : List (Int × Symbol) → List (Int × Symbol)
  | [] => [s]
  | t :: ts => if s.1 ≤ t.1 then s :: t :: ts else t :: insertByLine s ts

/-- Symbols in the order of the lines they start on.  Those of one line keep their order. -/
def sortByLine : List (Int × Symbol) → List (Int × Symbol)
  | [] => []
  | s :: ss => insertByLine s (sortByLine ss)

namespace Collected

/-- Nothing is collected yet. -/
def empty : Collected := ⟨[], .empty, .empty⟩

/-- Takes in a declaration.  A type takes the place of an earlier one of its name. -/
def add (c : Collected) (f : Found) : Collected :=
  match f.declaration with
  | .method pointer receiver name parameters =>
    let s := .node (methodName pointer receiver name) .method f.range
      (parameterDetail parameters) []
    { c with
      methods := c.methods.insert receiver ((c.methods.get? receiver).getD [] ++ [s]) }
  | .function name parameters =>
    let s := .node (String.ofList name) .function f.range (parameterDetail parameters) []
    { c with functions := c.functions ++ [(f.range.startLine, s)] }
  | .type name isStruct => { c with types := c.types.insert name (isStruct, f.range) }

/-- The symbols at the top with the lines they start on: the functions, the types, and last the
methods of types from elsewhere. -/
def top (c : Collected) : List (Int × Symbol) :=
  let (top, left) := joinTypes c.types.entries c.functions c.methods
  top ++ left.entries.flatMap fun e => startLines e.2

/-- The symbols at the top in the order of their lines. -/
def symbols (c : Collected) : List Symbol := (sortByLine c.top).map Prod.snd

end Collected

/-- The lines in which declarations are looked for. -/
def sourceLines (text : String) : List (List Char) := lines (blank text.toList)

/-- The symbols of a source text. -/
def symbols (path text : String) : Except ScanError (List Symbol) :=
  let source := blank text.toList
  if hasOpenComment source then .error .openComment
  else if !hasPackageClause source then .error (.noPackageClause path)
  else
    .ok ((foundFrom 0 (lines source)).foldl Collected.add .empty).symbols

theorem startLine_declarationRange (n : Nat) (line : List Char) (later : List (List Char)) :
    (declarationRange n line later).startLine = n := by
  unfold declarationRange
  simp only
  split <;> rfl

instance (path text : String) (ss : List Symbol) : Decidable (symbols path text = .ok ss) :=
  match symbols path text with
  | .ok ts => decidable_of_iff (ts = ss) (by simp)
  | .error _ => isFalse (by simp)

end TestAtlas.Outline
