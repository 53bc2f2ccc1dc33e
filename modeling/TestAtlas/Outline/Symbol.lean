/-!
# Symbols of a source text

The outline of a source text is a forest of symbols, each with the part of the text it covers.
Lines and columns count from zero; a range ends before its end column.  What a provider says about
a range is kept as it is, even if it lies before the text.
-/

namespace TestAtlas

/-- A part of a source text. -/
structure SourceRange where
  startLine : Int
  startCol : Int
  endLine : Int
  endCol : Int
  deriving DecidableEq, Repr, Inhabited

/-- What a symbol stands for. -/
inductive SymbolKind where
  | function
  | method
  | struct
  | interface
  | classType
  | namespaceScope
  | variableName
  | constant
  | field
  deriving DecidableEq, Repr

namespace SymbolKind

/-- Every kind of symbol. -/
def all : List SymbolKind :=
  [function, method, struct, interface, classType, namespaceScope, variableName, constant, field]

/-- The word for a kind of symbol. -/
def word : SymbolKind → String
  | function => "function"
  | method => "method"
  | struct => "struct"
  | interface => "interface"
  | classType => "class"
  | namespaceScope => "namespace"
  | variableName => "variable"
  | constant => "constant"
  | field => "field"

/-- The kind of symbol with a given word. -/
def ofWord? (s : String) : Option SymbolKind := all.find? fun k => k.word == s

/-- Symbols of this kind are types that methods can belong to. -/
def isType : SymbolKind → Bool
  | struct | interface | classType => true
  | _ => false

theorem ofWord?_word (k : SymbolKind) : ofWord? k.word = some k := by
  cases k <;> decide

end SymbolKind

/-- A symbol with the symbols inside it. -/
inductive Symbol where
  | node (name : String) (kind : SymbolKind) (range : SourceRange) (detail : String)
    (children : List Symbol)

instance : Inhabited Symbol := ⟨.node "" .field ⟨0, 0, 0, 0⟩ "" []⟩

namespace Symbol

/-- The name of a symbol. -/
def name : Symbol → String
  | node name _ _ _ _ => name

/-- The kind of a symbol. -/
def kind : Symbol → SymbolKind
  | node _ kind _ _ _ => kind

/-- The part of the text a symbol covers. -/
def range : Symbol → SourceRange
  | node _ _ range _ _ => range

/-- Further text about a symbol, such as its parameters. -/
def detail : Symbol → String
  | node _ _ _ detail _ => detail

/-- The symbols inside a symbol. -/
def children : Symbol → List Symbol
  | node _ _ _ _ children => children

mutual

/-- Decides whether two symbols are equal. -/
def decideEq : (s t : Symbol) → Decidable (s = t)
  | node name kind range detail children, node name' kind' range' detail' children' =>
    match decideListEq children children' with
    | isTrue h =>
      decidable_of_iff (name = name' ∧ kind = kind' ∧ range = range' ∧ detail = detail')
        (by simp [h])
    | isFalse h => isFalse (by simp [h])

/-- Decides whether two lists of symbols are equal. -/
def decideListEq : (ss ts : List Symbol) → Decidable (ss = ts)
  | [], [] => isTrue rfl
  | [], _ :: _ => isFalse (by simp)
  | _ :: _, [] => isFalse (by simp)
  | s :: ss, t :: ts =>
    match decideEq s t, decideListEq ss ts with
    | isTrue h, isTrue h' => isTrue (by rw [h, h'])
    | isFalse h, _ => isFalse (by simp [h])
    | _, isFalse h => isFalse (by simp [h])

end

instance : DecidableEq Symbol := decideEq

end Symbol

/-- A source text with the place it comes from. -/
structure Document where
  path : String
  text : String
  version : Int
  deriving DecidableEq, Repr

end TestAtlas
