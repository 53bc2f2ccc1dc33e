import TestAtlas.Outline.Leaf
import TestAtlas.Outline.Scan

/-!
# Where symbols come from

A provider gives the symbols of a document, or none, or fails with a message.  A document whose
provider fails or gives nothing counts as a document without symbols.
-/

namespace TestAtlas

/-- A source of symbols: fails with a message, or may give no answer. -/
abbrev SymbolProvider := Document → Except String (Option (List Symbol))

namespace SymbolProvider

/-- The provider that scans the text of the document. -/
def scanner : SymbolProvider := fun d =>
  match Outline.symbols d.path d.text with
  | .ok symbols => .ok (some symbols)
  | .error e => .error e.message

/-- The provider that always fails with the given message. -/
def failing (message : String) : SymbolProvider := fun _ => .error message

/-- The provider that never gives an answer. -/
def silent : SymbolProvider := fun _ => .ok none

/-- The provider that knows the symbols of certain paths. -/
def ofPaths (known : String → Option (List Symbol)) : SymbolProvider := fun d => .ok (known d.path)

/-- The symbols of a document. -/
def symbols (p : SymbolProvider) (d : Document) : List Symbol :=
  match p d with
  | .ok (some symbols) => symbols
  | _ => []

/-- The message with which the provider fails on a document, if it does. -/
def failure? (p : SymbolProvider) (d : Document) : Option String :=
  match p d with
  | .error message => some message
  | .ok _ => none

/-- The leaves of a document. -/
def leaves (p : SymbolProvider) (d : Document) : List Leaf :=
  Leaf.ofSymbols (Leaf.importsSuite d.text) (p.symbols d)

/-- A provider that fails gives no leaves. -/
theorem leaves_failing (message : String) (d : Document) : (failing message).leaves d = [] := by
  simp [leaves, symbols, failing, Leaf.ofSymbols, Leaf.ofSymbolList, Leaf.firsts]

end SymbolProvider

end TestAtlas
