import TestAtlas.Item.Kind
import TestAtlas.Path
import TestAtlas.Text.Percent
import TestAtlas.Text.StandIn

/-!
# Identifiers of items

An identifier is the scheme `file://`, the escaped canonical location, a question mark and the
word of the kind; for the leaf kinds a number sign and the escaped name follow.  `build` writes an
identifier, if the texts can be encoded, and `parse` reads one.
-/

namespace TestAtlas.Id

open Text

/-- Why no identifier can be built. -/
inductive BuildError where
  | unknownKind (word : String)
  | missingName (kind : Kind)
  | notEncodable (e : EncodingError)
  deriving DecidableEq, Repr

/-- The wording of a build error. -/
def BuildError.message : BuildError → String
  | .unknownKind word => "Unknown item kind: " ++ Quoted.quoted word
  | .missingName kind => "A " ++ kind.word ++ " identifier requires a name"
  | .notEncodable e => e.message

/-- Why a text is no identifier. -/
inductive ParseError where
  | notAnIdentifier (text : String)
  | leafWithoutName (text : String)
  deriving DecidableEq, Repr

/-- The wording of a parse error. -/
def ParseError.message : ParseError → String
  | .notAnIdentifier text => "Not an item identifier: " ++ Quoted.quoted text
  | .leafWithoutName text => "Leaf identifier without a name: " ++ Quoted.quoted text

/-- The parts of an identifier. -/
structure Parts where
  location : String
  kind : Kind
  name : Option String
  deriving DecidableEq, Repr

/-- The start of every identifier. -/
def scheme : List Char := ['f', 'i', 'l', 'e', ':', '/', '/']

/-- The characters that stand for themselves in a location, beside the unreserved ones. -/
def locationSafe : List Char :=
  ['/', ':', '@', '-', '.', '_', '~', '!', '$', '&', '\'', '(', ')', '*', '+', ',', ';', '=']

/-- The characters that stand for themselves in a name, beside the unreserved ones. -/
def nameSafe : List Char := ['(', ')', '*', '.']

/-- The characters of the identifier of an item that is no leaf. -/
def containerChars (cwd location : String) (kind : Kind) : List Char :=
  scheme ++ Percent.escape locationSafe (Path.canonical cwd location).toList
    ++ '?' :: kind.word.toList

/-- The identifier of an item that is no leaf. -/
def container (cwd location : String) (kind : Kind) : String :=
  String.ofList (containerChars cwd location kind)

/-- The identifier of a leaf. -/
def leaf (cwd location : String) (kind : Kind) (name : String) : String :=
  String.ofList (containerChars cwd location kind ++ '#' :: Percent.escape nameSafe name.toList)

/-- Why the texts of an identifier cannot be encoded.  The location comes before the name, and the
name counts for a leaf only. -/
def encodingError? [StandIns] (cwd location : String) (kind : Kind) (name : Option String) :
    Option EncodingError :=
  (Text.encodingError? (Path.canonical cwd location)).or
    (if kind.isLeaf then name.bind Text.encodingError? else none)

/-- The identifier of an item of the given kind.  A leaf needs a name; the name given to any other
kind is not used. -/
def ofKind [StandIns] (cwd location : String) (kind : Kind) (name : Option String) :
    Except BuildError String :=
  match encodingError? cwd location kind name with
  | some e => .error (.notEncodable e)
  | none =>
    if kind.isLeaf then
      match name with
      | some n => if n = "" then .error (.missingName kind) else .ok (leaf cwd location kind n)
      | none => .error (.missingName kind)
    else .ok (container cwd location kind)

/-- The identifier of an item whose kind is given by its word. -/
def build [StandIns] (cwd location word : String) (name : Option String) :
    Except BuildError String :=
  match Kind.ofWord? word with
  | some kind => ofKind cwd location kind name
  | none => .error (.unknownKind word)

/-- The text after the scheme. -/
def afterScheme? (cs : List Char) : Option (List Char) :=
  if scheme.isPrefixOf cs then some (cs.drop scheme.length) else none

/-- The escaped location, the kind and the escaped name of an identifier. -/
def split? (cs : List Char) : Option (List Char × Kind × Option (List Char)) :=
  match afterScheme? cs with
  | none => none
  | some rest =>
    let (head, fragment) := cutFirst '#' rest
    match cutLast '?' head with
    | none => none
    | some (path, word) =>
      match Kind.ofWord? (String.ofList word) with
      | none => none
      | some kind => if path = [] then none else some (path, kind, fragment)

/-- Reads an identifier.  The name of a container is dropped. -/
def parse (text : String) : Except ParseError Parts :=
  match split? text.toList with
  | none => .error (.notAnIdentifier text)
  | some (path, kind, fragment) =>
    let location := String.ofList (Percent.unescape path)
    if kind.isLeaf then
      match fragment.map Percent.unescape with
      | none => .error (.leafWithoutName text)
      | some [] => .error (.leafWithoutName text)
      | some name => .ok ⟨location, kind, some (String.ofList name)⟩
    else .ok ⟨location, kind, none⟩

@[simp]
theorem encodingError?_noStandIns (cwd location : String) (kind : Kind) (name : Option String) :
    @encodingError? noStandIns cwd location kind name = none := by
  cases name <;> simp [encodingError?]

@[simp]
theorem ofKind_of_not_leaf {kind : Kind} (h : kind.isLeaf = false) (cwd location : String)
    (name : Option String) : ofKind cwd location kind name = .ok (container cwd location kind) := by
  unfold ofKind
  simp [h]

/-- A leaf without a name has no identifier. -/
theorem ofKind_of_leaf_none {kind : Kind} (h : kind.isLeaf) (cwd location : String) :
    ofKind cwd location kind none = .error (.missingName kind) := by
  unfold ofKind
  simp [h]

theorem build_word [StandIns] (cwd location : String) (kind : Kind) (name : Option String) :
    build cwd location kind.word name = ofKind cwd location kind name := by
  simp [build, Kind.ofWord?_word]

section

variable [StandIns]

theorem ofKind_of_encodingError? {cwd location : String} {kind : Kind} {name : Option String}
    {e : EncodingError} (h : encodingError? cwd location kind name = some e) :
    ofKind cwd location kind name = .error (.notEncodable e) := by
  unfold ofKind
  simp [h]

/-- Texts that can be encoded have the same identifier whatever the stand-ins are. -/
theorem ofKind_eq_of_encodingError? {cwd location : String} {kind : Kind} {name : Option String}
    (h : encodingError? cwd location kind name = none) :
    ofKind cwd location kind name = @ofKind noStandIns cwd location kind name := by
  unfold ofKind
  simp [h]

end

/-- The kind of a parsed identifier is a leaf exactly when a name was read. -/
theorem name_isSome_of_parse {text : String} {parts : Parts} (h : parse text = .ok parts) :
    parts.name.isSome = parts.kind.isLeaf := by
  unfold parse at h
  split at h
  · exact absurd h (by simp)
  · rename_i path kind fragment _
    cases hk : kind.isLeaf with
    | true =>
        rw [if_pos hk] at h
        split at h
        · exact absurd h nofun
        · exact absurd h nofun
        · rw [← Except.ok.inj h]
          exact hk.symm
    | false =>
        rw [hk, if_neg Bool.false_ne_true] at h
        rw [← Except.ok.inj h]
        exact hk.symm

end TestAtlas.Id
