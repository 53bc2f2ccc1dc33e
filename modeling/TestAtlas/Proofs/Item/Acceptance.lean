import TestAtlas.Proofs.Item.Identifier
import TestAtlas.Proofs.Path.NormalForm

/-!
# What is read as an identifier

Every identifier is read, and what is read of it builds the same identifier again.  But more texts
are read than are built: in a text with the outer form of an identifier (`HasForm`) neither the path
nor the fragment is looked at more closely, while an identifier has both as `build` writes them
(`IsWritten`).  The main statement is `isIdentifier_iff_rebuilds`, which says exactly what is read
and which of it is an identifier; `not_isIdentifier_of_parse` is a text of the other sort.
-/

namespace TestAtlas

namespace Id

open Text

/-- The text is the identifier of something. -/
def IsIdentifier (cwd text : String) : Prop :=
  ∃ location word name, build cwd location word name = .ok text

/-- The path and the fragment are as identifiers have them: the path is that of a canonical
location, escaped, a leaf has its name as the fragment, escaped, and no other kind has one. -/
structure IsWritten (path : List Char) (kind : Kind) (fragment : Option (List Char)) : Prop where
  path : ∃ location, Path.IsNormal location ∧
    path = Percent.escape locationSafe location.toList
  leaf : kind.isLeaf = true → ∃ name, name ≠ "" ∧
    fragment = some (Percent.escape nameSafe name.toList)
  container : kind.isLeaf = false → fragment = none

variable {cwd : String}

/-- An identifier has the outer form, with its path and its fragment as `build` writes them. -/
theorem exists_hasForm_of_ofKind (hcwd : Path.isRooted cwd.toList = true) {location text : String}
    {kind : Kind} {name : Option String} (h : ofKind cwd location kind name = .ok text) :
    ∃ path fragment, HasForm text path kind fragment ∧ IsWritten path kind fragment := by
  have hnormal := (Path.isLocation_canonical hcwd location).isNormal
  rcases ofKind_eq_ok_iff.mp h with ⟨hk, rfl⟩ | ⟨hk, n, hn, -, rfl⟩
  · exact ⟨_, none, hasForm_container cwd location kind,
      ⟨_, hnormal, rfl⟩, by simp [hk], fun _ => rfl⟩
  · exact ⟨_, some _, hasForm_leaf cwd location kind n,
      ⟨_, hnormal, rfl⟩, fun _ => ⟨n, hn, rfl⟩, by simp [hk]⟩

/-- What has the outer form and is written as identifiers are is the identifier of what is read. -/
theorem build_readParts {text : String} {path : List Char} {kind : Kind}
    {fragment : Option (List Char)} (h : HasForm text path kind fragment)
    (hwritten : IsWritten path kind fragment) :
    build cwd (readParts path kind fragment).location kind.word
      (readParts path kind fragment).name = .ok text := by
  obtain ⟨location, hnormal, rfl⟩ := hwritten.path
  have hcanonical := Path.canonical_of_isLocation hnormal.isLocation cwd
  have hlocation : String.ofList (Percent.unescape (Percent.escape locationSafe location.toList)) =
      location := by
    rw [Percent.unescape_escape isSafe_locationSafe, String.ofList_toList]
  rw [build_word, ofKind_eq_ok_iff, readParts, hlocation]
  cases hk : kind.isLeaf with
  | false =>
      obtain rfl := hwritten.container hk
      refine Or.inl ⟨rfl, String.toList_inj.mp (h.chars.trans ?_)⟩
      simp [container, containerChars, hcanonical]
  | true =>
      obtain ⟨name, hname, rfl⟩ := hwritten.leaf hk
      refine Or.inr ⟨rfl, name, hname, ?_, String.toList_inj.mp (h.chars.trans ?_)⟩
      · simp [Percent.unescape_escape isSafe_nameSafe]
      · simp [leaf, containerChars, hcanonical]

/-- The kinds of an identifier have words. -/
theorem exists_ofKind_of_isIdentifier {text : String} (h : IsIdentifier cwd text) :
    ∃ location kind name, ofKind cwd location kind name = .ok text := by
  obtain ⟨location, word, name, hbuild⟩ := h
  unfold build at hbuild
  split at hbuild
  · exact ⟨location, _, name, hbuild⟩
  · exact absurd hbuild (by simp)

/-- A text with the outer form is an identifier exactly if its path and its fragment are written as
`build` writes them. -/
theorem HasForm.isIdentifier_iff (hcwd : Path.isRooted cwd.toList = true) {text : String}
    {path : List Char} {kind : Kind} {fragment : Option (List Char)}
    (h : HasForm text path kind fragment) :
    IsIdentifier cwd text ↔ IsWritten path kind fragment := by
  constructor
  · intro hid
    obtain ⟨location, kind', name, hkind⟩ := exists_ofKind_of_isIdentifier hid
    obtain ⟨path', fragment', hform, hwritten⟩ := exists_hasForm_of_ofKind hcwd hkind
    obtain ⟨rfl, rfl, rfl⟩ := h.unique hform
    exact hwritten
  · intro hwritten
    exact ⟨_, _, _, build_readParts h hwritten⟩

theorem IsWritten.namesLeaf {path : List Char} {kind : Kind} {fragment : Option (List Char)}
    (h : IsWritten path kind fragment) : NamesLeaf kind fragment := by
  intro hk
  obtain ⟨name, hname, rfl⟩ := h.leaf hk
  exact ⟨_, rfl, escape_name_ne_nil hname⟩

/-- The identifiers are the texts that are read and built again from what is read of them.  Read is
every text with the outer form of an identifier and a fragment for a leaf, and no other.  Of the
texts with the outer form those are identifiers that have their path and their fragment as `build`
writes them. -/
theorem isIdentifier_iff_rebuilds (hcwd : Path.isRooted cwd.toList = true) (text : String) :
    (IsIdentifier cwd text ↔ ∃ parts, parse text = .ok parts ∧
      build cwd parts.location parts.kind.word parts.name = .ok text) ∧
    (∀ parts, parse text = .ok parts ↔ ∃ path kind fragment, HasForm text path kind fragment ∧
      NamesLeaf kind fragment ∧ parts = readParts path kind fragment) ∧
    (∀ e, parse text = .error e → e = .notAnIdentifier text ∨ e = .leafWithoutName text) ∧
    ∀ path kind fragment, HasForm text path kind fragment →
      (IsIdentifier cwd text ↔ IsWritten path kind fragment) := by
  refine ⟨⟨fun hid => ?_, ?_⟩, fun parts => parse_eq_ok_iff, fun e => eq_of_parse_eq_error,
    fun path kind fragment hform => hform.isIdentifier_iff hcwd⟩
  · obtain ⟨location, kind, name, hkind⟩ := exists_ofKind_of_isIdentifier hid
    obtain ⟨path, fragment, hform, hwritten⟩ := exists_hasForm_of_ofKind hcwd hkind
    exact ⟨_, parse_of_namesLeaf hform hwritten.namesLeaf, build_readParts hform hwritten⟩
  · rintro ⟨parts, -, hbuild⟩
    exact ⟨_, _, _, hbuild⟩

/-- Two spellings of one test: with the slash escaped it is read, but no identifier has it so. -/
theorem isIdentifier_iff_rebuilds_spellings :
    let text := "file:///my%20proj/a_test.go?test#TestA"
    let text' := "file:///my%20proj%2Fa_test.go?test#TestA"
    let parts : Parts := ⟨"/my proj/a_test.go", .test, some "TestA"⟩
    Path.isRooted "/home".toList = true ∧
      parse text = .ok parts ∧ IsIdentifier "/home" text ∧
      parse text' = .ok parts ∧ ¬ IsIdentifier "/home" text' := by
  intro text text' parts
  have hcwd : Path.isRooted "/home".toList = true := by decide
  have hparse : parse text = .ok parts := by decide +kernel
  have hparse' : parse text' = .ok parts := by decide +kernel
  refine ⟨hcwd, hparse, ?_, hparse', ?_⟩
  · rw [(isIdentifier_iff_rebuilds hcwd text).1]
    exact ⟨parts, hparse, by decide +kernel⟩
  · rw [(isIdentifier_iff_rebuilds hcwd text').1]
    rintro ⟨parts', hread, hbuild⟩
    obtain rfl := Except.ok.inj (hread.symm.trans hparse')
    exact absurd hbuild (by decide +kernel)

/-- Not all that is read is an identifier: the name given to a module is dropped without a word. -/
theorem not_isIdentifier_of_parse :
    ¬ ∀ cwd text, Path.isRooted cwd.toList = true →
      ((∃ parts, parse text = .ok parts) ↔ IsIdentifier cwd text) := by
  intro h
  have hcwd : Path.isRooted "/home".toList = true := by decide
  have hform : HasForm "file:///src/proj?module#TestFoo" "/src/proj".toList .module
      (some "TestFoo".toList) := ⟨by decide, by decide, by decide⟩
  have hread := parse_of_namesLeaf hform (fun hk => absurd hk (by decide))
  have hwritten := (hform.isIdentifier_iff hcwd).mp ((h _ _ hcwd).mp ⟨_, hread⟩)
  exact absurd (hwritten.container rfl) (by simp)

end Id

end TestAtlas
