import TestAtlas.Proofs.Item.Form

/-!
# Identifiers are read back

An identifier that was built is read back as the canonical location, the kind and, for a leaf, the
name that it was built from.  So an identifier determines these three, and nothing else goes into
it: that is `build_eq_iff`.  The lemmas behind it are `parse_of_ofKind` and `eq_of_ofKind_eq`.
-/

namespace TestAtlas

namespace Text

namespace Percent

/-- A character that has to be escaped does not occur in an escaped text. -/
theorem not_mem_escape {safe : List Char} {c : Char} (hc : isUnreserved c = false)
    (hsafe : c ∉ safe) (hpercent : c ≠ '%') (cs : List Char) : c ∉ escape safe cs := by
  -- the digits of an escape are unreserved, so the character is none of them
  have hdigit : ∀ n, n < 16 → isUnreserved (hexDigit n) = true := by
    decide
  have hne : ∀ n, n < 16 → c ≠ hexDigit n := by
    rintro n hn rfl
    rw [hdigit n hn] at hc
    exact absurd hc (by simp)
  intro hmem
  obtain ⟨d, -, hd⟩ := List.mem_flatMap.mp hmem
  split at hd
  · rename_i hplain
    rw [List.mem_singleton] at hd
    subst hd
    rcases (Bool.or_eq_true _ _).mp hplain with h | h
    · rw [hc] at h
      exact absurd h (by simp)
    · exact hsafe (by simpa using h)
  · obtain ⟨b, -, hb⟩ := List.mem_flatMap.mp hd
    have hlt : b.toNat < 256 := b.toNat_lt
    simp only [escapeByte, List.mem_cons, List.not_mem_nil, or_false] at hb
    rcases hb with hb | hb | hb
    · exact hpercent hb
    · exact hne _ (by omega) hb
    · exact hne _ (by omega) hb

/-- Of a text that is not empty something is written. -/
theorem escape_ne_nil {safe : List Char} (h : IsSafe safe) {cs : List Char} (hne : cs ≠ []) :
    escape safe cs ≠ [] := by
  intro hnil
  have hback := unescape_escape h cs
  rw [hnil] at hback
  exact hne hback.symm

end Percent

end Text

namespace Id

open Text

theorem isSafe_of_all {safe : List Char}
    (h : (safe.all fun c => decide (c.toNat < 128) && c != '%') = true) : Percent.IsSafe safe := by
  intro c hc
  have hboth := List.all_eq_true.mp h c hc
  rw [Bool.and_eq_true, decide_eq_true_eq, bne_iff_ne] at hboth
  exact hboth

theorem isSafe_locationSafe : Percent.IsSafe locationSafe := isSafe_of_all (by decide +kernel)

theorem isSafe_nameSafe : Percent.IsSafe nameSafe := isSafe_of_all (by decide +kernel)

theorem not_mem_escape_location {c : Char} (hc : c = '#' ∨ c = '?') (cs : List Char) :
    c ∉ Percent.escape locationSafe cs := by
  rcases hc with rfl | rfl
  · exact Percent.not_mem_escape (by decide) (by decide) (by decide) cs
  · exact Percent.not_mem_escape (by decide) (by decide) (by decide) cs

theorem escape_canonical_ne_nil (cwd location : String) :
    Percent.escape locationSafe (Path.canonical cwd location).toList ≠ [] := by
  refine Percent.escape_ne_nil isSafe_locationSafe ?_
  rw [Path.canonical, String.toList_ofList, Path.canonicalChars]
  exact List.cons_ne_nil _ _

/-- The fragment of a leaf. -/
theorem escape_name_ne_nil {name : String} (h : name ≠ "") :
    Percent.escape nameSafe name.toList ≠ [] :=
  Percent.escape_ne_nil isSafe_nameSafe (by simpa using h)

section OfKind

variable {cwd location text : String} {kind : Kind} {name : Option String}

theorem ofKind_of_leaf (hk : kind.isLeaf = true) {n : String} (hn : n ≠ "") :
    ofKind cwd location kind (some n) = .ok (leaf cwd location kind n) := by
  unfold ofKind
  simp [hk, hn]

/-- Of an item that is no leaf an identifier is always built, of a leaf with a name. -/
theorem ofKind_eq_ok_iff :
    ofKind cwd location kind name = .ok text ↔
      (kind.isLeaf = false ∧ text = container cwd location kind) ∨
      (kind.isLeaf = true ∧ ∃ n, n ≠ "" ∧ name = some n ∧ text = leaf cwd location kind n) := by
  cases hk : kind.isLeaf with
  | false =>
      rw [ofKind_of_not_leaf hk, Except.ok.injEq, eq_comm]
      simp
  | true =>
      constructor
      · intro h
        cases name with
        | none => exact absurd h (by simp [ofKind_of_leaf_none hk])
        | some n =>
            by_cases hn : n = ""
            · unfold ofKind at h
              simp [hk, hn] at h
            · exact Or.inr ⟨rfl, n, hn, rfl, Except.ok.inj (h.symm.trans (ofKind_of_leaf hk hn))⟩
      · rintro (⟨hcontainer, -⟩ | ⟨-, n, hn, rfl, rfl⟩)
        · exact absurd hcontainer (by simp)
        · exact ofKind_of_leaf hk hn

/-- The identifier of an item that is no leaf has the outer form, without a fragment. -/
theorem hasForm_container (cwd location : String) (kind : Kind) :
    HasForm (container cwd location kind)
      (Percent.escape locationSafe (Path.canonical cwd location).toList) kind none where
  chars := by simp [container, containerChars]
  path_ne_nil := escape_canonical_ne_nil cwd location
  not_mem_path := not_mem_escape_location (Or.inl rfl) _

/-- The identifier of a leaf has the outer form, with the name as its fragment. -/
theorem hasForm_leaf (cwd location : String) (kind : Kind) (name : String) :
    HasForm (leaf cwd location kind name)
      (Percent.escape locationSafe (Path.canonical cwd location).toList) kind
      (some (Percent.escape nameSafe name.toList)) where
  chars := by simp [leaf, containerChars]
  path_ne_nil := escape_canonical_ne_nil cwd location
  not_mem_path := not_mem_escape_location (Or.inl rfl) _

/-- Reading an identifier gives back what it was built from.  Only the name of a leaf counts. -/
theorem parse_of_ofKind (h : ofKind cwd location kind name = .ok text) :
    parse text = .ok ⟨Path.canonical cwd location, kind, if kind.isLeaf then name else none⟩ := by
  rcases ofKind_eq_ok_iff.mp h with ⟨hk, rfl⟩ | ⟨hk, n, hn, rfl, rfl⟩
  · rw [parse_of_namesLeaf (hasForm_container cwd location kind) (by simp [NamesLeaf, hk])]
    simp [readParts, hk, Percent.unescape_escape isSafe_locationSafe]
  · rw [parse_of_namesLeaf (hasForm_leaf cwd location kind n)
      fun _ => ⟨_, rfl, escape_name_ne_nil hn⟩]
    simp [readParts, hk, Percent.unescape_escape isSafe_locationSafe,
      Percent.unescape_escape isSafe_nameSafe]

end OfKind

/-- Equal identifiers have the same canonical location, the same kind and, for leaves, the same
name.  The two may have been built while different directories were the current one. -/
theorem eq_of_ofKind_eq {cwd cwd' l l' : String} {k k' : Kind} {n n' : Option String} {id : String}
    (h : ofKind cwd l k n = .ok id) (h' : ofKind cwd' l' k' n' = .ok id) :
    Path.canonical cwd l = Path.canonical cwd' l' ∧ k = k' ∧ (k.isLeaf = true → n = n') := by
  have hparts := (parse_of_ofKind h).symm.trans (parse_of_ofKind h')
  simp only [Except.ok.injEq, Parts.mk.injEq] at hparts
  obtain ⟨hl, rfl, hn⟩ := hparts
  refine ⟨hl, rfl, fun hk => ?_⟩
  rwa [if_pos hk, if_pos hk] at hn

/-- Of its location an identifier has only the canonical form, and of the name only a leaf's. -/
theorem ofKind_congr {cwd cwd' l l' : String} {kind : Kind} {n n' : Option String}
    (hl : Path.canonical cwd l = Path.canonical cwd' l') (hn : kind.isLeaf = true → n = n') :
    ofKind cwd l kind n = ofKind cwd' l' kind n' := by
  cases hk : kind.isLeaf with
  | false =>
      rw [ofKind_of_not_leaf hk, ofKind_of_not_leaf hk]
      simp only [container, containerChars, hl]
  | true =>
      obtain rfl := hn hk
      unfold ofKind
      simp only [encodingError?, container, leaf, containerChars, hl]

/-- A name as an item of the kind needs one: a leaf has a name, and it is not empty. -/
def HasName (kind : Kind) (name : Option String) : Prop :=
  kind.isLeaf = true → ∃ n, name = some n ∧ n ≠ ""

/-- With such a name an identifier is built. -/
theorem exists_ofKind {kind : Kind} {name : Option String} (h : HasName kind name)
    (cwd location : String) : ∃ id, ofKind cwd location kind name = .ok id := by
  cases hk : kind.isLeaf with
  | false => exact ⟨_, ofKind_of_not_leaf hk cwd location name⟩
  | true =>
      obtain ⟨n, rfl, hn⟩ := h hk
      exact ⟨_, ofKind_of_leaf hk hn⟩

/-- From every location, every kind and, for a leaf, every name that is not empty an identifier is
built.  It is read back as the canonical location, the kind and the name of a leaf, and another
identifier is the same one exactly if these three are the same. -/
theorem build_eq_iff (cwd location : String) {kind : Kind} {name : Option String}
    (h : HasName kind name) :
    ∃ id, build cwd location kind.word name = .ok id ∧
      parse id = .ok ⟨Path.canonical cwd location, kind, if kind.isLeaf then name else none⟩ ∧
      ∀ (cwd' location' : String) (kind' : Kind) (name' : Option String), HasName kind' name' →
        ∃ id', build cwd' location' kind'.word name' = .ok id' ∧
          (id = id' ↔ Path.canonical cwd location = Path.canonical cwd' location' ∧ kind = kind' ∧
            (kind.isLeaf = true → name = name')) := by
  obtain ⟨id, hid⟩ := exists_ofKind h cwd location
  refine ⟨id, (build_word cwd location kind name).trans hid, parse_of_ofKind hid, ?_⟩
  intro cwd' location' kind' name' h'
  obtain ⟨id', hid'⟩ := exists_ofKind h' cwd' location'
  refine ⟨id', (build_word cwd' location' kind' name').trans hid', ?_, ?_⟩
  · rintro rfl
    exact eq_of_ofKind_eq hid hid'
  · rintro ⟨hl, rfl, hn⟩
    rw [ofKind_congr hl hn, hid'] at hid
    exact (Except.ok.inj hid).symm

/-- A name that has every delimiter, in a directory whose name has them as well. -/
theorem build_eq_iff_delimiters : HasName .test (some "a#b?c%/é d") ∧
    ∃ id, build "/home" "C:\\x y\\..\\50%?#ü\\a_test.go" "test" (some "a#b?c%/é d") = .ok id ∧
      parse id = .ok ⟨"/C:/50%?#ü/a_test.go", .test, some "a#b?c%/é d"⟩ := by
  have hname : HasName .test (some "a#b?c%/é d") := fun _ => ⟨_, rfl, by decide⟩
  obtain ⟨id, hid, hparse, -⟩ :=
    build_eq_iff "/home" "C:\\x y\\..\\50%?#ü\\a_test.go" hname
  have hlocation : Path.canonical "/home" "C:\\x y\\..\\50%?#ü\\a_test.go" =
      "/C:/50%?#ü/a_test.go" := by
    decide +kernel
  refine ⟨hname, id, hid, hparse.trans ?_⟩
  rw [hlocation]
  rfl

end Id

end TestAtlas
