import TestAtlas.Outline.Provider

/-!
# What leaves look like

Whatever symbols a provider gives, every leaf has the word of a leaf kind and a name.  So every leaf
has an identifier.
-/

namespace TestAtlas

namespace Leaf

/-- The leaf has a name and the word of a leaf kind. -/
structure IsGenuine (leaf : Leaf) : Prop where
  kind : ∃ k : Kind, k.isLeaf = true ∧ leaf.kind = k.word
  name : leaf.name ≠ ""

theorem ne_empty_of_hasForm {c : Char} {word name : List Char}
    (h : hasForm (c :: word) name = true) : name ≠ [] := by
  rintro rfl
  exact absurd h (by simp [hasForm, Outline.after?])

theorem ne_empty_of_toList {name : String} (h : name.toList ≠ []) : name ≠ "" := by
  rintro rfl
  exact h rfl

theorem kindOfFunction?_eq_some {name : String} {k : Kind} (h : kindOfFunction? name = some k) :
    k.isLeaf = true ∧ name ≠ "" := by
  unfold kindOfFunction? at h
  split at h
  · rename_i hform
    rw [← Option.some.inj h]
    exact ⟨rfl, ne_empty_of_toList (ne_empty_of_hasForm hform)⟩
  · split at h
    · rename_i hform
      rw [← Option.some.inj h]
      exact ⟨rfl, ne_empty_of_toList (ne_empty_of_hasForm hform)⟩
    · split at h
      · rename_i hform
        rw [← Option.some.inj h]
        exact ⟨rfl, ne_empty_of_toList (ne_empty_of_hasForm hform)⟩
      · exact absurd h (by simp)

theorem ne_empty_of_suiteName? {type : Option String} {name full : String}
    (h : suiteName? type name = some full) : full ≠ "" := by
  unfold suiteName? at h
  split at h
  · rename_i hmethod
    rw [← Option.some.inj h]
    rintro rfl
    exact absurd hmethod (by decide)
  · split at h
    · split at h
      · rw [← Option.some.inj h]
        apply ne_empty_of_toList
        simp
      · exact absurd h (by simp)
    · exact absurd h (by simp)

mutual

theorem isGenuine_of_mem_ofSymbol {suites inTest : Bool} {type : Option String} {s : Symbol}
    {leaf : Leaf} (h : leaf ∈ ofSymbol suites inTest type s) : leaf.IsGenuine := by
  match s with
  | .node name kind range detail children =>
    unfold ofSymbol at h
    -- a function, a method or a container, in the order of the definition
    split at h
    · rename_i heq
      cases heq
      split at h
      · exact absurd h (by simp)
      · split at h
        · rename_i k hk
          rcases List.mem_cons.mp h with rfl | h
          · obtain ⟨hleaf, hname⟩ := kindOfFunction?_eq_some hk
            exact ⟨⟨k, hleaf, rfl⟩, hname⟩
          · exact isGenuine_of_mem_ofSymbolList h
        · exact absurd h (by simp)
    · split at h
      · split at h
        · rename_i full hfull
          rw [List.mem_singleton] at h
          rw [h]
          exact ⟨⟨.test, rfl, rfl⟩, ne_empty_of_suiteName? hfull⟩
        · exact absurd h (by simp)
      · exact absurd h (by simp)
    · rename_i heq
      cases heq
      exact isGenuine_of_mem_ofSymbolList h

theorem isGenuine_of_mem_ofSymbolList {suites inTest : Bool} {type : Option String}
    {ss : List Symbol} {leaf : Leaf} (h : leaf ∈ ofSymbolList suites inTest type ss) :
    leaf.IsGenuine := by
  match ss with
  | [] => exact absurd h (by simp [ofSymbolList])
  | s :: rest =>
    rw [ofSymbolList, List.mem_append] at h
    rcases h with h | h
    · exact isGenuine_of_mem_ofSymbol h
    · exact isGenuine_of_mem_ofSymbolList h

end

theorem mem_of_mem_firsts {seen : List (String × String)} {leaves : List Leaf} {leaf : Leaf}
    (h : leaf ∈ firsts seen leaves) : leaf ∈ leaves := by
  induction leaves generalizing seen with
  | nil => exact absurd h (by simp [firsts])
  | cons first rest ih =>
      rw [firsts] at h
      split at h
      · exact List.mem_cons_of_mem _ (ih h)
      · rcases List.mem_cons.mp h with rfl | h
        · exact List.mem_cons_self
        · exact List.mem_cons_of_mem _ (ih h)

end Leaf

/-- The leaves of a document all have a name and the word of a leaf kind. -/
theorem SymbolProvider.isGenuine_leaves (p : SymbolProvider) (d : Document) :
    ∀ leaf ∈ p.leaves d, leaf.IsGenuine :=
  fun _ hleaf => Leaf.isGenuine_of_mem_ofSymbolList (Leaf.mem_of_mem_firsts hleaf)

end TestAtlas
