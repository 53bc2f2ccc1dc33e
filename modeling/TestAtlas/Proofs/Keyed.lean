import TestAtlas.Keyed

/-!
# Entries and values of insertion-ordered maps

The entries of a map are the pairs of a key and its value, so facts about the entries after a
change follow from those about `get?`.
-/

namespace TestAtlas.Keyed

variable {κ : Type u} {α : Type v} [DecidableEq κ]

theorem getIn_eq_some_iff {k : κ} {v : α} {es : List (κ × α)} (h : (es.map Prod.fst).Nodup) :
    getIn k es = some v ↔ (k, v) ∈ es := by
  induction es with
  | nil => simp [getIn]
  | cons e es ih =>
      obtain ⟨a, b⟩ := e
      rw [List.map_cons, List.nodup_cons] at h
      rw [getIn, List.mem_cons, Prod.mk.injEq]
      split
      · rename_i ha
        subst ha
        constructor
        · intro hb
          exact Or.inl ⟨rfl, (Option.some.inj hb).symm⟩
        · rintro (⟨-, rfl⟩ | hmem)
          · rfl
          · -- a second entry with the first key would break that the keys are distinct
            exact absurd (List.mem_map_of_mem (f := Prod.fst) hmem) h.1
      · rename_i ha
        rw [ih h.2]
        constructor
        · exact Or.inr
        · rintro (⟨rfl, -⟩ | hmem)
          · exact absurd rfl ha
          · exact hmem

theorem get?_eq_some_iff (m : Keyed κ α) (k : κ) (v : α) :
    m.get? k = some v ↔ (k, v) ∈ m.entries :=
  getIn_eq_some_iff m.keys_nodup

theorem contains_insert (m : Keyed κ α) (k k' : κ) (v : α) :
    (m.insert k v).contains k' = (decide (k' = k) || m.contains k') := by
  rw [contains, get?_insert, contains]
  by_cases h : k' = k <;> simp [h]

theorem contains_erase (m : Keyed κ α) (k k' : κ) :
    (m.erase k).contains k' = (!decide (k' = k) && m.contains k') := by
  rw [contains, get?_erase, contains]
  by_cases h : k' = k <;> simp [h]

/-- Keeping the keys that pass a test keeps their values. -/
theorem get?_filter_key (m : Keyed κ α) (p : κ → Bool) (k : κ) :
    (m.filter fun e => p e.1).get? k = if p k then m.get? k else none :=
  getIn_filter_key p k m.entries

/-- An entry after writing several entries is one of those written or was there before. -/
theorem mem_entries_insertMany {m : Keyed κ α} {es : List (κ × α)} {e : κ × α}
    (h : e ∈ (m.insertMany es).entries) : e ∈ es ∨ e ∈ m.entries := by
  induction es generalizing m with
  | nil => exact Or.inr h
  | cons first rest ih =>
      rcases ih h with hmem | hmem
      · exact Or.inl (List.mem_cons_of_mem _ hmem)
      · rw [← get?_eq_some_iff, get?_insert] at hmem
        split at hmem
        · rename_i hkey
          have heq : e = first := Prod.ext hkey (Option.some.inj hmem).symm
          exact Or.inl (heq ▸ List.mem_cons_self)
        · exact Or.inr ((get?_eq_some_iff m e.1 e.2).mp hmem)

theorem mem_keys_insertMany {m : Keyed κ α} {es : List (κ × α)} {k : κ} :
    k ∈ (m.insertMany es).keys ↔ k ∈ m.keys ∨ k ∈ es.map Prod.fst := by
  induction es generalizing m with
  | nil => simp [insertMany]
  | cons e es ih =>
      have hstep : (m.insertMany (e :: es)) = (m.insert e.1 e.2).insertMany es := rfl
      rw [hstep, ih, ← contains_iff_mem_keys, contains_insert, Bool.or_eq_true,
        contains_iff_mem_keys, decide_eq_true_eq, List.map_cons, List.mem_cons,
        or_comm (a := k = e.1), or_assoc]

theorem exists_get?_of_mem_keys {m : Keyed κ α} {k : κ} (h : k ∈ m.keys) :
    ∃ v, m.get? k = some v := by
  rwa [← contains_iff_mem_keys, contains, Option.isSome_iff_exists] at h

theorem insertIn_of_not_mem {k : κ} {v : α} {es : List (κ × α)} (h : k ∉ es.map Prod.fst) :
    insertIn k v es = es ++ [(k, v)] := by
  induction es with
  | nil => rfl
  | cons e es ih =>
      obtain ⟨a, b⟩ := e
      rw [List.map_cons, List.mem_cons, not_or] at h
      rw [insertIn, if_neg (Ne.symm h.1), ih h.2, List.cons_append]

/-- Keys that are new are put behind the others. -/
theorem entries_insertMany {m : Keyed κ α} {es : List (κ × α)} (hnodup : (es.map Prod.fst).Nodup)
    (hnew : ∀ e ∈ es, e.1 ∉ m.keys) : (m.insertMany es).entries = m.entries ++ es := by
  induction es generalizing m with
  | nil => simp [insertMany]
  | cons e es ih =>
      rw [List.map_cons, List.nodup_cons] at hnodup
      have hstep : m.insertMany (e :: es) = (m.insert e.1 e.2).insertMany es := rfl
      have hentries : (m.insert e.1 e.2).entries = m.entries ++ [e] :=
        insertIn_of_not_mem (hnew e List.mem_cons_self)
      rw [hstep, ih hnodup.2, hentries, List.append_assoc, List.singleton_append]
      intro e' he' hmem
      rw [keys, hentries, List.map_append, List.mem_append] at hmem
      rcases hmem with hmem | hmem
      · exact hnew e' (List.mem_cons_of_mem _ he') hmem
      · have hkey : e'.1 = e.1 := by simpa using hmem
        exact hnodup.1 (hkey ▸ List.mem_map_of_mem (f := Prod.fst) he')

end TestAtlas.Keyed
