/-!
# Insertion-ordered maps

A `Keyed κ α` holds at most one value for each key and lists its keys in the order in which they
were first inserted.  Writing to a key that is present replaces the value and keeps the place;
erasing a key frees its place.  The view of a map is `get?` together with the list of its keys.
-/

namespace TestAtlas

/-- A map that remembers the order in which its keys were first inserted. -/
structure Keyed (κ : Type u) (α : Type v) where
  entries : List (κ × α)
  keys_nodup : (entries.map Prod.fst).Nodup

namespace Keyed

variable {κ : Type u} {α : Type v}

/-- The map without entries. -/
def empty : Keyed κ α := ⟨[], by simp⟩

instance : Inhabited (Keyed κ α) := ⟨empty⟩

/-- The keys, in order. -/
def keys (m : Keyed κ α) : List κ := m.entries.map Prod.fst

/-- The number of keys. -/
def size (m : Keyed κ α) : Nat := m.entries.length

theorem ext {m n : Keyed κ α} (h : m.entries = n.entries) : m = n := by
  cases m
  cases n
  simp_all

/-- The entries that pass a test. -/
def filter (p : κ × α → Bool) (m : Keyed κ α) : Keyed κ α where
  entries := m.entries.filter p
  keys_nodup := (List.filter_sublist.map Prod.fst).nodup m.keys_nodup

variable [DecidableEq κ]

/-- The value that a list of entries holds for a key. -/
def getIn (k : κ) : List (κ × α) → Option α
  | [] => none
  | (k', v) :: rest => if k' = k then some v else getIn k rest

/-- The value of a key. -/
def get? (m : Keyed κ α) (k : κ) : Option α := getIn k m.entries

/-- The key has a value. -/
def contains (m : Keyed κ α) (k : κ) : Bool := (m.get? k).isSome

/-- Writes a value into a list of entries. -/
def insertIn (k : κ) (v : α) : List (κ × α) → List (κ × α)
  | [] => [(k, v)]
  | (k', v') :: rest => if k' = k then (k, v) :: rest else (k', v') :: insertIn k v rest

theorem map_fst_insertIn (k : κ) (v : α) (es : List (κ × α)) :
    (insertIn k v es).map Prod.fst =
      if k ∈ es.map Prod.fst then es.map Prod.fst else es.map Prod.fst ++ [k] := by
  induction es with
  | nil => simp [insertIn]
  | cons e es ih =>
    obtain ⟨k', v'⟩ := e
    by_cases h : k' = k
    · simp [insertIn, h]
    · simp only [insertIn, h, if_false, List.map_cons, ih, List.mem_cons, Ne.symm h, false_or]
      split <;> simp

/-- Writes a value: in place if the key is present, else at the end. -/
def insert (m : Keyed κ α) (k : κ) (v : α) : Keyed κ α where
  entries := insertIn k v m.entries
  keys_nodup := by
    rw [map_fst_insertIn]
    split
    · exact m.keys_nodup
    · rename_i h
      exact List.nodup_append.mpr
        ⟨m.keys_nodup, by simp, fun a ha b hb => by
          simp only [List.mem_singleton] at hb
          subst hb
          exact fun e => h (e ▸ ha)⟩

/-- Removes a key. -/
def erase (m : Keyed κ α) (k : κ) : Keyed κ α := m.filter fun e => e.1 ≠ k

/-- Writes the given entries, one after another. -/
def insertMany (m : Keyed κ α) (es : List (κ × α)) : Keyed κ α :=
  es.foldl (fun m e => m.insert e.1 e.2) m

/-- The map of a list of entries: each key has its first place and its last value. -/
def ofList (es : List (κ × α)) : Keyed κ α := empty.insertMany es

@[simp]
theorem get?_empty (k : κ) : (empty : Keyed κ α).get? k = none := rfl

theorem getIn_insertIn (k k' : κ) (v : α) (es : List (κ × α)) :
    getIn k' (insertIn k v es) = if k' = k then some v else getIn k' es := by
  induction es with
  | nil => simp [insertIn, getIn, eq_comm]
  | cons e es ih =>
    obtain ⟨a, b⟩ := e
    by_cases ha : a = k
    · by_cases hk : k' = k
      · simp [insertIn, getIn, ha, hk]
      · simp [insertIn, getIn, ha, hk, Ne.symm hk]
    · by_cases hk : k' = k
      · subst hk
        simp [insertIn, getIn, ha, ih]
      · simp [insertIn, getIn, ha, ih, hk]

/-- Writing changes the value of the written key only. -/
theorem get?_insert (m : Keyed κ α) (k k' : κ) (v : α) :
    (m.insert k v).get? k' = if k' = k then some v else m.get? k' :=
  getIn_insertIn k k' v m.entries

theorem getIn_eq_none_iff (k : κ) (es : List (κ × α)) :
    getIn k es = none ↔ k ∉ es.map Prod.fst := by
  induction es with
  | nil => simp [getIn]
  | cons e es ih =>
    obtain ⟨a, b⟩ := e
    by_cases h : a = k
    · simp [getIn, h]
    · simp [getIn, h, Ne.symm h]
      simpa using ih

theorem get?_eq_none_iff (m : Keyed κ α) (k : κ) : m.get? k = none ↔ k ∉ m.keys :=
  getIn_eq_none_iff k m.entries

theorem contains_iff_mem_keys (m : Keyed κ α) (k : κ) : m.contains k = true ↔ k ∈ m.keys := by
  rw [contains, Option.isSome_iff_ne_none, ne_eq, get?_eq_none_iff, Classical.not_not]

/-- A new key goes to the end; a present key keeps its place. -/
theorem keys_insert (m : Keyed κ α) (k : κ) (v : α) :
    (m.insert k v).keys = if k ∈ m.keys then m.keys else m.keys ++ [k] :=
  map_fst_insertIn k v m.entries

theorem keys_erase (m : Keyed κ α) (k : κ) :
    (m.erase k).keys = m.keys.filter fun k' => k' ≠ k := by
  simp [keys, erase, filter, List.filter_map, Function.comp_def]

theorem getIn_filter_key (p : κ → Bool) (k : κ) (es : List (κ × α)) :
    getIn k (es.filter fun e => p e.1) = if p k then getIn k es else none := by
  induction es with
  | nil => simp [getIn]
  | cons e es ih =>
    obtain ⟨a, b⟩ := e
    by_cases hp : p a = true
    · by_cases h : a = k
      · subst h
        simp [getIn, hp]
      · simp [hp, getIn, h, ih]
    · by_cases h : a = k
      · subst h
        simp [hp, ih]
      · simp [hp, getIn, h, ih]

/-- Erasing takes away the value of the erased key only. -/
theorem get?_erase (m : Keyed κ α) (k k' : κ) :
    (m.erase k).get? k' = if k' = k then none else m.get? k' := by
  have := getIn_filter_key (fun a => decide (a ≠ k)) k' m.entries
  simp only [get?, erase, filter]
  rw [this]
  by_cases h : k' = k <;> simp [h]

end Keyed

end TestAtlas
