/-!
# Sets of places

A set of places in a text is kept as the number whose binary digits tell which places belong to
it.  The view of a set is `contains`; each operation has its equation for it.
-/

namespace TestAtlas

/-- A finite set of places. -/
structure Places where
  bits : Nat
  deriving DecidableEq, Repr

namespace Places

/-- The place belongs to the set. -/
def contains (s : Places) (i : Nat) : Bool := s.bits.testBit i

/-- The set without places. -/
def empty : Places := ⟨0⟩

/-- The set has no places. -/
def isEmpty (s : Places) : Bool := s.bits == 0

/-- The places of a list that are marked. -/
def ofMarks (marks : List Bool) : Places := ⟨marks.foldr (fun b n => 2 * n + b.toNat) 0⟩

/-- The first places, as many as given. -/
def below (n : Nat) : Places := ⟨(1 <<< n) - 1⟩

/-- The places of either set. -/
def union (s u : Places) : Places := ⟨s.bits ||| u.bits⟩

/-- The places of both sets. -/
def inter (s u : Places) : Places := ⟨s.bits &&& u.bits⟩

/-- The places of the first set that are not in the second. -/
def without (s u : Places) : Places := ⟨s.bits ^^^ (s.bits &&& u.bits)⟩

/-- Every place moved on by one. -/
def next (s : Places) : Places := ⟨s.bits <<< 1⟩

@[simp]
theorem contains_empty (i : Nat) : empty.contains i = false := Nat.zero_testBit i

@[simp]
theorem contains_union (s u : Places) (i : Nat) :
    (s.union u).contains i = (s.contains i || u.contains i) := Nat.testBit_or ..

@[simp]
theorem contains_inter (s u : Places) (i : Nat) :
    (s.inter u).contains i = (s.contains i && u.contains i) := Nat.testBit_and ..

@[simp]
theorem contains_without (s u : Places) (i : Nat) :
    (s.without u).contains i = (s.contains i && !u.contains i) := by
  simp only [contains, without, Nat.testBit_xor, Nat.testBit_and]
  cases s.bits.testBit i <;> cases u.bits.testBit i <;> rfl

@[simp]
theorem contains_next_zero (s : Places) : s.next.contains 0 = false := by
  simp [contains, next]

@[simp]
theorem contains_next_succ (s : Places) (i : Nat) : s.next.contains (i + 1) = s.contains i := by
  simp [contains, next, Nat.testBit_shiftLeft]

@[simp]
theorem contains_below (n i : Nat) : (below n).contains i = decide (i < n) := by
  simp [contains, below, Nat.shiftLeft_eq]

@[simp]
theorem contains_ofMarks (marks : List Bool) (i : Nat) :
    (ofMarks marks).contains i = marks[i]?.getD false := by
  induction marks generalizing i with
  | nil => simp [contains, ofMarks]
  | cons b bs ih =>
    have hb : b.toNat < 2 := Bool.toNat_lt b
    have h : (ofMarks (b :: bs)).bits = 2 * (ofMarks bs).bits + b.toNat := rfl
    cases i with
    | zero =>
      simp only [contains, h, Nat.testBit_zero]
      cases b <;> simp
    | succ i =>
      have hd : (2 * (ofMarks bs).bits + b.toNat) / 2 = (ofMarks bs).bits := by omega
      simp only [contains, h, Nat.testBit_succ, hd, List.getElem?_cons_succ]
      exact ih i

theorem isEmpty_iff (s : Places) : s.isEmpty = true ↔ ∀ i, s.contains i = false := by
  constructor
  · intro h i
    simp only [isEmpty, beq_iff_eq] at h
    simp [contains, h]
  · intro h
    simp only [isEmpty, beq_iff_eq]
    exact Nat.eq_of_testBit_eq fun i => by simpa [contains] using h i

end Places

end TestAtlas
