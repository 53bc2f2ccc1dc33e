import TestAtlas.Pattern.Parser

/-!
# What a pattern describes

Matching is said in places of a text.  `Describes` says the same of a part of a text that stands
between two others, and it has one equation for each form of a pattern: a sequence cuts its part in
two, an anchor takes the empty part and looks at what stands around it.
-/

namespace TestAtlas

section Bounds

variable {t : Array Char} {fold : Bool}

mutual

/-- A match that starts inside a text ends inside it, not before its start. -/
theorem Matches.bounds {p : Pattern} {i j : Nat} (h : Matches t fold p i j) (hi : i ≤ t.size) :
    i ≤ j ∧ j ≤ t.size := by
  match h with
  | .empty _ => exact ⟨Nat.le_refl _, hi⟩
  | .one ht _ =>
    obtain ⟨hlt, -⟩ := Array.getElem?_eq_some_iff.mp ht
    exact ⟨Nat.le_succ _, hlt⟩
  | .at _ => exact ⟨Nat.le_refl _, hi⟩
  | .seq hp hq =>
    obtain ⟨hij, hj⟩ := hp.bounds hi
    obtain ⟨hjk, hk⟩ := hq.bounds hj
    exact ⟨Nat.le_trans hij hjk, hk⟩
  | .left h => exact h.bounds hi
  | .right h => exact h.bounds hi
  | .times _ _ h => exact h.bounds hi

/-- Parts in a row that start inside a text end inside it, not before their start. -/
theorem MatchesRow.bounds {p : Pattern} {n i j : Nat} (h : MatchesRow t fold p n i j)
    (hi : i ≤ t.size) : i ≤ j ∧ j ≤ t.size := by
  match h with
  | .nil _ => exact ⟨Nat.le_refl _, hi⟩
  | .cons h hr =>
    obtain ⟨hij, hj⟩ := h.bounds hi
    obtain ⟨hjk, hk⟩ := hr.bounds hj
    exact ⟨Nat.le_trans hij hjk, hk⟩

end

end Bounds

@[simp]
theorem CharSet.holds_single (c d : Char) : (single d).holds false c = (c == d) := by
  simp [holds, isListed, single, SetItem.holds]

namespace Pattern

/-- The pattern describes `part` where it stands between `before` and `after`. -/
def Describes (p : Pattern) (fold : Bool) (before part after : List Char) : Prop :=
  Matches (before ++ part ++ after).toArray fold p before.length (before.length + part.length)

/-- As `Describes`, for a pattern that is met `n` times in a row. -/
def DescribesRow (p : Pattern) (fold : Bool) (n : Nat) (before part after : List Char) : Prop :=
  MatchesRow (before ++ part ++ after).toArray fold p n before.length
    (before.length + part.length)

variable {fold : Bool} {before part after : List Char}

theorem describes_empty_iff : empty.Describes fold before part after ↔ part = [] := by
  constructor
  · intro h
    unfold Describes at h
    generalize hj : before.length + part.length = j at h
    cases h
    exact List.eq_nil_of_length_eq_zero (by omega)
  · rintro rfl
    exact .empty _

theorem describes_one_iff {s : CharSet} :
    (one s).Describes fold before part after ↔ ∃ c, part = [c] ∧ s.holds fold c = true := by
  constructor
  · intro h
    unfold Describes at h
    generalize hj : before.length + part.length = j at h
    cases h with
    | @one _ _ d ht hs =>
      obtain ⟨c, rfl⟩ := List.length_eq_one_iff.mp (show part.length = 1 by omega)
      have hc : c = d := by simpa using ht
      exact ⟨c, rfl, hc ▸ hs⟩
  · rintro ⟨c, rfl, hc⟩
    exact .one (by simp) hc

theorem describes_at_iff {a : Anchor} :
    (Pattern.at a).Describes fold before part after ↔
      part = [] ∧ a.holds (before ++ after).toArray before.length = true := by
  constructor
  · intro h
    unfold Describes at h
    generalize hj : before.length + part.length = j at h
    cases h with
    | «at» h =>
      obtain rfl := List.eq_nil_of_length_eq_zero (show part.length = 0 by omega)
      exact ⟨rfl, by simpa using h⟩
  · rintro ⟨rfl, h⟩
    exact .at (by simpa using h)

/-- A place between the ends of a part cuts it in two. -/
theorem exists_cut {j : Nat} (hstart : before.length ≤ j)
    (hend : j ≤ before.length + part.length) :
    ∃ first second, part = first ++ second ∧ before.length + first.length = j := by
  refine ⟨part.take (j - before.length), part.drop (j - before.length),
    (List.take_append_drop _ _).symm, ?_⟩
  rw [List.length_take]
  omega

theorem describes_left_iff {p : Pattern} {first second : List Char} :
    p.Describes fold before first (second ++ after) ↔
      Matches (before ++ (first ++ second) ++ after).toArray fold p before.length
        (before.length + first.length) := by
  simp [Describes, List.append_assoc]

theorem describes_right_iff {p : Pattern} {first second : List Char} :
    p.Describes fold (before ++ first) second after ↔
      Matches (before ++ (first ++ second) ++ after).toArray fold p
        (before.length + first.length) (before.length + (first ++ second).length) := by
  simp [Describes, List.append_assoc, Nat.add_assoc]

theorem describes_seq_iff {p q : Pattern} :
    (seq p q).Describes fold before part after ↔
      ∃ first second, part = first ++ second ∧
        p.Describes fold before first (second ++ after) ∧
        q.Describes fold (before ++ first) second after := by
  constructor
  · intro h
    unfold Describes at h
    cases h with
    | seq hp hq =>
      obtain ⟨hij, hj⟩ := hp.bounds (by simp)
      obtain ⟨hjk, -⟩ := hq.bounds hj
      obtain ⟨first, second, rfl, rfl⟩ := exists_cut hij hjk
      exact ⟨first, second, rfl, describes_left_iff.mpr hp, describes_right_iff.mpr hq⟩
  · rintro ⟨first, second, rfl, hp, hq⟩
    exact .seq (describes_left_iff.mp hp) (describes_right_iff.mp hq)

theorem describes_textStart_iff :
    (Pattern.at .textStart).Describes fold before part after ↔ part = [] ∧ before = [] := by
  simp [describes_at_iff, Anchor.holds]

theorem describes_lineEnd_iff :
    (Pattern.at .lineEnd).Describes fold before part after ↔
      part = [] ∧ (after = [] ∨ after = ['\n']) := by
  rw [describes_at_iff]
  refine and_congr_right fun _ => ?_
  cases after with
  | nil => simp [Anchor.holds]
  | cons c after => simp [Anchor.holds, and_comm]

theorem describes_either_iff {p q : Pattern} :
    (either p q).Describes fold before part after ↔
      p.Describes fold before part after ∨ q.Describes fold before part after := by
  constructor
  · intro h
    unfold Describes at h
    cases h with
    | left h => exact .inl h
    | right h => exact .inr h
  · rintro (h | h)
    · exact .left h
    · exact .right h

theorem describesRow_zero_iff {p : Pattern} :
    p.DescribesRow fold 0 before part after ↔ part = [] := by
  constructor
  · intro h
    unfold DescribesRow at h
    generalize hj : before.length + part.length = j at h
    cases h
    exact List.eq_nil_of_length_eq_zero (by omega)
  · rintro rfl
    exact .nil _

theorem describesRow_succ_iff {p : Pattern} {n : Nat} :
    p.DescribesRow fold (n + 1) before part after ↔
      ∃ first second, part = first ++ second ∧
        p.Describes fold before first (second ++ after) ∧
        p.DescribesRow fold n (before ++ first) second after := by
  constructor
  · intro h
    unfold DescribesRow at h
    cases h with
    | cons h hr =>
      obtain ⟨hij, hj⟩ := h.bounds (by simp)
      obtain ⟨hjk, -⟩ := hr.bounds hj
      obtain ⟨first, second, rfl, rfl⟩ := exists_cut hij hjk
      refine ⟨first, second, rfl, describes_left_iff.mpr h, ?_⟩
      simpa [DescribesRow, List.append_assoc, Nat.add_assoc] using hr
  · rintro ⟨first, second, rfl, h, hr⟩
    refine .cons (describes_left_iff.mp h) ?_
    simpa [DescribesRow, List.append_assoc, Nat.add_assoc] using hr

theorem describes_times_iff {p : Pattern} {least : Nat} {most : Option Nat} :
    (times p least most).Describes fold before part after ↔
      ∃ n, least ≤ n ∧ (∀ m, most = some m → n ≤ m) ∧ p.DescribesRow fold n before part after := by
  constructor
  · intro h
    unfold Describes at h
    cases h with
    | times hl hm h => exact ⟨_, hl, hm, h⟩
  · rintro ⟨n, hl, hm, h⟩
    exact .times hl hm h

/-- A set in a row takes one character at a time. -/
theorem describesRow_one_iff {s : CharSet} {n : Nat} :
    (one s).DescribesRow fold n before part after ↔
      part.length = n ∧ ∀ c ∈ part, s.holds fold c = true := by
  induction n generalizing before part with
  | zero =>
    rw [describesRow_zero_iff, List.length_eq_zero_iff]
    exact ⟨fun h => ⟨h, by simp [h]⟩, And.left⟩
  | succ n ih =>
    simp only [describesRow_succ_iff, describes_one_iff, ih]
    constructor
    · rintro ⟨first, second, rfl, ⟨c, rfl, hc⟩, rfl, hsecond⟩
      exact ⟨rfl, List.forall_mem_cons.mpr ⟨hc, hsecond⟩⟩
    · rintro ⟨hlength, h⟩
      obtain ⟨c, second, rfl⟩ := List.exists_cons_of_length_eq_add_one hlength
      obtain ⟨hc, hsecond⟩ := List.forall_mem_cons.mp h
      exact ⟨[c], second, rfl, ⟨c, rfl, hc⟩, Nat.succ.inj hlength, hsecond⟩

/-- A set repeated without an upper bound describes the parts, long enough, of its characters. -/
theorem describes_times_one_iff {s : CharSet} {least : Nat} :
    (times (one s) least none).Describes fold before part after ↔
      least ≤ part.length ∧ ∀ c ∈ part, s.holds fold c = true := by
  simp only [describes_times_iff, describesRow_one_iff]
  constructor
  · rintro ⟨_, hleast, -, rfl, h⟩
    exact ⟨hleast, h⟩
  · rintro ⟨hleast, h⟩
    exact ⟨part.length, hleast, by simp, rfl, h⟩

/-- The pattern describes what `rest` starts with, where `rest` stands behind `before`. -/
def Opens (p : Pattern) (fold : Bool) (before rest : List Char) : Prop :=
  ∃ part after, rest = part ++ after ∧ p.Describes fold before part after

variable {rest : List Char}

/-- A match from the start of a text describes what the text starts with. -/
theorem exists_matches_iff_opens {p : Pattern} :
    (∃ j, Matches rest.toArray fold p 0 j) ↔ p.Opens fold [] rest := by
  constructor
  · rintro ⟨j, h⟩
    have hj : j ≤ rest.length := by simpa using (h.bounds (Nat.zero_le _)).2
    refine ⟨rest.take j, rest.drop j, (List.take_append_drop j rest).symm, ?_⟩
    simpa [Describes, Nat.min_eq_left hj] using h
  · rintro ⟨part, after, rfl, h⟩
    exact ⟨_, by simpa [Describes] using h⟩

theorem opens_seq_iff {p q : Pattern} :
    (seq p q).Opens fold before rest ↔
      ∃ first second, rest = first ++ second ∧ p.Describes fold before first second ∧
        q.Opens fold (before ++ first) second := by
  constructor
  · rintro ⟨part, after, rfl, h⟩
    obtain ⟨first, second, rfl, hp, hq⟩ := describes_seq_iff.mp h
    exact ⟨first, second ++ after, List.append_assoc .., hp, second, after, rfl, hq⟩
  · rintro ⟨first, _, rfl, hp, second, after, rfl, hq⟩
    exact ⟨first ++ second, after, (List.append_assoc ..).symm,
      describes_seq_iff.mpr ⟨first, second, rfl, hp, hq⟩⟩

end Pattern

namespace Expression

open Pattern

variable {fold : Bool} {before part after rest : List Char}

/-- The elements that stand for the characters of a word. -/
def literal (word : List Char) : List Element := word.map fun c => .chars (.single c)

theorem describes_sequence_cons_iff {e : Element} {es : List Element} :
    (sequence (e :: es)).Describes fold before part after ↔
      ∃ first second, part = first ++ second ∧
        e.pattern.Describes fold before first (second ++ after) ∧
        (sequence es).Describes fold (before ++ first) second after := by
  cases es with
  | cons e' es => exact describes_seq_iff
  | nil =>
    constructor
    · intro h
      exact ⟨part, [], by simp, by simpa [sequence] using h, describes_empty_iff.mpr rfl⟩
    · rintro ⟨first, second, rfl, h, hnil⟩
      obtain rfl := describes_empty_iff.mp hnil
      simpa [sequence] using h

theorem describes_sequence_append_iff {es es' : List Element} :
    (sequence (es ++ es')).Describes fold before part after ↔
      ∃ first second, part = first ++ second ∧
        (sequence es).Describes fold before first (second ++ after) ∧
        (sequence es').Describes fold (before ++ first) second after := by
  induction es generalizing before part with
  | nil =>
    constructor
    · intro h
      exact ⟨[], part, rfl, describes_empty_iff.mpr rfl, by simpa using h⟩
    · rintro ⟨_, second, rfl, hnil, h⟩
      obtain rfl := describes_empty_iff.mp hnil
      simpa using h
  | cons e es ih =>
    simp only [List.cons_append, describes_sequence_cons_iff, ih]
    constructor
    · rintro ⟨x, _, rfl, hx, y, z, rfl, hy, hz⟩
      refine ⟨x ++ y, z, by simp, ⟨x, y, rfl, by simpa using hx, hy⟩, by simpa using hz⟩
    · rintro ⟨_, z, rfl, ⟨x, y, rfl, hx, hy⟩, hz⟩
      exact ⟨x, y ++ z, by simp, by simpa using hx, y, z, rfl, hy, by simpa using hz⟩

/-- The elements of a word describe the word and nothing else. -/
theorem describes_literal_iff {word : List Char} :
    (sequence (literal word)).Describes false before part after ↔ part = word := by
  induction word generalizing before part with
  | nil => exact describes_empty_iff
  | cons c word ih =>
    change (sequence (.chars (.single c) :: literal word)).Describes _ _ _ _ ↔ _
    simp only [describes_sequence_cons_iff, Element.pattern, describes_one_iff, ih]
    constructor
    · rintro ⟨_, _, rfl, ⟨d, rfl, hd⟩, rfl⟩
      obtain rfl : d = c := by simpa using hd
      rfl
    · rintro rfl
      exact ⟨[c], word, rfl, ⟨c, rfl, by simp⟩, rfl⟩

theorem opens_sequence_append_iff {es es' : List Element} :
    (sequence (es ++ es')).Opens fold before rest ↔
      ∃ first second, rest = first ++ second ∧
        (sequence es).Describes fold before first second ∧
        (sequence es').Opens fold (before ++ first) second := by
  have hseq : (sequence (es ++ es')).Opens fold before rest ↔
      (Pattern.seq (sequence es) (sequence es')).Opens fold before rest := by
    simp only [Opens, describes_sequence_append_iff, describes_seq_iff]
  rw [hseq, opens_seq_iff]

theorem opens_sequence_cons_iff {e : Element} {es : List Element} :
    (sequence (e :: es)).Opens fold before rest ↔
      ∃ first second, rest = first ++ second ∧ e.pattern.Describes fold before first second ∧
        (sequence es).Opens fold (before ++ first) second := by
  rw [← List.singleton_append, opens_sequence_append_iff]
  rfl

/-- A word in front of a sequence is what the text starts with. -/
theorem opens_literal_append_iff {word : List Char} {es : List Element} :
    (sequence (literal word ++ es)).Opens false before rest ↔
      ∃ second, rest = word ++ second ∧ (sequence es).Opens false (before ++ word) second := by
  rw [opens_sequence_append_iff]
  simp only [describes_literal_iff]
  constructor
  · rintro ⟨_, second, rfl, rfl, h⟩
    exact ⟨second, rfl, h⟩
  · rintro ⟨second, rfl, h⟩
    exact ⟨word, second, rfl, rfl, h⟩

/-- The start of the text takes no character. -/
theorem opens_textStart_cons_iff {es : List Element} :
    (sequence (.anchor .textStart :: es)).Opens fold [] rest ↔
      (sequence es).Opens fold [] rest := by
  rw [opens_sequence_cons_iff]
  simp only [Element.pattern, describes_textStart_iff]
  constructor
  · rintro ⟨_, second, rfl, ⟨rfl, -⟩, h⟩
    exact h
  · intro h
    exact ⟨[], rest, rfl, ⟨rfl, trivial⟩, h⟩

/-- The end of a line is the end of the text, possibly behind a line feed. -/
theorem opens_lineEnd_iff :
    (sequence [.anchor .lineEnd]).Opens fold before rest ↔ rest = [] ∨ rest = ['\n'] := by
  constructor
  · rintro ⟨_, after, rfl, h⟩
    obtain ⟨rfl, hafter⟩ := describes_lineEnd_iff.mp h
    exact hafter
  · intro h
    exact ⟨[], rest, rfl, describes_lineEnd_iff.mpr ⟨rfl, h⟩⟩

/-- A group stands for its elements. -/
theorem opens_group_cons_iff {es es' : List Element} :
    (sequence (.closed (sequence es) :: es')).Opens fold before rest ↔
      (sequence (es ++ es')).Opens fold before rest := by
  rw [opens_sequence_cons_iff, opens_sequence_append_iff]
  rfl

/-- The text can be read as an expression, and it describes what the name starts with. -/
def DescribesStart (text name : String) : Prop :=
  ∃ e, ofText text = .ok e ∧ ∃ j, Matches name.toList.toArray e.fold e.pattern 0 j

theorem describesStart_iff {text name : String} {e : Expression} (h : ofText text = .ok e) :
    DescribesStart text name ↔ e.pattern.Opens e.fold [] name.toList := by
  simp [DescribesStart, h, exists_matches_iff_opens]

end Expression

end TestAtlas
