import TestAtlas.Proofs.Pattern.Matching

/-!
# The matcher finds what patterns describe

The matcher leads a set of places to the places where matches that start there can end
(`contains_ends_iff`).  Repetitions are the point: their rows are followed only as far as the text
is long, since a longer row has a repetition that takes no character and can be had at any greater
length as well (`MatchesRow.of_long`), and each round follows only the places that the round before
was the first to reach (`contains_reach_iff`).
-/

namespace TestAtlas

variable {t : Array Char} {fold : Bool} {p : Pattern}

/-! ## Rows of repetitions -/

/-- A repetition that takes no character can be added as often as one likes. -/
theorem MatchesRow.pump {n i j : Nat} (hempty : Matches t fold p i i)
    (h : MatchesRow t fold p n i j) (extra : Nat) : MatchesRow t fold p (n + extra) i j := by
  induction extra with
  | zero => exact h
  | succ extra ih => exact .cons hempty ih

/-- A row of more repetitions than it takes characters can be had with any number of repetitions
that is not smaller than the number of characters. -/
theorem MatchesRow.of_long {n i j : Nat} (hi : i ≤ t.size) (h : MatchesRow t fold p n i j)
    (hlong : j - i < n) {m : Nat} (hm : j - i ≤ m) : MatchesRow t fold p m i j := by
  induction n generalizing i m with
  | zero => exact absurd hlong (Nat.not_lt_zero _)
  | succ n ih =>
      cases h with
      | @cons _ _ _ k _ hfirst hrest =>
          obtain ⟨hik, hk⟩ := hfirst.bounds hi
          obtain ⟨hkj, -⟩ := hrest.bounds hk
          rcases Nat.eq_or_lt_of_le hik with rfl | hlt
          · -- the first repetition takes nothing: it can be left out or made often
            by_cases hshort : j - i < n
            · exact ih hi hrest hshort hm
            · obtain ⟨extra, rfl⟩ := Nat.exists_eq_add_of_le (show n ≤ m by omega)
              exact hrest.pump hfirst extra
          · obtain ⟨m, rfl⟩ := Nat.exists_eq_succ_of_ne_zero (show m ≠ 0 by omega)
            exact .cons hfirst (ih hk hrest (by omega) (by omega))

theorem matchesRow_add_iff {m n i j : Nat} : MatchesRow t fold p (m + n) i j ↔
    ∃ k, MatchesRow t fold p m i k ∧ MatchesRow t fold p n k j := by
  induction m generalizing i with
  | zero =>
      rw [Nat.zero_add]
      constructor
      · exact fun h => ⟨i, .nil i, h⟩
      · rintro ⟨_, ⟨⟩, h⟩
        exact h
  | succ m ih =>
      rw [Nat.add_right_comm]
      constructor
      · rintro (_ | ⟨h, hr⟩)
        obtain ⟨k, hm, hn⟩ := ih.mp hr
        exact ⟨k, .cons h hm, hn⟩
      · rintro ⟨k, _ | ⟨h, hm⟩, hn⟩
        exact .cons h (ih.mpr ⟨k, hm, hn⟩)

/-- The rows with at least `least` and at most `most` repetitions end where those do that have a
number of repetitions not far beyond the length of the text. -/
theorem exists_row_iff {least most i j : Nat} (hi : i ≤ t.size) (hle : least ≤ most) :
    (∃ n, least ≤ n ∧ n ≤ most ∧ MatchesRow t fold p n i j) ↔
      ∃ n, n ≤ min (most - least) (t.size + 1) ∧
        MatchesRow t fold p (min least (t.size + 1) + n) i j := by
  constructor
  · rintro ⟨n, hln, hnm, h⟩
    have hj := (h.bounds hi).2
    by_cases hlong : t.size < n
    · refine ⟨t.size + 1 - min least (t.size + 1), by omega, h.of_long hi (by omega) (by omega)⟩
    · refine ⟨n - least, by omega, ?_⟩
      rwa [show min least (t.size + 1) + (n - least) = n by omega]
  · rintro ⟨n, hn, h⟩
    have hj := (h.bounds hi).2
    by_cases hshort : least ≤ t.size + 1
    · rw [Nat.min_eq_left hshort] at h
      exact ⟨least + n, by omega, by omega, h⟩
    · exact ⟨least, Nat.le_refl _, hle, h.of_long hi (by omega) (by omega)⟩

theorem exists_row_iff_of_unbounded {least i j : Nat} (hi : i ≤ t.size) :
    (∃ n, least ≤ n ∧ MatchesRow t fold p n i j) ↔
      ∃ n, n ≤ t.size + 1 ∧ MatchesRow t fold p (min least (t.size + 1) + n) i j := by
  constructor
  · rintro ⟨n, hn, h⟩
    obtain ⟨n', hn', h'⟩ := (exists_row_iff hi hn).mp ⟨n, hn, Nat.le_refl n, h⟩
    exact ⟨n', by omega, h'⟩
  · rintro ⟨n, hn, h⟩
    have hle : least ≤ least + (t.size + 1) := Nat.le_add_right ..
    obtain ⟨n', hn', -, h'⟩ := (exists_row_iff hi hle).mpr ⟨n, by omega, h⟩
    exact ⟨n', hn', h'⟩

/-! ## Following places -/

/-- All places of the set lie inside the text. -/
def Places.LiesIn (s : Places) (t : Array Char) : Prop := ∀ i, s.contains i = true → i ≤ t.size

/-- A match from a place of `all` that is not one of `last` ends in `all`. -/
def LeftThrough (t : Array Char) (fold : Bool) (p : Pattern) (all last : Places) : Prop :=
  ∀ i, all.contains i = true → last.contains i = false → ∀ j, Matches t fold p i j →
    all.contains j = true

/-- A row from a place of a set ends in the set or goes on from where the set can be left. -/
theorem LeftThrough.exists_row {all last : Places} (hleft : LeftThrough t fold p all last)
    {n i j : Nat} (hi : all.contains i = true) (h : MatchesRow t fold p n i j) :
    all.contains j = true ∨
      ∃ k m, last.contains k = true ∧ 0 < m ∧ m ≤ n ∧ MatchesRow t fold p m k j := by
  induction n generalizing i with
  | zero =>
      cases h
      exact .inl hi
  | succ n ih =>
      cases hlast : last.contains i with
      | true => exact .inr ⟨i, n + 1, hlast, Nat.succ_pos n, Nat.le_refl _, h⟩
      | false =>
          obtain _ | ⟨hfirst, hrest⟩ := h
          rcases ih (hleft i hi hlast _ hfirst) hrest with hall | ⟨k, m, hk, hpos, hm, hrow⟩
          · exact .inl hall
          · exact .inr ⟨k, m, hk, hpos, Nat.le_succ_of_le hm, hrow⟩

open LaidPattern

theorem iterate_of_fixed {step : Places → Places} {s : Places} (h : step s = s) (n : Nat) :
    iterate step n s = s := by
  cases n with
  | zero => rfl
  | succ n => rw [iterate, h, if_pos rfl]

/-- A step leads from places of the text to the ends of the matches that start there. -/
def LeadsBy (t : Array Char) (fold : Bool) (p : Pattern) (step : Places → Places) : Prop :=
  ∀ s : Places, s.LiesIn t → ∀ j, (step s).contains j = true ↔
    ∃ i, s.contains i = true ∧ Matches t fold p i j

namespace LeadsBy

variable {step : Places → Places} {s : Places}

theorem liesIn (hstep : LeadsBy t fold p step) (hs : s.LiesIn t) : (step s).LiesIn t := by
  intro j hj
  obtain ⟨i, hi, h⟩ := (hstep s hs j).mp hj
  exact (h.bounds (hs i hi)).2

/-- A row starts with a step. -/
theorem exists_row_succ_iff (hstep : LeadsBy t fold p step) (hs : s.LiesIn t) {n j : Nat} :
    (∃ i, s.contains i = true ∧ MatchesRow t fold p (n + 1) i j) ↔
      ∃ k, (step s).contains k = true ∧ MatchesRow t fold p n k j := by
  constructor
  · rintro ⟨i, hi, _ | ⟨hfirst, hrest⟩⟩
    exact ⟨_, (hstep s hs _).mpr ⟨i, hi, hfirst⟩, hrest⟩
  · rintro ⟨k, hk, hrest⟩
    obtain ⟨i, hi, hfirst⟩ := (hstep s hs k).mp hk
    exact ⟨i, hi, .cons hfirst hrest⟩

/-- So many steps lead to the ends of the rows of so many repetitions. -/
theorem contains_iterate_iff (hstep : LeadsBy t fold p step) (hs : s.LiesIn t) (n j : Nat) :
    (iterate step n s).contains j = true ↔
      ∃ i, s.contains i = true ∧ MatchesRow t fold p n i j := by
  induction n generalizing s with
  | zero =>
      rw [iterate]
      constructor
      · exact fun h => ⟨j, h, .nil j⟩
      · rintro ⟨_, h, ⟨⟩⟩
        exact h
  | succ n ih =>
      rw [hstep.exists_row_succ_iff hs, ← ih (hstep.liesIn hs), iterate]
      split
      · rename_i hfixed
        rw [hfixed, iterate_of_fixed hfixed]
      · rfl

/-- After a round the set can be left through the new places only. -/
theorem leftThrough_next (hstep : LeadsBy t fold p step) {reached last : Places}
    (hlast : last.LiesIn t) (hleft : LeftThrough t fold p reached last) :
    LeftThrough t fold p (reached.union ((step last).without reached))
      ((step last).without reached) := by
  intro i hi hold j h
  have hreached : reached.contains i = true := by
    cases hr : reached.contains i <;> simp_all
  cases hl : last.contains i with
  | true =>
      have hj : (step last).contains j = true := (hstep last hlast j).mpr ⟨i, hl, h⟩
      cases hr : reached.contains j <;> simp [hr, hj]
  | false => simp [hleft i hreached hl j h]

/-- Following the places reached last is enough if the others lead nowhere else. -/
theorem contains_reach_iff (hstep : LeadsBy t fold p step) (n : Nat) {reached last : Places}
    (hreached : reached.LiesIn t) (hlast : ∀ i, last.contains i = true → reached.contains i = true)
    (hleft : LeftThrough t fold p reached last) (j : Nat) :
    (reach step n reached last).contains j = true ↔
      reached.contains j = true ∨
        ∃ i m, last.contains i = true ∧ 0 < m ∧ m ≤ n ∧ MatchesRow t fold p m i j := by
  induction n generalizing reached last with
  | zero =>
      rw [reach]
      refine (or_iff_left ?_).symm
      rintro ⟨_, m, -, hpos, hm, -⟩
      omega
  | succ n ih =>
      have hin : last.LiesIn t := fun i hi => hreached i (hlast i hi)
      have hmem : ∀ i, ((step last).without reached).contains i = true ↔
          (step last).contains i = true ∧ reached.contains i = false := by simp
      have hunion : ∀ i, (reached.union ((step last).without reached)).contains i = true ↔
          reached.contains i = true ∨ (step last).contains i = true := fun i => by
        cases h : reached.contains i <;> simp [h]
      have hnext := hstep.leftThrough_next hin hleft
      rw [reach]
      split
      · rename_i hempty
        have hnone := (Places.isEmpty_iff _).mp hempty
        refine (or_iff_left_of_imp ?_).symm
        rintro ⟨i, m, hi, -, -, hrow⟩
        rcases hnext.exists_row ((hunion i).mpr (.inl (hlast i hi))) hrow with hj | ⟨k, -, hk, -⟩
        · simpa [hnone j] using hj
        · exact absurd hk (by simp [hnone k])
      · rw [ih _ _ hnext]
        · constructor
          · rintro (hj | ⟨k, m, hk, -, hm, hrow⟩)
            · refine ((hunion j).mp hj).imp_right fun hj => ?_
              obtain ⟨i, hi, h⟩ := (hstep last hin j).mp hj
              exact ⟨i, 1, hi, Nat.one_pos, Nat.succ_pos n, .cons h (.nil j)⟩
            · obtain ⟨i, hi, h⟩ := (hstep last hin k).mp ((hmem k).mp hk).1
              exact .inr ⟨i, m + 1, hi, Nat.succ_pos m, Nat.succ_le_succ hm, .cons h hrow⟩
          · rintro (hj | ⟨i, m, hi, -, hm, _ | ⟨h, hrow⟩⟩)
            · exact .inl ((hunion j).mpr (.inl hj))
            · exact .inl ((hunion j).mpr (.inl (hlast j hi)))
            · have hk := (hunion _).mpr (.inr ((hstep last hin _).mpr ⟨i, hi, h⟩))
              refine (hnext.exists_row hk hrow).imp_right ?_
              rintro ⟨k, m', hk, hpos, hm', hrow⟩
              exact ⟨k, m', hk, hpos, by omega, hrow⟩
        · intro i hi
          exact ((hunion i).mp hi).elim (hreached i) (hstep.liesIn hin i)
        · exact fun i hi => (hunion i).mpr (.inr ((hmem i).mp hi).1)

/-- As many rounds as there are first repetitions, and then as many as may follow. -/
theorem contains_rows_iff (hstep : LeadsBy t fold p step) (hs : s.LiesIn t) (base further j : Nat) :
    (reach step further (iterate step base s) (iterate step base s)).contains j = true ↔
      ∃ i, s.contains i = true ∧ ∃ n, n ≤ further ∧ MatchesRow t fold p (base + n) i j := by
  have hfirst := hstep.contains_iterate_iff hs base
  have hin : (iterate step base s).LiesIn t := fun k hk => by
    obtain ⟨i, hi, h⟩ := (hfirst k).mp hk
    exact (h.bounds (hs i hi)).2
  rw [hstep.contains_reach_iff further hin (fun _ => id)
    fun i hi hnot => absurd (hi.symm.trans hnot) (by decide)]
  constructor
  · rintro (hj | ⟨k, n, hk, -, hn, hrow⟩)
    · obtain ⟨i, hi, h⟩ := (hfirst j).mp hj
      exact ⟨i, hi, 0, Nat.zero_le _, h⟩
    · obtain ⟨i, hi, h⟩ := (hfirst k).mp hk
      exact ⟨i, hi, n, hn, matchesRow_add_iff.mpr ⟨k, h, hrow⟩⟩
  · rintro ⟨i, hi, n, hn, h⟩
    obtain ⟨k, hbase, hrow⟩ := matchesRow_add_iff.mp h
    have hk := (hfirst k).mpr ⟨i, hi, hbase⟩
    cases n with
    | zero =>
        cases hrow
        exact .inl hk
    | succ n => exact .inr ⟨k, n + 1, hk, Nat.succ_pos n, hn, hrow⟩

end LeadsBy

/-! ## The matcher -/

namespace Pattern

open LaidPattern

theorem matches_times_iff {least i j : Nat} {most : Option Nat} :
    Matches t fold (.times p least most) i j ↔
      ∃ n, least ≤ n ∧ (∀ m, most = some m → n ≤ m) ∧ MatchesRow t fold p n i j := by
  constructor
  · intro h
    cases h with
    | times hl hm h => exact ⟨_, hl, hm, h⟩
  · rintro ⟨n, hl, hm, h⟩
    exact .times hl hm h

theorem leadsBy_one (set : CharSet) : LeadsBy t fold (.one set)
    fun s => (s.inter (.ofMarks (t.toList.map (set.holds fold)))).next := by
  intro s _ j
  constructor
  · intro hj
    cases j with
    | zero => exact absurd hj (by simp)
    | succ i =>
        simp only [Places.contains_next_succ, Places.contains_inter, Places.contains_ofMarks,
          Bool.and_eq_true, List.getElem?_map, Array.getElem?_toList] at hj
        obtain ⟨hi, hset⟩ := hj
        cases hc : t[i]? with
        | none => simp [hc] at hset
        | some c => exact ⟨i, hi, .one hc (by simpa [hc] using hset)⟩
  · rintro ⟨i, hi, h⟩
    cases h with
    | one hc hset => simp [hi, hc, hset]

theorem leadsBy_at (anchor : Anchor) : LeadsBy t fold (.at anchor)
    fun s => s.inter (.ofMarks ((List.range (t.size + 1)).map fun i => anchor.holds t i)) := by
  intro s hs j
  have hat : s.contains j = true → ((Places.ofMarks ((List.range (t.size + 1)).map
      fun i => anchor.holds t i)).contains j = true ↔ anchor.holds t j = true) := fun hj => by
    simp [List.getElem?_range (Nat.lt_succ_of_le (hs j hj))]
  rw [Places.contains_inter, Bool.and_eq_true, and_congr_right hat]
  constructor
  · rintro ⟨hj, hanchor⟩
    exact ⟨j, hj, .at hanchor⟩
  · rintro ⟨i, hi, h⟩
    cases h with
    | «at» hanchor => exact ⟨hi, hanchor⟩

theorem leadsBy_seq {q : Pattern} {first second : Places → Places}
    (hp : LeadsBy t fold p first) (hq : LeadsBy t fold q second) :
    LeadsBy t fold (.seq p q) fun s => second (first s) := by
  intro s hs j
  rw [hq _ (hp.liesIn hs) j]
  simp only [hp s hs]
  constructor
  · rintro ⟨k, ⟨i, hi, hp⟩, hq⟩
    exact ⟨i, hi, .seq hp hq⟩
  · rintro ⟨i, hi, h⟩
    cases h with
    | seq hp hq => exact ⟨_, ⟨i, hi, hp⟩, hq⟩

theorem leadsBy_either {q : Pattern} {first second : Places → Places}
    (hp : LeadsBy t fold p first) (hq : LeadsBy t fold q second) :
    LeadsBy t fold (.either p q) fun s => (first s).union (second s) := by
  intro s hs j
  rw [Places.contains_union, Bool.or_eq_true, hp s hs, hq s hs]
  constructor
  · rintro (⟨i, hi, h⟩ | ⟨i, hi, h⟩)
    · exact ⟨i, hi, .left h⟩
    · exact ⟨i, hi, .right h⟩
  · rintro ⟨i, hi, h⟩
    cases h with
    | left h => exact .inl ⟨i, hi, h⟩
    | right h => exact .inr ⟨i, hi, h⟩

theorem leadsBy_times (least : Nat) (most : Option Nat)
    (h : LeadsBy t fold p ((p.layOn t fold).ends t.size)) :
    LeadsBy t fold (.times p least most)
      ((LaidPattern.times (p.layOn t fold) least most).ends t.size) := by
  intro s hs j
  simp only [ends, matches_times_iff]
  cases most with
  | none =>
      simp only
      rw [h.contains_rows_iff hs]
      refine exists_congr fun i => and_congr_right fun hi => ?_
      simp [exists_row_iff_of_unbounded (hs i hi)]
  | some most =>
      simp only
      by_cases hle : most < least
      · rw [if_pos hle]
        refine iff_of_false (by simp) ?_
        rintro ⟨_, -, n, hl, hm, -⟩
        have := hm most rfl
        omega
      · rw [if_neg hle, h.contains_rows_iff hs]
        refine exists_congr fun i => and_congr_right fun hi => ?_
        refine (exists_row_iff (hs i hi) (Nat.le_of_not_lt hle)).symm.trans ?_
        exact exists_congr fun n => by simp

/-- The places that the matcher comes to are the ends of the matches that start where it set
out. -/
theorem leadsBy_ends (t : Array Char) (fold : Bool) (p : Pattern) :
    LeadsBy t fold p ((p.layOn t fold).ends t.size) := by
  induction p with
  | empty =>
      intro s _ j
      constructor
      · exact fun hj => ⟨j, hj, .empty j⟩
      · rintro ⟨_, hj, ⟨⟩⟩
        exact hj
  | one set => exact leadsBy_one set
  | «at» anchor => exact leadsBy_at anchor
  | seq p q ihp ihq =>
      have h := leadsBy_seq ihp ihq
      exact h
  | either p q ihp ihq =>
      have h := leadsBy_either ihp ihq
      exact h
  | times p least most ih => exact leadsBy_times least most ih

theorem occurs_iff_exists_matches (fold : Bool) (p : Pattern) (text : String) :
    p.occurs fold text = true ↔
      ∃ i j, i ≤ text.toList.length ∧ Matches text.toList.toArray fold p i j := by
  have hin : (Places.below (text.toList.toArray.size + 1)).LiesIn text.toList.toArray :=
    fun i hi => by simpa [Nat.lt_succ_iff] using hi
  have hends := leadsBy_ends text.toList.toArray fold p _ hin
  rw [occurs, Bool.not_eq_true', ← Bool.not_eq_true, Places.isEmpty_iff]
  simp only [Bool.eq_false_iff, ne_eq, Classical.not_forall, Classical.not_not, hends]
  constructor
  · rintro ⟨j, i, hi, h⟩
    exact ⟨i, j, by simpa [Nat.lt_succ_iff] using hi, h⟩
  · rintro ⟨i, j, hi, h⟩
    exact ⟨j, i, by simpa [Nat.lt_succ_iff] using hi, h⟩

/-- A pattern occurs in a text if it describes a part of it, where that part stands. -/
theorem occurs_iff (fold : Bool) (p : Pattern) (text : String) :
    p.occurs fold text = true ↔
      ∃ before part after, text.toList = before ++ part ++ after ∧
        p.Describes fold before part after := by
  rw [occurs_iff_exists_matches]
  constructor
  · rintro ⟨i, j, hi, h⟩
    obtain ⟨hij, hj⟩ := h.bounds (by simpa using hi)
    have hj : j ≤ text.toList.length := by simpa using hj
    obtain ⟨upto, after, htext, rfl⟩ : ∃ upto after, text.toList = upto ++ after ∧
        upto.length = j :=
      ⟨_, _, (List.take_append_drop j _).symm, List.length_take_of_le hj⟩
    obtain ⟨before, part, rfl, rfl⟩ : ∃ before part, upto = before ++ part ∧ before.length = i :=
      ⟨_, _, (List.take_append_drop i _).symm, List.length_take_of_le hij⟩
    refine ⟨before, part, after, htext, ?_⟩
    rw [htext] at h
    simpa [Describes] using h
  · rintro ⟨before, part, after, htext, h⟩
    refine ⟨before.length, before.length + part.length, by simp [htext], ?_⟩
    rwa [htext]

end Pattern

/-- Some expression occurs in a text if it describes a part of the text. -/
theorem Expression.anyOccursIn_iff (es : List Expression) (text : String) :
    anyOccursIn es text = true ↔ ∃ e ∈ es, ∃ before part after,
      text.toList = before ++ part ++ after ∧ e.pattern.Describes e.fold before part after := by
  rw [anyOccursIn, List.any_eq_true]
  exact exists_congr fun e => and_congr_right fun _ => Pattern.occurs_iff e.fold e.pattern text

end TestAtlas
