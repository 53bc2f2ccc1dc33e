import TestAtlas.Proofs.Outline.Eligibility
import TestAtlas.Proofs.Outline.Leaves

/-!
# What the suites add

A document that can run suites has more leaves than the same outline without suites.  The first of
each kind and name is kept, so a method that counts only with suites can take the place of a later
one of the same name.  The leaves of functions are not touched by this, since no method has a name
that a function can have: the name of a method starts with its receiver in parentheses.
-/

namespace TestAtlas

open Outline

namespace Leaf

/-- The leaf is that of a method: its name starts with the receiver. -/
def isOfMethod (leaf : Leaf) : Bool := leaf.name.toList.head? == some '('

/-- What leaves are told apart by. -/
def key (leaf : Leaf) : String × String := (leaf.kind, leaf.name)

/-- The leaf is that of a function of the outline that counts. -/
def IsOfFunction (symbols : List Symbol) (leaf : Leaf) : Prop :=
  ∃ p ∈ Symbol.placesOfList [] symbols, ∃ kind, p.IsTestFunction kind ∧
    leaf = ⟨kind.word, p.symbol.name, p.symbol.range⟩

/-! ## The names of methods -/

theorem head?_of_kindOfFunction? {name : String} {kind : Kind}
    (h : kindOfFunction? name = some kind) : name.toList.head? ≠ some '(' := by
  obtain ⟨-, word, hword, rest, hname⟩ := kindOfFunction?_eq_some_iff.mp h
  have hhead : ∀ w ∈ functionWords, w.1 ≠ [] ∧ w.1.head? ≠ some '(' := by decide
  obtain ⟨hne, hparen⟩ := hhead _ hword
  obtain ⟨c, tail, hcons⟩ := List.exists_cons_of_ne_nil hne
  simp only at hcons hparen
  rwa [← hname, hcons, List.cons_append, List.head?_cons, ← List.head?_cons (l := tail), ← hcons]

theorem head?_of_suiteName? {type : Option String} {name full : String}
    (h : suiteName? type name = some full) : full.toList.head? = some '(' := by
  unfold suiteName? at h
  split at h
  · rename_i hmethod
    obtain ⟨receiver, method, hname, -⟩ := isSuiteMethod_iff.mp hmethod
    rw [← Option.some.inj h, hname, List.head?_cons]
  · split at h
    · split at h
      · rw [← Option.some.inj h]
        simp
      · exact absurd h (by simp)
    · exact absurd h (by simp)

/-- A place makes the leaf of a function, with suites or without, or the leaf of a method, which it
makes with suites too. -/
theorem ofPlace?_cases {suites : Bool} {p : SymbolPlace} {leaf : Leaf}
    (h : ofPlace? suites p = some leaf) :
    (leaf.isOfMethod = false ∧ ∀ suites', ofPlace? suites' p = some leaf) ∨
      (leaf.isOfMethod = true ∧ leaf.kind = Kind.test.word ∧ ofPlace? true p = some leaf) := by
  obtain ⟨around, s⟩ := p
  cases hvisit : visit? around with
  | none => simp [ofPlace?_of_unvisited hvisit] at h
  | some state =>
    obtain ⟨inTest, type⟩ := state
    by_cases hf : s.kind = .function
    · have hsame : ∀ suites', ofPlace? suites' ⟨around, s⟩ = some leaf := by
        intro suites'
        rw [ofPlace?_function hvisit hf] at h ⊢
        exact h
      rw [ofPlace?_function hvisit hf] at h
      cases inTest with
      | true => simp at h
      | false =>
        obtain ⟨kind, hkind, rfl⟩ := Option.map_eq_some_iff.mp h
        exact .inl ⟨by simpa [isOfMethod] using head?_of_kindOfFunction? hkind, hsame⟩
    · by_cases hm : s.kind = .method
      · rw [ofPlace?_method hvisit hm] at h
        split at h
        · obtain ⟨full, hfull, rfl⟩ := Option.map_eq_some_iff.mp h
          refine .inr ⟨by simpa [isOfMethod] using head?_of_suiteName? hfull, rfl, ?_⟩
          rw [ofPlace?_method hvisit hm, Bool.or_true, if_pos rfl, hfull, Option.map_some]
        · exact absurd h (by simp)
      · simp [ofPlace?_container hf hm] at h

/-! ## Keeping the first of each -/

theorem firsts_cons (seen : List (String × String)) (first : Leaf) (rest : List Leaf) :
    firsts seen (first :: rest) =
      if first.key ∈ seen then firsts seen rest
      else first :: firsts (first.key :: seen) rest := by
  by_cases hseen : (first.kind, first.name) ∈ seen <;> simp [firsts, key, hseen]

/-- What was seen matters only as far as the leaves are concerned. -/
theorem firsts_congr {seen seen' : List (String × String)} {leaves : List Leaf}
    (h : ∀ leaf ∈ leaves, leaf.key ∈ seen ↔ leaf.key ∈ seen') :
    firsts seen leaves = firsts seen' leaves := by
  induction leaves generalizing seen seen' with
  | nil => rfl
  | cons first rest ih =>
    have hfirst := h first List.mem_cons_self
    have hrest := fun leaf hleaf => h leaf (List.mem_cons_of_mem first hleaf)
    have hboth : firsts (first.key :: seen) rest = firsts (first.key :: seen') rest :=
      ih fun leaf hleaf => by rw [List.mem_cons, List.mem_cons, hrest leaf hleaf]
    rw [firsts_cons, firsts_cons, ih hrest, hboth]
    simp only [hfirst]

/-- To take out some kinds and names before the first of each is kept comes to the same as to take
them out afterwards. -/
theorem filter_firsts {keep : Leaf → Bool} (hkeep : ∀ a b : Leaf, a.key = b.key → keep a = keep b)
    (seen : List (String × String)) (leaves : List Leaf) :
    (firsts seen leaves).filter keep = firsts seen (leaves.filter keep) := by
  induction leaves generalizing seen with
  | nil => rfl
  | cons first rest ih =>
    rw [firsts_cons]
    by_cases hfirst : keep first = true
    · rw [List.filter_cons_of_pos hfirst, firsts_cons]
      split
      · exact ih seen
      · rw [List.filter_cons_of_pos hfirst, ih]
    · rw [List.filter_cons_of_neg hfirst]
      split
      · exact ih seen
      · -- what is left has other keys than the leaf that was taken out
        rw [List.filter_cons_of_neg hfirst, ih]
        refine firsts_congr fun leaf hleaf => ?_
        have hne : leaf.key ≠ first.key := fun heq =>
          hfirst (hkeep _ _ heq ▸ (List.mem_filter.mp hleaf).2)
        simp [hne]

/-- Each kind and name that was not seen is kept. -/
theorem mem_map_key_firsts_iff {k : String × String} {seen : List (String × String)}
    {leaves : List Leaf} :
    k ∈ (firsts seen leaves).map key ↔ k ∈ leaves.map key ∧ k ∉ seen := by
  induction leaves generalizing seen with
  | nil => simp [firsts]
  | cons first rest ih =>
    rw [firsts_cons, List.map_cons, List.mem_cons]
    by_cases hk : k = first.key
    · subst hk
      split
      · rename_i hseen
        simp [ih, hseen]
      · rename_i hseen
        simp [hseen]
    · split
      · simp [ih, hk]
      · simp [ih, hk]

/-! ## With suites and without -/

/-- The leaves of an outline before the first of each is kept. -/
theorem ofSymbols_eq_firsts (suites : Bool) (symbols : List Symbol) :
    ofSymbols suites symbols =
      firsts [] ((Symbol.placesOfList [] symbols).filterMap
        (ofPlace? (suites && symbols.any isRunner))) := by
  have htop : visit? [] = some (false, none) := rfl
  rw [ofSymbols, ofSymbolList_eq_filterMap htop]

theorem exists_place_of_mem {suites : Bool} {symbols : List Symbol} {leaf : Leaf}
    (h : leaf ∈ ofSymbols suites symbols) :
    ∃ p ∈ Symbol.placesOfList [] symbols,
      ofPlace? (suites && symbols.any isRunner) p = some leaf := by
  rw [ofSymbols_eq_firsts] at h
  exact List.mem_filterMap.mp (mem_of_mem_firsts h)

theorem key_mem_ofSymbols_iff {suites : Bool} {symbols : List Symbol} {k : String × String} :
    k ∈ (ofSymbols suites symbols).map key ↔
      ∃ p ∈ Symbol.placesOfList [] symbols, ∃ leaf,
        ofPlace? (suites && symbols.any isRunner) p = some leaf ∧ leaf.key = k := by
  rw [ofSymbols_eq_firsts, mem_map_key_firsts_iff]
  simp only [List.mem_map, List.mem_filterMap, List.not_mem_nil, not_false_eq_true, and_true]
  constructor
  · rintro ⟨leaf, ⟨p, hp, hleaf⟩, hk⟩
    exact ⟨p, hp, leaf, hleaf, hk⟩
  · rintro ⟨p, hp, leaf, hleaf, hk⟩
    exact ⟨leaf, ⟨p, hp, hleaf⟩, hk⟩

/-- What is found without suites is found with suites. -/
theorem ofPlace?_mono {suites : Bool} {p : SymbolPlace} {leaf : Leaf}
    (h : ofPlace? false p = some leaf) : ofPlace? suites p = some leaf := by
  cases suites with
  | false => exact h
  | true =>
    rcases ofPlace?_cases h with ⟨-, hsame⟩ | ⟨-, -, hwith⟩
    · exact hsame true
    · exact hwith

/-- The leaves that are not those of methods are the same with suites and without. -/
theorem filter_ofSymbols (suites : Bool) (symbols : List Symbol) :
    (ofSymbols suites symbols).filter (!·.isOfMethod) =
      (ofSymbols false symbols).filter (!·.isOfMethod) := by
  have hkeep : ∀ a b : Leaf, a.key = b.key → (!a.isOfMethod) = !b.isOfMethod := by
    intro a b heq
    rw [isOfMethod, isOfMethod, (Prod.mk.inj heq).2]
  have hplace : ∀ p, (ofPlace? (suites && symbols.any isRunner) p).filter (!·.isOfMethod) =
      (ofPlace? false p).filter (!·.isOfMethod) := by
    intro p
    ext leaf
    rw [Option.filter_eq_some_iff, Option.filter_eq_some_iff]
    refine and_congr_left fun hfunction => ⟨fun h => ?_, ofPlace?_mono⟩
    rcases ofPlace?_cases h with ⟨-, hsame⟩ | ⟨hmethod, -⟩
    · exact hsame false
    · simp [hmethod] at hfunction
  rw [ofSymbols_eq_firsts, ofSymbols_eq_firsts, filter_firsts hkeep, filter_firsts hkeep,
    List.filter_filterMap, List.filter_filterMap, funext hplace, Bool.false_and]

/-- Which leaves are those of functions shows in their names. -/
theorem isOfMethod_eq_false_iff {suites : Bool} {symbols : List Symbol} {leaf : Leaf}
    (h : leaf ∈ ofSymbols suites symbols) :
    leaf.isOfMethod = false ↔ IsOfFunction symbols leaf := by
  constructor
  · intro hfunction
    obtain ⟨p, hp, hleaf⟩ := exists_place_of_mem h
    rcases ofPlace?_eq_some_iff.mp hleaf with @⟨kind, htest⟩ | @⟨full, hmethod⟩
    · exact ⟨p, hp, kind, htest, rfl⟩
    · have hparen := head?_of_suiteName? (suiteName?_eq_some_iff.mpr hmethod.name)
      simp [isOfMethod, hparen] at hfunction
  · rintro ⟨p, -, kind, htest, rfl⟩
    have hname := head?_of_kindOfFunction? (isTestFunction_iff.mp htest).2.2
    simpa [isOfMethod] using hname

/-- With suites there are the same leaves of functions, and no kind and name is missing that is
there without; what is there beyond that is tests named after their receivers.  Without a test
function at the top there is no difference. -/
theorem suites_only_add (symbols : List Symbol) :
    let plain := ofSymbols false symbols
    let full := ofSymbols true symbols
    (∀ leaf ∈ plain ++ full, leaf.isOfMethod = false ↔ IsOfFunction symbols leaf) ∧
      full.filter (!·.isOfMethod) = plain.filter (!·.isOfMethod) ∧
      plain.map key ⊆ full.map key ∧
      (∀ leaf ∈ full, leaf.key ∉ plain.map key →
        leaf.kind = Kind.test.word ∧ leaf.isOfMethod = true) ∧
      ((∀ s ∈ symbols, ¬ SymbolPlace.IsTestFunction ⟨[], s⟩ .test) → full = plain) := by
  intro plain full
  refine ⟨fun leaf hleaf => ?_, filter_ofSymbols true symbols, fun k hk => ?_,
    fun leaf hleaf hextra => ?_, fun hnone => ?_⟩
  · rcases List.mem_append.mp hleaf with hleaf | hleaf
    · exact isOfMethod_eq_false_iff hleaf
    · exact isOfMethod_eq_false_iff hleaf
  · rw [key_mem_ofSymbols_iff] at hk ⊢
    obtain ⟨p, hp, leaf, hleaf, rfl⟩ := hk
    exact ⟨p, hp, leaf, ofPlace?_mono hleaf, rfl⟩
  · obtain ⟨p, hp, hplace⟩ := exists_place_of_mem hleaf
    rcases ofPlace?_cases hplace with ⟨-, hsame⟩ | ⟨hmethod, htest, -⟩
    · exact absurd (key_mem_ofSymbols_iff.mpr ⟨p, hp, leaf, hsame _, rfl⟩) hextra
    · exact ⟨htest, hmethod⟩
  · have hrunner : symbols.any isRunner = false := by
      rw [List.any_eq_false]
      exact fun s hs hrun => hnone s hs (isRunner_iff.mp hrun)
    simp only [full, plain, ofSymbols_eq_firsts, hrunner, Bool.and_false]

/-- Inside its type a method counts with suites only, and then it takes the place of the one inside
the test function that has the same name.  Next to a benchmark it never counts. -/
theorem suites_only_add_displaced :
    let range : Int → SourceRange := fun line => ⟨line, 0, line, 0⟩
    let method := fun line => Symbol.node "(*S).TestA" .method (range line) "" []
    let suite := Symbol.node "S" .struct (range 0) "" [method 1]
    let test := Symbol.node "TestRun" .function (range 2) "" [method 3]
    let benchmark := Symbol.node "BenchmarkRun" .function (range 2) "" []
    let plain := ofSymbols false [suite, test]
    let full := ofSymbols true [suite, test]
    plain = [⟨"test", "TestRun", range 2⟩, ⟨"test", "(*S).TestA", range 3⟩] ∧
      full = [⟨"test", "(*S).TestA", range 1⟩, ⟨"test", "TestRun", range 2⟩] ∧
      full.filter (!·.isOfMethod) = plain.filter (!·.isOfMethod) ∧
      plain.map key ⊆ full.map key ∧
      (∀ s ∈ [suite, benchmark], ¬ SymbolPlace.IsTestFunction ⟨[], s⟩ .test) ∧
      ofSymbols true [suite, benchmark] = ofSymbols false [suite, benchmark] := by
  intro range method suite test benchmark plain full
  have hnone : ∀ s ∈ [suite, benchmark], ¬ SymbolPlace.IsTestFunction ⟨[], s⟩ .test := by
    have hrun : ∀ s ∈ [suite, benchmark], isRunner s = false := by decide +kernel
    intro s hs htest
    rw [← isRunner_iff, hrun s hs] at htest
    exact absurd htest (by simp)
  obtain ⟨-, hfilter, hkeys, -, -⟩ := suites_only_add [suite, test]
  obtain ⟨-, -, -, -, hsame⟩ := suites_only_add [suite, benchmark]
  exact ⟨by decide +kernel, by decide +kernel, hfilter, hkeys, hnone, hsame hnone⟩

end Leaf

end TestAtlas
