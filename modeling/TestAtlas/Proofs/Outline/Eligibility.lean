import TestAtlas.Proofs.Outline.Names

/-!
# Which symbols are leaves

Whether a symbol is a leaf depends on the symbols around it and on nothing else in the outline but
the question whether suites can run.  A symbol with what is around it is a place; the places of an
outline are listed in pre-order, and the leaves of an outline are those of its places, in that
order.  The traversal carries along what it needs of the symbols around it: whether one of them is a
test function, and the innermost type.
-/

namespace TestAtlas

open Expression

/-- A symbol with the symbols around it, the innermost first. -/
structure SymbolPlace where
  around : List Symbol
  symbol : Symbol

mutual

/-- The places of a symbol and of the symbols inside it, each before those inside it. -/
def Symbol.places (around : List Symbol) : Symbol → List SymbolPlace
  | .node name kind range detail children =>
    ⟨around, .node name kind range detail children⟩ ::
      Symbol.placesOfList (.node name kind range detail children :: around) children

/-- The places of several symbols with the same symbols around them. -/
def Symbol.placesOfList (around : List Symbol) : List Symbol → List SymbolPlace
  | [] => []
  | s :: rest => s.places around ++ Symbol.placesOfList around rest

end

namespace SymbolPlace

open Leaf

/-- A function that counts: no function or method is around it, and its name has the form of the
name of a test, a benchmark or an example, as the word it starts with says. -/
structure IsTestFunction (p : SymbolPlace) (kind : Kind) : Prop where
  isFunction : p.symbol.kind = .function
  outside : ∀ s ∈ p.around, s.kind ≠ .function ∧ s.kind ≠ .method
  name : DescribesStart functionText p.symbol.name
  word : ∃ word, (word, kind) ∈ functionWords ∧ word <+: p.symbol.name.toList

/-- Exactly one of the symbols around a place is a function, and that one counts. -/
def InsideTest (around : List Symbol) : Prop :=
  ∃ between f outer kind, around = between ++ f :: outer ∧
    (∀ s ∈ between ++ outer, s.kind ≠ .function) ∧ IsTestFunction ⟨outer, f⟩ kind

/-- None of the symbols around a place is a function, and suites can run: they may, and the outline
has a test function at the top. -/
def InsideSuite (suites : Bool) (symbols around : List Symbol) : Prop :=
  (∀ s ∈ around, s.kind ≠ .function) ∧ suites = true ∧ ∃ f ∈ symbols, IsTestFunction ⟨[], f⟩ .test

/-- The innermost type among the symbols around a place, looking only below a function among
them. -/
def innermostType? (around : List Symbol) : Option Symbol :=
  (around.takeWhile (·.kind != .function)).find? (·.kind.isType)

/-- The name under which a method counts: its own if it has the receiver with it, else one made of
the innermost type around it and its own. -/
inductive HasSuiteName (p : SymbolPlace) : String → Prop where
  | own (h : DescribesStart methodText p.symbol.name) : HasSuiteName p p.symbol.name
  | inType {type : Symbol} (ht : innermostType? p.around = some type) (hne : type.name ≠ "")
    (h : DescribesStart suiteNameText p.symbol.name) :
    HasSuiteName p ("(*" ++ type.name ++ ")." ++ p.symbol.name)

/-- A method that counts, and under which name. -/
structure IsSuiteMethod (suites : Bool) (symbols : List Symbol) (p : SymbolPlace)
    (full : String) : Prop where
  isMethod : p.symbol.kind = .method
  outside : ∀ s ∈ p.around, s.kind ≠ .method
  reached : InsideTest p.around ∨ InsideSuite suites symbols p.around
  name : p.HasSuiteName full

/-- The symbol counts as the given leaf. -/
inductive IsEligible (suites : Bool) (symbols : List Symbol) (p : SymbolPlace) : Leaf → Prop where
  | function {kind : Kind} (h : p.IsTestFunction kind) :
    IsEligible suites symbols p ⟨kind.word, p.symbol.name, p.symbol.range⟩
  | method {full : String} (h : p.IsSuiteMethod suites symbols full) :
    IsEligible suites symbols p ⟨Kind.test.word, full, p.symbol.range⟩

variable {s : Symbol} {outer : List Symbol}

theorem innermostType?_function (hs : s.kind = .function) :
    innermostType? (s :: outer) = none := by
  simp [innermostType?, hs]

theorem innermostType?_cons (hs : s.kind ≠ .function) :
    innermostType? (s :: outer) = if s.kind.isType then some s else innermostType? outer := by
  simp only [innermostType?, List.takeWhile_cons, bne_iff_ne, ne_eq, hs, not_false_eq_true,
    if_true, List.find?_cons]
  cases s.kind.isType <;> rfl

theorem not_insideTest_nil : ¬ InsideTest [] := by
  rintro ⟨between, f, outer, kind, h, -⟩
  simp at h

theorem insideTest_function (hs : s.kind = .function) :
    InsideTest (s :: outer) ↔ ∃ kind, IsTestFunction ⟨outer, s⟩ kind := by
  constructor
  · rintro ⟨between, f, outer', kind, heq, hnone, hf⟩
    cases between with
    | nil =>
      obtain ⟨rfl, rfl⟩ := List.cons.inj heq
      exact ⟨kind, hf⟩
    | cons b between =>
      obtain ⟨rfl, -⟩ := List.cons.inj heq
      exact absurd hs (hnone s (by simp))
  · rintro ⟨kind, hf⟩
    exact ⟨[], s, outer, kind, rfl, fun x hx => (hf.outside x hx).1, hf⟩

theorem insideTest_cons (hs : s.kind ≠ .function) :
    InsideTest (s :: outer) ↔ InsideTest outer := by
  constructor
  · rintro ⟨between, f, outer', kind, heq, hnone, hf⟩
    cases between with
    | nil =>
      obtain ⟨rfl, rfl⟩ := List.cons.inj heq
      exact absurd hf.isFunction hs
    | cons b between =>
      obtain ⟨rfl, rfl⟩ := List.cons.inj heq
      exact ⟨between, f, outer', kind, rfl, fun x hx => hnone x (List.mem_cons_of_mem _ hx), hf⟩
  · rintro ⟨between, f, outer', kind, rfl, hnone, hf⟩
    exact ⟨s :: between, f, outer', kind, rfl, List.forall_mem_cons.mpr ⟨hs, hnone⟩, hf⟩

end SymbolPlace

namespace Leaf

open SymbolPlace

/-! ## What the traversal carries along -/

/-- What the traversal knows inside the given symbols: whether one is a test function, and the
innermost type.  It does not come to what is inside other functions and methods. -/
def visit? : List Symbol → Option (Bool × Option String)
  | [] => some (false, none)
  | s :: outer =>
    (visit? outer).bind fun (inTest, type) =>
      match s.kind with
      | .function => if inTest then none else (kindOfFunction? s.name).map fun _ => (true, none)
      | .method => none
      | kind => some (inTest, if kind.isType then some s.name else type)

/-- The leaf of a symbol where the traversal comes to it. -/
def ofPlace? (suites : Bool) (p : SymbolPlace) : Option Leaf :=
  (visit? p.around).bind fun (inTest, type) =>
    match p.symbol.kind with
    | .function =>
      if inTest then none
      else (kindOfFunction? p.symbol.name).map fun kind =>
        ⟨kind.word, p.symbol.name, p.symbol.range⟩
    | .method =>
      if inTest || suites then
        (suiteName? type p.symbol.name).map fun full => ⟨Kind.test.word, full, p.symbol.range⟩
      else none
    | _ => none

section Visit

variable {suites inTest : Bool} {type : Option String} {outer : List Symbol} {s : Symbol}

theorem visit?_of_unvisited (h : visit? outer = none) : visit? (s :: outer) = none := by
  rw [visit?, h, Option.bind_none]

theorem visit?_function (h : visit? outer = some (inTest, type)) (hs : s.kind = .function) :
    visit? (s :: outer) =
      if inTest then none else (kindOfFunction? s.name).map fun _ => (true, none) := by
  simp only [visit?, h, hs, Option.bind_some]

theorem visit?_method (hs : s.kind = .method) : visit? (s :: outer) = none := by
  simp [visit?, hs]

theorem visit?_container (h : visit? outer = some (inTest, type)) (hf : s.kind ≠ .function)
    (hm : s.kind ≠ .method) :
    visit? (s :: outer) = some (inTest, if s.kind.isType then some s.name else type) := by
  simp only [visit?, h, Option.bind_some]

/-- The traversal comes to what is inside a symbol through a function that counts or a container. -/
theorem visit?_cases {v : Bool × Option String} (h : visit? (s :: outer) = some v) :
    s.kind ≠ .method ∧ ∃ inTest type, visit? outer = some (inTest, type) ∧
      ((s.kind = .function ∧ inTest = false ∧ (∃ kind, kindOfFunction? s.name = some kind) ∧
          v = (true, none)) ∨
        (s.kind ≠ .function ∧ v = (inTest, if s.kind.isType then some s.name else type))) := by
  have hm : s.kind ≠ .method := fun hm => by simp [visit?_method hm] at h
  cases houter : visit? outer with
  | none => simp [visit?_of_unvisited houter] at h
  | some state =>
    obtain ⟨inTest, type⟩ := state
    refine ⟨hm, inTest, type, rfl, ?_⟩
    by_cases hf : s.kind = .function
    · rw [visit?_function houter hf] at h
      cases inTest with
      | true => simp at h
      | false =>
        obtain ⟨kind, hkind, hv⟩ := Option.map_eq_some_iff.mp h
        exact .inl ⟨hf, rfl, ⟨kind, hkind⟩, hv.symm⟩
    · rw [visit?_container houter hf hm] at h
      exact .inr ⟨hf, (Option.some.inj h).symm⟩

theorem ofPlace?_of_unvisited (h : visit? outer = none) : ofPlace? suites ⟨outer, s⟩ = none := by
  rw [ofPlace?, h, Option.bind_none]

theorem ofPlace?_function (h : visit? outer = some (inTest, type)) (hs : s.kind = .function) :
    ofPlace? suites ⟨outer, s⟩ =
      if inTest then none
      else (kindOfFunction? s.name).map fun kind => ⟨kind.word, s.name, s.range⟩ := by
  simp only [ofPlace?, h, hs, Option.bind_some]

theorem ofPlace?_method (h : visit? outer = some (inTest, type)) (hs : s.kind = .method) :
    ofPlace? suites ⟨outer, s⟩ =
      if inTest || suites then
        (suiteName? type s.name).map fun full => ⟨Kind.test.word, full, s.range⟩
      else none := by
  simp only [ofPlace?, h, hs, Option.bind_some]

theorem ofPlace?_container (hf : s.kind ≠ .function) (hm : s.kind ≠ .method) :
    ofPlace? suites ⟨outer, s⟩ = none := by
  simp only [ofPlace?, Option.bind_fun_none]

end Visit

theorem filterMap_places {f : SymbolPlace → Option Leaf} (around : List Symbol) (s : Symbol) :
    (s.places around).filterMap f =
      (f ⟨around, s⟩).toList ++ (Symbol.placesOfList (s :: around) s.children).filterMap f := by
  match s with
  | .node name kind range detail children =>
    rw [Symbol.places, List.filterMap_cons]
    cases f ⟨around, .node name kind range detail children⟩ <;> rfl

mutual

/-- Nothing inside a place that the traversal does not come to is a leaf. -/
theorem filterMap_places_of_unvisited {suites : Bool} {around : List Symbol} {s : Symbol}
    (h : visit? around = none) : (s.places around).filterMap (ofPlace? suites) = [] := by
  match s with
  | .node name kind range detail children =>
    have hinside : visit? (.node name kind range detail children :: around) = none := by
      rw [visit?, h]
      rfl
    rw [Symbol.places, List.filterMap_cons_none (by rw [ofPlace?, h]; rfl)]
    exact filterMap_placesOfList_of_unvisited hinside

theorem filterMap_placesOfList_of_unvisited {suites : Bool} {around ss : List Symbol}
    (h : visit? around = none) :
    (Symbol.placesOfList around ss).filterMap (ofPlace? suites) = [] := by
  match ss with
  | [] => rfl
  | s :: rest =>
    rw [Symbol.placesOfList, List.filterMap_append, filterMap_places_of_unvisited h,
      filterMap_placesOfList_of_unvisited h, List.append_nil]

end

mutual

/-- The traversal of a symbol gives the leaves of its places in pre-order. -/
theorem ofSymbol_eq_filterMap {suites inTest : Bool} {type : Option String}
    {around : List Symbol} {s : Symbol} (h : visit? around = some (inTest, type)) :
    ofSymbol suites inTest type s = (s.places around).filterMap (ofPlace? suites) := by
  rw [filterMap_places]
  match s with
  | .node name kind range detail children =>
    unfold ofSymbol
    split
    · -- a function: inside one that counts the traversal goes on, with no type around
      rename_i heq
      cases heq
      have hinside := visit?_function (s := .node name .function range detail children) h rfl
      rw [ofPlace?_function h rfl]
      simp only [Symbol.name, Symbol.range, Symbol.children] at hinside ⊢
      cases inTest with
      | true => exact (filterMap_placesOfList_of_unvisited hinside).symm
      | false =>
        cases hkind : kindOfFunction? name with
        | none =>
          rw [hkind] at hinside
          exact (filterMap_placesOfList_of_unvisited hinside).symm
        | some kind =>
          rw [hkind] at hinside
          exact congrArg (List.cons _) (ofSymbolList_eq_filterMap hinside)
    · -- a method: nothing inside it is a leaf
      rename_i heq
      cases heq
      rw [ofPlace?_method h rfl, filterMap_placesOfList_of_unvisited (visit?_method rfl),
        List.append_nil]
      simp only [Symbol.name, Symbol.range]
      split
      · cases suiteName? type name <;> rfl
      · rfl
    · -- a container: it is no leaf, and it may be the type around what is inside it
      rename_i hf hm heq
      cases heq
      have hf : (Symbol.node name kind range detail children).kind ≠ .function := hf
      have hm : (Symbol.node name kind range detail children).kind ≠ .method := hm
      rw [ofPlace?_container hf hm]
      exact ofSymbolList_eq_filterMap (visit?_container h hf hm)

theorem ofSymbolList_eq_filterMap {suites inTest : Bool} {type : Option String}
    {around ss : List Symbol} (h : visit? around = some (inTest, type)) :
    ofSymbolList suites inTest type ss =
      (Symbol.placesOfList around ss).filterMap (ofPlace? suites) := by
  match ss with
  | [] => rw [ofSymbolList, Symbol.placesOfList, List.filterMap_nil]
  | s :: rest =>
    rw [ofSymbolList, Symbol.placesOfList, List.filterMap_append, ofSymbol_eq_filterMap h,
      ofSymbolList_eq_filterMap h]

end

/-! ## What it knows, said of the symbols around -/

theorem visit?_eq_some_false_iff {around : List Symbol} {type : Option String} :
    visit? around = some (false, type) ↔
      (∀ s ∈ around, s.kind ≠ .function ∧ s.kind ≠ .method) ∧
        type = (innermostType? around).map Symbol.name := by
  induction around generalizing type with
  | nil => simp [visit?, innermostType?, eq_comm]
  | cons s outer ih =>
    rw [List.forall_mem_cons]
    constructor
    · intro h
      obtain ⟨hm, inTest, outerType, houter, ⟨-, -, -, hv⟩ | ⟨hf, hv⟩⟩ := visit?_cases h
      · cases hv
      · cases hv
        obtain ⟨hnone, rfl⟩ := ih.mp houter
        refine ⟨⟨⟨hf, hm⟩, hnone⟩, ?_⟩
        rw [innermostType?_cons hf]
        cases s.kind.isType <;> rfl
    · rintro ⟨⟨⟨hf, hm⟩, houter⟩, rfl⟩
      rw [visit?_container (ih.mpr ⟨houter, rfl⟩) hf hm, innermostType?_cons hf]
      cases s.kind.isType <;> rfl

theorem isTestFunction_iff {s : Symbol} {outer : List Symbol} {kind : Kind} :
    IsTestFunction ⟨outer, s⟩ kind ↔
      s.kind = .function ∧ (∃ type, visit? outer = some (false, type)) ∧
        kindOfFunction? s.name = some kind := by
  simp only [visit?_eq_some_false_iff, kindOfFunction?_eq_some_iff]
  constructor
  · rintro ⟨hf, houter, hname, hword⟩
    exact ⟨hf, ⟨_, houter, rfl⟩, hname, hword⟩
  · rintro ⟨hf, ⟨_, houter, -⟩, hname, hword⟩
    exact ⟨hf, houter, hname, hword⟩

theorem visit?_eq_some_true_iff {around : List Symbol} {type : Option String} :
    visit? around = some (true, type) ↔
      (∀ s ∈ around, s.kind ≠ .method) ∧ InsideTest around ∧
        type = (innermostType? around).map Symbol.name := by
  induction around generalizing type with
  | nil => simp [visit?, not_insideTest_nil]
  | cons s outer ih =>
    rw [List.forall_mem_cons]
    constructor
    · intro h
      obtain ⟨hm, inTest, outerType, houter, ⟨hf, rfl, ⟨kind, hkind⟩, hv⟩ | ⟨hf, hv⟩⟩ :=
        visit?_cases h
      · cases hv
        have hnone := (visit?_eq_some_false_iff.mp houter).1
        rw [insideTest_function hf, innermostType?_function hf]
        exact ⟨⟨hm, fun x hx => (hnone x hx).2⟩,
          ⟨kind, isTestFunction_iff.mpr ⟨hf, ⟨_, houter⟩, hkind⟩⟩, rfl⟩
      · cases hv
        obtain ⟨hnone, hinside, rfl⟩ := ih.mp houter
        rw [insideTest_cons hf, innermostType?_cons hf]
        refine ⟨⟨hm, hnone⟩, hinside, ?_⟩
        cases s.kind.isType <;> rfl
    · rintro ⟨⟨hm, hnone⟩, hinside, rfl⟩
      by_cases hf : s.kind = .function
      · obtain ⟨kind, htest⟩ := (insideTest_function hf).mp hinside
        obtain ⟨-, ⟨_, houter⟩, hkind⟩ := isTestFunction_iff.mp htest
        rw [visit?_function houter hf, innermostType?_function hf, hkind]
        rfl
      · have hinside := (insideTest_cons hf).mp hinside
        rw [visit?_container (ih.mpr ⟨hnone, hinside, rfl⟩) hf hm, innermostType?_cons hf]
        cases s.kind.isType <;> rfl

theorem isRunner_iff {s : Symbol} : isRunner s = true ↔ IsTestFunction ⟨[], s⟩ .test := by
  rw [isTestFunction_iff]
  simp [isRunner, visit?]

/-- A name with its receiver does not start with the word of a test. -/
theorem isSuiteMethod_of_hasForm {name : String} (h : hasForm testWord name.toList = true) :
    isSuiteMethod name = false := by
  rw [Bool.eq_false_iff]
  intro hmethod
  obtain ⟨receiver, method, hname, -⟩ := isSuiteMethod_iff.mp hmethod
  obtain ⟨rest, hrest, -⟩ := hasForm_iff.mp h
  rw [hname] at hrest
  exact absurd (List.cons.inj hrest).1 (by decide)

theorem suiteName_eq (type name : String) :
    String.ofList (['(', '*'] ++ type.toList ++ [')', '.'] ++ name.toList) =
      "(*" ++ type ++ ")." ++ name := by
  apply String.toList_injective
  simp

theorem suiteName?_eq_some_iff {p : SymbolPlace} {full : String} :
    suiteName? ((innermostType? p.around).map Symbol.name) p.symbol.name = some full ↔
      p.HasSuiteName full := by
  constructor
  · intro h
    unfold suiteName? at h
    split at h
    · rename_i hmethod
      cases h
      exact .own (describesStart_methodText_iff.mpr hmethod)
    · split at h
      · rename_i typeName htype
        obtain ⟨type, hinnermost, rfl⟩ := Option.map_eq_some_iff.mp htype
        split at h
        · rename_i hname
          cases h
          rw [suiteName_eq]
          exact .inType hinnermost hname.1 (describesStart_suiteNameText_iff.mpr hname.2)
        · cases h
      · cases h
  · rintro (hmethod | @⟨type, htype, hne, hname⟩)
    · unfold suiteName?
      rw [if_pos (describesStart_methodText_iff.mp hmethod)]
    · have hform := describesStart_suiteNameText_iff.mp hname
      unfold suiteName?
      simp only [isSuiteMethod_of_hasForm hform, htype, Option.map_some, Bool.false_eq_true,
        if_false]
      rw [if_pos ⟨hne, hform⟩, suiteName_eq]

/-- Suites can run: they may, and there is a test function at the top. -/
theorem runnable_iff {suites : Bool} {symbols : List Symbol} :
    (suites && symbols.any isRunner) = true ↔
      suites = true ∧ ∃ f ∈ symbols, IsTestFunction ⟨[], f⟩ .test := by
  simp only [Bool.and_eq_true, List.any_eq_true, isRunner_iff]

/-- The traversal makes a leaf of a place exactly if its symbol is eligible. -/
theorem ofPlace?_eq_some_iff {suites : Bool} {symbols : List Symbol} {p : SymbolPlace}
    {leaf : Leaf} :
    ofPlace? (suites && symbols.any isRunner) p = some leaf ↔
      p.IsEligible suites symbols leaf := by
  obtain ⟨around, s⟩ := p
  constructor
  · intro h
    cases hvisit : visit? around with
    | none => simp [ofPlace?_of_unvisited hvisit] at h
    | some state =>
      obtain ⟨inTest, type⟩ := state
      by_cases hf : s.kind = .function
      · rw [ofPlace?_function hvisit hf] at h
        cases inTest with
        | true => simp at h
        | false =>
          obtain ⟨kind, hkind, rfl⟩ := Option.map_eq_some_iff.mp h
          exact .function (isTestFunction_iff.mpr ⟨hf, ⟨_, hvisit⟩, hkind⟩)
      · by_cases hm : s.kind = .method
        · rw [ofPlace?_method hvisit hm] at h
          split at h
          · rename_i hreached
            obtain ⟨full, hfull, rfl⟩ := Option.map_eq_some_iff.mp h
            refine .method ?_
            cases inTest with
            | true =>
              obtain ⟨hnone, hinside, rfl⟩ := visit?_eq_some_true_iff.mp hvisit
              exact ⟨hm, hnone, .inl hinside, suiteName?_eq_some_iff.mp hfull⟩
            | false =>
              obtain ⟨hnone, rfl⟩ := visit?_eq_some_false_iff.mp hvisit
              exact ⟨hm, fun x hx => (hnone x hx).2, .inr ⟨fun x hx => (hnone x hx).1,
                runnable_iff.mp hreached⟩, suiteName?_eq_some_iff.mp hfull⟩
          · cases h
        · simp [ofPlace?_container hf hm] at h
  · rintro (@⟨kind, htest⟩ | @⟨full, hm, hnone, hreached, hfull⟩)
    · obtain ⟨hf, ⟨_, hvisit⟩, hkind⟩ := isTestFunction_iff.mp htest
      rw [ofPlace?_function hvisit hf, hkind]
      rfl
    · have hfull := suiteName?_eq_some_iff.mpr hfull
      rcases hreached with hinside | ⟨houtside, hsuite⟩
      · have hvisit := visit?_eq_some_true_iff.mpr ⟨hnone, hinside, rfl⟩
        rw [ofPlace?_method hvisit hm, Bool.true_or, if_pos rfl, hfull]
        rfl
      · have hvisit := visit?_eq_some_false_iff.mpr
          ⟨fun x hx => ⟨houtside x hx, hnone x hx⟩, rfl⟩
        rw [ofPlace?_method hvisit hm, Bool.false_or, if_pos (runnable_iff.mpr hsuite), hfull]
        rfl

/-- Two leaves count as the same: they have the same kind and the same name. -/
def isSame (a b : Leaf) : Bool := a.kind == b.kind && a.name == b.name

/-- Of leaves with the same kind and name the first is kept, unless it was seen before. -/
theorem firsts_eq_eraseDupsBy (seen : List (String × String)) (leaves : List Leaf) :
    firsts seen leaves =
      (leaves.filter fun leaf => !seen.contains (leaf.kind, leaf.name)).eraseDupsBy isSame := by
  induction leaves generalizing seen with
  | nil => rfl
  | cons first rest ih =>
    rw [firsts]
    split
    · rename_i hseen
      rw [ih, List.filter_cons_of_neg (by simpa using hseen)]
    · rename_i hseen
      rw [ih, List.filter_cons_of_pos (by simpa using hseen), List.eraseDupsBy_cons,
        List.filter_filter]
      refine congrArg (fun kept => first :: kept.eraseDupsBy isSame) (List.filter_congr ?_)
      intro leaf _
      simp [isSame]

/-- The leaves of an outline are what its places are eligible as, in pre-order, and of those with
the same kind and name the first. -/
theorem ofSymbols_eq_eligible (suites : Bool) (symbols : List Symbol) :
    ∃ leafAt? : SymbolPlace → Option Leaf,
      (∀ p leaf, leafAt? p = some leaf ↔ p.IsEligible suites symbols leaf) ∧
        ofSymbols suites symbols =
          ((Symbol.placesOfList [] symbols).filterMap leafAt?).eraseDupsBy isSame := by
  refine ⟨ofPlace? (suites && symbols.any isRunner), fun p leaf => ofPlace?_eq_some_iff, ?_⟩
  have htop : visit? [] = some (false, none) := rfl
  rw [ofSymbols, firsts_eq_eraseDupsBy, ofSymbolList_eq_filterMap htop, List.filter_eq_self.mpr]
  simp

/-- A method inside its type counts once, and only next to a test function. -/
example :
    let range : SourceRange := ⟨0, 0, 0, 0⟩
    let method := Symbol.node "TestStep" .method range "" []
    let suite := Symbol.node "Suite" .struct range "" [method, method]
    ofSymbols true [suite] = [] ∧
      (ofSymbols true [suite, .node "TestRun" .function range "" []]).map Leaf.name =
        ["(*Suite).TestStep", "TestRun"] := by
  decide +kernel

end Leaf

end TestAtlas
