import Mathlib.Data.List.Pairwise
import TestAtlas.Outline.Scan
import TestAtlas.Proofs.Outline.Eligibility

/-!
# Declarations and their symbols

Every declaration that the scan finds has one symbol, which does not depend on where the symbol
stands.  A declaration owns the methods of the type that it declares.  What shows of an outline is
the declarations at the top, each followed by those that it owns (`placesOfList_topLevel`), and no
declaration shows twice (`nodup_shown`).
-/

namespace TestAtlas.Outline

open Text

/-! ## What stands at the top -/

/-- The method symbol of a declaration, if it declares a method of the given type. -/
def methodOf? (type : List Char) (f : Found) : Option Symbol :=
  match f.declaration with
  | .method pointer receiver name parameters =>
    if receiver = type then
      some (.node (methodName pointer receiver name) .method f.range
        (parameterDetail parameters) [])
    else none
  | _ => none

/-- The declaration declares the type. -/
def Found.declares (type : List Char) (f : Found) : Bool :=
  match f.declaration with
  | .type name _ => name == type
  | _ => false

/-- One of the declarations declares the type. -/
def declaresType (type : List Char) (found : List Found) : Bool := found.any (Found.declares type)

/-- The symbols at the top: those of the second list, a part of all declarations. -/
def topLevel (all : List Found) : List Found → List Symbol
  | [] => []
  | f :: later =>
    match f.declaration with
    | .function name parameters =>
      .node (String.ofList name) .function f.range (parameterDetail parameters) []
        :: topLevel all later
    | .method pointer receiver name parameters =>
      if declaresType receiver all then topLevel all later
      else
        .node (methodName pointer receiver name) .method f.range (parameterDetail parameters) []
          :: topLevel all later
    | .type name isStruct =>
      if declaresType name later then topLevel all later
      else
        .node (String.ofList name) (if isStruct then .struct else .interface) f.range ""
          (all.filterMap (methodOf? name)) :: topLevel all later

namespace Found

/-- The line on which a declaration starts. -/
def line (f : Found) : Int := f.range.startLine

/-- The one declares a type and the other is a method of that type. -/
def owns (f m : Found) : Bool :=
  match f.declaration, m.declaration with
  | .type name _, .method _ receiver _ _ => receiver == name
  | _, _ => false

/-- The symbol of a declaration, with the symbols of the methods it owns. -/
def symbol (all : List Found) (f : Found) : Symbol :=
  match f.declaration with
  | .function name parameters =>
    .node (String.ofList name) .function f.range (parameterDetail parameters) []
  | .method pointer receiver name parameters =>
    .node (methodName pointer receiver name) .method f.range (parameterDetail parameters) []
  | .type name isStruct =>
    .node (String.ofList name) (if isStruct then .struct else .interface) f.range ""
      (all.filterMap (methodOf? name))

/-- The declaration does not show at the top: it is a method of a declared type, or a type that is
declared again later. -/
def isHidden (all later : List Found) (f : Found) : Bool :=
  match f.declaration with
  | .function _ _ => false
  | .method _ receiver _ _ => declaresType receiver all
  | .type name _ => declaresType name later

variable {all : List Found} {f m : Found}

@[simp]
theorem range_symbol : (f.symbol all).range = f.range := by
  unfold symbol
  split <;> rfl

theorem owns_eq_true_iff : f.owns m = true ↔ ∃ name isStruct pointer method parameters,
    f.declaration = .type name isStruct ∧
      m.declaration = .method pointer name method parameters := by
  unfold owns
  split
  · rename_i name isStruct pointer receiver method parameters hf hm
    simp only [hf, hm, beq_iff_eq]
    constructor
    · rintro rfl
      exact ⟨_, isStruct, pointer, method, parameters, rfl, rfl⟩
    · rintro ⟨_, _, _, _, _, htype, hmethod⟩
      cases htype
      cases hmethod
      rfl
  · rename_i hother
    simp only [Bool.false_eq_true, false_iff]
    rintro ⟨name, isStruct, pointer, method, parameters, hf, hm⟩
    exact hother name isStruct pointer name method parameters hf hm

theorem declares_eq_true_iff {name : List Char} :
    f.declares name = true ↔ ∃ isStruct, f.declaration = .type name isStruct := by
  unfold declares
  cases f.declaration with
  | type other isStruct => simp
  | _ => simp

theorem declaresType_eq_true_iff {name : List Char} :
    declaresType name all = true ↔ ∃ f ∈ all, ∃ isStruct, f.declaration = .type name isStruct := by
  simp only [declaresType, List.any_eq_true, declares_eq_true_iff]

theorem methodOf?_eq {name : List Char} {isStruct : Bool}
    (h : f.declaration = .type name isStruct) :
    methodOf? name m = if f.owns m then some (m.symbol all) else none := by
  unfold methodOf? owns symbol
  cases m.declaration with
  | method pointer receiver method parameters => simp only [h, beq_iff_eq]
  | _ => simp [h]

/-- The symbols inside that of a declaration are those of what it owns. -/
theorem children_symbol : (f.symbol all).children = (all.filter f.owns).map (symbol all) := by
  cases h : f.declaration with
  | type name isStruct =>
      rw [← List.filterMap_eq_map, List.filterMap_filter, symbol, h]
      exact congrArg (List.filterMap · all) (funext fun m => methodOf?_eq h)
  | _ =>
      have hnone : all.filter f.owns = [] := by simp [owns, h]
      rw [hnone, symbol, h]
      rfl

theorem children_symbol_of_owns (h : f.owns m = true) : (m.symbol all).children = [] := by
  obtain ⟨name, isStruct, pointer, method, parameters, -, hm⟩ := owns_eq_true_iff.mp h
  rw [symbol, hm]
  rfl

end Found

open Found

/-! ## Lines and declarations -/

section Lines

variable {k : Nat} {ls : List (List Char)} {f : Found}

theorem mem_foundFrom_cons_iff {first : List Char} {later : List (List Char)} :
    f ∈ foundFrom k (first :: later) ↔
      (Declaration.ofLine? first = some f.declaration ∧
          f.range = declarationRange k first later) ∨ f ∈ foundFrom (k + 1) later := by
  rw [foundFrom]
  split
  · rename_i declaration heq
    rw [List.mem_cons, heq, Option.some.injEq]
    refine or_congr_left ⟨?_, ?_⟩
    · rintro rfl
      exact ⟨rfl, rfl⟩
    · rintro ⟨hdeclaration, hrange⟩
      cases f
      simp only at hdeclaration hrange
      rw [hdeclaration, hrange]
  · rename_i heq
    simp [heq]

/-- The declarations found are those of the lines, each with the lines that follow it. -/
theorem mem_foundFrom_iff :
    f ∈ foundFrom k ls ↔ ∃ i line, ls[i]? = some line ∧
      Declaration.ofLine? line = some f.declaration ∧
        f.range = declarationRange (k + i) line (ls.drop (i + 1)) := by
  induction ls generalizing k with
  | nil => simp [foundFrom]
  | cons first later ih =>
      rw [mem_foundFrom_cons_iff, ih]
      constructor
      · rintro (⟨hdeclaration, hrange⟩ | ⟨i, line, hline, hdeclaration, hrange⟩)
        · exact ⟨0, first, rfl, hdeclaration, hrange⟩
        · refine ⟨i + 1, line, hline, hdeclaration, ?_⟩
          rw [hrange, Nat.add_right_comm, Nat.add_assoc, List.drop_succ_cons]
      · rintro ⟨_ | i, line, hline, hdeclaration, hrange⟩
        · cases hline
          exact .inl ⟨hdeclaration, hrange⟩
        · refine .inr ⟨i, line, hline, hdeclaration, ?_⟩
          rw [hrange, ← Nat.add_assoc, Nat.add_right_comm, List.drop_succ_cons]

/-- They are found in the order of their lines. -/
theorem pairwise_foundFrom (k : Nat) (ls : List (List Char)) :
    (foundFrom k ls).Pairwise fun f g => f.line < g.line := by
  induction ls generalizing k with
  | nil => exact .nil
  | cons first later ih =>
      rw [foundFrom]
      split
      · refine List.pairwise_cons.mpr ⟨fun g hg => ?_, ih (k + 1)⟩
        obtain ⟨i, _, -, -, hrange⟩ := mem_foundFrom_iff.mp hg
        simp only [Found.line, hrange, startLine_declarationRange]
        omega
      · exact ih (k + 1)

end Lines

/-! ## The top -/

/-- The declarations of a list that show at the top. -/
def tops (all : List Found) : List Found → List Found
  | [] => []
  | f :: later => if f.isHidden all later then tops all later else f :: tops all later

/-- The declarations that show, each at the top followed by those that it owns. -/
def shown (all : List Found) : List Found := (tops all all).flatMap fun f => f :: all.filter f.owns

theorem topLevel_eq_map (all later : List Found) :
    topLevel all later = (tops all later).map (symbol all) := by
  induction later with
  | nil => rfl
  | cons f later ih =>
      rw [topLevel, tops, ih]
      cases h : f.declaration with
      | function name parameters => simp [isHidden, symbol, h]
      | method pointer receiver name parameters =>
          cases hidden : declaresType receiver all <;> simp [isHidden, symbol, h, hidden]
      | type name isStruct =>
          cases hidden : declaresType name later <;> simp [isHidden, symbol, h, hidden]

theorem sublist_tops (all later : List Found) : (tops all later).Sublist later := by
  induction later with
  | nil => exact .slnil
  | cons f later ih =>
      rw [tops]
      split
      · exact ih.cons f
      · exact ih.cons_cons f

section Tops

variable {all later : List Found} {f g m : Found}

/-- Whether anything but a type shows at the top does not depend on where it stands. -/
theorem mem_tops_iff (h : ∀ name isStruct, f.declaration ≠ .type name isStruct) :
    f ∈ tops all later ↔ f ∈ later ∧ f.isHidden all [] = false := by
  have hsame : ∀ later, f.isHidden all later = f.isHidden all [] := by
    intro later
    unfold isHidden
    cases hd : f.declaration with
    | type name isStruct => exact absurd hd (h name isStruct)
    | _ => rfl
  induction later with
  | nil => simp [tops]
  | cons g later ih =>
      rw [tops, List.mem_cons]
      split
      · rename_i hidden
        refine ih.trans (and_congr_left fun hshown => (or_iff_right ?_).symm)
        rintro rfl
        rw [hsame, hshown] at hidden
        exact absurd hidden (by simp)
      · rename_i hshown
        refine List.mem_cons.trans ((or_congr_right ih).trans ?_)
        constructor
        · rintro (rfl | ⟨hmem, hf⟩)
          · exact ⟨.inl rfl, by rw [← hsame later]; simpa using hshown⟩
          · exact ⟨.inr hmem, hf⟩
        · rintro ⟨rfl | hmem, hf⟩
          · exact .inl rfl
          · exact .inr ⟨hmem, hf⟩

/-- Of the declarations of one type the last shows at the top. -/
theorem exists_type_mem_tops {name : List Char} (h : declaresType name later = true) :
    ∃ f ∈ tops all later, ∃ isStruct, f.declaration = .type name isStruct := by
  induction later with
  | nil => exact absurd h (by simp [declaresType])
  | cons g later ih =>
      rw [tops]
      cases hlater : declaresType name later with
      | true =>
          obtain ⟨f, hf, htype⟩ := ih hlater
          split
          · exact ⟨f, hf, htype⟩
          · exact ⟨f, List.mem_cons_of_mem g hf, htype⟩
      | false =>
          obtain ⟨f, hf, isStruct, htype⟩ := declaresType_eq_true_iff.mp h
          have hnone : f ∉ later := fun hmem => by
            rw [declaresType_eq_true_iff.mpr ⟨f, hmem, isStruct, htype⟩] at hlater
            exact absurd hlater (by simp)
          obtain rfl := (List.mem_cons.mp hf).resolve_right hnone
          have hshown : f.isHidden all later = false := by simp [isHidden, htype, hlater]
          rw [hshown]
          exact ⟨f, List.mem_cons_self, isStruct, htype⟩

/-- The types at the top have different names. -/
theorem pairwise_tops (all later : List Found) :
    (tops all later).Pairwise fun f g => ∀ name isStruct isStruct',
      f.declaration = .type name isStruct → g.declaration ≠ .type name isStruct' := by
  induction later with
  | nil => exact .nil
  | cons f later ih =>
      rw [tops]
      split
      · exact ih
      · rename_i hshown
        refine List.pairwise_cons.mpr ⟨?_, ih⟩
        intro g hg name isStruct isStruct' hf hg'
        have hlater : declaresType name later = true :=
          declaresType_eq_true_iff.mpr ⟨g, (sublist_tops all later).subset hg, isStruct', hg'⟩
        exact hshown (by simpa [isHidden, hf] using hlater)

/-- A method that is owned does not show at the top. -/
theorem not_mem_tops_of_owns (hf : f ∈ all) (h : f.owns m = true) : m ∉ tops all later := by
  obtain ⟨name, isStruct, pointer, method, parameters, htype, hmethod⟩ := owns_eq_true_iff.mp h
  rw [mem_tops_iff (by simp [hmethod])]
  rintro ⟨-, hshown⟩
  have hdeclared := declaresType_eq_true_iff.mpr ⟨f, hf, isStruct, htype⟩
  simp [isHidden, hmethod, hdeclared] at hshown

theorem eq_of_type_mem_tops {name : List Char} {a b : Bool} (hf : f ∈ tops all later)
    (hg : g ∈ tops all later) (hfa : f.declaration = .type name a)
    (hgb : g.declaration = .type name b) : f = g := by
  have hsymm : Std.Symm fun f g : Found => ∀ name a b,
      f.declaration = .type name a → g.declaration ≠ .type name b :=
    ⟨fun f g h name a b hga hfb => h name b a hfb hga⟩
  refine Classical.byContradiction fun hne => ?_
  exact (pairwise_tops all later).forall hf hg hne name a b hfa hgb

theorem mem_of_mem_shown (h : f ∈ shown all) : f ∈ all := by
  obtain ⟨g, hg, hf⟩ := List.mem_flatMap.mp h
  rcases List.mem_cons.mp hf with rfl | hf
  · exact (sublist_tops all all).subset hg
  · exact (List.mem_filter.mp hf).1

/-- No declaration shows twice. -/
theorem nodup_shown (h : all.Nodup) : (shown all).Nodup := by
  have htops : (tops all all).Nodup := h.sublist (sublist_tops all all)
  refine List.pairwise_flatMap.mpr ⟨fun f hf => ?_, ?_⟩
  · refine List.nodup_cons.mpr ⟨fun hmem => ?_, h.filter f.owns⟩
    exact not_mem_tops_of_owns ((sublist_tops all all).subset hf) (List.mem_filter.mp hmem).2 hf
  · refine htops.imp_of_mem ?_
    rintro f g hf hg hne x hx _ hy rfl
    rcases List.mem_cons.mp hx with rfl | hx <;> rcases List.mem_cons.mp hy with rfl | hy
    · exact hne rfl
    · exact not_mem_tops_of_owns ((sublist_tops all all).subset hg) (List.mem_filter.mp hy).2 hf
    · exact not_mem_tops_of_owns ((sublist_tops all all).subset hf) (List.mem_filter.mp hx).2 hg
    · -- a method is owned under the name of its receiver only
      obtain ⟨name, a, _, _, _, hfa, hx⟩ := owns_eq_true_iff.mp (List.mem_filter.mp hx).2
      obtain ⟨name', b, _, _, _, hgb, hy⟩ := owns_eq_true_iff.mp (List.mem_filter.mp hy).2
      rw [hx] at hy
      cases hy
      exact hne (eq_of_type_mem_tops hf hg hfa hgb)

/-- Of declarations on different lines no two that show start on one line. -/
theorem nodup_line_shown (h : all.Pairwise fun f g => f.line < g.line) :
    ((shown all).map line).Nodup := by
  have hsymm : Std.Symm fun f g : Found => f.line ≠ g.line := ⟨fun _ _ => Ne.symm⟩
  have hne : all.Pairwise fun f g => f.line ≠ g.line := h.imp Int.ne_of_lt
  have hnodup : all.Nodup := hne.imp fun hline heq => hline (congrArg line heq)
  refine List.pairwise_map.mpr ((nodup_shown hnodup).imp_of_mem fun hf hg => ?_)
  exact hne.forall (mem_of_mem_shown hf) (mem_of_mem_shown hg)

end Tops

/-! ## The places of an outline -/

theorem places_eq (around : List Symbol) (s : Symbol) :
    s.places around = ⟨around, s⟩ :: Symbol.placesOfList (s :: around) s.children := by
  cases s
  rw [Symbol.places]
  rfl

theorem placesOfList_eq_flatMap (around ss : List Symbol) :
    Symbol.placesOfList around ss = ss.flatMap (Symbol.places around) := by
  induction ss with
  | nil => rw [Symbol.placesOfList, List.flatMap_nil]
  | cons s ss ih => rw [Symbol.placesOfList, ih, List.flatMap_cons]

/-- Symbols with nothing inside have one place each. -/
theorem placesOfList_of_childless (around : List Symbol) {ss : List Symbol}
    (h : ∀ s ∈ ss, s.children = []) :
    Symbol.placesOfList around ss = ss.map (SymbolPlace.mk around) := by
  induction ss with
  | nil => rw [Symbol.placesOfList, List.map_nil]
  | cons s ss ih =>
      obtain ⟨hs, hss⟩ := List.forall_mem_cons.mp h
      rw [Symbol.placesOfList, ih hss, places_eq, hs, Symbol.placesOfList, List.map_cons,
        List.singleton_append]

/-- A declaration at the top shows with what it owns inside it, and that has nothing inside. -/
theorem places_symbol (all : List Found) (f : Found) :
    (f.symbol all).places [] = ⟨[], f.symbol all⟩ ::
      (all.filter f.owns).map fun m => ⟨[f.symbol all], m.symbol all⟩ := by
  rw [places_eq, children_symbol, placesOfList_of_childless, List.map_map]
  · rfl
  · intro s hs
    obtain ⟨m, hm, rfl⟩ := List.mem_map.mp hs
    exact children_symbol_of_owns (List.mem_filter.mp hm).2

/-- The places of an outline are those of the declarations that show. -/
theorem placesOfList_topLevel (all : List Found) :
    Symbol.placesOfList [] (topLevel all all) = (tops all all).flatMap fun f =>
      ⟨[], f.symbol all⟩ :: (all.filter f.owns).map fun m => ⟨[f.symbol all], m.symbol all⟩ := by
  rw [placesOfList_eq_flatMap, topLevel_eq_map, List.flatMap_map]
  simp only [places_symbol]

/-- A place of an outline is that of a declaration at the top or of one that it owns. -/
theorem mem_placesOfList_topLevel_iff {all : List Found} {p : SymbolPlace} :
    p ∈ Symbol.placesOfList [] (topLevel all all) ↔ ∃ f ∈ tops all all,
      p = ⟨[], f.symbol all⟩ ∨
        ∃ m ∈ all, f.owns m = true ∧ p = ⟨[f.symbol all], m.symbol all⟩ := by
  simp only [placesOfList_topLevel, List.mem_flatMap, List.mem_cons, List.mem_map, List.mem_filter,
    and_assoc, eq_comm]

theorem map_line_placesOfList (all : List Found) :
    (Symbol.placesOfList [] (topLevel all all)).map (·.symbol.range.startLine) =
      (shown all).map Found.line := by
  simp only [placesOfList_topLevel, shown, List.map_flatMap, List.map_cons, List.map_map,
    Function.comp_def, range_symbol]
  rfl

end TestAtlas.Outline
