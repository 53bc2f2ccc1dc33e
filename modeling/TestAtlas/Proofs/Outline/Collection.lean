import Mathlib.Data.List.Induction
import Mathlib.Data.List.Nodup
import TestAtlas.Proofs.Keyed
import TestAtlas.Proofs.Outline.Found

/-!
# What the scan collects

The scan keeps functions, types and methods apart: a type takes the place of an earlier one of its
name, the methods wait under the name of their receiver, and at the end everything is sorted by
line.  What the three collections hold after some declarations is known (`types_collected_iff`,
`methods_collected`), and so the sorted symbols are those that `topLevel` reads off the
declarations (`symbols_collected`).
-/

namespace TestAtlas.Outline

open Found

/-- What is collected from some declarations. -/
def collected (fs : List Found) : Collected := fs.foldl Collected.add .empty

theorem collected_concat (fs : List Found) (f : Found) :
    collected (fs ++ [f]) = (collected fs).add f := by
  simp [collected]

/-- The declaration is that of a function. -/
def Found.isFunction (f : Found) : Bool :=
  match f.declaration with
  | .function _ _ => true
  | _ => false

theorem isFunction_eq_true_iff {f : Found} :
    f.isFunction = true ↔ ∃ name parameters, f.declaration = .function name parameters := by
  unfold isFunction
  cases f.declaration <;> simp

/-- The declaration is that of a method of the given receiver. -/
def Found.isMethodOf (name : List Char) (f : Found) : Bool :=
  match f.declaration with
  | .method _ receiver _ _ => receiver == name
  | _ => false

theorem isMethodOf_eq_true_iff {f : Found} {receiver : List Char} : f.isMethodOf receiver = true ↔
    ∃ pointer name parameters, f.declaration = .method pointer receiver name parameters := by
  unfold isMethodOf
  cases f.declaration <;> simp

theorem filterMap_methodOf? (all fs : List Found) {name : List Char} :
    fs.filterMap (methodOf? name) = (fs.filter (isMethodOf name)).map (Found.symbol all) := by
  rw [← List.filterMap_eq_map, List.filterMap_filter]
  refine List.filterMap_congr fun f _ => ?_
  cases h : f.declaration <;> simp [methodOf?, isMethodOf, Found.symbol, h]

/-- The symbol of a declaration with the line it starts on. -/
def Found.entry (all : List Found) (f : Found) : Int × Symbol := (f.line, f.symbol all)

/-! ## The three collections -/

theorem functions_collected (fs : List Found) :
    (collected fs).functions = (fs.filter isFunction).map (entry []) := by
  induction fs using List.reverseRecOn with
  | nil => rfl
  | append_singleton fs f ih =>
      rw [collected_concat, List.filter_append, List.map_append, ← ih]
      cases h : f.declaration <;>
        simp [Collected.add, isFunction, entry, Found.line, Found.symbol, h]

/-- Under each name wait the methods that have it for their receiver, in order. -/
theorem methods_collected (fs : List Found) (name : List Char) :
    (collected fs).methods.get? name =
      if fs.filterMap (methodOf? name) = [] then none
      else some (fs.filterMap (methodOf? name)) := by
  induction fs using List.reverseRecOn with
  | nil => rfl
  | append_singleton fs f ih =>
      rw [collected_concat, List.filterMap_append]
      generalize fs.filterMap (methodOf? name) = ms at ih ⊢
      cases h : f.declaration with
      | method pointer receiver method parameters =>
          by_cases hname : name = receiver
          · subst hname
            have hold : ((collected fs).methods.get? name).getD [] = ms := by
              rw [ih]
              split <;> simp [*]
            simp [Collected.add, h, Keyed.get?_insert, hold, methodOf?]
          · simp [Collected.add, h, Keyed.get?_insert, ih, hname, methodOf?, Ne.symm hname]
      | _ => simp [Collected.add, methodOf?, h, ih]

theorem getD_methods_collected (fs : List Found) (name : List Char) :
    ((collected fs).methods.get? name).getD [] = fs.filterMap (methodOf? name) := by
  rw [methods_collected]
  split
  · rename_i hnone
    rw [hnone, Option.getD_none]
  · rfl

/-- The last of some declarations of a type. -/
def lastOf? (name : List Char) (fs : List Found) : Option Found :=
  fs.reverse.find? (declares name)

theorem lastOf?_eq_none_iff {name : List Char} {fs : List Found} :
    lastOf? name fs = none ↔ declaresType name fs = false := by
  simp [lastOf?, declaresType]

theorem lastOf?_cons {name : List Char} (f : Found) (fs : List Found) :
    lastOf? name (f :: fs) = (lastOf? name fs).or (if f.declares name then some f else none) := by
  rw [lastOf?, List.reverse_cons, List.find?_append, List.find?_singleton, lastOf?]

theorem lastOf?_concat {name : List Char} (fs : List Found) (f : Found) :
    lastOf? name (fs ++ [f]) = if f.declares name then some f else lastOf? name fs := by
  rw [lastOf?, List.reverse_concat, List.find?_cons, lastOf?]
  split <;> simp [*]

/-- The last declaration of a type shows at the top, and no other one. -/
theorem lastOf?_eq_some_iff {all fs : List Found} {f : Found} {name : List Char} :
    lastOf? name fs = some f ↔ f ∈ tops all fs ∧ f.declares name = true := by
  induction fs with
  | nil => simp [lastOf?, tops]
  | cons g fs ih =>
      rw [lastOf?_cons, tops]
      cases hlast : lastOf? name fs with
      | some last =>
          have hdeclared : declaresType name fs = true := by
            by_contra hnone
            rw [lastOf?_eq_none_iff.mpr (Bool.eq_false_iff.mpr hnone)] at hlast
            exact absurd hlast (by simp)
          rw [Option.some_or, ← hlast, ih]
          split
          · rfl
          · rename_i hshown
            refine and_congr_left fun hf => (List.mem_cons.trans (or_iff_right ?_)).symm
            rintro rfl
            obtain ⟨isStruct, htype⟩ := declares_eq_true_iff.mp hf
            exact hshown (by simp [isHidden, htype, hdeclared])
      | none =>
          have hnone : declaresType name fs = false := lastOf?_eq_none_iff.mp hlast
          have hother : ¬ (f ∈ tops all fs ∧ f.declares name = true) := fun h => by
            rw [ih.mpr h] at hlast
            exact absurd hlast (by simp)
          cases hg : g.declares name with
          | true =>
              obtain ⟨isStruct, htype⟩ := declares_eq_true_iff.mp hg
              have hshown : g.isHidden all fs = false := by simp [isHidden, htype, hnone]
              rw [hshown, Option.none_or]
              constructor
              · rintro ⟨⟩
                exact ⟨List.mem_cons_self, hg⟩
              · rintro ⟨hf, hdeclares⟩
                rcases List.mem_cons.mp hf with rfl | hf
                · rfl
                · exact absurd ⟨hf, hdeclares⟩ hother
          | false =>
              refine iff_of_false (by simp) ?_
              rintro ⟨hf, hdeclares⟩
              split at hf
              · exact hother ⟨hf, hdeclares⟩
              · rcases List.mem_cons.mp hf with rfl | hf
                · exact absurd (hg.symm.trans hdeclares) (by decide)
                · exact hother ⟨hf, hdeclares⟩

/-- Under each name is the last type that was declared with it. -/
theorem types_collected (fs : List Found) (name : List Char) :
    (collected fs).types.get? name = (lastOf? name fs).bind fun f =>
      match f.declaration with
      | .type _ isStruct => some (isStruct, f.range)
      | _ => none := by
  induction fs using List.reverseRecOn with
  | nil => rfl
  | append_singleton fs f ih =>
      rw [collected_concat, lastOf?_concat]
      cases h : f.declaration with
      | type other isStruct =>
          by_cases hname : name = other
          · simp [Collected.add, h, Keyed.get?_insert, declares, hname]
          · simp [Collected.add, h, Keyed.get?_insert, declares, hname, Ne.symm hname, ih]
      | _ => simp [Collected.add, h, declares, ih]

/-- The symbol of a type. -/
def typeSymbol (methods : Keyed (List Char) (List Symbol)) :
    List Char × Bool × SourceRange → Int × Symbol
  | (name, isStruct, range) =>
    (range.startLine, .node (String.ofList name) (if isStruct then .struct else .interface) range ""
      ((methods.get? name).getD []))

/-- Each type gets the methods of its name, and those of no type are left. -/
theorem joinTypes_eq {types : List (List Char × Bool × SourceRange)}
    (hnodup : (types.map Prod.fst).Nodup) (top : List (Int × Symbol))
    (methods : Keyed (List Char) (List Symbol)) :
    joinTypes types top methods = (top ++ types.map (typeSymbol methods),
      methods.filter fun e => decide (e.1 ∉ types.map Prod.fst)) := by
  induction types generalizing top methods with
  | nil =>
      refine Prod.ext (by simp [joinTypes]) (Keyed.ext ?_)
      simp [joinTypes, Keyed.filter]
  | cons type types ih =>
      obtain ⟨name, isStruct, range⟩ := type
      obtain ⟨hname, hnodup⟩ := List.nodup_cons.mp hnodup
      have hsame : types.map (typeSymbol (methods.erase name)) =
          types.map (typeSymbol methods) := by
        refine List.map_congr_left fun type htype => ?_
        have hmem : type.1 ∈ types.map Prod.fst := List.mem_map_of_mem htype
        have hne : type.1 ≠ name := fun heq => hname (heq ▸ hmem)
        rw [typeSymbol, typeSymbol, Keyed.get?_erase, if_neg hne]
      rw [joinTypes, ih hnodup, hsame]
      refine Prod.ext (by simp [typeSymbol]) (Keyed.ext ?_)
      simp only [Keyed.filter, Keyed.erase, List.filter_filter]
      refine List.filter_congr fun e _ => ?_
      by_cases he : e.1 = name <;> simp [he]

/-! ## The symbols at the top -/

variable {fs : List Found}

/-- A type at the top, as it is collected. -/
theorem mem_types_collected_iff {name : List Char} {isStruct : Bool} {range : SourceRange} :
    (name, isStruct, range) ∈ (collected fs).types.entries ↔
      ⟨.type name isStruct, range⟩ ∈ tops fs fs := by
  rw [← Keyed.get?_eq_some_iff, types_collected]
  constructor
  · intro h
    obtain ⟨f, hlast, hf⟩ := Option.bind_eq_some_iff.mp h
    obtain ⟨hmem, hdeclares⟩ := lastOf?_eq_some_iff.mp hlast
    obtain ⟨_, htype⟩ := declares_eq_true_iff.mp hdeclares
    rw [htype] at hf
    cases hf
    cases f
    cases htype
    exact hmem
  · intro h
    rw [lastOf?_eq_some_iff.mpr ⟨h, declares_eq_true_iff.mpr ⟨isStruct, rfl⟩⟩]
    rfl

theorem mem_types_keys_iff {name : List Char} :
    name ∈ (collected fs).types.entries.map Prod.fst ↔ declaresType name fs = true := by
  constructor
  · intro h
    obtain ⟨⟨_, isStruct, range⟩, hmem, rfl⟩ := List.mem_map.mp h
    exact declaresType_eq_true_iff.mpr
      ⟨_, (sublist_tops fs fs).subset (mem_types_collected_iff.mp hmem), isStruct, rfl⟩
  · intro h
    have hlast : ∃ f ∈ tops fs fs, ∃ isStruct, f.declaration = .type name isStruct :=
      exists_type_mem_tops h
    obtain ⟨⟨_, range⟩, hmem, isStruct, rfl⟩ := hlast
    exact List.mem_map_of_mem (f := Prod.fst) (mem_types_collected_iff.mpr hmem)

/-- The methods of the types from elsewhere. -/
def leftMethods (fs : List Found) : Keyed (List Char) (List Symbol) :=
  (collected fs).methods.filter fun e =>
    decide (e.1 ∉ (collected fs).types.entries.map Prod.fst)

theorem get?_leftMethods (fs : List Found) (name : List Char) :
    (leftMethods fs).get? name = if declaresType name fs then none
      else (collected fs).methods.get? name := by
  have hkeys := Keyed.get?_filter_key (collected fs).methods
    (fun name => decide (name ∉ (collected fs).types.entries.map Prod.fst)) name
  rw [leftMethods, hkeys]
  cases hname : declaresType name fs <;> simp [mem_types_keys_iff, hname]

/-- The declarations at the top, in the order in which they are collected. -/
def topsCollected (fs : List Found) : List Found :=
  fs.filter isFunction ++
    (collected fs).types.entries.map (fun e => ⟨.type e.1 e.2.1, e.2.2⟩) ++
    (leftMethods fs).entries.flatMap fun e => fs.filter (isMethodOf e.1)

theorem startLines_of_mem_leftMethods {e : List Char × List Symbol}
    (he : e ∈ (leftMethods fs).entries) :
    startLines e.2 = (fs.filter (isMethodOf e.1)).map (entry fs) := by
  rw [← Keyed.get?_eq_some_iff, get?_leftMethods, methods_collected] at he
  split at he
  · exact absurd he (by simp)
  · split at he
    · exact absurd he (by simp)
    · rw [← Option.some.inj he, filterMap_methodOf? fs, startLines, List.map_map]
      refine List.map_congr_left fun f _ => ?_
      simp [entry, Found.line]

theorem top_collected (fs : List Found) :
    (collected fs).top = (topsCollected fs).map (entry fs) := by
  have htypes : ∀ e, typeSymbol (collected fs).methods e =
      entry fs ⟨.type e.1 e.2.1, e.2.2⟩ := fun ⟨name, isStruct, range⟩ => by
    rw [typeSymbol, getD_methods_collected]
    rfl
  have hmethods : ((leftMethods fs).entries.flatMap fun e => startLines e.2) =
      (leftMethods fs).entries.flatMap fun e => (fs.filter (isMethodOf e.1)).map (entry fs) :=
    List.flatMap_congr fun e he => startLines_of_mem_leftMethods he
  have hfunctions : (collected fs).functions = (fs.filter isFunction).map (entry fs) := by
    rw [functions_collected]
    refine List.map_congr_left fun f hf => ?_
    obtain ⟨name, parameters, h⟩ := isFunction_eq_true_iff.mp (List.mem_filter.mp hf).2
    simp [entry, Found.symbol, h]
  have hjoin := joinTypes_eq (collected fs).types.keys_nodup (collected fs).functions
    (collected fs).methods
  unfold Collected.top
  rw [hjoin]
  change _ ++ (leftMethods fs).entries.flatMap _ = _
  rw [hmethods, hfunctions, topsCollected, List.map_append, List.map_append, List.map_map,
    List.map_flatMap, List.map_congr_left fun e _ => htypes e]
  rfl

theorem mem_typesCollected_iff {f : Found} :
    f ∈ (collected fs).types.entries.map (fun e => (⟨.type e.1 e.2.1, e.2.2⟩ : Found)) ↔
      f ∈ tops fs fs ∧ ∃ name isStruct, f.declaration = .type name isStruct := by
  constructor
  · intro h
    obtain ⟨⟨name, isStruct, range⟩, hmem, rfl⟩ := List.mem_map.mp h
    exact ⟨mem_types_collected_iff.mp hmem, name, isStruct, rfl⟩
  · rintro ⟨hmem, name, isStruct, h⟩
    obtain ⟨_, range⟩ := f
    cases h
    exact List.mem_map.mpr ⟨(name, isStruct, range), mem_types_collected_iff.mpr hmem, rfl⟩

theorem mem_leftMethods_iff {f : Found} :
    (f ∈ (leftMethods fs).entries.flatMap fun e => fs.filter (isMethodOf e.1)) ↔
      f ∈ fs ∧ ∃ receiver, f.isMethodOf receiver = true ∧ declaresType receiver fs = false := by
  rw [List.mem_flatMap]
  constructor
  · rintro ⟨e, he, hf⟩
    obtain ⟨hf, hmethod⟩ := List.mem_filter.mp hf
    rw [← Keyed.get?_eq_some_iff, get?_leftMethods] at he
    refine ⟨hf, e.1, hmethod, ?_⟩
    by_contra hdeclared
    rw [if_pos (by simpa using hdeclared)] at he
    exact absurd he (by simp)
  · rintro ⟨hf, receiver, hmethod, hnone⟩
    have hmem : f ∈ fs.filter (isMethodOf receiver) := List.mem_filter.mpr ⟨hf, hmethod⟩
    have hmethods : fs.filterMap (methodOf? receiver) ≠ [] := fun hnil => by
      rw [filterMap_methodOf? fs, List.map_eq_nil_iff] at hnil
      rw [hnil] at hmem
      exact absurd hmem List.not_mem_nil
    refine ⟨(receiver, fs.filterMap (methodOf? receiver)), ?_, hmem⟩
    rw [← Keyed.get?_eq_some_iff, get?_leftMethods, if_neg (by simp [hnone]), methods_collected,
      if_neg hmethods]

theorem mem_topsCollected_iff {f : Found} : f ∈ topsCollected fs ↔ f ∈ tops fs fs := by
  rw [topsCollected, List.mem_append, List.mem_append, mem_typesCollected_iff, mem_leftMethods_iff,
    List.mem_filter]
  cases h : f.declaration with
  | type name isStruct => simp [isFunction, isMethodOf, h]
  | function name parameters =>
      rw [mem_tops_iff (by simp [h])]
      simp [isFunction, isMethodOf, isHidden, h]
  | method pointer receiver name parameters =>
      rw [mem_tops_iff (by simp [h])]
      simp [isFunction, isMethodOf, isHidden, h]

theorem nodup_topsCollected (h : fs.Nodup) : (topsCollected fs).Nodup := by
  refine List.nodup_append.mpr ⟨List.nodup_append.mpr ⟨h.filter _, ?_, ?_⟩, ?_, ?_⟩
  · refine List.Nodup.map ?_ (collected fs).types.keys_nodup.of_map
    rintro ⟨name, isStruct, range⟩ ⟨name', isStruct', range'⟩ heq
    cases heq
    rfl
  · rintro f hf g hg rfl
    obtain ⟨-, name, isStruct, htype⟩ := mem_typesCollected_iff.mp hg
    obtain ⟨_, _, hfunction⟩ := isFunction_eq_true_iff.mp (List.mem_filter.mp hf).2
    exact absurd (htype.symm.trans hfunction) (by simp)
  · refine List.nodup_flatMap.mpr ⟨fun e _ => h.filter _, ?_⟩
    -- the receivers are distinct, so no method waits under two of them
    refine (List.pairwise_map.mp (leftMethods fs).keys_nodup).imp fun hne f hf hg => hne ?_
    obtain ⟨_, _, _, hreceiver⟩ := isMethodOf_eq_true_iff.mp (List.mem_filter.mp hf).2
    obtain ⟨_, _, _, hreceiver'⟩ := isMethodOf_eq_true_iff.mp (List.mem_filter.mp hg).2
    exact (Declaration.method.inj (hreceiver.symm.trans hreceiver')).2.1
  · rintro f hf g hg rfl
    obtain ⟨-, receiver, hmethod, -⟩ := mem_leftMethods_iff.mp hg
    obtain ⟨_, _, _, hmethod⟩ := isMethodOf_eq_true_iff.mp hmethod
    rcases List.mem_append.mp hf with hf | hf
    · obtain ⟨_, _, hfunction⟩ := isFunction_eq_true_iff.mp (List.mem_filter.mp hf).2
      exact absurd (hmethod.symm.trans hfunction) (by simp)
    · obtain ⟨-, _, _, htype⟩ := mem_typesCollected_iff.mp hf
      exact absurd (hmethod.symm.trans htype) (by simp)

/-- What is sorted at the end is what stands at the top, in some order. -/
theorem perm_top_collected (h : fs.Nodup) :
    ((collected fs).top).Perm ((tops fs fs).map (entry fs)) := by
  have hnodup : (tops fs fs).Nodup := h.sublist (sublist_tops fs fs)
  rw [top_collected]
  exact ((List.perm_ext_iff_of_nodup (nodup_topsCollected h) hnodup).mpr
    fun _ => mem_topsCollected_iff).map _

/-! ## The order of the lines -/

theorem perm_insertByLine (s : Int × Symbol) (l : List (Int × Symbol)) :
    (insertByLine s l).Perm (s :: l) := by
  induction l with
  | nil => exact .refl _
  | cons t ts ih =>
      rw [insertByLine]
      split
      · exact .refl _
      · exact (ih.cons t).trans (.swap s t ts)

theorem perm_sortByLine (l : List (Int × Symbol)) : (sortByLine l).Perm l := by
  induction l with
  | nil => exact .refl _
  | cons s ss ih => exact (perm_insertByLine s _).trans (ih.cons s)

theorem pairwise_insertByLine (s : Int × Symbol) {l : List (Int × Symbol)}
    (h : l.Pairwise fun a b => a.1 ≤ b.1) :
    (insertByLine s l).Pairwise fun a b => a.1 ≤ b.1 := by
  induction l with
  | nil => exact List.pairwise_singleton _ _
  | cons t ts ih =>
      obtain ⟨hfirst, hrest⟩ := List.pairwise_cons.mp h
      rw [insertByLine]
      split
      · rename_i hle
        refine List.pairwise_cons.mpr ⟨List.forall_mem_cons.mpr ⟨hle, fun u hu => ?_⟩, h⟩
        exact Int.le_trans hle (hfirst u hu)
      · rename_i hlt
        refine List.pairwise_cons.mpr ⟨fun u hu => ?_, ih hrest⟩
        rcases List.mem_cons.mp ((perm_insertByLine s ts).subset hu) with rfl | hu
        · exact Int.le_of_lt (Int.not_le.mp hlt)
        · exact hfirst u hu

theorem pairwise_sortByLine (l : List (Int × Symbol)) :
    (sortByLine l).Pairwise fun a b => a.1 ≤ b.1 := by
  induction l with
  | nil => exact List.Pairwise.nil
  | cons s ss ih => exact pairwise_insertByLine s ih

theorem eq_of_line_eq {l : List (Int × Symbol)} (h : l.Pairwise fun a b => a.1 < b.1)
    {a b : Int × Symbol} (ha : a ∈ l) (hb : b ∈ l) (heq : a.1 = b.1) : a = b := by
  have hsymm : Std.Symm fun a b : Int × Symbol => a.1 ≠ b.1 := ⟨fun _ _ => Ne.symm⟩
  by_contra hne
  exact (h.imp Int.ne_of_lt).forall ha hb hne heq

/-- Declarations that are read line by line yield the symbols that `topLevel` reads off them. -/
theorem symbols_collected (h : fs.Pairwise fun f g => f.line < g.line) :
    (collected fs).symbols = topLevel fs fs := by
  have hnodup : fs.Nodup := h.imp fun hlt heq => absurd (heq ▸ hlt) (Int.lt_irrefl _)
  have htops : ((tops fs fs).map (entry fs)).Pairwise fun a b => a.1 < b.1 :=
    List.pairwise_map.mpr (h.sublist (sublist_tops fs fs))
  have hperm := (perm_sortByLine _).trans (perm_top_collected hnodup)
  have hsorted : sortByLine (collected fs).top = (tops fs fs).map (entry fs) := by
    refine List.Perm.eq_of_pairwise (fun a b ha hb hab hba => ?_) (pairwise_sortByLine _)
      (htops.imp Int.le_of_lt) hperm
    exact eq_of_line_eq htops (hperm.subset ha) hb (Int.le_antisymm hab hba)
  rw [Collected.symbols, hsorted, List.map_map, topLevel_eq_map]
  rfl

end TestAtlas.Outline
