import TestAtlas.Proofs.Outline.Collection
import TestAtlas.Proofs.Outline.LinePattern

/-!
# An outline loses and doubles nothing

The scan keeps functions, types and methods apart and joins the methods with their types at the end.
Nothing gets lost on the way: of the lines that the patterns describe each has one place in the
outline, whatever stands before and after it (`symbols_isOutline`).  The proof goes by `topLevel`,
which is what the scan collects (`symbols_collected`).
-/

namespace TestAtlas.Outline

open Text Expression Found

/-! ## What an outline is -/

/-- Some line declares a type of the given name. -/
def IsDeclared (ls : List (List Char)) (name : List Char) : Prop :=
  ∃ line ∈ ls, ∃ isStruct, Declares line (.type name isStruct)

/-- The symbol stands for a structure or an interface of the given name. -/
def IsTypeNamed (name : List Char) (s : Symbol) : Prop :=
  (s.kind = .struct ∨ s.kind = .interface) ∧ s.name = String.ofList name

/-- The symbol says what the declaration says. -/
def Shows : Declaration → Symbol → Prop
  | .method pointer receiver name parameters, s =>
    s.kind = .method ∧ s.name = methodName pointer receiver name ∧
      s.detail = parameterDetail parameters ∧ s.children = []
  | .function name parameters, s =>
    s.kind = .function ∧ s.name = String.ofList name ∧
      s.detail = parameterDetail parameters ∧ s.children = []
  | .type name isStruct, s =>
    s.kind = (if isStruct then .struct else .interface) ∧ s.name = String.ofList name

/-- The places of the symbols that start on a line. -/
def placesOn (symbols : List Symbol) (n : Nat) : List SymbolPlace :=
  (Symbol.placesOfList [] symbols).filter fun p => p.symbol.range.startLine == n

/-- The range lies inside the lines, does not end before it starts, and ends with a line. -/
def IsRangeIn (ls : List (List Char)) (range : SourceRange) : Prop :=
  ∃ (start stop : Nat) (first last : List Char), ls[start]? = some first ∧ ls[stop]? = some last ∧
    range.startLine = start ∧ range.endLine = stop ∧ range.endCol = last.length ∧
    0 ≤ range.startCol ∧ range.startCol ≤ first.length ∧
    (start < stop ∨ (start = stop ∧ range.startCol ≤ range.endCol))

/-- The symbols are an outline of the lines. -/
structure IsOutline (ls : List (List Char)) (symbols : List Symbol) : Prop where
  /-- A line with a method yields the method and nothing else, inside the type that its receiver
  names if any line declares that type, and at the top otherwise. -/
  methods : ∀ (n : Nat) (line : List Char), ls[n]? = some line →
    DescribesStart methodPattern (String.ofList line) →
      ∃ pointer receiver name parameters around symbol,
        Declares line (.method pointer receiver name parameters) ∧
          Shows (.method pointer receiver name parameters) symbol ∧
          placesOn symbols n = [⟨around, symbol⟩] ∧
          ((∃ type ∈ symbols, IsTypeNamed receiver type ∧ around = [type]) ↔
            IsDeclared ls receiver) ∧
          (¬ IsDeclared ls receiver → around = [])
  /-- A line with a function yields the function and nothing else, at the top. -/
  functions : ∀ (n : Nat) (line : List Char), ls[n]? = some line →
    DescribesStart functionPattern (String.ofList line) →
      ∃ name parameters symbol, Declares line (.function name parameters) ∧
        Shows (.function name parameters) symbol ∧ placesOn symbols n = [⟨[], symbol⟩]
  /-- The lines that declare one type yield one symbol, at the top. -/
  types : ∀ line ∈ ls, DescribesStart typePattern (String.ofList line) →
    ∃ name isStruct, Declares line (.type name isStruct) ∧ ∃ type ∈ symbols,
      IsTypeNamed name type ∧ ∀ other ∈ symbols, IsTypeNamed name other → other = type
  /-- Every symbol, at the top or inside a type, stands for what its first line declares. -/
  declared : ∀ p ∈ Symbol.placesOfList [] symbols, ∃ (n : Nat) (line : List Char) (d : Declaration),
    ls[n]? = some line ∧ p.symbol.range.startLine = n ∧ Declares line d ∧ Shows d p.symbol
  ascending : symbols.Pairwise fun s u => s.range.startLine < u.range.startLine
  ascendingInside : ∀ s ∈ symbols,
    s.children.Pairwise fun s u => s.range.startLine < u.range.startLine
  ranges : ∀ p ∈ Symbol.placesOfList [] symbols, IsRangeIn ls p.symbol.range

/-! ## Ranges -/

theorem exists_closingLine {depth n m length : Nat} {later : List (List Char)}
    (h : closingLine depth n later = some (m, length)) :
    ∃ i line, later[i]? = some line ∧ m = n + i ∧ length = line.length := by
  induction later generalizing n with
  | nil => exact absurd h (by simp [closingLine])
  | cons line later ih =>
      rw [closingLine] at h
      split at h
      · cases h
        exact ⟨0, line, rfl, rfl, rfl⟩
      · obtain ⟨i, last, hlast, rfl, rfl⟩ := ih h
        exact ⟨i + 1, last, hlast, by omega, rfl⟩

/-- A declaration covers whole lines up to its last one. -/
theorem isRangeIn_declarationRange {ls : List (List Char)} {n : Nat} {line : List Char}
    (hline : ls[n]? = some line) : IsRangeIn ls (declarationRange n line (ls.drop (n + 1))) := by
  have hindent : indent line ≤ line.length := Nat.sub_le _ _
  unfold declarationRange
  simp only
  split
  · rename_i m length h
    split at h
    · obtain ⟨i, last, hlast, rfl, rfl⟩ := exists_closingLine h
      rw [List.getElem?_drop] at hlast
      exact ⟨n, n + 1 + i, line, last, hline, hlast, rfl, rfl, rfl, Int.natCast_nonneg _,
        Int.ofNat_le.mpr hindent, .inl (by omega)⟩
    · exact absurd h (by simp)
  · exact ⟨n, n, line, line, hline, hline, rfl, rfl, rfl, Int.natCast_nonneg _,
      Int.ofNat_le.mpr hindent, .inr ⟨rfl, Int.ofNat_le.mpr hindent⟩⟩

/-! ## Lines and places -/

section Outline

variable {ls : List (List Char)} {f : Found}

theorem mem_found_iff : f ∈ foundFrom 0 ls ↔ ∃ n line, ls[n]? = some line ∧
    Declares line f.declaration ∧ f.range = declarationRange n line (ls.drop (n + 1)) := by
  simp only [mem_foundFrom_iff, ofLine?_eq_some_iff, Nat.zero_add]

theorem exists_found {n : Nat} {line : List Char} {d : Declaration} (hline : ls[n]? = some line)
    (hd : Declares line d) : ∃ f ∈ foundFrom 0 ls, f.declaration = d ∧ f.line = n :=
  ⟨⟨d, declarationRange n line (ls.drop (n + 1))⟩, mem_found_iff.mpr ⟨n, line, hline, hd, rfl⟩, rfl,
    startLine_declarationRange ..⟩

theorem declaresType_found_iff {name : List Char} :
    declaresType name (foundFrom 0 ls) = true ↔ IsDeclared ls name := by
  rw [declaresType_eq_true_iff]
  constructor
  · rintro ⟨f, hf, isStruct, htype⟩
    obtain ⟨n, line, hline, hd, -⟩ := mem_found_iff.mp hf
    exact ⟨line, List.mem_of_getElem? hline, isStruct, htype ▸ hd⟩
  · rintro ⟨line, hmem, isStruct, hd⟩
    obtain ⟨n, hline⟩ := List.getElem?_of_mem hmem
    obtain ⟨f, hf, htype, -⟩ := exists_found hline hd
    exact ⟨f, hf, isStruct, htype⟩

theorem shows_symbol (all : List Found) (f : Found) : Shows f.declaration (f.symbol all) := by
  unfold Found.symbol
  cases f.declaration <;> simp [Shows, Symbol.kind, Symbol.name, Symbol.detail, Symbol.children]

/-- The outline of the lines. -/
def outline (ls : List (List Char)) : List Symbol := topLevel (foundFrom 0 ls) (foundFrom 0 ls)

theorem symbols_eq_outline {path text : String} {ss : List Symbol}
    (h : symbols path text = .ok ss) : ss = outline (sourceLines text) := by
  unfold symbols at h
  simp only at h
  split at h
  · cases h
  · split at h
    · cases h
    · rw [← Except.ok.inj h]
      exact symbols_collected (pairwise_foundFrom 0 (sourceLines text))

/-- Of values with different images one at most has a given image. -/
theorem filter_eq_singleton {α : Type} {g : α → Int} {l : List α} {x : α}
    (h : (l.map g).Nodup) (hx : x ∈ l) : (l.filter fun y => g y == g x) = [x] := by
  induction l with
  | nil => exact absurd hx (by simp)
  | cons y l ih =>
      obtain ⟨hy, hl⟩ := List.nodup_cons.mp h
      rcases List.mem_cons.mp hx with rfl | hx
      · have hnone : (l.filter fun z => g z == g x) = [] := by
          refine List.filter_eq_nil_iff.mpr fun z hz hzx => hy ?_
          rw [← eq_of_beq hzx]
          exact List.mem_map_of_mem hz
        rw [List.filter_cons_of_pos (by simp), hnone]
      · have hyx : ¬ (g y == g x) = true := fun hyx => hy (eq_of_beq hyx ▸ List.mem_map_of_mem hx)
        rw [List.filter_cons, if_neg hyx, ih hl hx]

/-- A line has one place at most. -/
theorem placesOn_eq {p : SymbolPlace} {n : Nat}
    (hp : p ∈ Symbol.placesOfList [] (outline ls)) (hn : p.symbol.range.startLine = n) :
    placesOn (outline ls) n = [p] := by
  have hnodup := nodup_line_shown (pairwise_foundFrom 0 ls)
  rw [← map_line_placesOfList] at hnodup
  rw [placesOn, ← hn]
  exact filter_eq_singleton hnodup hp

theorem mem_outline_iff {s : Symbol} : s ∈ outline ls ↔
    ∃ f ∈ tops (foundFrom 0 ls) (foundFrom 0 ls), s = f.symbol (foundFrom 0 ls) := by
  simp only [outline, topLevel_eq_map, List.mem_map, eq_comm]

theorem exists_type_mem_outline {name : List Char} (h : IsDeclared ls name) :
    ∃ f ∈ tops (foundFrom 0 ls) (foundFrom 0 ls), ∃ isStruct,
      f.declaration = .type name isStruct ∧ IsTypeNamed name (f.symbol (foundFrom 0 ls)) := by
  obtain ⟨f, hf, isStruct, htype⟩ := exists_type_mem_tops (declaresType_found_iff.mpr h)
  have hshows := shows_symbol (foundFrom 0 ls) f
  rw [htype] at hshows
  refine ⟨f, hf, isStruct, htype, ?_, hshows.2⟩
  rw [hshows.1]
  cases isStruct <;> simp

/-- A declaration whose symbol stands for a type declares the type. -/
theorem declaration_of_isTypeNamed {name : List Char} {all : List Found}
    (h : IsTypeNamed name (f.symbol all)) : ∃ isStruct, f.declaration = .type name isStruct := by
  have hshows := shows_symbol all f
  cases hd : f.declaration with
  | type other isStruct =>
      rw [hd] at hshows
      have hname := String.ofList_injective (hshows.2.symm.trans h.2)
      exact ⟨isStruct, by rw [hname]⟩
  | function other parameters =>
      rw [hd] at hshows
      rw [IsTypeNamed, hshows.1] at h
      simp at h
  | method pointer receiver other parameters =>
      rw [hd] at hshows
      rw [IsTypeNamed, hshows.1] at h
      simp at h

/-- A method shows inside the type that its receiver names, or else at the top. -/
theorem exists_place_of_method {pointer : Bool} {receiver name parameters : List Char}
    (hf : f ∈ foundFrom 0 ls) (hd : f.declaration = .method pointer receiver name parameters) :
    ∃ around, ⟨around, f.symbol (foundFrom 0 ls)⟩ ∈ Symbol.placesOfList [] (outline ls) ∧
      ((∃ type ∈ outline ls, IsTypeNamed receiver type ∧ around = [type]) ↔
        IsDeclared ls receiver) ∧
      (¬ IsDeclared ls receiver → around = []) := by
  by_cases hdeclared : IsDeclared ls receiver
  · obtain ⟨type, htype, isStruct, hname, hnamed⟩ := exists_type_mem_outline hdeclared
    have howns : type.owns f = true := owns_eq_true_iff.mpr ⟨_, _, _, _, _, hname, hd⟩
    refine ⟨[type.symbol (foundFrom 0 ls)], ?_, ?_, fun hnone => absurd hdeclared hnone⟩
    · exact mem_placesOfList_topLevel_iff.mpr ⟨type, htype, .inr ⟨f, hf, howns, rfl⟩⟩
    · exact iff_of_true ⟨_, mem_outline_iff.mpr ⟨type, htype, rfl⟩, hnamed, rfl⟩ hdeclared
  · have htop : f ∈ tops (foundFrom 0 ls) (foundFrom 0 ls) := by
      rw [mem_tops_iff (by simp [hd])]
      refine ⟨hf, ?_⟩
      rw [isHidden, hd, Bool.eq_false_iff]
      exact fun h => hdeclared (declaresType_found_iff.mp h)
    refine ⟨[], mem_placesOfList_topLevel_iff.mpr ⟨f, htop, .inl rfl⟩, ?_, fun _ => rfl⟩
    exact iff_of_false (by simp) hdeclared

/-- A function shows at the top. -/
theorem mem_places_of_function {name parameters : List Char} (hf : f ∈ foundFrom 0 ls)
    (hd : f.declaration = .function name parameters) :
    ⟨[], f.symbol (foundFrom 0 ls)⟩ ∈ Symbol.placesOfList [] (outline ls) := by
  have htop : f ∈ tops (foundFrom 0 ls) (foundFrom 0 ls) := by
    rw [mem_tops_iff (by simp [hd])]
    exact ⟨hf, by rw [isHidden, hd]⟩
  exact mem_placesOfList_topLevel_iff.mpr ⟨f, htop, .inl rfl⟩

/-- Every declaration that shows is one of those found. -/
theorem exists_found_of_mem_places {p : SymbolPlace}
    (hp : p ∈ Symbol.placesOfList [] (outline ls)) :
    ∃ f ∈ foundFrom 0 ls, p.symbol = f.symbol (foundFrom 0 ls) := by
  obtain ⟨f, hf, rfl | ⟨m, hm, -, rfl⟩⟩ := mem_placesOfList_topLevel_iff.mp hp
  · exact ⟨f, (sublist_tops _ _).subset hf, rfl⟩
  · exact ⟨m, hm, rfl⟩

/-- The symbols of declarations stand in the order of the declarations. -/
theorem pairwise_symbols {fs : List Found} (h : fs.Sublist (foundFrom 0 ls)) :
    (fs.map (Found.symbol (foundFrom 0 ls))).Pairwise
      fun s u => s.range.startLine < u.range.startLine := by
  refine List.pairwise_map.mpr ?_
  simp only [range_symbol]
  exact (pairwise_foundFrom 0 ls).sublist h

end Outline

/-- The symbols of a text are an outline of its lines. -/
theorem symbols_isOutline {path text : String} {ss : List Symbol}
    (h : symbols path text = .ok ss) : IsOutline (sourceLines text) ss := by
  obtain rfl := symbols_eq_outline h
  refine ⟨fun n line hline hpattern => ?_, fun n line hline hpattern => ?_,
    fun line hmem hpattern => ?_, fun p hp => ?_, ?_, fun s hs => ?_, fun p hp => ?_⟩
  · obtain ⟨pointer, receiver, name, parameters, hd⟩ := describesStart_methodPattern_iff.mp hpattern
    obtain ⟨f, hf, hdeclaration, hn⟩ := exists_found hline hd
    obtain ⟨around, hplace, hhome⟩ := exists_place_of_method hf hdeclaration
    refine ⟨pointer, receiver, name, parameters, around, _, hd, ?_, placesOn_eq hplace ?_, hhome⟩
    · exact hdeclaration ▸ shows_symbol _ f
    · rw [range_symbol]
      exact hn
  · obtain ⟨name, parameters, hd⟩ := describesStart_functionPattern_iff.mp hpattern
    obtain ⟨f, hf, hdeclaration, hn⟩ := exists_found hline hd
    have hplace := mem_places_of_function hf hdeclaration
    refine ⟨name, parameters, _, hd, ?_, placesOn_eq hplace ?_⟩
    · exact hdeclaration ▸ shows_symbol _ f
    · rw [range_symbol]
      exact hn
  · obtain ⟨name, isStruct, hd⟩ := describesStart_typePattern_iff.mp hpattern
    obtain ⟨f, hf, _, htype, hnamed⟩ := exists_type_mem_outline ⟨line, hmem, isStruct, hd⟩
    refine ⟨name, isStruct, hd, _, mem_outline_iff.mpr ⟨f, hf, rfl⟩, hnamed, ?_⟩
    intro other hother h
    obtain ⟨g, hg, rfl⟩ := mem_outline_iff.mp hother
    obtain ⟨_, htype'⟩ := declaration_of_isTypeNamed h
    rw [eq_of_type_mem_tops hg hf htype' htype]
  · obtain ⟨f, hf, hsymbol⟩ := exists_found_of_mem_places hp
    obtain ⟨n, line, hline, hd, hrange⟩ := mem_found_iff.mp hf
    refine ⟨n, line, f.declaration, hline, ?_, hd, hsymbol ▸ shows_symbol _ f⟩
    rw [hsymbol, range_symbol, hrange, startLine_declarationRange]
  · rw [outline, topLevel_eq_map]
    exact pairwise_symbols (sublist_tops _ _)
  · obtain ⟨f, -, rfl⟩ := mem_outline_iff.mp hs
    rw [children_symbol]
    exact pairwise_symbols List.filter_sublist
  · obtain ⟨f, hf, hsymbol⟩ := exists_found_of_mem_places hp
    obtain ⟨n, line, hline, -, hrange⟩ := mem_found_iff.mp hf
    rw [hsymbol, range_symbol, hrange]
    exact isRangeIn_declarationRange hline

/-- A file with methods before and behind their type, which is declared twice, with a method of a
type from elsewhere, and with a function over several lines. -/
def scattered : String :=
  "package p\nfunc (s *S) A() \x7b\x7d\ntype S struct \x7b\n\x7d\nfunc (o T) B(n int) \x7b\x7d\n" ++
    "func C() \x7b\n\tx()\n\x7d\ntype S interface \x7b\x7d\nfunc (S) D() \x7b\x7d\n"

/-- The symbols of that file. -/
def scatteredSymbols : List Symbol :=
  [.node "(T).B" .method ⟨4, 0, 4, 22⟩ "(n int)" [],
    .node "C" .function ⟨5, 0, 7, 1⟩ "()" [],
    .node "S" .interface ⟨8, 0, 8, 19⟩ ""
      [.node "(*S).A" .method ⟨1, 0, 1, 18⟩ "()" [],
        .node "(S).D" .method ⟨9, 0, 9, 15⟩ "()" []]]

theorem symbols_isOutline_scattered :
    symbols "/p/a_test.go" scattered = .ok scatteredSymbols ∧
      IsOutline (sourceLines scattered) scatteredSymbols := by
  have h : symbols "/p/a_test.go" scattered = .ok scatteredSymbols := by decide +kernel
  exact ⟨h, symbols_isOutline h⟩

end TestAtlas.Outline
