import TestAtlas.Proofs.Outline.Comments
import TestAtlas.Proofs.Outline.Completeness

/-!
# The line numbers of an outline

Editors count line feeds.  The outline counts the ends of lines in the text with its block comments
blanked: of a comment the line feeds count and nothing else, and outside of comments every end of a
line counts.  So a symbol is reported on the line where an editor shows it exactly if no end of a
line but line feeds stands outside of comments before its declaration (`startLine_eq_count_iff`).
-/

namespace TestAtlas.Outline

open Text Found

/-! ## Ends of lines -/

/-- A carriage return stands before line feeds only. -/
def ReturnsPaired : List Char → Prop
  | [] => True
  | c :: cs => (c = '\r' → cs.head? = some '\n') ∧ ReturnsPaired cs

instance decidableReturnsPaired : ∀ cs, Decidable (ReturnsPaired cs)
  | [] => isTrue trivial
  | c :: cs =>
    have := decidableReturnsPaired cs
    inferInstanceAs (Decidable ((c = '\r' → cs.head? = some '\n') ∧ ReturnsPaired cs))

/-- The character ends a line and is no part of a line feed with or without a carriage return. -/
def isOtherEnd (c : Char) : Bool := isLineEnd c && c != '\n' && c != '\r'

/-- The number of lines that end in a text. -/
def lineEnds (cs : List Char) : Nat := cs.count '\n' + cs.countP isOtherEnd

/-- The text stands on one line, and on that line nothing else stands. -/
structure IsLineBetween (above line below : List Char) : Prop where
  start : ∀ c, above.getLast? = some c → isLineEnd c = true
  inside : ∀ c ∈ line, isLineEnd c = false
  stop : ∀ c, below.head? = some c → isLineEnd c = true

theorem lineEnds_append (cs ds : List Char) : lineEnds (cs ++ ds) = lineEnds cs + lineEnds ds := by
  simp only [lineEnds, List.count_append, List.countP_append]
  omega

theorem lineEnds_singleton {c : Char} (hc : isLineEnd c = true) (hr : c ≠ '\r') :
    lineEnds [c] = 1 := by
  by_cases hn : c = '\n'
  · rw [hn]
    decide
  · have hother : isOtherEnd c = true := by simp [isOtherEnd, hc, hn, hr]
    simp [lineEnds, hother, hn]

theorem lineEnds_of_inside {cs : List Char} (h : ∀ c ∈ cs, isLineEnd c = false) :
    lineEnds cs = 0 := by
  have hfeed : cs.count '\n' = 0 := by
    refine List.count_eq_zero.mpr fun hmem => ?_
    exact absurd (h _ hmem) (by decide)
  have hother : cs.countP isOtherEnd = 0 := by
    refine List.countP_eq_zero.mpr fun c hc => ?_
    simp [isOtherEnd, h c hc]
  rw [lineEnds, hfeed, hother]

theorem lines_eq_nil {cs : List Char} (h : lines cs = []) : cs = [] := by
  fun_induction lines cs with
  | case1 => rfl
  | case2 cs => exact absurd h (by simp)
  | case3 c cs _ hc => exact absurd h (by simp)
  | case4 c cs _ hc => cases hl : lines cs <;> simp [hl, ontoFirst] at h

/-- The line with number `n` of a text: as many lines end above it. -/
def IsLine (cs : List Char) (n : Nat) (line : List Char) : Prop :=
  ∃ above below, cs = above ++ (line ++ below) ∧ IsLineBetween above line below ∧
    lineEnds above = n ∧ (n = 0 → above = [])

section Steps

variable {c : Char} {cs line : List Char} {n : Nat}

/-- The end of a line at the start of a text ends an empty line. -/
theorem isLine_zero_nil (hc : isLineEnd c = true) : IsLine (c :: cs) 0 [] :=
  ⟨[], c :: cs, rfl, ⟨by simp, by simp, by simpa using hc⟩, rfl, fun _ => rfl⟩

/-- Behind the end of a line the lines have the next numbers. -/
theorem IsLine.behind {ending : List Char}
    (hlast : ∃ e, ending.getLast? = some e ∧ isLineEnd e = true)
    (hcount : lineEnds ending = 1) (h : IsLine cs n line) : IsLine (ending ++ cs) (n + 1) line := by
  obtain ⟨e, he, hend⟩ := hlast
  obtain ⟨above, below, rfl, hbetween, rfl, -⟩ := h
  refine ⟨ending ++ above, below, by simp, ⟨fun d hd => ?_, hbetween.inside, hbetween.stop⟩, ?_,
    by simp⟩
  · rw [List.getLast?_append] at hd
    cases habove : above.getLast? with
    | none =>
        rw [habove, he] at hd
        cases hd
        exact hend
    | some f =>
        rw [habove] at hd
        cases hd
        exact hbetween.start _ habove
  · rw [lineEnds_append, hcount, Nat.add_comm]

/-- Another character in front belongs to the first line. -/
theorem IsLine.onto_first (hc : isLineEnd c = false) (h : IsLine cs 0 line) :
    IsLine (c :: cs) 0 (c :: line) := by
  obtain ⟨above, below, rfl, hbetween, -, habove⟩ := h
  obtain rfl := habove rfl
  exact ⟨[], below, rfl, ⟨by simp, List.forall_mem_cons.mpr ⟨hc, hbetween.inside⟩, hbetween.stop⟩,
    rfl, fun _ => rfl⟩

/-- To the other lines it makes no difference. -/
theorem IsLine.onto_later (hc : isLineEnd c = false) (h : IsLine cs (n + 1) line) :
    IsLine (c :: cs) (n + 1) line := by
  obtain ⟨above, below, rfl, hbetween, hn, -⟩ := h
  -- some line ends above, so the character does not come last there
  have hne : above ≠ [] := by
    rintro rfl
    exact absurd hn (by simp [lineEnds])
  refine ⟨c :: above, below, rfl, ⟨fun d hd => ?_, hbetween.inside, hbetween.stop⟩, ?_, by simp⟩
  · rw [List.getLast?_cons_of_ne_nil hne] at hd
    exact hbetween.start d hd
  · rw [← List.singleton_append, lineEnds_append, hn, lineEnds_of_inside (by simpa using hc),
      Nat.zero_add]

end Steps

/-- The lines of a text are numbered by the ends of lines above them. -/
theorem isLine_of_getElem? {cs line : List Char} {n : Nat} (hpaired : ReturnsPaired cs)
    (hline : (lines cs)[n]? = some line) : IsLine cs n line := by
  fun_induction lines cs generalizing n line with
  | case1 => exact absurd hline (by simp)
  | case2 cs ih =>
      cases n with
      | zero =>
          cases hline
          exact isLine_zero_nil (by decide)
      | succ n =>
          exact (ih hpaired.2.2 hline).behind ⟨'\n', rfl, by decide⟩
            (by decide : lineEnds ['\r', '\n'] = 1)
  | case3 c cs hnot hc ih =>
      cases n with
      | zero =>
          cases hline
          exact isLine_zero_nil hc
      | succ n =>
          have hr : c ≠ '\r' := fun hr => by
            obtain ⟨rest, hrest⟩ := List.head?_eq_some_iff.mp (hpaired.1 hr)
            exact hnot rest hr hrest
          exact (ih hpaired.2 hline).behind ⟨c, rfl, hc⟩ (lineEnds_singleton hc hr)
  | case4 c cs hnot hc ih =>
      rw [Bool.not_eq_true] at hc
      cases hl : lines cs with
      | nil =>
          obtain rfl := lines_eq_nil hl
          obtain ⟨rfl, rfl⟩ : n = 0 ∧ line = [c] := by
            cases n <;> simp_all [ontoFirst]
          exact ⟨[], [], rfl, ⟨by simp, by simpa using hc, by simp⟩, rfl, fun _ => rfl⟩
      | cons first rest =>
          rw [hl, ontoFirst] at hline
          rw [hl] at ih
          cases n with
          | zero =>
              cases hline
              exact (ih hpaired.2 rfl).onto_first hc
          | succ n => exact (ih hpaired.2 hline).onto_later hc

/-! ## Blanking in pieces -/

/-- The pieces that blanking takes of a text: block comments, as far as they are closed, and all
other characters one by one. -/
def blanking : List Char → List Piece
  | [] => []
  | '/' :: '*' :: rest =>
    match _h : commentEnd rest with
    | some (body, after) => .comment body :: blanking after
    | none => ('/' :: '*' :: rest).map .plain
  | c :: rest => .plain c :: blanking rest
  termination_by cs => cs.length
  decreasing_by
    · have := length_of_commentEnd _h
      simp only [List.length_cons]
      omega
    · simp

/-- The piece is a block comment or a single character. -/
def Piece.IsBlankable : Piece → Prop
  | plain _ | comment _ => True
  | _ => False

theorem source_plain (cs : List Char) : source (cs.map .plain) = cs := by
  induction cs with
  | nil => rfl
  | cons c cs ih => rw [List.map_cons, source_cons, ih, Piece.source, List.singleton_append]

theorem blanked_plain (cs : List Char) : blanked (cs.map .plain) = cs := by
  induction cs with
  | nil => rfl
  | cons c cs ih =>
      rw [List.map_cons, blanked_cons, ih, Piece.blanked, Piece.source, List.singleton_append]
      all_goals simp

theorem source_append (ps qs : List Piece) : source (ps ++ qs) = source ps ++ source qs :=
  List.flatMap_append

/-- The pieces put together again are the text. -/
theorem source_blanking (cs : List Char) : source (blanking cs) = cs := by
  fun_induction blanking cs with
  | case1 => rfl
  | case2 rest body after h ih =>
      rw [source_cons, ih, Piece.source, commentEnd_eq_append h]
      simp
  | case3 rest h => exact source_plain _
  | case4 c rest _ ih => rw [source_cons, ih, Piece.source, List.singleton_append]

/-- With the block comments blanked they are the blanked text. -/
theorem blanked_blanking (cs : List Char) : blanked (blanking cs) = blank cs := by
  fun_induction blanking cs with
  | case1 => simp [blanked]
  | case2 rest body after h ih =>
      rw [blanked_cons, ih, Piece.blanked, blank]
      split <;> simp_all
  | case3 rest h => rw [blanked_plain, blank_open h]
  | case4 c rest hnot ih =>
      rw [blanked_cons, ih, blank.eq_3 c rest hnot]
      rfl

theorem isBlankable_of_mem_blanking {cs : List Char} : ∀ p ∈ blanking cs, p.IsBlankable := by
  fun_induction blanking cs with
  | case1 => simp
  | case2 rest body after h ih => exact List.forall_mem_cons.mpr ⟨trivial, ih⟩
  | case3 rest h =>
      intro p hp
      obtain ⟨c, -, rfl⟩ := List.mem_map.mp hp
      trivial
  | case4 c rest _ ih => exact List.forall_mem_cons.mpr ⟨trivial, ih⟩

/-- Blanking keeps every line feed. -/
theorem count_source (ps : List Piece) : (source ps).count '\n' = (blanked ps).count '\n' := by
  induction ps with
  | nil => rfl
  | cons p ps ih =>
      rw [source_cons, blanked_cons, List.count_append, List.count_append, ih]
      cases p with
      | comment body => simp [Piece.source, Piece.blanked, lineFeeds, List.count_filter]
      | _ => rfl

/-- A character that is no line feed is left of itself only. -/
theorem exists_plain_of_blanked {ps : List Piece} (hps : ∀ p ∈ ps, p.IsBlankable) {c : Char}
    (hc : c ≠ '\n') {before after : List Char} (h : blanked ps = before ++ c :: after) :
    ∃ qs rs, ps = qs ++ .plain c :: rs ∧ blanked qs = before ∧ blanked rs = after := by
  induction ps generalizing before with
  | nil => exact absurd h (by simp [blanked])
  | cons p ps ih =>
      obtain ⟨hp, htail⟩ := List.forall_mem_cons.mp hps
      rw [blanked_cons] at h
      cases p with
      | plain d =>
          cases before with
          | nil =>
              obtain ⟨rfl, rfl⟩ := List.cons.inj h
              exact ⟨[], ps, rfl, rfl, rfl⟩
          | cons e before =>
              obtain ⟨rfl, hrest⟩ := List.cons.inj h
              obtain ⟨qs, rs, rfl, rfl, rfl⟩ := ih htail hrest
              exact ⟨.plain d :: qs, rs, rfl, rfl, rfl⟩
      | comment body =>
          -- the character is none of the line feeds of the comment
          have hfeed : ∀ d ∈ (Piece.comment body).blanked, d = '\n' := by
            simp [Piece.blanked, lineFeeds]
          rcases List.append_eq_append_iff.mp h with ⟨more, rfl, hrest⟩ | ⟨more, hfeeds, hrest⟩
          · obtain ⟨qs, rs, rfl, rfl, rfl⟩ := ih htail hrest
            exact ⟨.comment body :: qs, rs, rfl, rfl, rfl⟩
          · cases more with
            | nil =>
                obtain ⟨qs, rs, rfl, hqs, rfl⟩ := @ih htail [] hrest.symm
                exact ⟨.comment body :: qs, rs, rfl, by simpa [hqs] using hfeeds, rfl⟩
            | cons d more =>
                obtain ⟨rfl, -⟩ := List.cons.inj hrest
                exact absurd (hfeed c (by rw [hfeeds]; simp)) hc
      | literal text => exact hp.elim
      | lineComment text => exact hp.elim
      | openComment rest => exact hp.elim

theorem ReturnsPaired.of_append {cs ds : List Char} (h : ReturnsPaired (cs ++ ds)) :
    ReturnsPaired ds := by
  induction cs with
  | nil => exact h
  | cons c cs ih => exact ih h.2

theorem returnsPaired_append {cs ds : List Char} (h : '\r' ∉ cs) (hds : ReturnsPaired ds) :
    ReturnsPaired (cs ++ ds) := by
  induction cs with
  | nil => exact hds
  | cons c cs ih =>
      rw [List.mem_cons, not_or] at h
      exact ⟨fun hc => absurd hc.symm h.1, ih h.2⟩

/-- Blanking takes no carriage return from its line feed. -/
theorem returnsPaired_blank {cs : List Char} (h : ReturnsPaired cs) : ReturnsPaired (blank cs) := by
  fun_induction blank cs with
  | case1 => trivial
  | case2 rest body after hend ih =>
      refine returnsPaired_append (by simp [lineFeeds]) (ih ?_)
      rw [commentEnd_eq_append hend] at h
      exact h.2.2.of_append.2.2
  | case3 rest hend => exact h
  | case4 c rest hnot ih =>
      refine ⟨fun hc => ?_, ih h.2⟩
      obtain ⟨tail, rfl⟩ := List.head?_eq_some_iff.mp (h.1 hc)
      rw [blank.eq_3 _ _ (by simp)]
      rfl

/-! ## Declarations in the text -/

/-- The word that the declaration starts with. -/
def Declaration.keyword : Declaration → List Char
  | .method _ _ _ _ | .function _ _ => funcWord
  | .type _ _ => typeWord

/-- The declaration starts behind the pieces `before`.  Of what is left of the text after blanking
it takes one line, with nothing but blanks and tabulations in front of it. -/
structure DeclaredAt (d : Declaration) (before after : List Piece) : Prop where
  exists_line : ∃ above indentation declaration below,
    blanked before = above ++ indentation ∧ blanked after = declaration ++ below ∧
      IsLineBetween above (indentation ++ declaration) below ∧ IsIndent indentation ∧
      d.keyword <+: declaration ∧ Declares (indentation ++ declaration) d
  /-- No comment stands right before the declaration inside `after`. -/
  head_plain : ∃ c rest, after = .plain c :: rest

theorem exists_keyword_of_declares {line : List Char} {d : Declaration} (h : Declares line d) :
    ∃ indentation declaration, line = indentation ++ declaration ∧ IsIndent indentation ∧
      d.keyword <+: declaration := by
  cases d <;>
  · obtain ⟨indentation, _, hline, hindent, _, rest, rfl, rfl, -⟩ := h
    exact ⟨indentation, _, hline, hindent, List.prefix_append _ _⟩

/-- A line of the blanked text that declares something is where the text declares it. -/
theorem exists_declaredAt {cs line : List Char} {n : Nat} {d : Declaration}
    (hpaired : ReturnsPaired cs) (hline : (lines (blank cs))[n]? = some line)
    (hd : Declares line d) :
    ∃ before after, blanking cs = before ++ after ∧ DeclaredAt d before after ∧
      n = (source before).count '\n' + (blanked before).countP isOtherEnd := by
  obtain ⟨above, below, hblank, hbetween, hn, -⟩ :=
    isLine_of_getElem? (returnsPaired_blank hpaired) hline
  obtain ⟨indentation, declaration, rfl, hindent, hkeyword⟩ := exists_keyword_of_declares hd
  obtain ⟨c, rest, hcons, hc⟩ : ∃ c rest, declaration = c :: rest ∧ c ≠ '\n' := by
    obtain ⟨rest, rfl⟩ := hkeyword
    cases d <;> exact ⟨_, _, rfl, by decide⟩
  have hsplit : blanked (blanking cs) = (above ++ indentation) ++ c :: (rest ++ below) := by
    rw [blanked_blanking, hblank, hcons]
    simp
  obtain ⟨before, after, hpieces, hbefore, hafter⟩ :=
    exists_plain_of_blanked isBlankable_of_mem_blanking hc hsplit
  refine ⟨before, .plain c :: after, hpieces, ⟨⟨above, indentation, declaration, below, hbefore, ?_,
    hbetween, hindent, hkeyword, hd⟩, c, after, rfl⟩, ?_⟩
  · rw [blanked_cons, hafter, hcons]
    rfl
  · -- no line ends in the indentation
    have hinside : lineEnds indentation = 0 :=
      lineEnds_of_inside fun e he => hbetween.inside e (List.mem_append_left _ he)
    rw [count_source, ← lineEnds, hbefore, lineEnds_append, hinside, hn, Nat.add_zero]

/-- Every reported symbol stands for a declaration of the text.  The line it is reported on is the
number of line feeds before that declaration and of the other ends of lines that stand before it
outside of comments, so it is the line on which an editor shows the declaration exactly if there are
no such others. -/
theorem startLine_eq_count_iff {path text : String} {ss : List Symbol} {p : SymbolPlace}
    (hpaired : ReturnsPaired text.toList) (h : symbols path text = .ok ss)
    (hp : p ∈ Symbol.placesOfList [] ss) :
    ∃ before after d, blanking text.toList = before ++ after ∧
      text.toList = source before ++ source after ∧ DeclaredAt d before after ∧
      Shows d p.symbol ∧
      p.symbol.range.startLine =
        (source before).count '\n' + (blanked before).countP isOtherEnd ∧
      (p.symbol.range.startLine = (source before).count '\n' ↔
        ∀ c ∈ blanked before, isOtherEnd c = false) := by
  obtain rfl := symbols_eq_outline h
  obtain ⟨f, hf, hsymbol⟩ := exists_found_of_mem_places hp
  obtain ⟨n, line, hline, hd, hrange⟩ := mem_found_iff.mp hf
  obtain ⟨before, after, hpieces, hat, hn⟩ := exists_declaredAt hpaired hline hd
  have hstart : p.symbol.range.startLine = n := by
    rw [hsymbol, range_symbol, hrange, startLine_declarationRange]
  refine ⟨before, after, f.declaration, hpieces, ?_, hat, hsymbol ▸ shows_symbol _ f, ?_, ?_⟩
  · rw [← source_append, ← hpieces, source_blanking]
  · rw [hstart, hn, Int.natCast_add]
  · have hnone : (∀ c ∈ blanked before, isOtherEnd c = false) ↔
        (blanked before).countP isOtherEnd = 0 := by
      simp only [List.countP_eq_zero, Bool.not_eq_true]
    rw [hnone, hstart, hn]
    omega

/-- A file with a line separator in a string above its test. -/
def separated : String :=
  "package p\n\nvar sep = \"\u2028\"\n\nfunc TestA(t *testing.T) \x7b\x7d"

/-- The test stands behind four line feeds and is reported on the line after that. -/
theorem not_startLine_eq_count :
    ReturnsPaired separated.toList ∧
      (∃ before, separated.toList = before ++ "func TestA(t *testing.T) \x7b\x7d".toList ∧
        before.count '\n' = 4) ∧
      symbols "/p/a_test.go" separated =
        .ok [.node "TestA" .function ⟨5, 0, 5, 27⟩ "(t *testing.T)" []] := by
  have hbefore : separated.toList =
      "package p\n\nvar sep = \"\u2028\"\n\n".toList ++
        "func TestA(t *testing.T) \x7b\x7d".toList := by
    decide +kernel
  exact ⟨by decide +kernel, ⟨_, hbefore, by decide +kernel⟩, by decide +kernel⟩

/-- Of two line separators the one in the block comment does not count, and neither do the carriage
returns. -/
theorem startLine_eq_count_iff_separators :
    let text := "package p\r\n/* \u2028\n */\r\n// \u2028\r\n" ++
      "type S struct \x7b\x7d\nfunc (S) A() \x7b\x7d"
    let method := Symbol.node "(S).A" .method ⟨6, 0, 6, 15⟩ "()" []
    let type := Symbol.node "S" .struct ⟨5, 0, 5, 16⟩ "" [method]
    ReturnsPaired text.toList ∧ symbols "/p/a_test.go" text = .ok [type] ∧
      ⟨[type], method⟩ ∈ Symbol.placesOfList [] [type] ∧
      ∃ before after d, blanking text.toList = before ++ after ∧
        text.toList = source before ++ source after ∧ DeclaredAt d before after ∧
        Shows d method ∧
        method.range.startLine =
          (source before).count '\n' + (blanked before).countP isOtherEnd ∧
        (method.range.startLine = (source before).count '\n' ↔
          ∀ c ∈ blanked before, isOtherEnd c = false) := by
  intro text method type
  have hpaired : ReturnsPaired text.toList := by decide +kernel
  have hsymbols : symbols "/p/a_test.go" text = .ok [type] := by decide +kernel
  have hplace : ⟨[type], method⟩ ∈ Symbol.placesOfList [] [type] := by
    simp [type, method, Symbol.placesOfList, Symbol.places]
  exact ⟨hpaired, hsymbols, hplace, startLine_eq_count_iff hpaired hsymbols hplace⟩

end TestAtlas.Outline
