import TestAtlas.Outline.Scan
import TestAtlas.Proofs.Outline.Lexical

/-!
# The comments that are blanked are those of Go

`blank` and `hasOpenComment` look for the markers of block comments without reading literals, and
`blank` without reading line comments.  So a `/*` that is no marker does harm if a `*/` follows
anywhere later, or if the line does not hide it: a string or a line comment with a file pattern is
enough (`not_comments_agree`).  Where no such marker stands, both agree with the lexical rules
(`comments_agree`).  The search for an open comment, which goes line by line, is first shown to be
one pass over the text (`hasOpenComment_eq`).
-/

namespace TestAtlas.Outline

open Text

/-! ### Blanking -/

theorem commentEnd_of_append (cs : List Char) {ds : List Char}
    (h : commentEnd (cs ++ ds) = none) : commentEnd ds = none := by
  induction cs with
  | nil => exact h
  | cons c cs ih =>
      rw [List.cons_append] at h
      unfold commentEnd at h
      split at h
      · exact ih (by simp_all)
      · exact absurd h (by simp)
      · rename_i heq
        obtain ⟨rfl, rfl⟩ := List.cons.inj heq
        exact ih (Option.map_eq_none_iff.mp h)

/-- Where no comment can be closed, nothing is blanked. -/
theorem blank_of_commentEnd {cs : List Char} (h : commentEnd cs = none) : blank cs = cs := by
  fun_induction blank cs with
  | case1 => rfl
  | case2 rest body after hend _ =>
      have hrest : commentEnd rest = none := commentEnd_of_append ['/', '*'] h
      rw [hrest] at hend
      exact absurd hend (by simp)
  | case3 => rfl
  | case4 c rest _ ih => rw [ih (commentEnd_of_append [c] h)]

/-- A comment that is never closed is not touched. -/
theorem blank_open {rest : List Char} (h : commentEnd rest = none) :
    blank ('/' :: '*' :: rest) = '/' :: '*' :: rest := by
  rw [blank]
  split
  · rename_i hend
    rw [h] at hend
    exact absurd hend (by simp)
  · rfl

/-- A character that starts no comment is kept. -/
theorem blank_cons {c : Char} {cs : List Char} (h : c = '/' → cs.head? ≠ some '*') :
    blank (c :: cs) = c :: blank cs :=
  blank.eq_3 c cs (fun rest hc hcs => h hc (by rw [hcs]; rfl))

/-- No `/*` of a text is ever closed, `after` being what follows the text. -/
def Unclosed : List Char → List Char → Prop
  | [], _ => True
  | c :: text, after =>
    (c = '/' ∧ text.head? = some '*' → commentEnd (text.tail ++ after) = none) ∧
      Unclosed text after

instance decidableUnclosed : ∀ text after, Decidable (Unclosed text after)
  | [], _ => isTrue trivial
  | c :: text, after =>
    have := decidableUnclosed text after
    inferInstanceAs (Decidable ((c = '/' ∧ text.head? = some '*' →
      commentEnd (text.tail ++ after) = none) ∧ Unclosed text after))

/-- A text whose markers are never closed is left as it is, and what follows it is blanked by
itself. -/
theorem blank_append {text after : List Char} (h : Unclosed text after)
    (hapart : EndsApart text after) : blank (text ++ after) = text ++ blank after := by
  induction text with
  | nil => rfl
  | cons c text ih =>
      have ih := ih h.2 hapart.tail
      by_cases hmark : c = '/' ∧ (text ++ after).head? = some '*'
      · obtain ⟨rfl, hhead⟩ := hmark
        cases text with
        | nil => exact absurd hhead (hapart rfl).1
        | cons d text =>
            obtain rfl : d = '*' := by simpa using hhead
            -- this marker is never closed, so nothing behind it is blanked either
            have hend : commentEnd (text ++ after) = none := h.1 ⟨rfl, rfl⟩
            rw [blank_of_commentEnd (commentEnd_of_append text hend)]
            exact blank_open hend
      · rw [List.cons_append, blank_cons (fun hc hhead => hmark ⟨hc, hhead⟩), ih, List.cons_append]

/-- No literal and no line comment has a `/*` that some later `*/` closes. -/
def MarkersUnclosed : List Piece → Prop
  | [] => True
  | p :: ps => (p.isInert = true → Unclosed p.source (source ps)) ∧ MarkersUnclosed ps

instance decidableMarkersUnclosed : ∀ pieces, Decidable (MarkersUnclosed pieces)
  | [] => isTrue trivial
  | p :: ps =>
    have := decidableMarkersUnclosed ps
    inferInstanceAs (Decidable ((p.isInert = true → Unclosed p.source (source ps)) ∧
      MarkersUnclosed ps))

theorem MarkersUnclosed.head {p : Piece} {cs : List Char} (h : MarkersUnclosed (p :: reading cs))
    (hp : p.isInert = true) : Unclosed p.source cs := by
  have hsource := h.1 hp
  rwa [source_reading] at hsource

/-- Then blanking finds the block comments of the text and nothing else. -/
theorem blank_eq_blanked {cs : List Char} (h : MarkersUnclosed (reading cs)) :
    blank cs = blanked (reading cs) := by
  fun_induction reading cs with
  | case1 => exact blank_nil
  | case2 cs ih =>
      rw [blanked_cons, ← ih h.2]
      have happend := blank_append (h.head rfl) ((atLineFeed_fromLineFeed cs).endsApart _)
      rwa [Piece.source, List.cons_append, List.cons_append, restOfLine_append] at happend
  | case3 cs body after hend ih =>
      rw [blanked_cons, ← ih h.2, blank.eq_2, hend]
      rfl
  | case4 cs hend =>
      rw [blank_open hend]
      simp [blanked, Piece.blanked, Piece.source]
  | case5 c cs _ _ hc ih =>
      rw [blanked_cons, ← ih h.2]
      have happend := blank_append (h.head rfl) (endsApart_literal hc cs)
      rwa [Piece.source, List.cons_append, afterQuote_append] at happend
  | case6 c cs hline hblock hc ih =>
      rw [blanked_cons, ← ih h.2]
      exact blank_cons fun hslash => (endsApart_plain hline hblock (by rw [hslash]; rfl)).1

/-! ### Comments that are never closed -/

/-- A `/*` stands in the text before any `//` of its line; `hidden` tells that the first line has a
`//` further in front. -/
def showsOpen : Bool → List Char → Bool
  | _, [] => false
  | hidden, c :: cs =>
    if isLineEnd c then showsOpen false cs
    else if hidden then showsOpen true cs
    else if c = '/' ∧ cs.head? = some '/' then showsOpen true cs
    else if c = '/' ∧ cs.head? = some '*' then true
    else showsOpen false cs

/-- One line shows a `/*` before any `//`. -/
def lineShowsOpen (line : List Char) : Bool := occursIn ['/', '*'] (beforeLineComment line)

theorem occursIn_cons (d c : Char) (cs : List Char) :
    occursIn ['/', d] (c :: cs) =
      (decide (c = '/' ∧ cs.head? = some d) || occursIn ['/', d] cs) := by
  rw [occursIn]
  cases cs with
  | nil => simp [List.isPrefixOf]
  | cons e cs => simp [List.isPrefixOf, Bool.beq_eq_decide_eq, eq_comm]

theorem head?_beforeLineComment (line : List Char) :
    (beforeLineComment line).head? = some '*' ↔ line.head? = some '*' := by
  fun_cases beforeLineComment line <;> simp

theorem lineShowsOpen_cons (c : Char) (line : List Char) :
    lineShowsOpen (c :: line) =
      if c = '/' ∧ line.head? = some '/' then false
      else if c = '/' ∧ line.head? = some '*' then true
      else lineShowsOpen line := by
  unfold lineShowsOpen
  split
  · rename_i hhide
    obtain ⟨rfl, hhead⟩ := hhide
    obtain ⟨rest, rfl⟩ := List.head?_eq_some_iff.mp hhead
    rfl
  · rename_i hhide
    have hnot : ∀ rest, c = '/' → line = '/' :: rest → False :=
      fun rest hc hline => hhide ⟨hc, by rw [hline]; rfl⟩
    rw [beforeLineComment.eq_3 c line hnot, occursIn_cons]
    simp only [head?_beforeLineComment]
    split
    · rename_i hmark
      rw [decide_eq_true hmark, Bool.true_or]
    · rename_i hmark
      rw [decide_eq_false hmark, Bool.false_or]

theorem occursIn_append_lineFeed (cs ds : List Char) :
    occursIn ['/', '*'] (cs ++ '\n' :: ds) = (occursIn ['/', '*'] cs || occursIn ['/', '*'] ds) := by
  induction cs with
  | nil =>
      rw [List.nil_append, occursIn_cons]
      simp [occursIn]
  | cons c cs ih =>
      have hhead : (cs ++ '\n' :: ds).head? = some '*' ↔ cs.head? = some '*' := by
        cases cs <;> simp
      rw [List.cons_append, occursIn_cons, occursIn_cons, ih, Bool.or_assoc]
      simp only [hhead]

/-- A marker stands in one line or in none. -/
theorem occursIn_join (ls : List (List Char)) :
    occursIn ['/', '*'] (join ['\n'] ls) = ls.any (occursIn ['/', '*']) := by
  fun_induction join ['\n'] ls with
  | case1 => rfl
  | case2 line => simp
  | case3 line ls _ ih =>
      rw [List.append_assoc, List.singleton_append, occursIn_append_lineFeed, ih, List.any_cons]

/-- A character that ends no line starts the text exactly if it starts the first line. -/
theorem head?_firstLine {d : Char} (hd : isLineEnd d = false) (cs : List Char) :
    ((lines cs).headD []).head? = some d ↔ cs.head? = some d := by
  fun_cases lines cs with
  | case1 => simp
  | case2 cs =>
      have : '\r' ≠ d := fun h => absurd (h ▸ hd) (by decide)
      simp [this]
  | case3 c cs _ hc =>
      have : c ≠ d := fun h => absurd (h ▸ hd) (by simp [hc])
      simp [this]
  | case4 c cs _ hc => cases lines cs <;> simp [ontoFirst]

theorem any_ontoFirst (f : List Char → Bool) (c : Char) (ls : List (List Char)) :
    (ontoFirst c ls).any f = (f (c :: ls.headD []) || (ls.drop 1).any f) := by
  cases ls <;> simp [ontoFirst]

theorem any_lines (ls : List (List Char)) :
    ls.any lineShowsOpen = (lineShowsOpen (ls.headD []) || (ls.drop 1).any lineShowsOpen) := by
  cases ls with
  | nil => rfl
  | cons line ls => simp

/-- The search line by line is one pass over the text. -/
theorem any_lineShowsOpen (cs : List Char) :
    (lines cs).any lineShowsOpen = showsOpen false cs ∧
      ((lines cs).drop 1).any lineShowsOpen = showsOpen true cs := by
  fun_induction lines cs with
  | case1 => exact ⟨rfl, rfl⟩
  | case2 cs ih =>
      have hr : isLineEnd '\r' = true := by decide
      have hn : isLineEnd '\n' = true := by decide
      simp only [showsOpen, hr, hn, if_true]
      exact ⟨ih.1, ih.1⟩
  | case3 c cs _ hc ih =>
      simp only [showsOpen, hc, if_true]
      exact ⟨ih.1, ih.1⟩
  | case4 c cs _ hc ih =>
      have hhide := head?_firstLine (d := '/') (by decide) cs
      have hmark := head?_firstLine (d := '*') (by decide) cs
      have hdrop : (ontoFirst c (lines cs)).drop 1 = (lines cs).drop 1 := by
        cases lines cs <;> rfl
      obtain ⟨hall, hrest⟩ := ih
      rw [any_lines, hrest] at hall
      rw [hdrop, any_ontoFirst, lineShowsOpen_cons, hrest, showsOpen, showsOpen]
      simp only [hc, hhide, hmark, if_true, Bool.false_eq_true, if_false, and_true]
      split
      · rw [Bool.false_or]
      · split
        · rw [Bool.true_or]
        · exact hall

theorem hasOpenComment_eq (cs : List Char) : hasOpenComment cs = showsOpen false cs := by
  rw [hasOpenComment, occursIn_join, List.any_map]
  exact (any_lineShowsOpen cs).1

/-- No `/*` of a line comment stands behind a character of it that ends a line. -/
def IsOneLine : List Char → Prop
  | [] => True
  | c :: text => (isLineEnd c = true → occursIn ['/', '*'] text = false) ∧ IsOneLine text

instance decidableIsOneLine : ∀ text, Decidable (IsOneLine text)
  | [] => isTrue trivial
  | c :: text =>
    have := decidableIsOneLine text
    inferInstanceAs (Decidable ((isLineEnd c = true → occursIn ['/', '*'] text = false) ∧
      IsOneLine text))

/-- The search for an open comment does not take a marker in the piece for one: a literal has no
`/*`, and a line comment has them on its first line only. -/
def Piece.IsUnseen : Piece → Prop
  | literal text => occursIn ['/', '*'] text = false
  | lineComment text => IsOneLine text
  | _ => True

instance : ∀ p : Piece, Decidable p.IsUnseen
  | .literal text => inferInstanceAs (Decidable (occursIn ['/', '*'] text = false))
  | .lineComment text => inferInstanceAs (Decidable (IsOneLine text))
  | .plain _ | .comment _ | .openComment _ => isTrue trivial

/-- The last line of a text, empty after the end of a line. -/
def lastLine : List Char → List Char
  | [] => []
  | c :: cs => if isLineEnd c || cs.any isLineEnd then lastLine cs else c :: cs

/-- The search for an open comment is not misled: no marker in a literal or a line comment is seen,
and no `//` stands before the open comment in its line. -/
structure MarkersUnseen (pieces : List Piece) : Prop where
  inert : ∀ p ∈ pieces, p.IsUnseen
  opened : HasOpen pieces →
    occursIn ['/', '/'] (lastLine (blanked pieces.dropLast ++ ['/', '*'])) = false

instance (pieces : List Piece) : Decidable (MarkersUnseen pieces) :=
  decidable_of_iff ((∀ p ∈ pieces, p.IsUnseen) ∧ (HasOpen pieces →
      occursIn ['/', '/'] (lastLine (blanked pieces.dropLast ++ ['/', '*'])) = false))
    ⟨fun h => ⟨h.1, h.2⟩, fun h => ⟨h.inert, h.opened⟩⟩

/-- Text without a marker shows none. -/
theorem showsOpen_append {text after : List Char} (hnone : occursIn ['/', '*'] text = false)
    (hapart : EndsApart text after) (hafter : ∀ hidden, showsOpen hidden after = false)
    (hidden : Bool) : showsOpen hidden (text ++ after) = false := by
  induction text generalizing hidden with
  | nil => exact hafter hidden
  | cons c text ih =>
      rw [occursIn_cons, Bool.or_eq_false_iff, decide_eq_false_iff_not] at hnone
      have ih := ih hnone.2 hapart.tail
      have hmark : ¬ (c = '/' ∧ (text ++ after).head? = some '*') := by
        rintro ⟨rfl, hhead⟩
        cases text with
        | nil => exact (hapart rfl).1 hhead
        | cons d text => exact hnone.1 ⟨rfl, hhead⟩
      rw [List.cons_append, showsOpen, ih, ih, if_neg hmark]
      simp

/-- Behind a `//` a marker shows only on a later line. -/
theorem showsOpen_hidden_append {text after : List Char}
    (hnone : IsOneLine text) (hapart : EndsApart text after)
    (hafter : ∀ hidden, showsOpen hidden after = false) : showsOpen true (text ++ after) = false := by
  induction text with
  | nil => exact hafter true
  | cons c text ih =>
      rw [List.cons_append, showsOpen]
      split
      · rename_i hc
        exact showsOpen_append (hnone.1 hc) hapart.tail hafter false
      · exact ih hnone.2 hapart.tail

/-- If the last line has no `//`, then neither has that of the text without its first character. -/
theorem occursIn_lastLine {c : Char} {cs : List Char}
    (h : occursIn ['/', '/'] (lastLine (c :: cs)) = false) :
    occursIn ['/', '/'] (lastLine cs) = false := by
  rw [lastLine] at h
  split at h
  · exact h
  · rename_i hends
    rw [Bool.or_eq_true, not_or] at hends
    have hcs : lastLine cs = cs := by
      cases cs with
      | nil => rfl
      | cons d cs => rw [lastLine, if_neg (by simpa using hends.2)]
    rw [occursIn_cons, Bool.or_eq_false_iff] at h
    rw [hcs]
    exact h.2

/-- A marker with no `//` before it on its line shows. -/
theorem showsOpen_of_lastLine {before : List Char} (rest : List Char) (hidden : Bool)
    (h : occursIn ['/', '/'] (lastLine (before ++ ['/', '*'])) = false)
    (hhidden : hidden = true → before.any isLineEnd = true) :
    showsOpen hidden (before ++ '/' :: '*' :: rest) = true := by
  induction before generalizing hidden with
  | nil =>
      cases hidden with
      | true => exact absurd (hhidden rfl) (by simp)
      | false => rfl
  | cons c before ih =>
      have ih := fun hidden => ih hidden (occursIn_lastLine h)
      rw [List.cons_append, showsOpen]
      split
      · exact ih false (by simp)
      · rename_i hc
        split
        · rename_i hhid
          have hends := hhidden hhid
          rw [List.any_cons, Bool.eq_false_iff.mpr hc, Bool.false_or] at hends
          exact ih true fun _ => hends
        · split
          · rename_i hslash
            obtain ⟨rfl, hhead⟩ := hslash
            refine ih true fun _ => ?_
            cases hends : before.any isLineEnd with
            | true => rfl
            | false =>
                -- then the two slashes stand on the line of the marker
                have hhead' : (before ++ ['/', '*']).head? = some '/' := by
                  cases before with
                  | nil => rfl
                  | cons d before => exact hhead
                have hends' : (before ++ ['/', '*']).any isLineEnd = false := by
                  rw [List.any_append, hends]
                  decide
                rw [List.cons_append, lastLine, hends', Bool.eq_false_iff.mpr hc,
                  if_neg (by simp), occursIn_cons, decide_eq_true ⟨rfl, hhead'⟩] at h
                exact absurd h (by simp)
          · split
            · rfl
            · exact ih false (by simp)

theorem endsApart_lineFeeds (cs after : List Char) : EndsApart (lineFeeds cs) after := by
  intro hlast
  have hmem := List.mem_of_getLast? hlast
  exact absurd (List.mem_filter.mp hmem).2 (by decide)

theorem occursIn_lineFeeds (cs : List Char) : occursIn ['/', '*'] (lineFeeds cs) = false := by
  unfold lineFeeds
  induction cs with
  | nil => rfl
  | cons c cs ih =>
      rw [List.filter_cons]
      split
      · rename_i hc
        obtain rfl : c = '\n' := by simpa using hc
        rw [occursIn_cons, ih]
        simp
      · exact ih

/-- Where no comment is left open the search finds none. -/
theorem showsOpen_blanked {cs : List Char} (hnone : ¬ HasOpen (reading cs))
    (h : ∀ p ∈ reading cs, p.IsUnseen) (hidden : Bool) :
    showsOpen hidden (blanked (reading cs)) = false := by
  fun_induction reading cs generalizing hidden with
  | case1 => rfl
  | case2 cs ih =>
      obtain ⟨honeLine, hps⟩ := List.forall_mem_cons.mp h
      have hapart := ((atLineFeed_fromLineFeed cs).endsApart ('/' :: restOfLine cs)).blanked_reading
      have hrest := showsOpen_hidden_append honeLine.2 hapart
        (ih (fun ho => hnone ho.of_cons) hps)
      have hc : isLineEnd '/' = false := by decide
      -- the two slashes hide what follows them on the line
      change showsOpen hidden ('/' :: ('/' :: restOfLine cs ++ blanked _)) = false
      rw [showsOpen, hrest]
      simp [hc]
  | case3 cs body after hend ih =>
      exact showsOpen_append (occursIn_lineFeeds body) (endsApart_lineFeeds body _)
        (ih (fun ho => hnone ho.of_cons) (List.forall_mem_cons.mp h).2) hidden
  | case4 cs hend => exact absurd ⟨_, List.mem_singleton.mpr rfl, rfl⟩ hnone
  | case5 c cs _ _ hc ih =>
      obtain ⟨hliteral, hps⟩ := List.forall_mem_cons.mp h
      exact showsOpen_append hliteral (endsApart_literal hc cs).blanked_reading
        (ih (fun ho => hnone ho.of_cons) hps) hidden
  | case6 c cs hline hblock hc ih =>
      exact showsOpen_append (by simp [occursIn, List.isPrefixOf])
        (endsApart_plain hline hblock).blanked_reading
        (ih (fun ho => hnone ho.of_cons) (List.forall_mem_cons.mp h).2) hidden

/-- With markers that are not seen the search finds exactly the comments left open. -/
theorem hasOpenComment_blanked {cs : List Char} (h : MarkersUnseen (reading cs)) :
    hasOpenComment (blanked (reading cs)) = true ↔ HasOpen (reading cs) := by
  rw [hasOpenComment_eq]
  constructor
  · intro hshows
    refine Classical.byContradiction fun hnone => ?_
    rw [showsOpen_blanked hnone h.inert false] at hshows
    exact absurd hshows (by simp)
  · intro hopen
    obtain ⟨rest, hreading⟩ := hopen.reading_eq
    have hshows := showsOpen_of_lastLine rest false (h.opened hopen) (by simp)
    rw [hreading]
    simpa [blanked, Piece.blanked, Piece.source] using hshows

theorem symbols_eq_openComment_iff (path text : String) :
    symbols path text = .error .openComment ↔ hasOpenComment (blank text.toList) = true := by
  unfold symbols
  simp only
  split
  · rename_i h
    simp [h]
  · rename_i h
    split <;> simp [h]

/-- Where no marker in a literal or a line comment is ever closed, declarations are searched in the
text with exactly its block comments blanked; a text without block comments is searched as it is.
Where these markers are not seen either, the scan refuses the text for an open comment exactly if it
has one. -/
theorem comments_agree (text : String) (h : MarkersUnclosed (reading text.toList)) :
    blank text.toList = blanked (reading text.toList) ∧
      ((∀ p ∈ reading text.toList, p.isComment = false) → blank text.toList = text.toList) ∧
      (MarkersUnseen (reading text.toList) → ∀ path,
        (symbols path text = .error .openComment ↔ HasOpen (reading text.toList))) := by
  have hblank := blank_eq_blanked h
  refine ⟨hblank, fun hnone => ?_, fun hunseen path => ?_⟩
  · rw [hblank, blanked_eq_source hnone, source_reading]
  · rw [symbols_eq_openComment_iff, hblank]
    exact hasOpenComment_blanked hunseen

/-- A file with two tests, each below a line comment that names files with a `*`. -/
def globComments : String :=
  "package p\n\n// inputs: testdata/*.txt\nfunc TestInputs(t *testing.T) \x7b\x7d\n\n" ++
    "// outputs: testdata/*/out.txt\nfunc TestOutputs(t *testing.T) \x7b\x7d\n"

/-- A file with one test and a string that names files with a `*`. -/
def globLiteral : String :=
  "package p\n\nvar inputs = \"testdata/*.txt\"\n\nfunc TestInputs(t *testing.T) \x7b\x7d\n"

/-- Neither file has a block comment.  Of the two tests of the first one the scan finds the second
only, and it refuses the second file for an open comment. -/
theorem not_comments_agree :
    ((∀ p ∈ reading globComments.toList, p.isComment = false) ∧
      (foundFrom 0 (lines globComments.toList)).length = 2 ∧
      blank globComments.toList ≠ blanked (reading globComments.toList) ∧
      symbols "/p/a_test.go" globComments =
        .ok [.node "TestOutputs" .function ⟨6, 0, 6, 33⟩ "(t *testing.T)" []]) ∧
    ((∀ p ∈ reading globLiteral.toList, p.isComment = false) ∧
      ¬ HasOpen (reading globLiteral.toList) ∧
      symbols "/p/a_test.go" globLiteral = .error .openComment) := by
  have hcomments : (∀ p ∈ reading globComments.toList, p.isComment = false) ∧
      (foundFrom 0 (lines globComments.toList)).length = 2 ∧
      blank globComments.toList ≠ blanked (reading globComments.toList) := by
    decide +kernel
  have hliteral : (∀ p ∈ reading globLiteral.toList, p.isComment = false) ∧
      ¬ HasOpen (reading globLiteral.toList) ∧
      hasOpenComment (blank globLiteral.toList) = true := by
    decide +kernel
  obtain ⟨hnone, htwo, hblank⟩ := hcomments
  obtain ⟨hnone', hopen, hfound⟩ := hliteral
  exact ⟨⟨hnone, htwo, hblank, by decide +kernel⟩, hnone', hopen,
    (symbols_eq_openComment_iff _ _).mpr hfound⟩

/-- A file with a `//` in a string and a `/*` in a line comment, and with a block comment that is
left open at the end. -/
theorem comments_agree_leftOpen :
    let text := "package p\n\n/* a \"b */ var u = \"http://x\" // see a/*.go\n\n" ++
      "func TestA(t *testing.T) \x7b\x7d\n/* later"
    MarkersUnclosed (reading text.toList) ∧ MarkersUnseen (reading text.toList) ∧
      blank text.toList = blanked (reading text.toList) ∧
      symbols "/p/a_test.go" text = .error .openComment := by
  intro text
  obtain ⟨hunclosed, hunseen, hopen⟩ : MarkersUnclosed (reading text.toList) ∧
      MarkersUnseen (reading text.toList) ∧ HasOpen (reading text.toList) := by
    decide +kernel
  obtain ⟨hblank, -, herror⟩ := comments_agree text hunclosed
  exact ⟨hunclosed, hunseen, hblank, (herror hunseen "/p/a_test.go").mpr hopen⟩

end TestAtlas.Outline
