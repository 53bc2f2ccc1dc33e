import TestAtlas.Outline.Comment

/-!
# Comments and literals of a Go text

The reading of a source text by the lexical rules of Go, as far as comments go.  A text is read from
left to right into pieces: string and rune literals, line comments, block comments, and all other
characters one by one.  The markers of comments that stand inside another piece do not count.  The
pieces put together again are the text (`source_reading`).
-/

namespace TestAtlas.Outline

open Text

/-- The quote of raw string literals. -/
def rawQuote : Char := Char.ofNat 96

/-- A part of a text that Go reads as a whole. -/
inductive Piece where
  /-- A character that belongs to no literal and no comment. -/
  | plain (c : Char)
  /-- A string or rune literal with its quotes. -/
  | literal (text : List Char)
  /-- A comment up to the end of its line, with its slashes. -/
  | lineComment (text : List Char)
  /-- What stands between the markers of a block comment. -/
  | comment (body : List Char)
  /-- What follows the first marker of a block comment that is never closed. -/
  | openComment (rest : List Char)
  deriving DecidableEq, Repr

/-- What is left of a text in interpreted quotes, and what follows it.  A backslash takes the next
character with it.  A literal that is not closed on its line ends there. -/
def quoted (quote : Char) : List Char → List Char × List Char
  | [] => ([], [])
  | '\\' :: c :: cs =>
    if c = '\n' then (['\\'], c :: cs)
    else let (body, after) := quoted quote cs; ('\\' :: c :: body, after)
  | c :: cs =>
    if c = '\n' then ([], c :: cs)
    else if c = quote then ([c], cs)
    else let (body, after) := quoted quote cs; (c :: body, after)

/-- What is left of a text in raw quotes, and what follows it. -/
def rawQuoted : List Char → List Char × List Char
  | [] => ([], [])
  | c :: cs =>
    if c = rawQuote then ([c], cs)
    else let (body, after) := rawQuoted cs; (c :: body, after)

/-- What is left of a literal that starts with the given quote, and what follows it. -/
def afterQuote (quote : Char) (cs : List Char) : List Char × List Char :=
  if quote = rawQuote then rawQuoted cs else quoted quote cs

/-- The character starts a literal. -/
def isQuote (c : Char) : Bool := c == '"' || c == '\'' || c == rawQuote

theorem quoted_append (quote : Char) (cs : List Char) :
    (quoted quote cs).1 ++ (quoted quote cs).2 = cs := by
  fun_induction quoted quote cs <;> simp_all

theorem rawQuoted_append (cs : List Char) : (rawQuoted cs).1 ++ (rawQuoted cs).2 = cs := by
  fun_induction rawQuoted cs <;> simp_all

theorem afterQuote_append (quote : Char) (cs : List Char) :
    (afterQuote quote cs).1 ++ (afterQuote quote cs).2 = cs := by
  unfold afterQuote
  split
  · exact rawQuoted_append cs
  · exact quoted_append quote cs

theorem length_afterQuote (quote : Char) (cs : List Char) :
    (afterQuote quote cs).2.length ≤ cs.length := by
  have h := congrArg List.length (afterQuote_append quote cs)
  rw [List.length_append] at h
  omega

/-- The text up to the end of the line. -/
def restOfLine (cs : List Char) : List Char := cs.takeWhile (· != '\n')

/-- The text from the end of the line on. -/
def fromLineFeed (cs : List Char) : List Char := cs.dropWhile (· != '\n')

/-- The pieces of a text. -/
def reading : List Char → List Piece
  | [] => []
  | '/' :: '/' :: cs => .lineComment ('/' :: '/' :: restOfLine cs) :: reading (fromLineFeed cs)
  | '/' :: '*' :: cs =>
    match _h : commentEnd cs with
    | some (body, after) => .comment body :: reading after
    | none => [.openComment cs]
  | c :: cs =>
    if isQuote c then .literal (c :: (afterQuote c cs).1) :: reading (afterQuote c cs).2
    else .plain c :: reading cs
  termination_by cs => cs.length
  decreasing_by
    · have := (List.dropWhile_suffix (l := cs) (· != '\n')).length_le
      simp only [fromLineFeed, List.length_cons]
      omega
    · have := length_of_commentEnd _h
      simp only [List.length_cons]
      omega
    · have := length_afterQuote c cs
      simp only [List.length_cons]
      omega
    · simp

namespace Piece

/-- The part of the text that the piece is. -/
def source : Piece → List Char
  | plain c => [c]
  | literal text => text
  | lineComment text => text
  | comment body => '/' :: '*' :: (body ++ ['*', '/'])
  | openComment rest => '/' :: '*' :: rest

/-- The piece with only the line feeds left of a block comment. -/
def blanked : Piece → List Char
  | comment body => lineFeeds body
  | piece => piece.source

/-- The piece is a literal or a line comment, in which the markers of comments do not count. -/
def isInert : Piece → Bool
  | literal _ | lineComment _ => true
  | _ => false

/-- The piece is a block comment that is never closed. -/
def isOpen : Piece → Bool
  | openComment _ => true
  | _ => false

/-- The piece is a block comment, closed or not. -/
def isComment : Piece → Bool
  | comment _ | openComment _ => true
  | _ => false

end Piece

/-- The text of the pieces. -/
def source (pieces : List Piece) : List Char := pieces.flatMap Piece.source

/-- The text of the pieces with only the line feeds left of the block comments. -/
def blanked (pieces : List Piece) : List Char := pieces.flatMap Piece.blanked

/-- Some block comment is opened and never closed. -/
def HasOpen (pieces : List Piece) : Prop := ∃ p ∈ pieces, p.isOpen = true

instance (pieces : List Piece) : Decidable (HasOpen pieces) :=
  inferInstanceAs (Decidable (∃ p ∈ pieces, p.isOpen = true))

@[simp]
theorem source_cons (p : Piece) (ps : List Piece) : source (p :: ps) = p.source ++ source ps :=
  List.flatMap_cons

@[simp]
theorem blanked_cons (p : Piece) (ps : List Piece) : blanked (p :: ps) = p.blanked ++ blanked ps :=
  List.flatMap_cons

theorem commentEnd_eq_append {cs body after : List Char} (h : commentEnd cs = some (body, after)) :
    cs = body ++ '*' :: '/' :: after := by
  fun_induction commentEnd cs generalizing body with
  | case1 => exact absurd h (by simp)
  | case2 rest =>
      simp only [Option.some.injEq, Prod.mk.injEq] at h
      obtain ⟨rfl, rfl⟩ := h
      rfl
  | case3 c rest _ ih =>
      obtain ⟨⟨b, a⟩, hb, he⟩ := Option.map_eq_some_iff.mp h
      simp only [Prod.mk.injEq] at he
      obtain ⟨rfl, rfl⟩ := he
      rw [ih hb, List.cons_append]

theorem restOfLine_append (cs : List Char) : restOfLine cs ++ fromLineFeed cs = cs :=
  List.takeWhile_append_dropWhile

/-- Nothing of the text is lost in reading it. -/
theorem source_reading (cs : List Char) : source (reading cs) = cs := by
  fun_induction reading cs with
  | case1 => rfl
  | case2 cs ih =>
      rw [source_cons, ih, Piece.source, List.cons_append, List.cons_append, restOfLine_append]
  | case3 cs body after h ih =>
      rw [source_cons, ih, Piece.source, commentEnd_eq_append h]
      simp
  | case4 cs h => simp [source, Piece.source]
  | case5 c cs _ _ hc ih =>
      rw [source_cons, ih, Piece.source, List.cons_append, afterQuote_append]
  | case6 c cs _ _ hc ih => rw [source_cons, ih, Piece.source, List.singleton_append]

/-- A text without block comments is blanked to itself. -/
theorem blanked_eq_source {ps : List Piece} (h : ∀ p ∈ ps, p.isComment = false) :
    blanked ps = source ps := by
  refine congrArg List.flatten (List.map_congr_left fun p hp => ?_)
  cases p with
  | comment body => exact absurd (h _ hp) (by simp [Piece.isComment])
  | _ => rfl

theorem HasOpen.of_cons {p : Piece} {ps : List Piece} (h : HasOpen ps) : HasOpen (p :: ps) :=
  h.imp fun _ hq => hq.imp_left (List.mem_cons_of_mem p)

theorem hasOpen_cons {p : Piece} {ps : List Piece} (hp : p.isOpen = false) :
    HasOpen (p :: ps) ↔ HasOpen ps := by
  refine ⟨?_, HasOpen.of_cons⟩
  rintro ⟨q, hmem, hq⟩
  rcases List.mem_cons.mp hmem with rfl | hmem
  · rw [hp] at hq
    exact absurd hq (by simp)
  · exact ⟨q, hmem, hq⟩

/-- A comment that is left open is the last piece. -/
theorem HasOpen.reading_eq {cs : List Char} (h : HasOpen (reading cs)) :
    ∃ rest, reading cs = (reading cs).dropLast ++ [.openComment rest] := by
  have hcons : ∀ {p : Piece} {ps : List Piece} {rest : List Char},
      ps = ps.dropLast ++ [.openComment rest] →
        p :: ps = (p :: ps).dropLast ++ [.openComment rest] := by
    intro p ps rest hps
    generalize ps.dropLast = before at hps
    rw [hps, ← List.cons_append, List.dropLast_concat]
  fun_induction reading cs with
  | case1 => exact absurd h (by simp [HasOpen])
  | case2 cs ih => exact (ih ((hasOpen_cons rfl).mp h)).imp fun _ => hcons
  | case3 cs body after hend ih => exact (ih ((hasOpen_cons rfl).mp h)).imp fun _ => hcons
  | case4 cs hend => exact ⟨cs, rfl⟩
  | case5 c cs _ _ hc ih => exact (ih ((hasOpen_cons rfl).mp h)).imp fun _ => hcons
  | case6 c cs hline hblock hc ih => exact (ih ((hasOpen_cons rfl).mp h)).imp fun _ => hcons

/-- A piece that is read first starts with the first character, unless that is a slash. -/
theorem head?_blanked_reading {cs : List Char} (h : cs.head? ≠ some '/') :
    (blanked (reading cs)).head? = cs.head? := by
  fun_cases reading cs <;> simp_all [Piece.blanked, Piece.source, blanked]

/-- No marker of a comment stands across the end of the text. -/
def EndsApart (text after : List Char) : Prop :=
  text.getLast? = some '/' → after.head? ≠ some '*' ∧ after.head? ≠ some '/'

theorem EndsApart.tail {c : Char} {text after : List Char} (h : EndsApart (c :: text) after) :
    EndsApart text after :=
  fun hlast => h (by rw [List.getLast?_cons, hlast]; rfl)

theorem EndsApart.blanked_reading {text cs : List Char} (h : EndsApart text cs) :
    EndsApart text (blanked (reading cs)) := by
  intro hlast
  rw [head?_blanked_reading (h hlast).2]
  exact h hlast

/-- The text is empty or starts with the end of a line. -/
def AtLineFeed (cs : List Char) : Prop := cs = [] ∨ cs.head? = some '\n'

theorem AtLineFeed.endsApart {cs : List Char} (h : AtLineFeed cs) (text : List Char) :
    EndsApart text cs := by
  intro _
  rcases h with rfl | h
  · simp
  · simp [h]

/-- A literal ends with its quote, or with its line, or with the text. -/
theorem getLast?_quoted (quote : Char) (cs : List Char) :
    (quoted quote cs).1.getLast? = some quote ∨ AtLineFeed (quoted quote cs).2 := by
  fun_induction quoted quote cs with
  | case1 => exact Or.inr (Or.inl rfl)
  | case2 cs => exact Or.inr (Or.inr rfl)
  | case3 c cs _ body after heq ih =>
      rw [heq] at ih
      exact ih.imp_left fun h => by simp [List.getLast?_cons, h]
  | case4 cs => exact Or.inr (Or.inr rfl)
  | case5 cs => exact Or.inl rfl
  | case6 c cs _ _ _ body after heq ih =>
      rw [heq] at ih
      exact ih.imp_left fun h => by simp [List.getLast?_cons, h]

theorem getLast?_rawQuoted (cs : List Char) :
    (rawQuoted cs).1.getLast? = some rawQuote ∨ (rawQuoted cs).2 = [] := by
  fun_induction rawQuoted cs with
  | case1 => exact Or.inr rfl
  | case2 cs => exact Or.inl rfl
  | case3 c cs _ body after heq ih =>
      rw [heq] at ih
      exact ih.imp_left fun h => by simp [List.getLast?_cons, h]

theorem getLast?_afterQuote (quote : Char) (cs : List Char) :
    (afterQuote quote cs).1.getLast? = some quote ∨ AtLineFeed (afterQuote quote cs).2 := by
  unfold afterQuote
  split
  · rename_i hraw
    exact hraw ▸ (getLast?_rawQuoted cs).imp_right Or.inl
  · exact getLast?_quoted quote cs

theorem endsApart_literal {quote : Char} (h : isQuote quote = true) (cs : List Char) :
    EndsApart (quote :: (afterQuote quote cs).1) (afterQuote quote cs).2 := by
  rcases getLast?_afterQuote quote cs with hlast | hend
  · intro hslash
    rw [List.getLast?_cons, hlast] at hslash
    -- no quote is a slash
    obtain rfl : quote = '/' := Option.some.inj hslash
    exact absurd h (by decide)
  · exact hend.endsApart _

theorem atLineFeed_fromLineFeed (cs : List Char) : AtLineFeed (fromLineFeed cs) := by
  unfold fromLineFeed
  induction cs with
  | nil => exact Or.inl rfl
  | cons c cs ih =>
      rw [List.dropWhile_cons]
      split
      · exact ih
      · rename_i hc
        exact Or.inr (by simpa using hc)

theorem endsApart_plain {c : Char} {cs : List Char}
    (hline : ∀ rest, c = '/' → cs = '/' :: rest → False)
    (hblock : ∀ rest, c = '/' → cs = '*' :: rest → False) : EndsApart [c] cs := by
  intro hlast
  obtain rfl : c = '/' := by simpa using hlast
  cases cs with
  | nil => simp
  | cons d cs =>
      refine ⟨fun h => hblock cs rfl ?_, fun h => hline cs rfl ?_⟩
      · rw [Option.some.inj h]
      · rw [Option.some.inj h]

end TestAtlas.Outline
