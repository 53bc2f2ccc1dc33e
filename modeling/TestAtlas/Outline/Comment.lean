import TestAtlas.Text.Cut
import TestAtlas.Text.Lines

/-!
# Block comments

A block comment runs from `/*` to the next `*/`.  `blank` leaves of each comment its line feeds,
so that the lines after it keep their numbers.  A comment that is never closed is not touched;
`hasOpenComment` finds one that stands before any line comment of its line.
-/

namespace TestAtlas.Outline

open Text

/-- The text before the first `*/` and the text after it. -/
def commentEnd : List Char → Option (List Char × List Char)
  | [] => none
  | '*' :: '/' :: rest => some ([], rest)
  | c :: rest => (commentEnd rest).map fun (body, after) => (c :: body, after)

theorem length_of_commentEnd {cs body after : List Char} (h : commentEnd cs = some (body, after)) :
    after.length + 2 ≤ cs.length := by
  induction cs generalizing body after with
  | nil => simp [commentEnd] at h
  | cons c cs ih =>
    unfold commentEnd at h
    split at h
    · simp at *
    · rename_i rest heq
      simp only [Option.some.injEq, Prod.mk.injEq] at h
      obtain ⟨-, rfl⟩ := h
      simp only [List.cons.injEq] at heq
      obtain ⟨-, rfl⟩ := heq
      simp
    · rename_i c' rest _ heq
      simp only [List.cons.injEq] at heq
      obtain ⟨rfl, rfl⟩ := heq
      obtain ⟨⟨b, a⟩, hb, he⟩ := Option.map_eq_some_iff.mp h
      simp only [Prod.mk.injEq] at he
      obtain ⟨-, rfl⟩ := he
      have := ih hb
      simp
      omega

/-- The line feeds of a text. -/
def lineFeeds (cs : List Char) : List Char := cs.filter (· == '\n')

/-- The text with each block comment replaced by its line feeds. -/
def blank : List Char → List Char
  | [] => []
  | '/' :: '*' :: rest =>
    match _h : commentEnd rest with
    | some (body, after) => lineFeeds body ++ blank after
    -- no later comment can be closed either
    | none => '/' :: '*' :: rest
  | c :: rest => c :: blank rest
  termination_by cs => cs.length
  decreasing_by
    · have := length_of_commentEnd _h
      simp
      omega
    · simp

/-- The part of a line before its line comment. -/
def beforeLineComment : List Char → List Char
  | [] => []
  | '/' :: '/' :: _ => []
  | c :: rest => c :: beforeLineComment rest

/-- A block comment is opened outside the line comments of the text. -/
def hasOpenComment (cs : List Char) : Bool :=
  occursIn ['/', '*'] (join ['\n'] ((lines cs).map beforeLineComment))

@[simp]
theorem blank_nil : blank [] = [] := by simp [blank]

/-- A text without a slash holds no comment. -/
theorem blank_of_not_mem {cs : List Char} (h : '/' ∉ cs) : blank cs = cs := by
  induction cs with
  | nil => simp
  | cons c cs ih =>
    simp only [List.mem_cons, not_or] at h
    rw [blank.eq_3 _ _ (fun rest e => absurd e (by simp [Ne.symm h.1])), ih h.2]

end TestAtlas.Outline
