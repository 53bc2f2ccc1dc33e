/-!
# Cutting a text at a separator

`cut` cuts a text at every occurrence of a separator, so that a text with `n`
separators has `n + 1` pieces; `join` puts a separator between pieces.  Joining the
pieces of a cut gives the text back.
-/

namespace TestAtlas.Text

/-- The pieces of a text between the occurrences of `sep`. -/
def cut (sep : Char) : List Char → List (List Char)
  | [] => [[]]
  | c :: cs =>
    if c = sep then [] :: cut sep cs
    else match cut sep cs with
      | [] => [[c]]
      | piece :: pieces => (c :: piece) :: pieces

/-- The pieces with `sep` between neighbours. -/
def join (sep : List Char) : List (List Char) → List Char
  | [] => []
  | [piece] => piece
  | piece :: pieces => piece ++ sep ++ join sep pieces

/-- The text before the first occurrence of `sep`, and the text after it if there is one. -/
def cutFirst (sep : Char) : List Char → List Char × Option (List Char)
  | [] => ([], none)
  | c :: cs =>
    if c = sep then ([], some cs)
    else
      let (before, after) := cutFirst sep cs
      (c :: before, after)

/-- The texts before and after the last occurrence of `sep`, if there is one. -/
def cutLast (sep : Char) (cs : List Char) : Option (List Char × List Char) :=
  match cutFirst sep cs.reverse with
  | (after, some before) => some (before.reverse, after.reverse)
  | (_, none) => none

/-- `needle` occurs somewhere in the text. -/
def occursIn (needle : List Char) : List Char → Bool
  | [] => needle.isEmpty
  | c :: cs => needle.isPrefixOf (c :: cs) || occursIn needle cs

@[simp]
theorem cut_nil (sep : Char) : cut sep [] = [[]] := rfl

@[simp]
theorem cut_cons_self (sep : Char) (cs : List Char) : cut sep (sep :: cs) = [] :: cut sep cs := by
  simp [cut]

/-- A cut has at least one piece. -/
theorem cut_ne_nil (sep : Char) (cs : List Char) : cut sep cs ≠ [] := by
  cases cs with
  | nil => simp [cut]
  | cons c cs =>
    simp only [cut]
    split
    · simp
    · split <;> simp

/-- No piece holds the separator. -/
theorem not_mem_of_mem_cut {sep : Char} {cs piece : List Char} (h : piece ∈ cut sep cs) :
    sep ∉ piece := by
  induction cs generalizing piece with
  | nil => simp_all [cut]
  | cons c cs ih =>
    simp only [cut] at h
    split at h
    · rcases List.mem_cons.mp h with rfl | h
      · simp
      · exact ih h
    · rename_i hc
      split at h
      · rename_i hnil
        exact absurd hnil (cut_ne_nil sep cs)
      · rename_i first rest hcut
        rcases List.mem_cons.mp h with rfl | h
        · have : sep ∉ first := ih (by simp [hcut])
          simp [this, Ne.symm hc]
        · exact ih (by simp [hcut, h])

/-- Joining the pieces of a cut gives the text back. -/
theorem join_cut (sep : Char) (cs : List Char) : join [sep] (cut sep cs) = cs := by
  induction cs with
  | nil => rfl
  | cons c cs ih =>
    simp only [cut]
    split
    · rename_i hc
      subst hc
      cases hcut : cut c cs with
      | nil => exact absurd hcut (cut_ne_nil c cs)
      | cons first rest =>
        rw [hcut] at ih
        simp [join, ih]
    · cases hcut : cut sep cs with
      | nil => exact absurd hcut (cut_ne_nil sep cs)
      | cons first rest =>
        rw [hcut] at ih
        cases rest with
        | nil => simp_all [join]
        | cons second rest => simp_all [join]

theorem cut_of_not_mem {sep : Char} {cs : List Char} (h : sep ∉ cs) : cut sep cs = [cs] := by
  induction cs with
  | nil => rfl
  | cons c cs ih =>
    simp only [List.mem_cons, not_or] at h
    simp [cut, Ne.symm h.1, ih h.2]

theorem cut_append_cons {sep : Char} {piece : List Char} (h : sep ∉ piece) (cs : List Char) :
    cut sep (piece ++ sep :: cs) = piece :: cut sep cs := by
  induction piece with
  | nil => simp
  | cons c piece ih =>
    simp only [List.mem_cons, not_or] at h
    simp [cut, Ne.symm h.1, ih h.2]

/-- Cutting the join of separator-free pieces gives the pieces back. -/
theorem cut_join {sep : Char} {pieces : List (List Char)} (hne : pieces ≠ [])
    (h : ∀ piece ∈ pieces, sep ∉ piece) : cut sep (join [sep] pieces) = pieces := by
  induction pieces with
  | nil => exact absurd rfl hne
  | cons first rest ih =>
    cases rest with
    | nil => simpa [join] using cut_of_not_mem (h first (by simp))
    | cons second rest =>
      have := ih (by simp) fun piece hp => h piece (by simp [hp])
      simp only [join, List.append_assoc, List.cons_append, List.nil_append]
      rw [cut_append_cons (h first (by simp)), this]

theorem cutFirst_eq (sep : Char) (cs : List Char) :
    cs = (cutFirst sep cs).1 ++ ((cutFirst sep cs).2.map (sep :: ·)).getD [] := by
  induction cs with
  | nil => rfl
  | cons c cs ih =>
    simp only [cutFirst]
    split
    · rename_i hc
      simp [hc]
    · simpa using ih

theorem not_mem_cutFirst (sep : Char) (cs : List Char) : sep ∉ (cutFirst sep cs).1 := by
  induction cs with
  | nil => simp [cutFirst]
  | cons c cs ih =>
    simp only [cutFirst]
    split
    · simp
    · rename_i hc
      simp [ih, Ne.symm hc]

theorem cutFirst_append {sep : Char} {before : List Char} (h : sep ∉ before) (after : List Char) :
    cutFirst sep (before ++ sep :: after) = (before, some after) := by
  induction before with
  | nil => simp [cutFirst]
  | cons c before ih =>
    simp only [List.mem_cons, not_or] at h
    simp [cutFirst, Ne.symm h.1, ih h.2]

theorem cutLast_append {sep : Char} {after : List Char} (h : sep ∉ after) (before : List Char) :
    cutLast sep (before ++ sep :: after) = some (before, after) := by
  have : (before ++ sep :: after).reverse = after.reverse ++ sep :: before.reverse := by simp
  unfold cutLast
  rw [this, cutFirst_append (by simpa using h)]
  simp

end TestAtlas.Text
