import TestAtlas.Text.Quoted

/-!
# Single halves of surrogate pairs

A name in a file system need not be UTF-8, and then it is read as a text that holds single halves
of surrogate pairs.  A `Char` is never such a half.  So a text with such halves is given here with
another character in the place of each, one for private use that occurs nowhere else.  `StandIns`
says which characters these are, and where nothing is said there are none.  A text with a single
half cannot be encoded.
-/

namespace TestAtlas

/-- A character for private use and the half of a surrogate pair that it stands for. -/
structure StandIn where
  char : Char
  half : Nat
  isPrivate : 0xE000 ≤ char.toNat ∧ char.toNat ≤ 0xF8FF
  isHalf : 0xD800 ≤ half ∧ half ≤ 0xDFFF
  deriving DecidableEq, Repr

/-- The characters that stand for halves of surrogate pairs. -/
class StandIns where
  all : List StandIn

/-- Texts without single halves. -/
instance noStandIns : StandIns := ⟨[]⟩

theorem StandIns.eq_noStandIns {standIns : StandIns} (h : standIns.all = []) :
    standIns = noStandIns :=
  congrArg StandIns.mk h

namespace Text

/-- Why a text cannot be encoded: the first single half, its position and the halves that follow it
at once. -/
structure EncodingError where
  position : Nat
  half : Nat
  further : List Nat
  deriving DecidableEq, Repr

/-- The wording of an encoding error. -/
def EncodingError.message (e : EncodingError) : String :=
  let position := toString e.position
  if e.further.isEmpty then
    "'utf-8' codec can't encode character '\\u" ++ String.ofList (Quoted.hexDigits 4 e.half) ++
      "' in position " ++ position ++ ": surrogates not allowed"
  else
    "'utf-8' codec can't encode characters in position " ++ position ++ "-" ++
      toString (e.position + e.further.length) ++ ": surrogates not allowed"

section

variable [StandIns]

/-- The half that a character stands for. -/
def half? (c : Char) : Option Nat :=
  (StandIns.all.find? fun s => s.char == c).map StandIn.half

/-- The halves that a text begins with. -/
def leadingHalves : List Char → List Nat
  | [] => []
  | c :: cs =>
    match half? c with
    | some half => half :: leadingHalves cs
    | none => []

/-- Why a text that begins at a position cannot be encoded. -/
def encodingErrorAt? (position : Nat) : List Char → Option EncodingError
  | [] => none
  | c :: cs =>
    match half? c with
    | some half => some ⟨position, half, leadingHalves cs⟩
    | none => encodingErrorAt? (position + 1) cs

/-- Why a text cannot be encoded. -/
def encodingError? (s : String) : Option EncodingError := encodingErrorAt? 0 s.toList

theorem encodingErrorAt?_eq_none_iff (position : Nat) (cs : List Char) :
    encodingErrorAt? position cs = none ↔ ∀ c ∈ cs, half? c = none := by
  induction cs generalizing position with
  | nil => simp [encodingErrorAt?]
  | cons c cs ih =>
      rw [encodingErrorAt?, List.forall_mem_cons]
      cases hc : half? c with
      | none => simp [ih]
      | some half => simp

/-- A text can be encoded exactly when none of its characters stands for a half. -/
theorem encodingError?_eq_none_iff (s : String) :
    encodingError? s = none ↔ ∀ c ∈ s.toList, half? c = none :=
  encodingErrorAt?_eq_none_iff 0 s.toList

end

@[simp]
theorem encodingError?_noStandIns (s : String) : @encodingError? noStandIns s = none :=
  (@encodingError?_eq_none_iff noStandIns s).mpr fun _ _ => rfl

example : (EncodingError.mk 3 0xDCFF []).message =
    "'utf-8' codec can't encode character '\\udcff' in position 3: surrogates not allowed" := by
  decide +kernel

end Text

end TestAtlas
