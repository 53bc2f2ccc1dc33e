import TestAtlas.Pattern.Syntax
import TestAtlas.Text.Digit

/-!
# The signs of a pattern

The text of a pattern is a list of signs.  A sign after a backslash stands for a class, an anchor
or a character; in brackets signs make up a set, and in braces they count repetitions.
-/

namespace TestAtlas.Expression

/-- A sign of a pattern: a character, a character after a backslash, or a backslash with nothing
behind it. -/
inductive Sign where
  | plain (c : Char)
  | escaped (c : Char)
  | dangling
  deriving DecidableEq, Repr

/-- The signs of a text. -/
def signs : List Char → List Sign
  | [] => []
  | '\\' :: c :: cs => .escaped c :: signs cs
  | c :: cs => (if c = '\\' then .dangling else .plain c) :: signs cs

/-- A pattern that is beyond what can be worked with. -/
inductive LimitError where
  /-- A count of repetitions is too large. -/
  | largeCount
  /-- A count of repetitions has too many digits, as many as given. -/
  | longCount (digits : Nat)
  /-- A group is opened inside too many others. -/
  | deepGroup
  deriving DecidableEq, Repr

/-- What is beyond the limits. -/
def LimitError.message : LimitError → String
  | largeCount => "the repetition number is too large"
  | longCount digits =>
    "Exceeds the limit (" ++ toString Text.maxDigits ++
      " digits) for integer string conversion: value has " ++ toString digits ++
      " digits; use sys.set_int_max_str_digits() to increase the limit"
  | deepGroup => "maximum recursion depth exceeded while calling a Python object"

/-- Why a text is no expression. -/
inductive Refusal where
  | malformed
  | limit (e : LimitError)
  deriving DecidableEq, Repr

/-- The value of a hexadecimal digit. -/
def hexDigit? : Sign → Option Nat
  | .plain c =>
    if '0' ≤ c ∧ c ≤ '9' then some (c.toNat - 48)
    else if 'a' ≤ c ∧ c ≤ 'f' then some (c.toNat - 87)
    else if 'A' ≤ c ∧ c ≤ 'F' then some (c.toNat - 55)
    else none
  | _ => none

/-- The value of an octal digit. -/
def octalDigit? : Sign → Option Nat
  | .plain c => if '0' ≤ c ∧ c ≤ '7' then some (c.toNat - 48) else none
  | _ => none

/-- Exactly `n` digits. -/
def fixedDigits (digit? : Sign → Option Nat) (radix : Nat) :
    Nat → Nat → List Sign → Option (Nat × List Sign)
  | 0, value, rest => some (value, rest)
  | n + 1, value, sign :: rest =>
    (digit? sign).bind fun d => fixedDigits digit? radix n (radix * value + d) rest
  | _ + 1, _, [] => none

/-- At most `n` octal digits. -/
def octalDigits : Nat → Nat → List Sign → Nat × List Sign
  | n + 1, value, sign :: rest =>
    match octalDigit? sign with
    | some d => octalDigits n (8 * value + d) rest
    | none => (value, sign :: rest)
  | _, value, rest => (value, rest)

/-- The character with the given code, if there is one. -/
def charOf? (n : Nat) : Option Char := if n.isValidChar then some (Char.ofNat n) else none

/-- The character of an escape by code. -/
def codeEscape? (c : Char) (rest : List Sign) : Option (Char × List Sign) :=
  let width? := match c with
    | 'x' => some 2
    | 'u' => some 4
    | 'U' => some 8
    | _ => none
  match width? with
  | some width =>
    (fixedDigits hexDigit? 16 width 0 rest).bind fun (n, rest) =>
      (charOf? n).map fun c => (c, rest)
  | none =>
    if c = '0' then
      let (n, rest) := octalDigits 2 0 rest
      (charOf? n).map fun c => (c, rest)
    else none

/-- The character of an escape by letter. -/
def letterEscape? : Char → Option Char
  | 'a' => some '\x07'
  | 'f' => some '\x0c'
  | 'n' => some '\n'
  | 'r' => some '\r'
  | 't' => some '\t'
  | 'v' => some '\x0b'
  | '\\' => some '\\'
  | _ => none

/-- The class of an escape, and whether it is the complement that is meant. -/
def classEscape? : Char → Option SetItem
  | 'w' => some (.inClass .word)
  | 'W' => some (.notInClass .word)
  | 'd' => some (.inClass .digit)
  | 'D' => some (.notInClass .digit)
  | 's' => some (.inClass .blank)
  | 'S' => some (.notInClass .blank)
  | _ => none

/-- The anchor of an escape. -/
def anchorEscape? : Char → Option Anchor
  | 'A' => some .textStart
  | 'Z' => some .textEnd
  | 'b' => some .wordEdge
  | 'B' => some .noWordEdge
  | _ => none

/-- The character an escape stands for.  Letters and digits that name nothing are refused. -/
def literalEscape? (c : Char) (rest : List Sign) : Option (Char × List Sign) :=
  match letterEscape? c with
  | some l => some (l, rest)
  | none =>
    match codeEscape? c rest with
    | some found => some found
    | none => if c.isAlphanum then none else some (c, rest)

/-- The octal code of an escape inside a set, where any octal digit may start one. -/
def setOctal? (c : Char) (rest : List Sign) : Option (Char × List Sign) :=
  (octalDigit? (.plain c)).bind fun d =>
    let (n, rest) := octalDigits 2 d rest
    if n ≤ 255 then some (Char.ofNat n, rest) else none

/-- An element of a set. -/
def setElement? : Sign → List Sign → Option (SetItem × List Sign)
  | .dangling, _ => none
  | .plain c, rest => some (.char c, rest)
  | .escaped c, rest =>
    match classEscape? c with
    | some item => some (item, rest)
    | none =>
      if c = 'b' then some (.char '\x08', rest)
      else
        let found := if (octalDigit? (.plain c)).isSome then setOctal? c rest
          else literalEscape? c rest
        found.map fun (l, rest) => (.char l, rest)

/-- The range between two elements of a set. -/
def rangeBetween? : SetItem → SetItem → Option SetItem
  | .char a, .char b => if a ≤ b then some (.range a b) else none
  | _, _ => none

/-- The elements of a set up to its closing bracket, which closes only a set that has elements.
The elements read so far are given last one first. -/
def setElements : Nat → List SetItem → List Sign → Option (List SetItem × List Sign)
  | 0, _, _ => none
  | _ + 1, _, [] => none
  | limit + 1, read, sign :: rest =>
    if sign = .plain ']' ∧ read ≠ [] then some (read.reverse, rest)
    else
      match setElement? sign rest with
      | none => none
      -- a hyphen right before the closing bracket stands for itself
      | some (item, .plain '-' :: .plain ']' :: rest) =>
        some ((.char '-' :: item :: read).reverse, rest)
      | some (item, .plain '-' :: next :: rest) =>
        match setElement? next rest with
        | none => none
        | some (item', rest) =>
          (rangeBetween? item item').bind fun range => setElements limit (range :: read) rest
      | some (item, rest) => setElements limit (item :: read) rest

/-- A set after its opening bracket.  Elements that are given again count once. -/
def charSet? (rest : List Sign) : Option (CharSet × List Sign) :=
  let (negated, rest) := match rest with
    | .plain '^' :: rest => (true, rest)
    | rest => (false, rest)
  (setElements (rest.length + 1) [] rest).map fun (items, rest) =>
    (⟨negated, items.eraseDups⟩, rest)

/-- The digits at the start of the signs. -/
def countDigits : List Sign → List Char × List Sign
  | .plain c :: rest =>
    if c.isDigit then
      let (ds, rest) := countDigits rest
      (c :: ds, rest)
    else ([], .plain c :: rest)
  | rest => ([], rest)

/-- Repetitions are counted below this number. -/
def maxCount : Nat := 4294967295

/-- The number that the digits of a count stand for. -/
def count (ds : List Char) : Except LimitError Nat :=
  if Text.maxDigits < ds.length then .error (.longCount ds.length)
  else
    let n := ds.foldl (fun n d => 10 * n + (d.toNat - 48)) 0
    if maxCount ≤ n then .error .largeCount else .ok n

/-- The least and the greatest count that two lists of digits stand for.  Without digits the least
count is zero, and there is no greatest. -/
def counts (lo hi : List Char) : Except Refusal (Nat × Option Nat) :=
  match count lo, count hi with
  | .error e, _ => .error (.limit e)
  | .ok _, .error e => .error (.limit e)
  | .ok least, .ok most =>
    if hi = [] then .ok (least, none)
    else if most < least then .error .malformed
    else .ok (least, some most)

/-- The counts between braces, after the opening one: at least and at most how often.  Braces that
hold no counts have no reading. -/
def braces? (rest : List Sign) : Except Refusal (Option (Nat × Option Nat × List Sign)) :=
  match rest with
  | .plain '\x7d' :: _ => .ok none
  | rest =>
    let (lo, rest) := countDigits rest
    let (hi, rest) := match rest with
      | .plain ',' :: rest => countDigits rest
      | rest => (lo, rest)
    match rest with
    -- what makes the whole text malformed right behind the braces comes before their counts
    | .plain '\x7d' :: .dangling :: _ => .error .malformed
    | .plain '\x7d' :: rest => (counts lo hi).map fun (least, most) => some (least, most, rest)
    | _ => .ok none

/-- Skips the question mark after a repetition. -/
def skipReluctant : List Sign → List Sign
  | .plain '?' :: rest => rest
  | rest => rest

/-- The signs after the name of a group and its closing angle bracket. -/
def afterGroupName? : List Char → List Sign → Option (List Sign)
  | read, .plain '>' :: rest =>
    match read.reverse with
    | [] => none
    | c :: cs =>
      if Text.isWord c && !Text.isDecimalDigit c && cs.all Text.isWord then some rest else none
  | read, .plain c :: rest => afterGroupName? (c :: read) rest
  | _, _ => none

/-- The signs of a group after its opening marks, and whether the group has a number.  Other marks
open no group. -/
def afterGroupStart? : List Sign → Option (Bool × List Sign)
  | .plain '?' :: .plain ':' :: rest => some (false, rest)
  | .plain '?' :: .plain 'P' :: .plain '<' :: rest => (afterGroupName? [] rest).map (true, ·)
  | .plain '?' :: _ => none
  | rest => some (true, rest)

/-- At most so many groups can be open at a time. -/
def maxOpenGroups : Nat := 494

/-- Takes the flags for ignoring case off the start of the signs. -/
def takeFlags : List Sign → Bool × List Sign
  | .plain '(' :: .plain '?' :: .plain 'i' :: .plain ')' :: rest => (true, (takeFlags rest).2)
  | rest => (false, rest)

end TestAtlas.Expression
