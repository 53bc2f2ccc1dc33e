import TestAtlas.Pattern.Element
import TestAtlas.Pattern.Matcher

/-!
# Reading patterns

A pattern is written with literal characters, `.` for any character but the line feed, the anchors
`^` and `$`, alternatives between bars, groups, sets in brackets, escapes, and the repetitions
`*`, `+`, `?` and braces with a least and a greatest count.  A question mark after a repetition
prefers fewer repetitions, which does not change what occurs in a text.  A text that starts with
the flag `(?i)` ignores case.  Every other text is malformed.  A count of repetitions or a nesting
of groups that is beyond the limits is an error of its own kind.
-/

namespace TestAtlas

/-- A pattern as read: with or without regard to case. -/
structure Expression where
  fold : Bool
  pattern : Pattern
  deriving DecidableEq, Repr

/-- Some part of the text matches the expression. -/
def Expression.occursIn (e : Expression) (text : String) : Bool :=
  e.pattern.occurs e.fold text

namespace Expression

mutual

/-- Alternatives up to a closing parenthesis or the end, in which so many more groups can be open
at a time. -/
def alternatives : Nat → Nat → List Sign → Except Refusal (List (List Element) × List Sign)
  | 0, _, _ => .error .malformed
  | limit + 1, groups, rest =>
    match parts limit groups [] rest with
    | .error e => .error e
    | .ok (es, .plain '|' :: rest) =>
      match alternatives limit groups rest with
      | .error e => .error e
      | .ok (others, rest) => .ok (es :: others, rest)
    | .ok (es, rest) => .ok ([es], rest)

/-- A sequence up to a bar, a closing parenthesis or the end.  The parts read so far are given last
one first. -/
def parts : Nat → Nat → List Part → List Sign → Except Refusal (List Element × List Sign)
  | 0, _, _, _ => .error .malformed
  | _ + 1, _, read, [] => .ok (elementsOf read, [])
  | limit + 1, groups, read, sign :: rest =>
    match sign with
    | .dangling => .error .malformed
    | .escaped c =>
      match escape? c rest with
      | some (e, rest) => parts limit groups (.element e :: read) rest
      | none => .error .malformed
    | .plain '|' => .ok (elementsOf read, sign :: rest)
    | .plain ')' => .ok (elementsOf read, sign :: rest)
    | .plain '^' => parts limit groups (.element (.anchor .textStart) :: read) rest
    | .plain '$' => parts limit groups (.element (.anchor .lineEnd) :: read) rest
    | .plain '.' => parts limit groups (.element (.chars .anyButLineFeed) :: read) rest
    | .plain '[' =>
      match charSet? rest with
      | some (set, rest) => parts limit groups (.element (.chars set) :: read) rest
      | none => .error .malformed
    | .plain '(' =>
      match afterGroupStart? rest, groups with
      | none, _ => .error .malformed
      | some _, 0 => .error (.limit .deepGroup)
      | some (isNumbered, rest), inner + 1 =>
        match alternatives limit inner rest with
        | .error e => .error e
        | .ok (found, .plain ')' :: rest) =>
          let es := alternation found
          let part := if isNumbered then .element (.closed (sequence es)) else .group es
          parts limit groups (part :: read) rest
        | .ok _ => .error .malformed
    | .plain '*' => repetition limit groups 0 none read rest
    | .plain '+' => repetition limit groups 1 none read rest
    | .plain '?' => repetition limit groups 0 (some 1) read rest
    | .plain '\x7b' =>
      match braces? rest with
      | .error e => .error e
      | .ok (some (least, most, rest)) => repetition limit groups least most read rest
      | .ok none => parts limit groups (.element (.chars (.single '\x7b')) :: read) rest
    | .plain c => parts limit groups (.element (.chars (.single c)) :: read) rest

/-- A repetition and what follows it. -/
def repetition : Nat → Nat → Nat → Option Nat → List Part → List Sign →
    Except Refusal (List Element × List Sign)
  | 0, _, _, _, _, _ => .error .malformed
  | limit + 1, groups, least, most, read, rest =>
    match repeatLast least most read with
    | some read => parts limit groups read (skipReluctant rest)
    | none => .error .malformed

end

/-- Reads an expression. -/
def ofText (text : String) : Except Refusal Expression :=
  let (fold, rest) := takeFlags (signs text.toList)
  match alternatives (2 * rest.length + 2) maxOpenGroups rest with
  | .error e => .error e
  | .ok (found, []) => .ok ⟨fold, sequence (alternation found)⟩
  | .ok _ => .error .malformed

/-- The expressions of some texts.  Malformed texts are left out. -/
def ofTexts : List String → Except LimitError (List Expression)
  | [] => .ok []
  | text :: texts =>
    match ofText text with
    | .ok e => (ofTexts texts).map (e :: ·)
    | .error .malformed => ofTexts texts
    | .error (.limit e) => .error e

/-- Some expression occurs in the text. -/
def anyOccursIn (es : List Expression) (text : String) : Bool := es.any (·.occursIn text)

/-- A malformed text makes no difference. -/
theorem ofTexts_of_malformed {text : String} (h : ofText text = .error .malformed)
    (texts : List String) : ofTexts (text :: texts) = ofTexts texts := by
  simp [ofTexts, h]

end Expression

end TestAtlas
