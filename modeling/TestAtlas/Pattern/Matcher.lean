import TestAtlas.Pattern.Places
import TestAtlas.Pattern.Syntax

/-!
# Matching patterns

A pattern is laid on a text: its sets and anchors are replaced by the places of the text where
they hold.  `ends` then leads from a set of places to the places at which a match that starts at
one of them can end.  A row of repetitions longer than the text has at least one repetition that
takes no character, so one more repetition than the text has characters stands for all longer rows.
-/

namespace TestAtlas

/-- A pattern laid on a text. -/
inductive LaidPattern where
  | empty
  /-- One character: it is met behind each of the places. -/
  | one (places : Places)
  | at (places : Places)
  | seq (first second : LaidPattern)
  | either (first second : LaidPattern)
  | times (body : LaidPattern) (least : Nat) (most : Option Nat)

/-- Lays a pattern on a text. -/
def Pattern.layOn (t : Array Char) (fold : Bool) : Pattern → LaidPattern
  | .empty => .empty
  | .one set => .one (.ofMarks (t.toList.map (set.holds fold)))
  | .at anchor => .at (.ofMarks ((List.range (t.size + 1)).map fun i => anchor.holds t i))
  | .seq p q => .seq (p.layOn t fold) (q.layOn t fold)
  | .either p q => .either (p.layOn t fold) (q.layOn t fold)
  | .times p least most => .times (p.layOn t fold) least most

namespace LaidPattern

/-- The places after `n` steps.  Once a step changes nothing, no further one does. -/
def iterate (step : Places → Places) : Nat → Places → Places
  | 0, s => s
  | n + 1, s =>
    let s' := step s
    if s' = s then s else iterate step n s'

/-- The places reached so far with those that at most `n` further steps lead to.  The last places
that were reached are the only ones from which a step can lead to another place. -/
def reach (step : Places → Places) : Nat → Places → Places → Places
  | 0, reached, _ => reached
  | n + 1, reached, last =>
    let new := (step last).without reached
    if new.isEmpty then reached else reach step n (reached.union new) new

/-- The ends of the matches that start at one of the given places of a text of the given size. -/
def ends (size : Nat) : LaidPattern → Places → Places
  | .empty, s => s
  | .one places, s => (s.inter places).next
  | .at places, s => s.inter places
  | .seq p q, s => ends size q (ends size p s)
  | .either p q, s => (ends size p s).union (ends size q s)
  | .times p least most, s =>
    let full := size + 1
    let first := iterate (fun s => ends size p s) (min least full) s
    match most with
    | some m =>
      if m < least then .empty else reach (fun s => ends size p s) (min (m - least) full) first first
    | none => reach (fun s => ends size p s) full first first

end LaidPattern

/-- Some part of the text matches the pattern. -/
def Pattern.occurs (fold : Bool) (p : Pattern) (text : String) : Bool :=
  let t := text.toList.toArray
  !((p.layOn t fold).ends t.size (.below (t.size + 1))).isEmpty

end TestAtlas
