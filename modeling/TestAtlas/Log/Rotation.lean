import TestAtlas.Disk
import TestAtlas.Log.LineFormat

/-!
# Log files of bounded size

Before a line is written that would bring a log file to its limit, the file and its older copies
move on by one number, and a new file is begun.  The oldest copy is lost.  A directory can move on
like a copy, but no copy can take its place.
-/

namespace TestAtlas.Log

/-- A log file, the limit of its size and the number of older copies that are kept.  A limit that
is not positive means that there is none. -/
structure RotatingFile where
  path : String
  maxBytes : Int
  backupCount : Int
  deriving DecidableEq, Repr

namespace RotatingFile

/-- The path of an older copy. -/
def copyPath (f : RotatingFile) (number : Nat) : String := f.path ++ "." ++ toString number

/-- The line would bring the file to its limit.  What is in the file counts in bytes, and the line
in characters. -/
def isFull (f : RotatingFile) (d : Disk) (line : List Char) : Bool :=
  decide (0 < f.maxBytes) &&
    decide (f.maxBytes ≤ ((d.bytesOrNone f.path).length + line.length : Nat))

/-- The paths from and to which the copies and the file move, the oldest copy first.  The copy with
the last number is not moved: it is lost when another takes its place. -/
def moves (f : RotatingFile) : List (String × String) :=
  match f.backupCount.toNat with
  | 0 => []
  | n + 1 =>
    (List.range n).reverse.map (fun i => (f.copyPath (i + 1), f.copyPath (i + 2))) ++
      [(f.path, f.copyPath 1)]

/-- Makes moves, one after another, where something stands, up to the first that the disk does not
allow.  Tells whether all were made. -/
def moveAll (d : Disk) : List (String × String) → Bool × Disk
  | [] => (true, d)
  | (path, path') :: rest =>
    if d.isThere path then
      match d.rename path path' with
      | .ok d => moveAll d rest
      | .error _ => (false, d)
    else moveAll d rest

/-- Writes a line.  If the file is full and a directory stands in the way of a copy, then the moves
before that one stay made and the line is lost. -/
def write (f : RotatingFile) (d : Disk) (line : List Char) : Disk :=
  let (isReady, d) := if f.isFull d line then moveAll d f.moves else (true, d)
  if isReady then d.append f.path (Text.Utf8.encode line) else d

end RotatingFile

end TestAtlas.Log
