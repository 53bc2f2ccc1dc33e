import TestAtlas.Text.Cut

/-!
# Locations

Every location has one canonical text: it starts with exactly one slash, holds no backslash, no
empty, `.` or `..` segment and no trailing slash, the root being the slash alone.  `canonical`
brings any spelling into this form: backslashes are slashes, a drive such as `C:` is an ordinary
first segment, any other relative path continues the current directory, and segments are read
from left to right with `..` taking back the one before it.
-/

namespace TestAtlas.Path

open Text

/-- The backslashes turned into slashes. -/
def forwardSlashes (cs : List Char) : List Char := cs.map fun c => if c = '\\' then '/' else c

/-- The text starts with an ASCII letter and a colon. -/
def startsWithDrive : List Char → Bool
  | c :: ':' :: _ => c.isAlpha
  | _ => false

/-- The text starts with a slash. -/
def isRooted : List Char → Bool
  | '/' :: _ => true
  | _ => false

/-- Reads one more segment.  The segments read so far are given last one first. -/
def pushSegment (rooted : Bool) (read : List (List Char)) (segment : List Char) :
    List (List Char) :=
  if segment = [] ∨ segment = ['.'] then read
  else if segment = ['.', '.'] then
    match read with
    | [] => if rooted then [] else [segment]
    | last :: before => if last = ['.', '.'] then segment :: read else before
  else segment :: read

/-- The segments of a path, in order, with empty and `.` segments dropped and `..` taking back the
segment before it. -/
def reduce (rooted : Bool) (segments : List (List Char)) : List (List Char) :=
  (segments.foldl (pushSegment rooted) []).reverse

/-- The slashes that a normal path starts with: two when the path starts with exactly two, else one
when it is rooted. -/
def rootSlashes : List Char → List Char
  | '/' :: '/' :: '/' :: _ => ['/']
  | '/' :: '/' :: _ => ['/', '/']
  | '/' :: _ => ['/']
  | _ => []

/-- The path with its segments reduced; a relative path without segments is `.`. -/
def normalize (cs : List Char) : List Char :=
  match rootSlashes cs ++ join ['/'] (reduce (isRooted cs) (cut '/' cs)) with
  | [] => ['.']
  | path => path

/-- The path `cs` as seen from a directory: an absolute path is itself. -/
def fromDirectory (directory cs : List Char) : List Char :=
  if isRooted cs then cs
  else if directory = [] ∨ directory.getLast? = some '/' then directory ++ cs
  else directory ++ '/' :: cs

/-- The path with a slash in front if it starts with a drive. -/
def rootDrive (cs : List Char) : List Char :=
  if startsWithDrive cs then '/' :: cs else cs

/-- The characters of the canonical form. -/
def canonicalChars (cwd cs : List Char) : List Char :=
  let path := forwardSlashes cs
  let anchored :=
    if startsWithDrive path then '/' :: path
    else if isRooted path then path
    else rootDrive (forwardSlashes (normalize (fromDirectory cwd path)))
  '/' :: (normalize anchored).dropWhile (· == '/')

/-- The absolute form of a path, relative paths continuing the directory `cwd`. -/
def absolute (cwd path : String) : String :=
  String.ofList (normalize (fromDirectory cwd.toList path.toList))

/-- The canonical form of a path, relative paths continuing the directory `cwd`. -/
def canonical (cwd path : String) : String :=
  String.ofList (canonicalChars cwd.toList path.toList)

/-- The text up to the last slash and the text after it. -/
def splitLast (cs : List Char) : List Char × List Char :=
  match cutLast '/' cs with
  | some (before, after) => (before ++ ['/'], after)
  | none => ([], cs)

/-- The directory part: all before the last segment, without trailing slashes unless nothing else
is left. -/
def directoryPart (path : String) : String :=
  let head := (splitLast path.toList).1
  if head.all (· == '/') then String.ofList head
  else String.ofList (head.reverse.dropWhile (· == '/')).reverse

/-- The last segment: all after the last slash. -/
def lastPart (path : String) : String := String.ofList (splitLast path.toList).2

/-- The canonical parent directory of a location. -/
def parent (cwd path : String) : String := directoryPart (canonical cwd path)

/-- The last segment of a location. -/
def base (cwd path : String) : String := lastPart (canonical cwd path)

/-- A name or path below a directory; an absolute path is itself. -/
def below (directory name : String) : String :=
  String.ofList (fromDirectory directory.toList name.toList)

/-- The text that every location strictly below `root` starts with. -/
def beneath (root : String) : List Char :=
  (root.toList.reverse.dropWhile (· == '/')).reverse ++ ['/']

/-- `path` is `root` or lies below it; both are canonical. -/
def isAtOrBelow (path root : String) : Bool :=
  path = root || (beneath root).isPrefixOf path.toList

/-- `path` is `root` or lies below it, in any spelling. -/
def isWithin (cwd path root : String) : Bool :=
  isAtOrBelow (canonical cwd path) (canonical cwd root)

/-- The segments of a location. -/
def segments (path : String) : List String :=
  ((cut '/' path.toList).filter (· ≠ [])).map String.ofList

/-- The location with the given segments. -/
def ofSegments (segments : List String) : String :=
  String.ofList ('/' :: join ['/'] (segments.map String.toList))

/-- The locations whose segments, last one first, are the tails of the given list: the location
itself, its parent, and so on up to the root. -/
def climb : List String → List String
  | [] => [ofSegments []]
  | last :: before => ofSegments (last :: before).reverse :: climb before

/-- A location and all directories above it, from itself up to the root. -/
def ancestors (path : String) : List String := climb (segments path).reverse

/-- What is left of two lists after their common start. -/
def dropCommon : List String → List String → List String × List String
  | a :: as, b :: bs => if a = b then dropCommon as bs else (a :: as, b :: bs)
  | as, bs => (as, bs)

/-- The segments that lead from a directory to a location; `..` leads to the parent. -/
def relative (path root : String) : List String :=
  let (down, up) := dropCommon (segments path) (segments root)
  up.map (fun _ => "..") ++ down

theorem not_mem_forwardSlashes (cs : List Char) : '\\' ∉ forwardSlashes cs := by
  intro h
  obtain ⟨c, _, hc⟩ := List.mem_map.mp h
  split at hc
  · exact absurd hc (by decide)
  · rename_i hne
    exact hne hc

theorem pushSegment_of_empty (rooted : Bool) (read : List (List Char)) :
    pushSegment rooted read [] = read := by
  simp [pushSegment]

/-- An ordinary segment is kept. -/
theorem pushSegment_of_ordinary (rooted : Bool) (read : List (List Char)) {segment : List Char}
    (h : segment ≠ []) (h1 : segment ≠ ['.']) (h2 : segment ≠ ['.', '.']) :
    pushSegment rooted read segment = segment :: read := by
  simp [pushSegment, h, h1, h2]

theorem isAtOrBelow_refl (path : String) : isAtOrBelow path path = true := by
  simp [isAtOrBelow]

end TestAtlas.Path
