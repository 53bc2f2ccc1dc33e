import TestAtlas.Outline.Declaration

/-!
# Manifests

A manifest declares the name of its module on a line of its own: the word `module`, blanks, and the
name, which may stand between quotes.  The first such line counts.
-/

namespace TestAtlas.Manifest

open Text Outline

/-- The keyword of the declaration. -/
def moduleWord : List Char := ['m', 'o', 'd', 'u', 'l', 'e']

/-- The name declared at the start of a text, after blanks. -/
def nameAt? (cs : List Char) : Option (List Char) := do
  let cs ← after? moduleWord (stripLeft cs)
  let cs ← afterBlanks? cs
  match cs.takeWhile fun c => !isBlank c with
  | [] => none
  | name => some name

/-- The name declared after some line feed. -/
def nameAfterLineFeed? : List Char → Option (List Char)
  | [] => none
  | '\n' :: rest => (nameAt? rest).or (nameAfterLineFeed? rest)
  | _ :: rest => nameAfterLineFeed? rest

/-- The character is a quote. -/
def isQuote (c : Char) : Bool := c == '"' || c == '\'' || c == Char.ofNat 96

/-- The text without the quotes at its ends. -/
def unquote (cs : List Char) : List Char :=
  ((cs.dropWhile isQuote).reverse.dropWhile isQuote).reverse

/-- The module name that a manifest declares. -/
def moduleName? (content : String) : Option String :=
  ((nameAt? content.toList).or (nameAfterLineFeed? content.toList)).map fun name =>
    String.ofList (unquote name)

end TestAtlas.Manifest
