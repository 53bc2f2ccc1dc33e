import TestAtlas.Json.Value

/-!
# Tokens of a JSON text

A text is cut into brackets, commas, colons, strings, numbers and words.  Strings hold no control
characters; an escape `\u` gives a 16-bit unit, and two units that form a surrogate pair give one
character.  Beside the standard words the texts `NaN`, `Infinity` and `-Infinity` are numbers.
-/

namespace TestAtlas.Json

/-- A token. -/
inductive Token where
  | listOpen
  | listClose
  | objectOpen
  | objectClose
  | comma
  | colon
  | text (s : String)
  | atom (value : Json)

/-- The characters between tokens. -/
def isSpace (c : Char) : Bool := c == ' ' || c == '\t' || c == '\n' || c == '\r'

/-- The value of a hexadecimal digit. -/
def hexValue? (c : Char) : Option Nat :=
  let n := c.toNat
  if 48 ≤ n ∧ n ≤ 57 then some (n - 48)
  else if 65 ≤ n ∧ n ≤ 70 then some (n - 55)
  else if 97 ≤ n ∧ n ≤ 102 then some (n - 87)
  else none

/-- The value of four hexadecimal digits. -/
def hexUnit? (a b c d : Char) : Option Nat := do
  let w ← hexValue? a
  let x ← hexValue? b
  let y ← hexValue? c
  let z ← hexValue? d
  return ((w * 16 + x) * 16 + y) * 16 + z

/-- The character of a one-letter escape. -/
def escapedChar? : Char → Option Nat
  | '"' => some 34
  | '\\' => some 92
  | '/' => some 47
  | 'b' => some 8
  | 'f' => some 12
  | 'n' => some 10
  | 'r' => some 13
  | 't' => some 9
  | _ => none

/-- Reads a string after its opening quote: its code points and escaped units, and the rest. -/
def readString : List Char → Option (List Nat × List Char)
  | [] => none
  | '"' :: rest => some ([], rest)
  | '\\' :: 'u' :: a :: b :: c :: d :: rest => do
    let unit ← hexUnit? a b c d
    let (units, rest) ← readString rest
    return (unit :: units, rest)
  | '\\' :: e :: rest => do
    let unit ← escapedChar? e
    let (units, rest) ← readString rest
    return (unit :: units, rest)
  | c :: rest =>
    if c.toNat < 32 ∨ c = '\\' then none
    else do
      let (units, rest) ← readString rest
      return (c.toNat :: units, rest)

/-- The characters of a string: surrogate pairs are joined, and a single surrogate becomes a
replacement character. -/
def joinSurrogates : List Nat → List Char
  | [] => []
  | [u] => [if 0xD800 ≤ u ∧ u ≤ 0xDFFF then '\uFFFD' else Char.ofNat u]
  | u :: v :: rest =>
    if 0xD800 ≤ u ∧ u < 0xDC00 ∧ 0xDC00 ≤ v ∧ v ≤ 0xDFFF then
      Char.ofNat (0x10000 + (u - 0xD800) * 0x400 + (v - 0xDC00)) :: joinSurrogates rest
    else
      (if 0xD800 ≤ u ∧ u ≤ 0xDFFF then '\uFFFD' else Char.ofNat u) :: joinSurrogates (v :: rest)

/-- The digits at the start of a text, and the rest. -/
def spanDigits (cs : List Char) : List Char × List Char :=
  (cs.takeWhile Char.isDigit, cs.dropWhile Char.isDigit)

/-- The value of a list of digits. -/
def digitsValue (ds : List Char) : Nat := ds.foldl (fun n d => 10 * n + (d.toNat - 48)) 0

/-- The digits after a decimal point, and the rest; without a digit there is no fraction. -/
def spanFraction : List Char → Option (List Char × List Char)
  | '.' :: cs =>
    match spanDigits cs with
    | ([], _) => none
    | (ds, rest) => some (ds, rest)
  | _ => none

/-- The exponent after a mantissa, and the rest; without a digit there is no exponent. -/
def spanExponent : List Char → Option (Int × List Char)
  | e :: cs =>
    if e = 'e' ∨ e = 'E' then
      let (negative, cs) := match cs with
        | '-' :: cs => (true, cs)
        | '+' :: cs => (false, cs)
        | cs => (false, cs)
      match spanDigits cs with
      | ([], _) => none
      | (ds, rest) =>
        let n : Int := digitsValue ds
        some (if negative then -n else n, rest)
    else none
  | [] => none

/-- The most digits an integer may have. -/
def maxIntegerDigits : Nat := 4300

/-- The digits before a decimal point, and the rest.  A leading zero stands alone. -/
def spanWhole : List Char → List Char × List Char
  | '0' :: rest => (['0'], rest)
  | cs => spanDigits cs

/-- Reads an unsigned number. -/
def readNumber (negative : Bool) (cs : List Char) : Option (Json × List Char) :=
  match spanWhole cs with
  | ([], _) => none
  | (ds, rest) =>
    let (fraction, rest') := (spanFraction rest).getD ([], rest)
    let (exponent, rest'') := (spanExponent rest').getD (0, rest')
    -- only digits alone make an integer; a fraction or an exponent makes a floating-point number
    if (spanFraction rest).isNone && (spanExponent rest').isNone then
      if maxIntegerDigits < ds.length then none
      else
        let n : Int := digitsValue ds
        some (.int (if negative then -n else n), rest)
    else
      some (.float (Binary64.ofDecimal negative (digitsValue (ds ++ fraction))
        (exponent - fraction.length)), rest'')

/-- The words of the language. -/
def words : List (String × Json) :=
  [("null", .null), ("true", .bool true), ("false", .bool false), ("NaN", .float .notANumber),
    ("Infinity", .float (.infinite false)), ("-Infinity", .float (.infinite true))]

/-- Reads a word. -/
def readWord (cs : List Char) : Option (Json × List Char) :=
  words.findSome? fun (word, value) =>
    if word.toList.isPrefixOf cs then some (value, cs.drop word.length) else none

/-- Reads a number or a word. -/
def readAtom : List Char → Option (Json × List Char)
  | '-' :: cs => readNumber true cs <|> readWord ('-' :: cs)
  | cs => readNumber false cs <|> readWord cs

/-- Reads the token at the start of a text. -/
def readToken : List Char → Option (Token × List Char)
  | [] => none
  | '[' :: cs => some (.listOpen, cs)
  | ']' :: cs => some (.listClose, cs)
  | '\x7b' :: cs => some (.objectOpen, cs)
  | '\x7d' :: cs => some (.objectClose, cs)
  | ',' :: cs => some (.comma, cs)
  | ':' :: cs => some (.colon, cs)
  | '"' :: cs => do
    let (units, rest) ← readString cs
    return (.text (String.ofList (joinSurrogates units)), rest)
  | cs => (readAtom cs).map fun (value, rest) => (.atom value, rest)

/-- The tokens of a text up to the first part that is no token, at most `limit` of them, and
whether they make up the whole text. -/
def readTokens : Nat → List Char → List Token × Bool
  | 0, _ => ([], false)
  | limit + 1, cs =>
    match cs.dropWhile isSpace with
    | [] => ([], true)
    | cs =>
      match readToken cs with
      | none => ([], false)
      | some (token, rest) =>
        let (tokens, isWhole) := readTokens limit rest
        (token :: tokens, isWhole)

/-- The tokens that a text starts with. -/
def leadingTokens (cs : List Char) : List Token := (readTokens (cs.length + 1) cs).1

/-- The tokens of a text. -/
def tokens? (cs : List Char) : Option (List Token) :=
  match readTokens (cs.length + 1) cs with
  | (tokens, true) => some tokens
  | (_, false) => none

end TestAtlas.Json
