/-!
# UTF-8

`encode` writes characters as bytes.  `decode` reads bytes one at a time and gives, for each
maximal ill-formed run, one `none`; `decodeLossy` shows it as a replacement character and
`decodeStrict` refuses the text.
-/

namespace TestAtlas.Text.Utf8

/-- The bytes of one character. -/
def encodeChar (c : Char) : List UInt8 :=
  let n := c.toNat
  if n < 0x80 then [n.toUInt8]
  else if n < 0x800 then [(0xC0 + n / 64).toUInt8, (0x80 + n % 64).toUInt8]
  else if n < 0x10000 then
    [(0xE0 + n / 4096).toUInt8, (0x80 + n / 64 % 64).toUInt8, (0x80 + n % 64).toUInt8]
  else
    [(0xF0 + n / 262144).toUInt8, (0x80 + n / 4096 % 64).toUInt8,
      (0x80 + n / 64 % 64).toUInt8, (0x80 + n % 64).toUInt8]

/-- The bytes of a text. -/
def encode (cs : List Char) : List UInt8 := cs.flatMap encodeChar

/-- A character of which the first bytes have been read: the number of bytes still owed, the
bounds of the next one, and the value read so far. -/
structure Pending where
  owed : Nat
  low : Nat
  high : Nat
  value : Nat
  deriving DecidableEq, Repr

/-- What one byte gives: the characters it completes (`none` for an ill-formed run) and the
character it leaves unfinished. -/
abbrev Reading := List (Option Char) × Option Pending

/-- Reads a byte that starts a character. -/
def readLead (b : Nat) : Reading :=
  if b < 0x80 then ([some (Char.ofNat b)], none)
  else if b < 0xC2 then ([none], none)
  else if b < 0xE0 then ([], some ⟨1, 0x80, 0xBF, b - 0xC0⟩)
  else if b = 0xE0 then ([], some ⟨2, 0xA0, 0xBF, 0⟩)
  else if b = 0xED then ([], some ⟨2, 0x80, 0x9F, 0xD⟩)
  else if b < 0xF0 then ([], some ⟨2, 0x80, 0xBF, b - 0xE0⟩)
  else if b = 0xF0 then ([], some ⟨3, 0x90, 0xBF, 0⟩)
  else if b < 0xF4 then ([], some ⟨3, 0x80, 0xBF, b - 0xF0⟩)
  else if b = 0xF4 then ([], some ⟨3, 0x80, 0x8F, 4⟩)
  else ([none], none)

/-- Reads a byte after the first bytes of a character.  A byte that cannot continue it ends an
ill-formed run and is read anew. -/
def readNext (p : Pending) (b : Nat) : Reading :=
  if p.low ≤ b ∧ b ≤ p.high then
    let value := p.value * 64 + (b - 0x80)
    if p.owed ≤ 1 then ([some (Char.ofNat value)], none)
    else ([], some ⟨p.owed - 1, 0x80, 0xBF, value⟩)
  else
    let (out, state) := readLead b
    (none :: out, state)

/-- Reads one byte in the given state. -/
def readByte : Option Pending → Nat → Reading
  | none, b => readLead b
  | some p, b => readNext p b

/-- Reads bytes from the given state to the end. -/
def decodeFrom : Option Pending → List UInt8 → List (Option Char)
  | none, [] => []
  | some _, [] => [none]
  | state, b :: bs =>
    let (out, state') := readByte state b.toNat
    out ++ decodeFrom state' bs

/-- The characters of a byte text, `none` for each maximal ill-formed run. -/
def decode (bs : List UInt8) : List (Option Char) := decodeFrom none bs

/-- The character shown for an ill-formed run. -/
def replacement : Char := '\uFFFD'

/-- The characters of a byte text, with a replacement character for each ill-formed run. -/
def decodeLossy (bs : List UInt8) : List Char := (decode bs).map (·.getD replacement)

/-- The characters of a byte text, if it is well-formed. -/
def decodeStrict (bs : List UInt8) : Option (List Char) := (decode bs).mapM id

@[simp]
theorem encode_nil : encode [] = [] := rfl

@[simp]
theorem encode_cons (c : Char) (cs : List Char) : encode (c :: cs) = encodeChar c ++ encode cs :=
  rfl

@[simp]
theorem decode_nil : decode [] = [] := rfl

end TestAtlas.Text.Utf8
