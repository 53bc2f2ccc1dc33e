import TestAtlas.Json.Token

/-!
# Reading JSON

The reader passes over the tokens once.  It keeps the containers that are still open, the innermost
first, and what may come next; a finished value goes into the innermost container.  Of two members
with one name the later value counts, at the place of the earlier one.  `tooDeep?` tells whether a
reader that allows only so many open containers would have to give up, and at which one.
-/

namespace TestAtlas.Json

/-- A container that is still open. -/
inductive Frame where
  /-- A list with its items so far, last one first. -/
  | list (items : List Json)
  /-- An object with its members so far. -/
  | object (members : List (String × Json))
  /-- An object with its members so far and the name of the next one. -/
  | entry (members : List (String × Json)) (name : String)

/-- What may come next. -/
inductive Expected where
  | value
  | valueOrClose
  | separatorOrClose
  | name
  | nameOrClose
  | colon (name : String)

/-- The state of the reader. -/
inductive Reader where
  | reading (expected : Expected) (frames : List Frame)
  | finished (value : Json)

namespace Reader

/-- The reader before the first token. -/
def start : Reader := .reading .value []

/-- Puts a finished value into the innermost container. -/
def deliver (value : Json) : List Frame → Option Reader
  | [] => some (.finished value)
  | .list items :: frames => some (.reading .separatorOrClose (.list (value :: items) :: frames))
  | .entry members name :: frames =>
    some (.reading .separatorOrClose (.object (insertMember name value members) :: frames))
  | .object _ :: _ => none

/-- Starts a value. -/
def startValue (frames : List Frame) : Token → Option Reader
  | .listOpen => some (.reading .valueOrClose (.list [] :: frames))
  | .objectOpen => some (.reading .nameOrClose (.object [] :: frames))
  | .text s => deliver (.str s) frames
  | .atom value => deliver value frames
  | _ => none

/-- Closes the innermost container. -/
def close : List Frame → Token → Option Reader
  | .list items :: frames, .listClose => deliver (.list items.reverse) frames
  | .object members :: frames, .objectClose => deliver (.object members) frames
  | _, _ => none

/-- Reads one token. -/
def step : Reader → Token → Option Reader
  | .finished _, _ => none
  | .reading expected frames, token =>
    match expected, token with
    | .value, token => startValue frames token
    | .valueOrClose, .listClose => close frames .listClose
    | .valueOrClose, token => startValue frames token
    | .separatorOrClose, .comma =>
      match frames with
      | .list _ :: _ => some (.reading .value frames)
      | .object _ :: _ => some (.reading .name frames)
      | _ => none
    | .separatorOrClose, token => close frames token
    | .name, .text s => some (.reading (.colon s) frames)
    | .nameOrClose, .text s => some (.reading (.colon s) frames)
    | .nameOrClose, token => close frames token
    | .colon s, .colon =>
      match frames with
      | .object members :: frames => some (.reading .value (.entry members s :: frames))
      | _ => none
    | _, _ => none

/-- The number of containers that are open. -/
def depth : Reader → Nat
  | reading _ frames => frames.length
  | finished _ => 0

end Reader

/-- A container that is opened inside too many others. -/
inductive NestingError where
  | list
  | object
  deriving DecidableEq, Repr

/-- What is wrong with the container. -/
def NestingError.message : NestingError → String
  | list => "maximum recursion depth exceeded while decoding a JSON array from a unicode string"
  | object => "maximum recursion depth exceeded while decoding a JSON object from a unicode string"

/-- The container that a token opens, if it is one too many. -/
def Reader.excess? (limit : Nat) (r : Reader) : Token → Option NestingError
  | .listOpen => if limit < r.depth then some .list else none
  | .objectOpen => if limit < r.depth then some .object else none
  | _ => none

/-- The first container that is one too many, in tokens that are read as far as they make sense. -/
def Reader.tooDeep? (limit : Nat) : Reader → List Token → Option NestingError
  | _, [] => none
  | r, token :: tokens =>
    match r.step token with
    | none => none
    | some r =>
      match r.excess? limit token with
      | some e => some e
      | none => r.tooDeep? limit tokens

/-- The first container of a text that is opened inside `limit` others. -/
def tooDeep? (limit : Nat) (text : List Char) : Option NestingError :=
  Reader.start.tooDeep? limit (leadingTokens text)

/-- The value of a list of tokens. -/
def ofTokens? (tokens : List Token) : Option Json :=
  match tokens.foldlM Reader.step Reader.start with
  | some (.finished value) => some value
  | _ => none

/-- The value of a text.  A byte-order mark at its start is refused. -/
def parse? (text : List Char) : Option Json :=
  match tokens? text with
  | some tokens => ofTokens? tokens
  | none => none

end TestAtlas.Json
