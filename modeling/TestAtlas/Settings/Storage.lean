import TestAtlas.Json.Reader
import TestAtlas.Json.Writer
import TestAtlas.Settings.Basic
import TestAtlas.Text.Utf8

/-!
# Keeping settings in a file

A settings file is a JSON object in UTF-8.  Loading lays its members over the default ones; a file
that is missing, cannot be read or holds something else gives the default settings.  Only a file
whose containers lie too deep inside one another is given up.  The version is always the current
one, in what is loaded and in what is saved: saving puts it into a copy of the object it is given.
-/

namespace TestAtlas.Settings

open Text

/-- What is found at the place of a settings file. -/
inductive StoredFile where
  | missing
  | directory
  | bytes (content : List UInt8)
  deriving DecidableEq, Repr

/-- The members with those of the second list written over them. -/
def overlay (base upper : List (String × Json)) : List (String × Json) :=
  upper.foldl (fun ms m => Json.insertMember m.1 m.2 ms) base

/-- The members with the current version among them. -/
def withVersion (members : List (String × Json)) : List (String × Json) :=
  Json.insertMember "version" (.str currentVersion) members

/-- The value that a file holds. -/
def StoredFile.json? : StoredFile → Option Json
  | bytes content => (Utf8.decodeStrict content).bind Json.parse?
  | _ => none

/-- A container of a settings file can lie inside fewer others than this. -/
def maxNesting : Nat := 991

/-- The first container of a file that lies too deep. -/
def StoredFile.tooDeep? : StoredFile → Option Json.NestingError
  | bytes content => (Utf8.decodeStrict content).bind (Json.tooDeep? maxNesting)
  | _ => none

/-- The settings members a file gives, unless one of its containers lies too deep. -/
def tryLoad (file : StoredFile) : Except Json.NestingError (List (String × Json)) :=
  match file.tooDeep?, file.json? with
  | some e, _ => .error e
  | none, some (.object members) => .ok (withVersion (overlay default.members members))
  | none, _ => .ok default.members

/-- Why settings cannot be written as a whole. -/
inductive SaveError where
  /-- The directory of the file cannot be made. -/
  | blocked
  /-- A directory stands in the place of the file. -/
  | directory
  | notWritable (e : Json.WriteError)
  deriving DecidableEq, Repr

/-- So many containers that are not empty can be written inside one another. -/
def maxWritten : Nat := 994

/-- The file after an object is written over what was there before. -/
def writeOver (before : StoredFile) (payload : List (String × Json)) :
    Except SaveError StoredFile :=
  if before = .directory then .error .directory
  else
    match Json.writeError? maxWritten (.object payload) with
    | some e => .error (.notWritable e)
    | none => .ok (.bytes (Utf8.encode (Json.write .indented (.object payload)).toList))

end TestAtlas.Settings

namespace TestAtlas

/-- The objects of a program.  Whoever knows the number of one can change its members. -/
structure Objects where
  members : Array (List (String × Json))

namespace Objects

/-- The members of an object. -/
def get (o : Objects) (k : Nat) : List (String × Json) := o.members[k]?.getD []

/-- Makes a new object with the members of another one, and gives its number. -/
def copy (o : Objects) (k : Nat) : Nat × Objects := (o.members.size, ⟨o.members.push (o.get k)⟩)

/-- Writes a member into an object. -/
def setMember (o : Objects) (k : Nat) (name : String) (value : Json) : Objects :=
  ⟨o.members.modify k (Json.insertMember name value)⟩

/-- Saves an object over what was there before.  What is written is a copy with the current
version. -/
def save (o : Objects) (k : Nat) (before : Settings.StoredFile) (directoryBlocked : Bool) :
    Except Settings.SaveError Settings.StoredFile × Objects :=
  if directoryBlocked then (.error .blocked, o)
  else
    let (payload, o) := o.copy k
    let o := o.setMember payload "version" (.str Settings.currentVersion)
    (Settings.writeOver before (o.get payload), o)

end Objects

end TestAtlas
