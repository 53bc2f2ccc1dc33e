import TestAtlas.Path

/-!
# Names of files

A test file has the test suffix and something before it.  A source file has one of the source
extensions; dots at the start of a name begin no extension.
-/

namespace TestAtlas.FileName

open Text

/-- The name ends in the suffix and is longer. -/
def isTest (suffix name : String) : Bool :=
  suffix.length < name.length && suffix.toList.isSuffixOf name.toList

/-- The last dot of a name and what follows it, provided that something other than dots stands
before it. -/
def extensionChars (name : List Char) : List Char :=
  match cutLast '.' (Path.splitLast name).2 with
  | some (before, after) => if before.all (· == '.') then [] else '.' :: after
  | none => []

/-- The extension of a name, with its dot; empty if there is none. -/
def extension (name : String) : String := String.ofList (extensionChars name.toList)

/-- The extension of the name is one of those given. -/
def isSource (extensions : List String) (name : String) : Bool :=
  extensions.contains (extension name)

theorem isTest_append {suffix stem : String} (h : stem ≠ "") :
    isTest suffix (stem ++ suffix) = true := by
  have : stem.length ≠ 0 := by simpa using h
  simp [isTest]
  omega

theorem isTest_eq_false_of_length_le {suffix name : String} (h : name.length ≤ suffix.length) :
    isTest suffix name = false := by
  simp only [isTest, Bool.and_eq_false_iff, decide_eq_false_iff_not]
  exact Or.inl (by omega)

end TestAtlas.FileName
