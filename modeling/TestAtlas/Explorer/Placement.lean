import TestAtlas.Explorer.Basic

/-!
# Where a file belongs in the tree

A file belongs below the module that owns its directory, or else below the longest workspace folder
that contains it.  If its directory is not that of the root, a package stands in between.  Files
outside every module and folder and files inside a directory that is left out belong nowhere.
-/

namespace TestAtlas.Explorer

/-- The longest of several texts, the first of those equally long. -/
def longest : List String → Option String
  | [] => none
  | f :: fs => some (fs.foldl (fun best f => if best.length < f.length then f else best) f)

/-- The longest workspace folder that contains a directory. -/
def folderAround (e : Explorer) (w : Workspace) (directory : String) : Option String :=
  longest (e.folders.filter fun f => Path.isWithin w.cwd directory f)

/-- A segment on the way from the root down to the directory is left out. -/
def isLeftOut (c : Conventions) (directory root : String) : Bool :=
  (Path.relative directory root).any c.isExcluded

/-- The item of the root at a directory, a module or a workspace folder. -/
def ensureRoot [StandIns] (e : Explorer) (w : Workspace) (isModule : Bool) (root : String) :
    Except Refusal (ItemNo × Explorer) :=
  if isModule then
    -- the manifest is read for the label even if the item is there already
    let (label, survey) := e.survey.moduleName w e.conventions root
    { e with survey }.ensure w .top ⟨.module, root, label⟩
  else e.ensure w .top (.plain .workspace root)

/-- The item of a file with the root and the package above it, made where they are missing; nothing
if the file belongs nowhere. -/
def ensureFile [StandIns] (e : Explorer) (w : Workspace) (path : String) :
    Except Refusal (Option ItemNo × Explorer) :=
  let e := e.surveyed w
  let file := Path.canonical w.cwd path
  let directory := Path.directoryPart file
  let (owner, survey) := e.survey.ownerOf w e.conventions directory
  let e := { e with survey }
  match owner <|> e.folderAround w directory with
  | none => .ok (none, e.report [.outsideFolders file])
  | some root =>
    if isLeftOut e.conventions directory root then .ok (none, e.report [.insideExcluded file])
    else do
      let (n, e) ← e.ensureRoot w owner.isSome root
      let (n, e) ←
        if directory = root then .ok (n, e)
        else e.ensure w (.under n) (.plain .package directory)
      let (n, e) ← e.ensure w (.under n) (.plain .file file)
      return (some n, e)

theorem longest_eq_none_iff {fs : List String} : longest fs = none ↔ fs = [] := by
  cases fs <;> simp [longest]

theorem isLeftOut_self (c : Conventions) (directory : String) :
    isLeftOut c directory directory = false := by
  have h : ∀ ss : List String, Path.dropCommon ss ss = ([], []) := by
    intro ss
    induction ss with
    | nil => rfl
    | cons s ss ih => simp [Path.dropCommon, ih]
  simp [isLeftOut, Path.relative, h]

end TestAtlas.Explorer
