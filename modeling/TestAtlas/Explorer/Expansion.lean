import TestAtlas.Explorer.Basic

/-!
# Filling in the tree step by step

The tree is filled in as far as it is looked at: first the top items, then the packages and files
of a root, then the files of a package.  Items that are there already are kept.  The leaves of a
file come from the symbols of a document and are not filled in here.
-/

namespace TestAtlas.Explorer

/-- Makes the missing top items. -/
def expandTop [StandIns] (e : Explorer) (w : Workspace) : Except Refusal Explorer :=
  let e := e.surveyed w
  let (roots, survey) := e.survey.buildRoots w e.conventions e.folders
  { e with survey }.ensureAll w .top roots

/-- The owner of the packages of a root: the module itself, and nothing for a workspace folder. -/
def ownerOfRoot (item : Item) : Owner :=
  if item.kind = .module ∧ item.location ≠ "" then some item.location else none

/-- Makes the missing packages of a root, then its missing files. -/
def expandRoot [StandIns] (e : Explorer) (w : Workspace) (n : ItemNo) (item : Item) :
    Except Refusal Explorer :=
  let e := e.surveyed w
  let (packages, files, survey) :=
    e.survey.rootChildren w e.conventions item.location (ownerOfRoot item)
  { e with survey }.ensureAll w (.under n)
    (packages.map (Container.plain .package) ++ files.map (Container.plain .file))

/-- Makes the missing files of a package. -/
def expandPackage [StandIns] (e : Explorer) (w : Workspace) (n : ItemNo) (item : Item) :
    Except Refusal Explorer :=
  let (files, survey) := e.survey.packageFiles w e.conventions item.location
  { e with survey }.ensureAll w (.under n) (files.map (Container.plain .file))

end TestAtlas.Explorer
