import TestAtlas.Settings.Validation
import TestAtlas.Tree.Forest
import TestAtlas.Workspace.Layout

/-!
# The explorer

The explorer keeps a tree of the tests of some workspace folders.  It holds the forest of items,
the survey of the modules with a mark that tells whether the survey still holds, and the texts that
documents were last reported to have.  Every operation is given the workspace as it is at that
time.

`ensure` is the only way in which modules, folders, packages and files get into the tree: it finds
the item of a container at a place or makes it.
-/

namespace TestAtlas

/-- The state of an explorer. -/
structure Explorer where
  conventions : Conventions
  folders : List String
  forest : Forest
  survey : Survey
  /-- The owners of the survey were found for the present folders and manifests. -/
  isSurveyed : Bool
  /-- The texts that documents were last reported to have, by location. -/
  documents : Keyed String String

/-- Why a call fails, and the explorer that it leaves.  What was done before stays done. -/
structure Refusal where
  error : TreeError
  explorer : Explorer

namespace Explorer

/-- The explorer of some folders, with an empty tree. -/
def start (w : Workspace) (c : Conventions) (folders : List String) : Explorer where
  conventions := c
  folders := (folders.map (Path.canonical w.cwd)).eraseDups
  forest := .empty
  survey := .empty
  isSurveyed := false
  documents := .empty

/-- Reports further events. -/
def report (e : Explorer) (events : List Event) : Explorer :=
  { e with survey := e.survey.report events }

/-- The events reported so far. -/
def events (e : Explorer) : List Event := e.survey.events

/-- The conventions that settings ask for. -/
def conventionsOf (s : Settings) : Except Expression.LimitError Conventions := do
  let excluded ← Expression.ofTexts s.excludePatterns
  return {
    manifestName := s.manifestName
    testSuffix := s.testFileSuffix
    sourceExtensions := s.sourceExtensions
    excluded }

/-- The explorer that a settings document asks for.  What is wrong with the document is reported. -/
def ofSettings (w : Workspace) (document : Json) : Except Expression.LimitError Explorer := do
  let (settings, problems) := Settings.validateLenient document
  let conventions ← conventionsOf settings
  return (start w conventions settings.workspaceFolders).report
    (problems.map fun p => .settingsWarning p.warning)

/-- Surveys the folders if the survey no longer holds. -/
def surveyed (e : Explorer) (w : Workspace) : Explorer :=
  if e.isSurveyed then e
  else { e with survey := e.survey.build w e.conventions e.folders, isSurveyed := true }

/-- The result of a change that leaves the explorer as it is if it fails. -/
def attempt {α : Type} (e : Explorer) (change : Except TreeError α) : Except Refusal α :=
  change.mapError fun err => ⟨err, e⟩

/-- The item of a container at a place.  If it is missing it is made and put behind the others. -/
def ensure [StandIns] (e : Explorer) (w : Workspace) (place : Place) (c : Container) :
    Except Refusal (ItemNo × Explorer) :=
  e.attempt <|
    match Id.ofKind w.cwd c.location c.kind none with
    | .error err => .error (.cannotBuildId err)
    | .ok id =>
      match e.forest.find? place id with
      | some n => .ok (n, e)
      | none => do
        let (n, forest) ← e.forest.create id c.label c.location
        let forest ← forest.add n place
        return (n, { e with forest }.report [.added id])

/-- Makes the missing items of several containers at a place. -/
def ensureAll [StandIns] (e : Explorer) (w : Workspace) (place : Place) :
    List Container → Except Refusal Explorer
  | [] => .ok e
  | c :: cs => do
    let (_, e) ← e.ensure w place c
    e.ensureAll w place cs

/-- The items at a location, each before those below it. -/
def find (e : Explorer) (w : Workspace) (path : String) : List ItemNo :=
  e.forest.locatedAt w.cwd .top path

theorem surveyed_of_isSurveyed {e : Explorer} (h : e.isSurveyed) (w : Workspace) :
    e.surveyed w = e := by
  simp [surveyed, h]

@[simp]
theorem isSurveyed_surveyed (e : Explorer) (w : Workspace) : (e.surveyed w).isSurveyed = true := by
  unfold surveyed
  split <;> simp_all

@[simp]
theorem forest_surveyed (e : Explorer) (w : Workspace) : (e.surveyed w).forest = e.forest := by
  unfold surveyed
  split <;> rfl

@[simp]
theorem attempt_ok {α : Type} (e : Explorer) (a : α) : e.attempt (.ok a) = .ok a := rfl

@[simp]
theorem attempt_error {α : Type} (e : Explorer) (err : TreeError) :
    e.attempt (.error err : Except TreeError α) = .error ⟨err, e⟩ :=
  rfl

theorem mapError_eq_ok_iff {ε ε' α : Type} {f : ε → ε'} {x : Except ε α} {a : α} :
    x.mapError f = .ok a ↔ x = .ok a := by
  cases x with
  | ok b =>
      exact ⟨fun h => congrArg Except.ok (Except.ok.inj h), fun h => congrArg Except.ok (Except.ok.inj h)⟩
  | error e => exact iff_of_false nofun nofun

theorem attempt_eq_ok_iff {α : Type} {e : Explorer} {change : Except TreeError α} {a : α} :
    e.attempt change = .ok a ↔ change = .ok a :=
  mapError_eq_ok_iff

/-- An item that is at the place already is taken as it is. -/
theorem ensure_of_find?_eq {e : Explorer} {w : Workspace} {place : Place} {c : Container}
    {n : ItemNo} (hk : c.kind.isLeaf = false)
    (h : e.forest.find? place (Id.container w.cwd c.location c.kind) = some n) :
    e.ensure w place c = .ok (n, e) := by
  simp [ensure, Id.ofKind_of_not_leaf hk, h]

end Explorer

end TestAtlas
