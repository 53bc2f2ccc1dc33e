import TestAtlas.Explorer.Expansion
import TestAtlas.Explorer.Placement
import TestAtlas.Explorer.Removal
import TestAtlas.Outline.Provider
import TestAtlas.Tree.Reconcile

/-!
# Calls

What is asked of the explorer is a `Request`.  Most requests are answered at once.  Those that need
the symbols of a document have two parts: `begin` notes what is waited for, and `finish` does the
rest once the symbols are known.  Between the two other requests may be served.  `call` does both
parts without anything in between.
-/

namespace TestAtlas

/-- What is asked of the explorer. -/
inductive Request where
  /-- Fill in the top items. -/
  | expandTop
  /-- Fill in what is directly below an item. -/
  | expand (item : ItemNo)
  /-- A document was opened or changed. -/
  | update (document : Document)
  | fileCreated (path : String)
  | fileDeleted (path : String)
  | foldersChanged (added removed : List String)
  deriving DecidableEq, Repr

/-- What is left to do once the symbols of a document are known. -/
inductive Pending where
  /-- Place the document and bring its leaves up to date. -/
  | update (document : Document)
  /-- Bring the leaves of a file item up to date. -/
  | refresh (item : ItemNo) (document : Document)
  deriving DecidableEq, Repr

/-- The answer to a request. -/
inductive Answer where
  | done
  /-- What happened to the leaves; nothing if the document is of no interest. -/
  | reconciled (result : Option Reconciliation)
  | removed (ids : List String)
  /-- The call ended with an error. -/
  | failed (error : TreeError)
  deriving DecidableEq, Repr

/-- How far a call has come. -/
inductive Progress where
  | answered (answer : Answer)
  | waiting (pending : Pending)
  deriving DecidableEq, Repr

namespace Explorer

/-- Brings the leaves of a file item up to date. -/
def reconcile [StandIns] (e : Explorer) (w : Workspace) (n : ItemNo) (leaves : List Leaf) :
    Except Refusal (Reconciliation × Explorer) := do
  let (result, forest) ← e.attempt (e.forest.reconcile w.cwd n leaves)
  return (result, { e with forest }.report (forest.reconciliationEvents n result))

/-- Begins to refresh the leaves of a file item: with the text its document was last reported to
have, else with the content of the file.  A file that cannot be read has no leaves. -/
def beginRefresh [StandIns] (e : Explorer) (w : Workspace) (n : ItemNo) (item : Item) :
    Except Refusal (Progress × Explorer) :=
  match e.documents.get? item.location with
  | some text => .ok (.waiting (.refresh n ⟨item.location, text, 0⟩), e)
  | none =>
    match w.readContent item.location with
    | .ok text => .ok (.waiting (.refresh n ⟨item.location, text, 0⟩), e)
    | .error err => do
      -- no symbols are needed to take all leaves out
      let (_, e) ← (e.report [.cannotReadFile item.location err]).reconcile w n []
      return (.answered .done, e)

/-- Begins to fill in what is directly below an item of the tree. -/
def beginExpand [StandIns] (e : Explorer) (w : Workspace) (n : ItemNo) :
    Except Refusal (Progress × Explorer) :=
  match e.forest.item? n with
  | none => .error ⟨.unknownItem "", e⟩
  | some item =>
    if !e.forest.isAttached n then .error ⟨.unknownItem item.id, e⟩
    else
      match item.kind with
      | .module | .workspace => return (.answered .done, ← e.expandRoot w n item)
      | .package => return (.answered .done, ← e.expandPackage w n item)
      | .file => e.beginRefresh w n item
      | .test | .benchmark | .example => .ok (.answered .done, e)

/-- Begins an update.  Only test files are of interest. -/
def beginUpdate (e : Explorer) (w : Workspace) (d : Document) : Progress :=
  if e.conventions.isTestFile (Path.base w.cwd d.path) then .waiting (.update d)
  else .answered (.reconciled none)

/-- Takes note of a new file: a manifest makes the survey void, a test file is updated. -/
def beginCreated (e : Explorer) (w : Workspace) (path : String) : Progress × Explorer :=
  let name := Path.base w.cwd path
  if name = e.conventions.manifestName then
    (.answered (.reconciled none), { e with isSurveyed := false })
  else if !e.conventions.isTestFile name then (.answered (.reconciled none), e)
  else
    match w.readContent path with
    | .error err => (.answered (.reconciled none), e.report [.cannotReadCreated path err])
    | .ok text => (e.beginUpdate w ⟨Path.canonical w.cwd path, text, 0⟩, e)

/-- Serves a request up to the point where symbols are needed. -/
def begin [StandIns] (e : Explorer) (w : Workspace) :
    Request → Except Refusal (Progress × Explorer)
  | .expandTop => return (.answered .done, ← e.expandTop w)
  | .expand n => e.beginExpand w n
  | .update d => .ok (e.beginUpdate w d, e)
  | .fileCreated path => .ok (e.beginCreated w path)
  | .fileDeleted path => do
    let (ids, e) ← e.remove w path
    return (.answered (.removed ids), e)
  | .foldersChanged added removed =>
    return (.answered .done, ← e.changeFolders w added removed)

/-- The event of asking a provider for symbols, if it fails. -/
def symbolEvents (p : SymbolProvider) (d : Document) : List Event :=
  match p.failure? d with
  | some reason => [.symbolsFailed d.path reason]
  | none => []

/-- Places a document in the tree, keeps its text and brings its leaves up to date. -/
def finishUpdate [StandIns] (e : Explorer) (w : Workspace) (d : Document) (leaves : List Leaf) :
    Except Refusal (Option Reconciliation × Explorer) := do
  match ← e.ensureFile w d.path with
  | (none, e) => return (none, e)
  | (some n, e) =>
    let location := ((e.forest.item? n).map Item.location).getD ""
    let e := { e with documents := e.documents.insert location d.text }
    let (result, e) ← e.reconcile w n leaves
    return (some result, e)

/-- Serves the rest of a request once the symbols are known. -/
def finish [StandIns] (e : Explorer) (w : Workspace) (p : SymbolProvider) :
    Pending → Except Refusal (Answer × Explorer)
  | .update d => do
    let (result, e) ← (e.report (symbolEvents p d)).finishUpdate w d (p.leaves d)
    return (.reconciled result, e)
  | .refresh n d => do
    let (_, e) ← (e.report (symbolEvents p d)).reconcile w n (p.leaves d)
    return (.done, e)

/-- Serves a request with nothing in between. -/
def call [StandIns] (e : Explorer) (w : Workspace) (p : SymbolProvider) (r : Request) :
    Except Refusal (Answer × Explorer) := do
  match ← e.begin w r with
  | (.answered answer, e) => return (answer, e)
  | (.waiting pending, e) => e.finish w p pending

theorem begin_update [StandIns] (e : Explorer) (w : Workspace) (d : Document) :
    e.begin w (.update d) = .ok (e.beginUpdate w d, e) := rfl

/-- A document that is no test file is of no interest. -/
theorem call_update_of_not_test [StandIns] {e : Explorer} {w : Workspace} {p : SymbolProvider}
    {d : Document} (h : e.conventions.isTestFile (Path.base w.cwd d.path) = false) :
    e.call w p (.update d) = .ok (.reconciled none, e) := by
  simp [call, begin_update, beginUpdate, h, bind, Except.bind, pure, Except.pure]

theorem call_update_of_isTestFile {e : Explorer} {w : Workspace} {p : SymbolProvider} {d : Document}
    (h : e.conventions.isTestFile (Path.base w.cwd d.path) = true) :
    e.call w p (.update d) = e.finish w p (.update d) := by
  simp only [call, begin_update, beginUpdate, h, if_true, bind, Except.bind]

end Explorer

end TestAtlas
