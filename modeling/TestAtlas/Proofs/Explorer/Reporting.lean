import TestAtlas.Explorer.Session
import TestAtlas.Proofs.Explorer.Placement

/-!
# What was reported does not matter

The explorer keeps what it reports and never looks at it.  So with other events behind it an
operation does the same and has the same result, and of two explorers that differ in what they have
reported only, each request makes two that do again.  The main statements are `begin_congr` and
`finish_congr`.
-/

namespace TestAtlas

namespace Survey

/-- The survey with further events behind it. -/
def after (earlier : List Event) (s : Survey) : Survey := ⟨s.owners, earlier ++ s.events⟩

section After

variable (earlier : List Event) (s : Survey) (w : Workspace) (c : Conventions)

@[simp]
theorem owners_after : (s.after earlier).owners = s.owners := rfl

theorem report_after (events : List Event) :
    (s.after earlier).report events = (s.report events).after earlier := by
  rw [report, report, after, after, List.append_assoc]

theorem list_after (directory : String) :
    list w (s.after earlier) directory = (list w s directory).map id (after earlier) := by
  rw [list, list, report_after]
  rfl

theorem walk_after (root : String) :
    walk w c (s.after earlier) root = (walk w c s root).after earlier := by
  simp [walk, after]

theorem foldl_walk_after (roots : List String) :
    roots.foldl (walk w c) (s.after earlier) = (roots.foldl (walk w c) s).after earlier := by
  induction roots generalizing s with
  | nil => rfl
  | cons root roots ih => rw [List.foldl_cons, List.foldl_cons, walk_after, ih]

theorem build_after (roots : List String) :
    build w c (s.after earlier) roots = (build w c s roots).after earlier := by
  have hempty : (⟨Keyed.empty, (s.after earlier).events⟩ : Survey) =
      (⟨Keyed.empty, s.events⟩ : Survey).after earlier := rfl
  simp only [build]
  rw [hempty, foldl_walk_after, report_after, owners_after]

theorem ownerOf_after (path : String) :
    ownerOf w c (s.after earlier) path = (ownerOf w c s path).map id (after earlier) := by
  simp [ownerOf, after]

theorem moduleRootsWithin_after (under : String) :
    moduleRootsWithin w (s.after earlier) under = moduleRootsWithin w s under := by
  rw [moduleRootsWithin, moduleRootsWithin, moduleRoots, moduleRoots, owners_after]

theorem moduleName_after (root : String) :
    moduleName w c (s.after earlier) root = (moduleName w c s root).map id (after earlier) := by
  simp only [moduleName]
  split
  · rw [report_after]
    rfl
  · rfl

theorem emit_after (roots : List Container) (kind : Kind) (path : String) :
    emit w c roots (s.after earlier) kind path =
      (emit w c roots s kind path).map id (after earlier) := by
  unfold emit
  split
  · rfl
  · split
    · rw [moduleName_after]
      rfl
    · rfl

theorem emitModules_after (roots : List Container) (paths : List String) :
    emitModules w c roots (s.after earlier) paths =
      (emitModules w c roots s paths).map id (after earlier) := by
  unfold emitModules
  show List.foldl _ (Prod.map id (after earlier) (roots, s)) paths = _
  refine List.foldl_hom _ ?_
  rintro ⟨roots, s⟩ path
  exact emit_after earlier s w c roots .module path

theorem folderRoots_after (roots : List Container) (folder : String) :
    folderRoots w c roots (s.after earlier) folder =
      (folderRoots w c roots s folder).map id (after earlier) := by
  unfold folderRoots
  generalize Path.canonical w.cwd folder = root
  simp only [ownerOf_after]
  obtain ⟨owner, t⟩ := ownerOf w c s root
  simp only [Prod.map_apply, id_eq, moduleRootsWithin_after]
  generalize (moduleRootsWithin w t root).filter (· ≠ root) = nested
  cases owner with
  | some owner => exact emitModules_after earlier t w c roots _
  | none =>
      simp only [emitModules_after]
      obtain ⟨roots, t⟩ := emitModules w c roots t nested
      simp only [Prod.map_apply, id_eq, owners_after, report_after, emit_after]
      split
      · rfl
      · split
        · rfl
        · rfl

theorem buildRoots_after (folders : List String) :
    buildRoots w c (s.after earlier) folders =
      (buildRoots w c s folders).map id (after earlier) := by
  have hfold : folders.foldl (fun x f => folderRoots w c x.1 x.2 f)
      (Prod.map id (after earlier) ([], s)) = Prod.map id (after earlier)
        (folders.foldl (fun x f => folderRoots w c x.1 x.2 f) ([], s)) :=
    List.foldl_hom _ fun x f => folderRoots_after earlier x.2 w c x.1 f
  rw [Prod.map_apply, id_eq] at hfold
  simp only [buildRoots, hfold, Prod.map_fst, Prod.map_snd, id_eq, report_after]
  rfl

theorem packagesFrom_after (owner : Owner) (depth : Nat) (directories : List String) :
    packagesFrom w c owner depth directories (s.after earlier) =
      (packagesFrom w c owner depth directories s).map id (after earlier) := by
  induction depth generalizing directories s with
  | zero => rfl
  | succ depth ihdepth =>
      rw [packagesFrom, packagesFrom]
      show List.foldl _ (Prod.map id (after earlier) ([], s)) directories = _
      refine List.foldl_hom _ ?_
      rintro ⟨found, s⟩ d
      simp only [Prod.map_fst, Prod.map_snd, id_eq, ownerOf_after, list_after, ihdepth]
      split
      · rfl
      · rfl

theorem rootChildren_after (root : String) (owner : Owner) :
    rootChildren w c (s.after earlier) root owner =
      (rootChildren w c s root owner).map id (Prod.map id (after earlier)) := by
  simp only [rootChildren, list_after, Prod.map_fst, Prod.map_snd, id_eq, packagesFrom_after]
  rfl

theorem packageFiles_after (directory : String) :
    packageFiles w c (s.after earlier) directory =
      (packageFiles w c s directory).map id (after earlier) := by
  simp only [packageFiles, list_after, Prod.map_fst, Prod.map_snd, id_eq]
  rfl

end After

section Silent

variable {s t : Survey}

theorem after_bare (s : Survey) : (⟨s.owners, []⟩ : Survey).after s.events = s := by
  rw [after, List.append_nil]

/-- The roots that are found depend only on the owners that are known. -/
theorem fst_buildRoots_congr (h : t.owners = s.owners) (w : Workspace) (c : Conventions)
    (folders : List String) : (buildRoots w c t folders).1 = (buildRoots w c s folders).1 := by
  rw [← after_bare t, ← after_bare s, buildRoots_after, buildRoots_after, h]
  rfl

end Silent

end Survey

namespace Explorer

/-- A result with its explorer changed, be it the one that there is or the one that is left. -/
def adjusted {α β : Type} (f : Explorer → Explorer) (g : α → β) :
    Except Refusal α → Except Refusal β
  | .ok a => .ok (g a)
  | .error r => .error ⟨r.error, f r.explorer⟩

/-- The explorer with further events behind it. -/
def after (earlier : List Event) (e : Explorer) : Explorer :=
  { e with survey := e.survey.after earlier }

section After

variable (earlier : List Event) (e : Explorer) (w : Workspace) (p : SymbolProvider)

@[simp]
theorem forest_after : (e.after earlier).forest = e.forest := rfl

@[simp]
theorem conventions_after : (e.after earlier).conventions = e.conventions := rfl

@[simp]
theorem folders_after : (e.after earlier).folders = e.folders := rfl

@[simp]
theorem documents_after : (e.after earlier).documents = e.documents := rfl

@[simp]
theorem isSurveyed_after : (e.after earlier).isSurveyed = e.isSurveyed := rfl

@[simp]
theorem survey_after : (e.after earlier).survey = e.survey.after earlier := rfl

theorem report_after (events : List Event) :
    (e.after earlier).report events = (e.report events).after earlier := by
  rw [report, after, Survey.report_after]
  rfl

theorem surveyed_after : (e.after earlier).surveyed w = (e.surveyed w).after earlier := by
  unfold surveyed
  rw [isSurveyed_after]
  split
  · rfl
  · simp only [after, Survey.build_after]

theorem ensure_after (place : Place) (c : Container) :
    (e.after earlier).ensure w place c =
      adjusted (after earlier) (Prod.map id (after earlier)) (e.ensure w place c) := by
  unfold ensure
  rw [forest_after]
  split
  · rfl
  · split
    · rfl
    · rename_i id _ _ _
      cases hcreate : e.forest.create id c.label c.location with
      | error err => rfl
      | ok made =>
          cases hadd : made.2.add made.1 place with
          | error err => simp only [hadd, bind, Except.bind, attempt_error, adjusted]
          | ok forest =>
              simp only [hadd, bind, Except.bind]
              exact congrArg (fun e => Except.ok (made.1, e))
                (report_after earlier { e with forest } [.added id])

theorem ensureAll_after (place : Place) (cs : List Container) :
    (e.after earlier).ensureAll w place cs =
      adjusted (after earlier) (after earlier) (e.ensureAll w place cs) := by
  induction cs generalizing e with
  | nil => rfl
  | cons c cs ih =>
      rw [ensureAll, ensureAll, ensure_after]
      cases e.ensure w place c with
      | error err => rfl
      | ok made => exact ih made.2

theorem expandTop_after :
    (e.after earlier).expandTop w = adjusted (after earlier) (after earlier) (e.expandTop w) := by
  unfold expandTop
  simp only [surveyed_after]
  generalize e.surveyed w = e
  simp only [survey_after, conventions_after, folders_after, Survey.buildRoots_after]
  obtain ⟨roots, survey⟩ := e.survey.buildRoots w e.conventions e.folders
  exact ensureAll_after earlier { e with survey } w .top roots

theorem expandRoot_after (n : ItemNo) (item : Item) :
    (e.after earlier).expandRoot w n item =
      adjusted (after earlier) (after earlier) (e.expandRoot w n item) := by
  unfold expandRoot
  simp only [surveyed_after]
  generalize e.surveyed w = e
  simp only [survey_after, conventions_after, Survey.rootChildren_after]
  obtain ⟨packages, files, survey⟩ :=
    e.survey.rootChildren w e.conventions item.location (ownerOfRoot item)
  exact ensureAll_after earlier { e with survey } w (.under n) _

theorem expandPackage_after (n : ItemNo) (item : Item) :
    (e.after earlier).expandPackage w n item =
      adjusted (after earlier) (after earlier) (e.expandPackage w n item) := by
  unfold expandPackage
  simp only [survey_after, conventions_after, Survey.packageFiles_after]
  obtain ⟨files, survey⟩ := e.survey.packageFiles w e.conventions item.location
  exact ensureAll_after earlier { e with survey } w (.under n) _

theorem lookedUp_after (directory : String) :
    (e.after earlier).lookedUp w directory =
      (e.lookedUp w directory).map id (after earlier) := by
  unfold lookedUp
  simp only [surveyed_after]
  generalize e.surveyed w = e
  simp only [survey_after, conventions_after, Survey.ownerOf_after]
  rfl

theorem labelled_after (isModule : Bool) (root : String) :
    (e.after earlier).labelled w isModule root = (e.labelled w isModule root).after earlier := by
  unfold labelled
  split
  · simp only [survey_after, conventions_after, Survey.moduleName_after]
    rfl
  · rfl

theorem ensureChain_after (n : ItemNo) (cs : List Container) :
    (e.after earlier).ensureChain w n cs =
      adjusted (after earlier) (Prod.map id (after earlier)) (e.ensureChain w n cs) := by
  induction cs generalizing e n with
  | nil => rfl
  | cons c cs ih =>
      rw [ensureChain, ensureChain, ensure_after]
      cases e.ensure w (.under n) c with
      | error err => rfl
      | ok made => exact ih made.2 made.1

theorem folderAround_after (directory : String) :
    (e.after earlier).folderAround w directory = e.folderAround w directory := rfl

theorem ensureFile_after (path : String) :
    (e.after earlier).ensureFile w path =
      adjusted (after earlier) (Prod.map id (after earlier)) (e.ensureFile w path) := by
  have hlooked := lookedUp_after earlier e w
    (Path.directoryPart (Path.canonical w.cwd path))
  cases hs : e.lookedUp w (Path.directoryPart (Path.canonical w.cwd path)) with
  | mk owner s =>
      rw [hs, Prod.map_apply, id_eq] at hlooked
      rw [ensureFile_eq e w path rfl rfl hs, ensureFile_eq (e.after earlier) w path rfl rfl hlooked,
        folderAround_after, conventions_after]
      generalize Path.canonical w.cwd path = file
      cases owner <|> s.folderAround w (Path.directoryPart file) with
      | none => simp only [report_after, adjusted, Prod.map_apply, id_eq]
      | some root =>
          simp only
          split
          · simp only [report_after, adjusted, Prod.map_apply, id_eq]
          · rw [labelled_after, ensure_after]
            cases (s.labelled w owner.isSome root).ensure w .top
              (rootContainer w s.conventions owner.isSome root) with
            | error err => rfl
            | ok made =>
                simp only [adjusted, bind, Except.bind, Prod.map_fst, Prod.map_snd, id_eq,
                  ensureChain_after]
                cases made.2.ensureChain w made.1
                  (chainBelow root (Path.directoryPart file) file) <;> rfl

theorem remove_after (path : String) :
    (e.after earlier).remove w path =
      adjusted (after earlier) (Prod.map id (after earlier)) (e.remove w path) := by
  unfold remove
  generalize Path.canonical w.cwd path = target
  simp only [forest_after]
  cases e.forest.pruneAll (e.forest.containersWithin w.cwd target) with
  | error err => rfl
  | ok pruned =>
      simp only [attempt_ok, bind, Except.bind, pure, Except.pure, adjusted, Prod.map_apply, id_eq]
      split
      · rfl
      · exact congrArg (fun e => Except.ok (pruned.1, e)) (report_after earlier { e with
          isSurveyed := e.isSurveyed && Path.lastPart target != e.conventions.manifestName
          documents := e.documents.filter fun d => !Path.isWithin w.cwd d.1 target
          forest := pruned.2 } _)

theorem dropRoot_after (removed : List String) (n : ItemNo) :
    dropRoot w removed (e.after earlier) n = (dropRoot w removed e n).after earlier := by
  unfold dropRoot
  rw [forest_after]
  split
  · split
    · rename_i item _ _
      exact report_after earlier { e with forest := (e.forest.delete .top item.id).2 } _
    · rfl
  · rfl

theorem foldl_dropRoot_after (removed : List String) (ns : List ItemNo) :
    ns.foldl (dropRoot w removed) (e.after earlier) =
      (ns.foldl (dropRoot w removed) e).after earlier :=
  List.foldl_hom _ fun e n => dropRoot_after earlier e w removed n

theorem changeFolders_after (added removed : List String) :
    (e.after earlier).changeFolders w added removed =
      adjusted (after earlier) (after earlier) (e.changeFolders w added removed) := by
  unfold changeFolders
  generalize removed.map (Path.canonical w.cwd) = removed
  generalize added.map (Path.canonical w.cwd) = added
  let changed : Explorer := { e with
    folders := ((e.folders.filter fun f => !removed.contains f) ++ added).eraseDups }
  let dropped := e.forest.top.foldl (dropRoot w removed) changed
  have hdropped : e.forest.top.foldl (dropRoot w removed) (changed.after earlier) =
      dropped.after earlier := foldl_dropRoot_after earlier changed w removed e.forest.top
  show expandTop { e.forest.top.foldl (dropRoot w removed) (changed.after earlier) with
    isSurveyed := false } w = _
  rw [hdropped]
  exact expandTop_after earlier { dropped with isSurveyed := false } w

theorem reconcile_after (n : ItemNo) (leaves : List Leaf) :
    (e.after earlier).reconcile w n leaves =
      adjusted (after earlier) (Prod.map id (after earlier)) (e.reconcile w n leaves) := by
  unfold reconcile
  rw [forest_after]
  cases e.forest.reconcile w.cwd n leaves with
  | error err => rfl
  | ok made =>
      exact congrArg (fun e => Except.ok (made.1, e))
        (report_after earlier { e with forest := made.2 } _)

theorem beginRefresh_after (n : ItemNo) (item : Item) :
    (e.after earlier).beginRefresh w n item =
      adjusted (after earlier) (Prod.map id (after earlier)) (e.beginRefresh w n item) := by
  unfold beginRefresh
  rw [documents_after]
  split
  · rfl
  · split
    · rfl
    · rw [report_after, reconcile_after]
      cases (e.report _).reconcile w n [] <;> rfl

theorem beginExpand_after (n : ItemNo) :
    (e.after earlier).beginExpand w n =
      adjusted (after earlier) (Prod.map id (after earlier)) (e.beginExpand w n) := by
  unfold beginExpand
  rw [forest_after]
  split
  · rfl
  · rename_i item _
    split
    · rfl
    · split
      · rw [expandRoot_after]
        cases e.expandRoot w n item <;> rfl
      · rw [expandRoot_after]
        cases e.expandRoot w n item <;> rfl
      · rw [expandPackage_after]
        cases e.expandPackage w n item <;> rfl
      · exact beginRefresh_after earlier e w n item
      · rfl
      · rfl
      · rfl

theorem beginUpdate_after (d : Document) :
    (e.after earlier).beginUpdate w d = e.beginUpdate w d := rfl

theorem beginCreated_after (path : String) :
    (e.after earlier).beginCreated w path =
      (e.beginCreated w path).map id (after earlier) := by
  unfold beginCreated
  generalize Path.base w.cwd path = name
  generalize Path.canonical w.cwd path = location
  -- the tests are decided for each side, as the two sides name the conventions differently
  by_cases hmanifest : name = e.conventions.manifestName
  · rw [if_pos hmanifest, if_pos (show name = (e.after earlier).conventions.manifestName from
      hmanifest)]
    rfl
  · rw [if_neg hmanifest, if_neg (show ¬ name = (e.after earlier).conventions.manifestName from
      hmanifest)]
    by_cases htest : (!e.conventions.isTestFile name) = true
    · rw [if_pos htest, if_pos (show (!(e.after earlier).conventions.isTestFile name) = true from
        htest)]
      rfl
    · rw [if_neg htest, if_neg (show ¬ (!(e.after earlier).conventions.isTestFile name) = true from
        htest)]
      cases w.readContent path with
      | error err => exact congrArg (Prod.mk _) (report_after earlier e _)
      | ok text =>
          simp only [beginUpdate_after, Prod.map_apply, id_eq]

theorem begin_fileCreated (path : String) :
    e.begin w (.fileCreated path) = .ok (e.beginCreated w path) := rfl

/-- Whatever was reported before, a request is served in the same way. -/
theorem begin_after (r : Request) :
    (e.after earlier).begin w r =
      adjusted (after earlier) (Prod.map id (after earlier)) (e.begin w r) := by
  cases r with
  | expandTop =>
      simp only [begin, expandTop_after]
      cases e.expandTop w <;> rfl
  | expand n => exact beginExpand_after earlier e w n
  | update d =>
      rw [begin_update, begin_update, beginUpdate_after]
      generalize e.beginUpdate w d = progress
      rfl
  | fileCreated path =>
      rw [begin_fileCreated, begin_fileCreated, beginCreated_after]
      generalize e.beginCreated w path = begun
      rfl
  | fileDeleted path =>
      simp only [begin, remove_after]
      cases e.remove w path <;> rfl
  | foldersChanged added removed =>
      simp only [begin, changeFolders_after]
      cases e.changeFolders w added removed <;> rfl

/-- The explorer that keeps the text of a document at its item. -/
def remembering (e : Explorer) (n : ItemNo) (text : String) : Explorer :=
  { e with documents := e.documents.insert (((e.forest.item? n).map Item.location).getD "") text }

theorem remembering_after (n : ItemNo) (text : String) :
    (e.after earlier).remembering n text = (e.remembering n text).after earlier := rfl

theorem finishUpdate_of_placed {d : Document} {n : ItemNo} {s : Explorer}
    (h : e.ensureFile w d.path = .ok (some n, s)) (leaves : List Leaf) :
    e.finishUpdate w d leaves =
      ((s.remembering n d.text).reconcile w n leaves).map (Prod.map some id) := by
  simp only [finishUpdate, h, bind, Except.bind, remembering]
  split
  · rename_i hreconcile
    rw [hreconcile]
    rfl
  · rename_i hreconcile
    rw [hreconcile]
    rfl

theorem finishUpdate_after (d : Document) (leaves : List Leaf) :
    (e.after earlier).finishUpdate w d leaves =
      adjusted (after earlier) (Prod.map id (after earlier)) (e.finishUpdate w d leaves) := by
  have hensure := ensureFile_after earlier e w d.path
  cases hfound : e.ensureFile w d.path with
  | error err =>
      rw [hfound] at hensure
      simp only [finishUpdate, hfound, hensure, adjusted, bind, Except.bind]
  | ok found =>
      rw [hfound] at hensure
      obtain ⟨n?, s⟩ := found
      cases n? with
      | none =>
          simp only [finishUpdate, hfound, hensure, adjusted, bind, Except.bind, Prod.map_apply,
            id_eq, pure, Except.pure]
      | some n =>
          rw [finishUpdate_of_placed e w hfound, finishUpdate_of_placed _ w hensure,
            remembering_after, reconcile_after]
          cases (s.remembering n d.text).reconcile w n leaves <;> rfl

theorem finish_after (pending : Pending) :
    (e.after earlier).finish w p pending =
      adjusted (after earlier) (Prod.map id (after earlier)) (e.finish w p pending) := by
  cases pending with
  | update d =>
      simp only [finish, report_after, finishUpdate_after]
      cases (e.report (symbolEvents p d)).finishUpdate w d (p.leaves d) <;> rfl
  | refresh n d =>
      simp only [finish, report_after, reconcile_after]
      cases (e.report (symbolEvents p d)).reconcile w n (p.leaves d) <;> rfl

end After

/-! ## Explorers without a report -/

/-- The explorer without what it has reported. -/
def silenced (e : Explorer) : Explorer := { e with survey := ⟨e.survey.owners, []⟩ }

@[simp]
theorem forest_silenced (e : Explorer) : e.silenced.forest = e.forest := rfl

@[simp]
theorem documents_silenced (e : Explorer) : e.silenced.documents = e.documents := rfl

@[simp]
theorem silenced_report (e : Explorer) (events : List Event) :
    (e.report events).silenced = e.silenced := rfl

theorem forest_eq_of_silenced_eq {e e' : Explorer} (h : e.silenced = e'.silenced) :
    e.forest = e'.forest := by
  rw [← forest_silenced e, h, forest_silenced]

theorem documents_eq_of_silenced_eq {e e' : Explorer} (h : e.silenced = e'.silenced) :
    e.documents = e'.documents := by
  rw [← documents_silenced e, h, documents_silenced]

/-- A result without what was reported. -/
def silent {α : Type} : Except Refusal (α × Explorer) → Except Refusal (α × Explorer) :=
  adjusted silenced (Prod.map id silenced)

theorem after_silenced (e : Explorer) : e.silenced.after e.survey.events = e := by
  rw [silenced, after, Survey.after, List.append_nil]

/-- An operation that takes no notice of the report does the same to explorers that differ in
nothing else. -/
theorem silent_congr {α : Type} (run : Explorer → Except Refusal (α × Explorer))
    (h : ∀ earlier e, run (e.after earlier) =
      adjusted (after earlier) (Prod.map id (after earlier)) (run e))
    {e e' : Explorer} (he : e.silenced = e'.silenced) : silent (run e) = silent (run e') := by
  have hsilenced : ∀ e, silent (run e) = silent (run e.silenced) := by
    intro e
    conv_lhs => rw [← after_silenced e, h]
    cases run e.silenced <;> rfl
  rw [hsilenced e, he, ← hsilenced e']

section Congruence

variable {e e' : Explorer} (he : e.silenced = e'.silenced) (w : Workspace)

include he

theorem begin_congr (r : Request) :
    silent (e.begin w r) = silent (e'.begin w r) :=
  silent_congr (begin · w r) (fun earlier e => begin_after earlier e w r) he

theorem finishUpdate_congr (d : Document) (leaves : List Leaf) :
    silent (e.finishUpdate w d leaves) = silent (e'.finishUpdate w d leaves) :=
  silent_congr (finishUpdate · w d leaves)
    (fun earlier e => finishUpdate_after earlier e w d leaves) he

theorem finish_congr (p : SymbolProvider) (pending : Pending) :
    silent (e.finish w p pending) = silent (e'.finish w p pending) :=
  silent_congr (finish · w p pending)
    (fun earlier e => finish_after earlier e w p pending) he

end Congruence

end Explorer

end TestAtlas
