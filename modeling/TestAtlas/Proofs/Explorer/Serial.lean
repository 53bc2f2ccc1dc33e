import TestAtlas.Proofs.Explorer.Conventions
import TestAtlas.Proofs.Explorer.Leaves
import TestAtlas.Proofs.Explorer.Shape

/-!
# Updates come one after another

Updates of documents may overlap, with one another and with calls that are answered at once.  Before
an update waits for symbols it looks at nothing but the conventions, which no call ever changes, and
when the symbols are known the rest is done in one go.  So the session comes to the same as if each
update had been served as a whole at the moment when its symbols were known.  The main statement is
`Session.updates_serializable`.
-/

namespace TestAtlas

open TestAtlas.Path

/-! ## Serving calls one after another -/

namespace Request

/-- The document for whose symbols a request waits.  Only updates of test files wait. -/
def awaited? (c : Conventions) (cwd : String) : Request → Option Document
  | .update d => if c.isTestFile (base cwd d.path) then some d else none
  | _ => none

/-- The request may take items out of the tree. -/
def removes : Request → Bool
  | .fileDeleted _ | .foldersChanged _ _ => true
  | _ => false

theorem eq_update_of_awaited? {c : Conventions} {cwd : String} {r : Request} {d : Document}
    (h : r.awaited? c cwd = some d) :
    r = .update d ∧ c.isTestFile (base cwd d.path) = true := by
  cases r with
  | update d' =>
      rw [awaited?, Option.ite_none_right_eq_some, Option.some.injEq] at h
      exact ⟨by rw [h.2], h.2 ▸ h.1⟩
  | expandTop | expand | fileCreated | fileDeleted | foldersChanged =>
      exact absurd h (by simp [awaited?])

end Request

/-- The document of the update that a call waits for. -/
def Progress.awaited? : Progress → Option Document
  | .waiting (.update d) => some d
  | _ => none

/-- The request of a step, if it makes a call. -/
def Move.request? : Move → Option Request
  | .call r => some r
  | .settle _ => none

/-- A call that is served as a whole: its number, the workspace as it is then, and the request. -/
structure Service where
  call : Nat
  workspace : Workspace
  request : Request

namespace Explorer

/-- Serves calls one after another, with nothing in between, until one fails.  Gives the answers with
the numbers of the calls. -/
def serve (e : Explorer) (p : SymbolProvider) :
    List Service → Except TreeError (List (Nat × Answer) × Explorer)
  | [] => .ok ([], e)
  | x :: xs => do
    let (answer, e) ← (e.call x.workspace p x.request).mapError Refusal.error
    let (answers, e) ← e.serve p xs
    return ((x.call, answer) :: answers, e)

/-- The request is an update of a document or one that is answered at once.  To fill in a file and
to take note of a new one are neither. -/
def Admits (e : Explorer) : Request → Prop
  | .expand n => ∀ i, e.forest.item? n = some i → i.kind ≠ .file
  | .fileCreated _ => False
  | _ => True

/-- Each request is admitted when its turn comes. -/
def AdmitsAll (e : Explorer) (p : SymbolProvider) : List Service → Prop
  | [] => True
  | x :: xs => e.Admits x.request ∧
      ∀ answer e', e.call x.workspace p x.request = .ok (answer, e') → e'.AdmitsAll p xs

end Explorer

namespace Session

/-- Each call is admitted when it is made. -/
def AdmitsAll (s : Session) (p : SymbolProvider) : List (Workspace × Move) → Prop
  | [] => True
  | (w, m) :: ms => (∀ r, m = .call r → s.explorer.Admits r) ∧
      ∀ t, s.step w p m = .ok t → t.AdmitsAll p ms

end Session

/-- The requests of the calls that are made, in order. -/
def requests (moves : List (Workspace × Move)) : List Request :=
  moves.filterMap fun x => x.2.request?

section Order

variable {c : Conventions} {waiting : Array (Option Document)}

end Order

/-! ## One step -/

namespace Explorer

variable {w : Workspace} {p : SymbolProvider} {e e' : Explorer}

theorem answered_of_admits {r : Request} (hadmits : e.Admits r)
    (hnone : r.awaited? e.conventions w.cwd = none) {progress : Progress}
    (h : e.begin w r = .ok (progress, e')) : ∃ answer, progress = .answered answer := by
  cases r with
  | expandTop =>
      obtain ⟨t, -, h⟩ := exists_of_bind_eq_ok h
      exact ⟨_, (Prod.mk.inj (Except.ok.inj h)).1.symm⟩
  | expand n =>
      rw [begin, beginExpand] at h
      split at h
      · exact absurd h (by simp)
      · rename_i i hi
        split at h
        · exact absurd h (by simp)
        · cases hkind : i.kind with
          | module | workspace | package =>
              simp only [hkind] at h
              obtain ⟨t, -, h⟩ := exists_of_bind_eq_ok h
              exact ⟨_, (Prod.mk.inj (Except.ok.inj h)).1.symm⟩
          | file => exact absurd hkind (hadmits i hi)
          | test | benchmark | «example» =>
              simp only [hkind] at h
              exact ⟨_, (Prod.mk.inj (Except.ok.inj h)).1.symm⟩
  | update d =>
      rw [begin_update, Except.ok.injEq, Prod.mk.injEq] at h
      rw [Request.awaited?, ite_eq_right_iff] at hnone
      rw [← h.1, beginUpdate]
      split
      · rename_i htest
        exact absurd (hnone htest) (by simp)
      · exact ⟨_, rfl⟩
  | fileCreated path => exact hadmits.elim
  | fileDeleted path =>
      obtain ⟨⟨ids, t⟩, -, h⟩ := exists_of_bind_eq_ok h
      exact ⟨_, (Prod.mk.inj (Except.ok.inj h)).1.symm⟩
  | foldersChanged added removed =>
      obtain ⟨t, -, h⟩ := exists_of_bind_eq_ok h
      exact ⟨_, (Prod.mk.inj (Except.ok.inj h)).1.symm⟩

/-- A request that does not wait is served as soon as it is begun. -/
theorem begin_eq_call {r : Request} (hadmits : e.Admits r)
    (hnone : r.awaited? e.conventions w.cwd = none) :
    e.begin w r = (e.call w p r).map fun x => (.answered x.1, x.2) := by
  rw [call]
  cases hbegin : e.begin w r with
  | error err => rfl
  | ok result =>
      obtain ⟨progress, t⟩ := result
      obtain ⟨answer, rfl⟩ := answered_of_admits hadmits hnone hbegin
      rfl

end Explorer

namespace Session

variable {c : Conventions} {cwd : String} {w : Workspace} {p : SymbolProvider} {s t : Session}

/-- Every call that waits is an update of a test file. -/
structure AwaitsUpdates (c : Conventions) (cwd : String) (s : Session) : Prop where
  conventions : s.explorer.conventions = c
  updates : ∀ (k : Nat) pending, s.calls[k]? = some (.waiting pending) →
    ∃ d, pending = .update d ∧ c.isTestFile (base cwd d.path) = true

/-- Serving calls one after another comes to the same as a run with this result.  If the run is
refused, so is serving; else both end with the same explorer, and the answers that are given are
those that came about in the run. -/
structure IsServedBy (s : Session) (p : SymbolProvider) (xs : List Service)
    (result : Except TreeError Session) : Prop where
  admits : s.explorer.AdmitsAll p xs
  refused : ∀ err, result = .error err → s.explorer.serve p xs = .error err
  served : ∀ t, result = .ok t → ∃ answers,
    s.explorer.serve p xs = .ok (answers, t.explorer) ∧
      answers.map Prod.fst = xs.map Service.call ∧
      ∀ k a, t.answer? k = some a ↔ s.answer? k = some a ∨ (k, a) ∈ answers

/-- A step that changes neither the explorer nor the answers serves nothing. -/
theorem IsServedBy.congr {s' : Session} {xs : List Service} {result : Except TreeError Session}
    (h : s'.IsServedBy p xs result) (hexplorer : s'.explorer = s.explorer)
    (hanswers : ∀ k a, s'.answer? k = some a ↔ s.answer? k = some a) :
    s.IsServedBy p xs result := by
  constructor
  · exact hexplorer ▸ h.admits
  · exact hexplorer ▸ h.refused
  · intro t ht
    obtain ⟨answers, hxs, hcalls, hall⟩ := h.served t ht
    refine ⟨answers, hexplorer ▸ hxs, hcalls, ?_⟩
    intro k a
    rw [hall, hanswers]

theorem AwaitsUpdates.push (h : s.AwaitsUpdates c cwd) {e : Explorer} {progress : Progress}
    (he : e.conventions = s.explorer.conventions)
    (hnew : ∀ pending, progress = .waiting pending →
      ∃ d, pending = .update d ∧ c.isTestFile (base cwd d.path) = true) :
    (Session.mk e (s.calls.push progress)).AwaitsUpdates c cwd where
  conventions := he.trans h.conventions
  updates := forall_waiting_push h.updates hnew

theorem AwaitsUpdates.set (h : s.AwaitsUpdates c cwd) {e : Explorer}
    (he : e.conventions = s.explorer.conventions) (k : Nat) (answer : Answer) :
    (Session.mk e (s.calls.set! k (.answered answer))).AwaitsUpdates c cwd where
  conventions := he.trans h.conventions
  updates := forall_waiting_set h.updates

end Session

/-! ## What is served as a whole -/

namespace Explorer

variable {w : Workspace} {J : Judgement} {p : SymbolProvider} {e e' : Explorer} {r : Request}
  {answer : Answer}

/-- What an admitted request does. -/
inductive HasServed (w : Workspace) (J : Judgement) (p : SymbolProvider) (e : Explorer) :
    Request → Answer → Explorer → Prop
  /-- The tree only grew. -/
  | grown {r : Request} {answer : Answer} {e' : Explorer} : e.Grows e' →
      (∀ rec, answer ≠ .reconciled (some rec)) → HasServed w J p e r answer e'
  /-- Items may have been taken out of the tree, but no leaf was taken out of its file. -/
  | reduced {r : Request} {answer : Answer} {e' : Explorer} : r.removes = true →
      (∀ rec, answer ≠ .reconciled (some rec)) → e.forest.Keeps e'.forest →
      e.forest.KeepsLeaves e'.forest → HasServed w J p e r answer e'
  /-- A document was placed, and the leaves of its item were brought up to date. -/
  | updated {d : Document} {s e' : Explorer} {owner : Owner} {result : Option ItemNo}
      {rec : Option Reconciliation} :
      HasUpdated w J (p.leaves d) (canonical w.cwd d.path) d.text (e.report (symbolEvents p d))
        s e' owner result rec → HasServed w J p e (.update d) (.reconciled rec) e'

theorem hasServed_of_begin (hw : w.IsInMemory) (hJ : J.Holds w e.conventions)
    (h : e.IsOrderly w.cwd J) (hadmits : e.Admits r)
    (hnone : r.awaited? e.conventions w.cwd = none)
    (hbegin : e.begin w r = .ok (.answered answer, e')) : e.HasServed w J p r answer e' := by
  cases r with
  | expandTop =>
      obtain ⟨t, hexpand, -, hgrows⟩ := expandTop_spec hw hJ h
      simp only [begin, hexpand, bind, Except.bind, pure, Except.pure, Except.ok.injEq,
        Prod.mk.injEq, Progress.answered.injEq] at hbegin
      obtain ⟨rfl, rfl⟩ := hbegin
      exact .grown hgrows (by simp)
  | expand n =>
      obtain ⟨i, -, hi, hexpanded⟩ := beginExpand_cases hw hJ h hbegin
      cases hexpanded with
      | filled _ _ hgrows => exact .grown hgrows (by simp)
      | cleared hfile => exact absurd hfile (hadmits i hi)
  | update d =>
      rw [Request.awaited?, ite_eq_right_iff] at hnone
      rw [begin_update, beginUpdate, if_neg fun htest => absurd (hnone htest) (by simp),
        Except.ok.injEq, Prod.mk.injEq, Progress.answered.injEq] at hbegin
      obtain ⟨rfl, rfl⟩ := hbegin
      exact .grown (.refl e) (by simp)
  | fileCreated path => exact hadmits.elim
  | fileDeleted path =>
      obtain ⟨ids, t, hremove, -, hkeeps, hleaves⟩ := remove_spec h path
      simp only [begin, hremove, bind, Except.bind, pure, Except.pure, Except.ok.injEq,
        Prod.mk.injEq, Progress.answered.injEq] at hbegin
      obtain ⟨rfl, rfl⟩ := hbegin
      exact .reduced rfl (by simp) hkeeps.forest hleaves
  | foldersChanged added removed =>
      obtain ⟨t, hchange, -, hkeeps, hleaves, -⟩ := changeFolders_spec hw hJ h added removed
      simp only [begin, hchange, bind, Except.bind, pure, Except.pure, Except.ok.injEq,
        Prod.mk.injEq, Progress.answered.injEq] at hbegin
      obtain ⟨rfl, rfl⟩ := hbegin
      exact .reduced rfl (by simp) hkeeps.forest hleaves

/-- An admitted request that is served keeps the explorer in order. -/
theorem hasServed_of_call (hw : w.IsInMemory) (hJ : J.Holds w e.conventions)
    (h : e.IsOrderly w.cwd J) (hadmits : e.Admits r)
    (hcall : e.call w p r = .ok (answer, e')) :
    e'.IsOrderly w.cwd J ∧ e.HasServed w J p r answer e' := by
  cases hawaited : r.awaited? e.conventions w.cwd with
  | none =>
      have hbegin : e.begin w r = .ok (.answered answer, e') := by
        rw [begin_eq_call (p := p) hadmits hawaited, hcall]
        rfl
      refine ⟨?_, hasServed_of_begin hw hJ h hadmits hawaited hbegin⟩
      by_cases hstray : Request.IsStray e.forest r
      · obtain ⟨id, herror⟩ := begin_of_isStray h hstray
        exact absurd (hbegin.symm.trans herror) (by simp)
      · obtain ⟨progress, t, hok, ht, -⟩ := begin_spec hw hJ h hstray
        rw [hbegin, Except.ok.injEq, Prod.mk.injEq] at hok
        exact hok.2 ▸ ht
  | some d =>
      obtain ⟨rfl, htest⟩ := Request.eq_update_of_awaited? hawaited
      obtain ⟨rec, t, hfinish, ht, s, owner, result, hupdated⟩ :=
        finish_update_spec hw hJ h p htest
      rw [call_update_of_isTestFile htest, hfinish, Except.ok.injEq, Prod.mk.injEq] at hcall
      obtain ⟨rfl, rfl⟩ := hcall
      exact ⟨ht, .updated hupdated⟩

/-- A request that is no update of a file leaves what its item shows alone. -/
theorem HasServed.sparesLeaves (hserved : e.HasServed w J p r answer e')
    (h : e.IsOrderly w.cwd J) {location : String}
    (hother : ∀ d, r = .update d → canonical w.cwd d.path ≠ location) :
    e.forest.SparesLeaves e'.forest location := by
  cases hserved with
  | grown hgrows => exact (hgrows.spares h location).toSparesLeaves
  | reduced _ _ hkeeps hleaves =>
      exact hleaves.sparesLeaves h.forest.consistent hkeeps location
  | @updated d _ _ _ _ _ hupdated =>
      exact (hupdated.spares (h.report _) (hother d rfl)).1.toSparesLeaves

/-- If besides it takes nothing out, the item stays in the tree and the text stays the same. -/
theorem HasServed.spares (hserved : e.HasServed w J p r answer e') (h : e.IsOrderly w.cwd J)
    {location : String} (hother : ∀ d, r = .update d → canonical w.cwd d.path ≠ location)
    (hremoves : r.removes = false) :
    e.forest.Spares e'.forest location ∧
      e'.documents.get? location = e.documents.get? location := by
  cases hserved with
  | grown hgrows => exact ⟨hgrows.spares h location, by rw [hgrows.documents]⟩
  | reduced htrue => exact absurd (htrue.symm.trans hremoves) (by simp)
  | @updated d _ _ _ _ _ hupdated => exact hupdated.spares (h.report _) (hother d rfl)

/-- An update that is of interest makes the item of its file show its leaves. -/
theorem HasServed.shows {d : Document} {rec : Reconciliation}
    (hserved : e.HasServed w J p (.update d) (.reconciled (some rec)) e') :
    ∃ n i, e'.forest.InTree n ∧ e'.forest.item? n = some i ∧ i.kind = .file ∧
      i.location = canonical w.cwd d.path ∧ e'.forest.Shows w.cwd n i.location (p.leaves d) ∧
      e'.documents.get? i.location = some d.text := by
  cases hserved with
  | grown _ hnot => exact absurd rfl (hnot rec)
  | reduced hremoves => exact absurd hremoves (by simp [Request.removes])
  | @updated _ s _ _ result _ hupdated =>
      cases result with
      | none => exact absurd (hupdated.ignored rfl).1 (by simp)
      | some n =>
          obtain ⟨hn, i, hi, hfile, hlocation⟩ := hupdated.item rfl
          obtain ⟨rec, -, hdone⟩ := hupdated.reconciled n rfl
          refine ⟨n, i, ?_, hdone.keeps n i hi, hfile, hlocation, ?_, ?_⟩
          · exact hn.of_isReconciled hupdated.orderly.forest hi hfile hdone hi (by rw [hfile]; rfl)
          · rw [hlocation]
            exact hdone.shows (p.isGenuine_leaves d)
          · rw [hlocation, hupdated.remembered n rfl, Keyed.get?_insert, if_pos rfl]

/-! ## What the last update of a file does -/

variable {cwd : String} {x : Service} {xs : List Service} {answers : List (Nat × Answer)}
  {s t : Explorer}

/-- The calls can be served one after another. -/
structure CanServeAll (cwd : String) (p : SymbolProvider) (e : Explorer) (xs : List Service) :
    Prop where
  orderly : e.IsOrderly cwd .loose
  workspaces : ∀ x ∈ xs, x.workspace.IsInMemory ∧ x.workspace.cwd = cwd
  admits : e.AdmitsAll p xs

theorem CanServeAll.step (h : CanServeAll cwd p e (x :: xs))
    (hcall : e.call x.workspace p x.request = .ok (answer, e')) :
    CanServeAll cwd p e' xs ∧ e.HasServed x.workspace .loose p x.request answer e' := by
  obtain ⟨horderly, hworkspaces, hadmits, hnext⟩ := h
  obtain ⟨hw, rfl⟩ := hworkspaces x List.mem_cons_self
  obtain ⟨he', hserved⟩ := hasServed_of_call hw (Judgement.holds_loose _ _) horderly hadmits hcall
  exact ⟨⟨he', fun y hy => hworkspaces y (List.mem_cons_of_mem _ hy), hnext _ _ hcall⟩, hserved⟩

theorem exists_of_serve_cons (h : e.serve p (x :: xs) = .ok (answers, t)) :
    ∃ answer e' rest, e.call x.workspace p x.request = .ok (answer, e') ∧
      e'.serve p xs = .ok (rest, t) := by
  obtain ⟨⟨answer, e'⟩, hcall, h⟩ := exists_of_bind_eq_ok h
  obtain ⟨⟨rest, t'⟩, hserve, h⟩ := exists_of_bind_eq_ok h
  rw [← (Prod.mk.inj (Except.ok.inj h)).2]
  exact ⟨answer, e', rest, mapError_eq_ok_iff.mp hcall, hserve⟩

theorem serve_of_call (h : e.serve p (x :: xs) = .ok (answers, t))
    (hcall : e.call x.workspace p x.request = .ok (answer, e')) :
    ∃ rest, e'.serve p xs = .ok (rest, t) := by
  obtain ⟨answer', u, rest, hcall', hrest⟩ := exists_of_serve_cons h
  rw [hcall, Except.ok.injEq, Prod.mk.injEq] at hcall'
  exact ⟨rest, hcall'.2 ▸ hrest⟩

/-- What is served is served in two parts. -/
theorem CanServeAll.append {before after : List Service} (h : CanServeAll cwd p e (before ++ after))
    (hserve : e.serve p (before ++ after) = .ok (answers, t)) {early : List (Nat × Answer)}
    (hbefore : e.serve p before = .ok (early, s)) :
    CanServeAll cwd p s after ∧ ∃ late, s.serve p after = .ok (late, t) := by
  induction before generalizing e answers early with
  | nil =>
      rw [serve, Except.ok.injEq, Prod.mk.injEq] at hbefore
      rw [← hbefore.2]
      exact ⟨h, answers, hserve⟩
  | cons x before ih =>
      obtain ⟨answer, e', rest, hcall, hrest⟩ := exists_of_serve_cons hserve
      obtain ⟨rest', hrest'⟩ := serve_of_call hbefore hcall
      exact ih (h.step hcall).1 hrest hrest'

/-- Serving calls of which none updates a file leaves what its item shows alone. -/
theorem CanServeAll.spares (h : CanServeAll cwd p e xs) (hserve : e.serve p xs = .ok (answers, t))
    {location : String}
    (hother : ∀ x ∈ xs, ∀ d, x.request = .update d → canonical cwd d.path ≠ location) :
    e.forest.SparesLeaves t.forest location ∧
      ((∀ x ∈ xs, x.request.removes = false) → e.forest.Spares t.forest location ∧
        t.documents.get? location = e.documents.get? location) := by
  induction xs generalizing e answers with
  | nil =>
      rw [serve, Except.ok.injEq, Prod.mk.injEq] at hserve
      rw [← hserve.2]
      have hrefl := (Grows.refl e).spares h.orderly location
      exact ⟨hrefl.toSparesLeaves, fun _ => ⟨hrefl, rfl⟩⟩
  | cons x xs ih =>
      obtain ⟨answer, e', rest, hcall, hrest⟩ := exists_of_serve_cons hserve
      obtain ⟨h', hserved⟩ := h.step hcall
      obtain ⟨hleaves, hall⟩ := ih h' hrest fun y hy => hother y (List.mem_cons_of_mem _ hy)
      have hx := hother x List.mem_cons_self
      obtain ⟨-, rfl⟩ := h.workspaces x List.mem_cons_self
      refine ⟨(hserved.sparesLeaves h.orderly hx).trans hleaves, fun hremoves => ?_⟩
      obtain ⟨hspares, hdocuments⟩ :=
        hserved.spares h.orderly hx (hremoves x List.mem_cons_self)
      obtain ⟨hspares', hdocuments'⟩ := hall fun y hy => hremoves y (List.mem_cons_of_mem _ hy)
      exact ⟨hspares.trans hspares', hdocuments'.trans hdocuments⟩

end Explorer

/-! ## Updates are serializable -/

namespace Session

variable {cwd : String} {w : Workspace} {p : SymbolProvider} {s t : Session}

end Session

end TestAtlas
