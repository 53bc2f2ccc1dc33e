import TestAtlas.Proofs.Explorer.Reporting
import TestAtlas.Proofs.Explorer.Safety
import TestAtlas.Proofs.Workspace.Consistency

/-!
# Spelling does not matter

Every path that is given to the explorer or to the files may be spelled in another way, as long as
its canonical form stays the same.  Two runs that differ in nothing else show the same tree, the
same remembered texts and the same answers after each act.  The paths as they were spelled are seen
in two places only: in what is reported, and in the documents of updates that wait for symbols.  So
two sessions count as the same if they are so without the former and with the latter in canonical
form.  The main statement is `Session.sights_eq_of_respells`.
-/

namespace TestAtlas

open TestAtlas.Path

/-! ## Spellings -/

/-- The two paths are spellings of one place. -/
def Path.SamePlace (cwd path path' : String) : Prop := canonical cwd path = canonical cwd path'

instance (cwd path path' : String) : Decidable (SamePlace cwd path path') :=
  inferInstanceAs (Decidable (canonical cwd path = canonical cwd path'))

/-- The documents are the same but for the spelling of the path. -/
structure Document.Respells (cwd : String) (d d' : Document) : Prop where
  place : SamePlace cwd d.path d'.path
  text : d.text = d'.text
  version : d.version = d'.version

/-- The requests are the same but for the spelling of paths. -/
inductive Request.Respells (cwd : String) : Request → Request → Prop
  | expandTop : Respells cwd .expandTop .expandTop
  | expand (n : ItemNo) : Respells cwd (.expand n) (.expand n)
  | update {d d' : Document} : d.Respells cwd d' → Respells cwd (.update d) (.update d')
  | fileCreated {path path' : String} : SamePlace cwd path path' →
      Respells cwd (.fileCreated path) (.fileCreated path')
  | fileDeleted {path path' : String} : SamePlace cwd path path' →
      Respells cwd (.fileDeleted path) (.fileDeleted path')
  | foldersChanged {added added' removed removed' : List String} :
      List.Forall₂ (SamePlace cwd) added added' → List.Forall₂ (SamePlace cwd) removed removed' →
      Respells cwd (.foldersChanged added removed) (.foldersChanged added' removed')

/-- The moves are the same but for the spelling of paths. -/
inductive Move.Respells (cwd : String) : Move → Move → Prop
  | call {r r' : Request} : r.Respells cwd r' → Respells cwd (.call r) (.call r')
  | settle (k : Nat) : Respells cwd (.settle k) (.settle k)

/-- The calls are the same but for the spelling of paths. -/
inductive FileStore.Operation.Respells (cwd : String) :
    FileStore.Operation → FileStore.Operation → Prop
  | write {path path' : String} (content : String) : SamePlace cwd path path' →
      Respells cwd (.write path content) (.write path' content)
  | makeDirectories {path path' : String} : SamePlace cwd path path' →
      Respells cwd (.makeDirectories path) (.makeDirectories path')
  | remove {path path' : String} : SamePlace cwd path path' →
      Respells cwd (.remove path) (.remove path')

/-- The provider goes by the text of a document, wherever it is. -/
def SymbolProvider.IgnoresPath (p : SymbolProvider) : Prop :=
  ∀ d d' : Document, d.text = d'.text → d.version = d'.version → p d = p d'

theorem Path.map_canonical_of_forall₂ {cwd : String} {paths paths' : List String}
    (h : List.Forall₂ (SamePlace cwd) paths paths') :
    paths.map (canonical cwd) = paths'.map (canonical cwd) := by
  induction h with
  | nil => rfl
  | cons hplace _ ih => rw [List.map_cons, List.map_cons, hplace, ih]

theorem FileStore.Operation.Respells.apply_eq {cwd : String} {o o' : Operation}
    (h : o.Respells cwd o') (s : FileStore) : o.apply cwd s = o'.apply cwd s := by
  cases h with
  | write content h =>
      rw [SamePlace] at h
      rw [apply, apply, FileStore.write, FileStore.write, h]
  | makeDirectories h =>
      rw [SamePlace] at h
      rw [apply, apply, FileStore.makeDirectories, FileStore.makeDirectories, h]
  | @remove path path' h =>
      rw [SamePlace] at h
      rw [apply, apply, FileStore.remove, FileStore.remove, h]
      generalize canonical cwd path' = location
      -- only the refusal names the path as it was spelled
      cases s.files.contains location with
      | true => rfl
      | false => cases s.isDirectory location && location != "/" <;> rfl

theorem Workspace.toOption_readContent_eq {w : Workspace} (hw : w.unreadable = [])
    {path path' : String} (h : SamePlace w.cwd path path') :
    (w.readContent path).toOption = (w.readContent path').toOption := by
  rw [SamePlace] at h
  unfold readContent FileStore.readContent
  rw [hw, h]
  generalize canonical w.cwd path' = location
  cases w.store.files.get? location <;> rfl

theorem SymbolProvider.symbols_scanner_eq {d d' : Document} (h : d.text = d'.text) :
    scanner.symbols d = scanner.symbols d' := by
  unfold symbols scanner Outline.symbols
  rw [h]
  generalize Outline.blank d'.text.toList = source
  -- only the refusal names the path
  cases hopen : Outline.hasOpenComment source with
  | true => simp [hopen]
  | false => cases hpackage : Outline.hasPackageClause source <;> simp [hopen, hpackage]

theorem SymbolProvider.leaves_eq {p : SymbolProvider} (hp : p = scanner ∨ p.IgnoresPath)
    {cwd : String} {d d' : Document} (h : d.Respells cwd d') : p.leaves d = p.leaves d' := by
  have hsymbols : p.symbols d = p.symbols d' := by
    rcases hp with rfl | hp
    · exact symbols_scanner_eq h.text
    · rw [symbols, symbols, hp d d' h.text h.version]
  rw [leaves, leaves, hsymbols, h.text]

/-! ## Calls -/

/-- What is waited for, with the path of an update in canonical form. -/
def Pending.anchored (cwd : String) : Pending → Pending
  | .update d => .update ⟨canonical cwd d.path, d.text, d.version⟩
  | .refresh n d => .refresh n d

/-- The progress of a call, with the path of an update in canonical form. -/
def Progress.anchored (cwd : String) : Progress → Progress
  | .answered answer => .answered answer
  | .waiting pending => .waiting (pending.anchored cwd)

theorem Document.Respells.pending_eq {cwd : String} {d d' : Document} (h : d.Respells cwd d') :
    (Pending.update d).anchored cwd = (Pending.update d').anchored cwd := by
  have hplace := h.place
  rw [SamePlace] at hplace
  rw [Pending.anchored, Pending.anchored, hplace, h.text, h.version]

theorem Pending.respells_of_anchored_eq {cwd : String} {d d' : Document}
    (h : (update d).anchored cwd = (update d').anchored cwd) : d.Respells cwd d' := by
  simp only [anchored, update.injEq, Document.mk.injEq] at h
  exact ⟨h.1, h.2.1, h.2.2⟩

namespace Explorer

variable {w : Workspace} (e : Explorer)

theorem ensureFile_eq_of_samePlace {path path' : String} (h : SamePlace w.cwd path path') :
    e.ensureFile w path = e.ensureFile w path' := by
  rw [SamePlace] at h
  unfold ensureFile
  rw [h]

theorem finishUpdate_eq_of_respells {d d' : Document} (h : d.Respells w.cwd d')
    (leaves : List Leaf) : e.finishUpdate w d leaves = e.finishUpdate w d' leaves := by
  unfold finishUpdate
  rw [ensureFile_eq_of_samePlace e h.place, h.text]

theorem remove_eq_of_samePlace {path path' : String} (h : SamePlace w.cwd path path') :
    e.remove w path = e.remove w path' := by
  rw [SamePlace] at h
  unfold remove
  rw [h]

theorem changeFolders_eq_of_samePlace {added added' removed removed' : List String}
    (hadded : List.Forall₂ (SamePlace w.cwd) added added')
    (hremoved : List.Forall₂ (SamePlace w.cwd) removed removed') :
    e.changeFolders w added removed = e.changeFolders w added' removed' := by
  unfold changeFolders
  rw [map_canonical_of_forall₂ hadded, map_canonical_of_forall₂ hremoved]

theorem find_eq_of_samePlace {path path' : String} (h : SamePlace w.cwd path path') :
    e.find w path = e.find w path' := by
  rw [SamePlace] at h
  rw [find, find, Forest.locatedAt, Forest.locatedAt, h]

theorem anchored_beginUpdate {d d' : Document} (h : d.Respells w.cwd d') :
    (e.beginUpdate w d).anchored w.cwd = (e.beginUpdate w d').anchored w.cwd := by
  have hplace := h.place
  rw [SamePlace] at hplace
  unfold beginUpdate
  rw [base, base, hplace]
  split
  · rw [Progress.anchored, Progress.anchored, h.pending_eq]
  · rfl

/-- A begun request, without what was reported and with the path of an update in canonical form. -/
def anchored (cwd : String) : Progress × Explorer → Progress × Explorer :=
  Prod.map (Progress.anchored cwd) silenced

theorem anchored_beginCreated (hw : w.unreadable = []) {path path' : String}
    (h : SamePlace w.cwd path path') :
    anchored w.cwd (e.beginCreated w path) = anchored w.cwd (e.beginCreated w path') := by
  have hread := Workspace.toOption_readContent_eq hw h
  rw [SamePlace] at h
  unfold beginCreated
  rw [base, base, h]
  generalize lastPart (canonical w.cwd path') = name
  generalize canonical w.cwd path' = location
  cases hleft : w.readContent path with
  | error err =>
      cases hright : w.readContent path' with
      | error err' =>
          -- the error names the path as it was spelled, and is only reported
          simp only
          split
          · rfl
          · split <;> rfl
      | ok text => exact absurd hread (by simp [hleft, hright, Except.toOption])
  | ok text =>
      cases hright : w.readContent path' with
      | error err' => exact absurd hread (by simp [hleft, hright, Except.toOption])
      | ok text' =>
          rw [hleft, hright] at hread
          rw [Option.some.inj hread]

theorem adjusted_anchored (result : Except Refusal (Progress × Explorer)) (cwd : String) :
    adjusted silenced (anchored cwd) result =
      (silent result).map (Prod.map (Progress.anchored cwd) id) := by
  cases result <;> rfl

theorem silent_map_fst {α β : Type} (result : Except Refusal (α × Explorer)) (f : α → β) :
    silent (result.map (Prod.map f id)) = (silent result).map (Prod.map f id) := by
  cases result <;> rfl

/-- A request is begun in the same way in another spelling, whatever was reported. -/
theorem begin_eq_of_respells (hw : w.unreadable = []) {e e' : Explorer}
    (he : e.silenced = e'.silenced) {r r' : Request} (h : r.Respells w.cwd r') :
    adjusted silenced (anchored w.cwd) (e.begin w r) =
      adjusted silenced (anchored w.cwd) (e'.begin w r') := by
  rw [adjusted_anchored, begin_congr he, ← adjusted_anchored]
  cases h with
  | expandTop | expand n => rfl
  | update hd =>
      rw [begin_update, begin_update]
      exact congrArg (fun progress => Except.ok (progress, e'.silenced))
        (anchored_beginUpdate e' hd)
  | fileCreated hpath =>
      rw [begin_fileCreated, begin_fileCreated]
      exact congrArg Except.ok (anchored_beginCreated e' hw hpath)
  | fileDeleted hpath => rw [begin, begin, remove_eq_of_samePlace e' hpath]
  | foldersChanged hadded hremoved =>
      rw [begin, begin, changeFolders_eq_of_samePlace e' hadded hremoved]

theorem finish_update_eq_map (w : Workspace) (p : SymbolProvider) (d : Document) :
    e.finish w p (.update d) =
      ((e.report (symbolEvents p d)).finishUpdate w d (p.leaves d)).map
        (Prod.map .reconciled id) := by
  rw [finish]
  generalize (e.report (symbolEvents p d)).finishUpdate w d (p.leaves d) = updated
  cases updated <;> rfl

/-- What is left of a request is done in the same way in another spelling, whatever was reported. -/
theorem finish_eq_of_anchored_eq {p : SymbolProvider} (hp : p = .scanner ∨ p.IgnoresPath)
    {e e' : Explorer} (he : e.silenced = e'.silenced) {pending pending' : Pending}
    (h : pending.anchored w.cwd = pending'.anchored w.cwd) :
    silent (e.finish w p pending) = silent (e'.finish w p pending') := by
  cases pending with
  | refresh n d =>
      cases pending' with
      | refresh n' d' =>
          have hsame : Pending.refresh n d = .refresh n' d' := h
          rw [hsame]
          exact finish_congr he w p _
      | update d' => exact absurd h (by simp [Pending.anchored])
  | update d =>
      cases pending' with
      | refresh n' d' => exact absurd h (by simp [Pending.anchored])
      | update d' =>
          have hd : d.Respells w.cwd d' := Pending.respells_of_anchored_eq h
          -- the failure of the provider is reported under the path as it was spelled
          have hreports : (e.report (symbolEvents p d)).silenced =
              (e'.report (symbolEvents p d')).silenced := by
            rw [silenced_report, silenced_report, he]
          have hupdate := finishUpdate_congr hreports w d (p.leaves d)
          rw [finish_update_eq_map, finish_update_eq_map, ← SymbolProvider.leaves_eq hp hd,
            ← finishUpdate_eq_of_respells _ hd, silent_map_fst, hupdate, ← silent_map_fst]

end Explorer

namespace Session

/-- The session without its report, with the paths of awaited updates in canonical form. -/
def anchored (cwd : String) (s : Session) : Session :=
  ⟨s.explorer.silenced, s.calls.map (Progress.anchored cwd)⟩

variable {w : Workspace} {s s' : Session}

theorem anchored_push (s : Session) (cwd : String) (progress : Progress) (e : Explorer) :
    anchored cwd ⟨e, s.calls.push progress⟩ =
      ⟨e.silenced, (s.anchored cwd).calls.push (progress.anchored cwd)⟩ := by
  rw [anchored, anchored, Array.map_push]

theorem anchored_set (s : Session) (cwd : String) (k : Nat) (answer : Answer) (e : Explorer) :
    anchored cwd ⟨e, s.calls.set! k (.answered answer)⟩ =
      ⟨e.silenced, (s.anchored cwd).calls.set! k (.answered answer)⟩ := by
  rw [anchored, anchored, Array.set!_eq_setIfInBounds, Array.set!_eq_setIfInBounds,
    Array.map_setIfInBounds, Progress.anchored]

theorem getElem?_calls_anchored (s : Session) (cwd : String) (k : Nat) :
    (s.anchored cwd).calls[k]? = s.calls[k]?.map (Progress.anchored cwd) := by
  rw [anchored, Array.getElem?_map]

theorem answer?_anchored (s : Session) (cwd : String) (k : Nat) :
    (s.anchored cwd).answer? k = s.answer? k := by
  rw [answer?, answer?, getElem?_calls_anchored]
  cases s.calls[k]? with
  | none => rfl
  | some progress => cases progress <;> rfl

/-- A call that waits does so in the other session as well, for the same in another spelling. -/
theorem exists_waiting_of_anchored_eq {cwd : String} (hs : s.anchored cwd = s'.anchored cwd)
    {k : Nat} {pending : Pending} (hk : s.calls[k]? = some (.waiting pending)) :
    ∃ pending', s'.calls[k]? = some (.waiting pending') ∧
      pending.anchored cwd = pending'.anchored cwd := by
  have hcalls := getElem?_calls_anchored s' cwd k
  rw [← hs, getElem?_calls_anchored, hk] at hcalls
  cases hother : s'.calls[k]? with
  | none => exact absurd hcalls (by simp [hother])
  | some progress =>
      cases progress with
      | answered answer => exact absurd hcalls (by simp [hother, Progress.anchored])
      | waiting pending' =>
          simp only [hother, Option.map_some, Progress.anchored, Option.some.injEq,
            Progress.waiting.injEq] at hcalls
          exact ⟨pending', rfl, hcalls⟩

theorem anchored_outcome_call (s : Session) (w : Workspace) (p : SymbolProvider) (r : Request) :
    (s.outcome w p (.call r)).map id (anchored w.cwd) =
      match Explorer.adjusted Explorer.silenced (Explorer.anchored w.cwd)
        (s.explorer.begin w r) with
      | .ok (progress, e) => (none, ⟨e, (s.anchored w.cwd).calls.push progress⟩)
      | .error refusal => (some refusal.error, ⟨refusal.explorer, (s.anchored w.cwd).calls⟩) := by
  simp only [outcome]
  cases s.explorer.begin w r with
  | error refusal => rfl
  | ok begun => exact congrArg (Prod.mk none) (anchored_push s w.cwd begun.1 begun.2)

theorem anchored_outcome_settle {k : Nat} {pending : Pending}
    (hk : s.calls[k]? = some (.waiting pending)) (w : Workspace) (p : SymbolProvider) :
    (s.outcome w p (.settle k)).map id (anchored w.cwd) =
      match Explorer.silent (s.explorer.finish w p pending) with
      | .ok (answer, e) => (none, ⟨e, (s.anchored w.cwd).calls.set! k (.answered answer)⟩)
      | .error refusal => (some refusal.error, ⟨refusal.explorer,
          (s.anchored w.cwd).calls.set! k (.answered (.failed refusal.error))⟩) := by
  simp only [outcome, hk]
  cases s.explorer.finish w p pending with
  | error refusal =>
      exact congrArg (Prod.mk (some refusal.error))
        (anchored_set s w.cwd k (.failed refusal.error) refusal.explorer)
  | ok finished => exact congrArg (Prod.mk none) (anchored_set s w.cwd k finished.1 finished.2)

/-- A move does the same in another spelling, to the session and in what is refused. -/
theorem outcome_eq_of_respells (hw : w.unreadable = []) {p : SymbolProvider}
    (hp : p = .scanner ∨ p.IgnoresPath) (hs : s.anchored w.cwd = s'.anchored w.cwd) {m m' : Move}
    (hm : m.Respells w.cwd m') :
    (s.outcome w p m).map id (anchored w.cwd) = (s'.outcome w p m').map id (anchored w.cwd) := by
  have he : s.explorer.silenced = s'.explorer.silenced := congrArg Session.explorer hs
  cases hm with
  | call hr =>
      rw [anchored_outcome_call, anchored_outcome_call, hs, Explorer.begin_eq_of_respells hw he hr]
  | settle k =>
      by_cases hwaits : ∃ pending, s.calls[k]? = some (.waiting pending)
      · obtain ⟨pending, hk⟩ := hwaits
        obtain ⟨pending', hk', hpending⟩ := exists_waiting_of_anchored_eq hs hk
        rw [anchored_outcome_settle hk, anchored_outcome_settle hk', hs,
          Explorer.finish_eq_of_anchored_eq hp he hpending]
      · have hwaits' : ¬ ∃ pending, s'.calls[k]? = some (.waiting pending) := by
          rintro ⟨pending', hk'⟩
          obtain ⟨pending, hk, -⟩ := exists_waiting_of_anchored_eq hs.symm hk'
          exact hwaits ⟨pending, hk⟩
        rw [outcome_settle_of_not_waiting w p (not_exists.mp hwaits),
          outcome_settle_of_not_waiting w p (not_exists.mp hwaits')]
        exact congrArg (Prod.mk none) hs

end Session

/-! ## Runs -/

/-- What can be done: a move of the session, a look at what is at a path, or a change of the
files. -/
inductive Act where
  | move (m : Move)
  | find (path : String)
  | change (operation : FileStore.Operation)
  deriving DecidableEq, Repr

/-- What an act gives at once: whether it was refused, or what was found. -/
inductive Reply where
  | told (refusal : Option TreeError)
  | found (items : List ItemNo)
  deriving DecidableEq, Repr

/-- What is seen after an act: its reply, the tree, the texts that are remembered, and the answers
that the calls have so far. -/
structure Sight where
  reply : Reply
  forest : Forest
  documents : Keyed String String
  answer? : Nat → Option Answer

/-- The acts are the same but for the spelling of paths. -/
inductive Act.Respells (cwd : String) : Act → Act → Prop
  | move {m m' : Move} : m.Respells cwd m' → Respells cwd (.move m) (.move m')
  | find {path path' : String} : SamePlace cwd path path' → Respells cwd (.find path) (.find path')
  | change {o o' : FileStore.Operation} : o.Respells cwd o' → Respells cwd (.change o) (.change o')

/-- Does an act.  After a move that is refused the session goes on as that left it. -/
def Act.perform (w : Workspace) (s : Session) (p : SymbolProvider) :
    Act → Reply × Workspace × Session
  | .move m => (.told (s.outcome w p m).1, w, (s.outcome w p m).2)
  | .find path => (.found (s.explorer.find w path), w, s)
  | .change o => (.told none, { w with store := o.apply w.cwd w.store }, s)

namespace Session

/-- What is seen of the session after an act with the given reply. -/
def sight (s : Session) (reply : Reply) : Sight where
  reply := reply
  forest := s.explorer.forest
  documents := s.explorer.documents
  answer? := s.answer?

/-- What is seen after each of several acts. -/
def sights (w : Workspace) (s : Session) (p : SymbolProvider) : List Act → List Sight
  | [] => []
  | act :: acts =>
    let (reply, w, s) := act.perform w s p
    s.sight reply :: sights w s p acts

variable {w : Workspace} {s s' : Session}

theorem sight_eq_of_anchored_eq {cwd : String} (hs : s.anchored cwd = s'.anchored cwd)
    (reply : Reply) : s.sight reply = s'.sight reply := by
  have he : s.explorer.silenced = s'.explorer.silenced := congrArg Session.explorer hs
  have hforest := Explorer.forest_eq_of_silenced_eq he
  have hdocuments := Explorer.documents_eq_of_silenced_eq he
  have hanswer : s.answer? = s'.answer? := by
    funext k
    rw [← answer?_anchored s cwd, hs, answer?_anchored]
  rw [sight, sight, hforest, hdocuments, hanswer]

/-- An act does the same in another spelling: it has the same reply and the same effect on the
files, and leaves sessions that count as the same. -/
theorem perform_eq_of_respells (hw : w.unreadable = []) {p : SymbolProvider}
    (hp : p = .scanner ∨ p.IgnoresPath) (hs : s.anchored w.cwd = s'.anchored w.cwd) {a a' : Act}
    (ha : a.Respells w.cwd a') :
    ∃ reply v t t', a.perform w s p = (reply, v, t) ∧ a'.perform w s' p = (reply, v, t') ∧
      v.cwd = w.cwd ∧ v.unreadable = [] ∧ t.anchored w.cwd = t'.anchored w.cwd := by
  have he : s.explorer.silenced = s'.explorer.silenced := congrArg Session.explorer hs
  cases ha with
  | @move m m' hm =>
      have hmove := Prod.ext_iff.mp (outcome_eq_of_respells hw hp hs hm)
      simp only [Prod.map_fst, Prod.map_snd, id_eq] at hmove
      exact ⟨_, w, (s.outcome w p m).2, (s'.outcome w p m').2, rfl, by rw [Act.perform, hmove.1],
        rfl, hw, hmove.2⟩
  | @find path path' hpath =>
      have hforest := Explorer.forest_eq_of_silenced_eq he
      have hfind : s.explorer.find w path = s'.explorer.find w path' := by
        rw [Explorer.find_eq_of_samePlace s.explorer hpath, Explorer.find, Explorer.find, hforest]
      exact ⟨_, w, s, s', rfl, by rw [Act.perform, hfind], rfl, hw, hs⟩
  | change ho =>
      exact ⟨_, _, s, s', rfl, by rw [Act.perform, ho.apply_eq], rfl, hw, hs⟩

theorem sights_eq_of_anchored_eq (hw : w.unreadable = []) {p : SymbolProvider}
    (hp : p = .scanner ∨ p.IgnoresPath) (hs : s.anchored w.cwd = s'.anchored w.cwd)
    {acts acts' : List Act} (hacts : List.Forall₂ (Act.Respells w.cwd) acts acts') :
    sights w s p acts = sights w s' p acts' := by
  generalize hcwd : w.cwd = cwd at hs hacts
  induction hacts generalizing w s s' with
  | nil => rfl
  | @cons a a' acts acts' ha _ ih =>
      subst hcwd
      obtain ⟨reply, v, t, t', hleft, hright, hcwd, hv, ht⟩ := perform_eq_of_respells hw hp hs ha
      rw [sights, sights, hleft, hright]
      exact congrArg₂ List.cons (sight_eq_of_anchored_eq ht reply) (ih hv hcwd ht)

/-- Spelling does not matter.  Let all files that are there be readable, and let symbols come from
the scanner or from another provider that ignores paths.  If in a run the folders and the paths of
all acts are spelled in another way, then after each act the reply, the tree, the remembered texts
and the answers of all calls are the same. -/
theorem sights_eq_of_respells {w : Workspace} (hw : w.unreadable = []) (c : Conventions)
    {p : SymbolProvider} (hp : p = .scanner ∨ p.IgnoresPath) {folders folders' : List String}
    (hfolders : List.Forall₂ (SamePlace w.cwd) folders folders') {acts acts' : List Act}
    (hacts : List.Forall₂ (Act.Respells w.cwd) acts acts') :
    sights w (ofExplorer (.start w c folders)) p acts =
      sights w (ofExplorer (.start w c folders')) p acts' := by
  have hstart : Explorer.start w c folders = .start w c folders' := by
    rw [Explorer.start, Explorer.start, map_canonical_of_forall₂ hfolders]
  rw [hstart]
  exact sights_eq_of_anchored_eq hw hp rfl hacts

/-- Two runs from `/home` over the same module.  In the second one paths have backslashes, doubled
and trailing slashes, dot segments, a slash before the drive, or are relative.  What is found at the
test file is its item and the one of its test. -/
theorem sights_eq_of_respells_mixed :
    let w := Workspace.holding "/home"
      [("/w/go.mod", "module m\n"), ("/w/p/x_test.go", "package p\n\nfunc TestA() \x7b\x7d\n")]
    let text := "package p\n\nfunc TestB() \x7b\x7d\n"
    let acts : List Act := [.move (.call .expandTop),
      .move (.call (.update ⟨"/w/p/x_test.go", text, 1⟩)), .move (.settle 1),
      .find "/w/p/x_test.go", .change (.write "/w/p/y_test.go" "package p\n"),
      .move (.call (.fileCreated "/w/p/y_test.go")), .move (.settle 2),
      .move (.call (.fileDeleted "/w/p/y_test.go")),
      .move (.call (.foldersChanged ["C:/q"] ["/w"]))]
    let acts' : List Act := [.move (.call .expandTop),
      .move (.call (.update ⟨"\\w\\p\\x_test.go", text, 1⟩)), .move (.settle 1),
      .find "../w/p/x_test.go", .change (.write "/w//p/./y_test.go" "package p\n"),
      .move (.call (.fileCreated "/w/q/../p/y_test.go")), .move (.settle 2),
      .move (.call (.fileDeleted "/w/p/y_test.go/")),
      .move (.call (.foldersChanged ["/C:\\q"] ["//w"]))]
    sights w (ofExplorer (.start w .usual ["/w"])) .scanner acts =
        sights w (ofExplorer (.start w .usual ["..\\w\\"])) .scanner acts' ∧
      (sights w (ofExplorer (.start w .usual ["/w"])) .scanner acts)[3]?.map Sight.reply =
        some (.found [2, 3]) := by
  intro w text acts acts'
  refine ⟨sights_eq_of_respells rfl .usual (Or.inl rfl) (.cons ?_ .nil) ?_, ?_⟩
  · decide +kernel
  · refine .cons (.move (.call .expandTop)) <| .cons (.move (.call (.update ⟨?_, rfl, rfl⟩))) <|
      .cons (.move (.settle 1)) <| .cons (.find ?_) <| .cons (.change (.write _ ?_)) <|
      .cons (.move (.call (.fileCreated ?_))) <| .cons (.move (.settle 2)) <|
      .cons (.move (.call (.fileDeleted ?_))) <|
      .cons (.move (.call (.foldersChanged (.cons ?_ .nil) (.cons ?_ .nil)))) .nil
    all_goals decide +kernel
  · decide +kernel

end Session

end TestAtlas
