import TestAtlas.Proofs.Explorer.Leaves
import TestAtlas.Proofs.Explorer.Unreached

/-!
# Editing

A refresh of a file item takes its text when it begins, and the leaves are brought up to date when
its symbols are known.  Updates can be settled in between.  So a file item shows the leaves of the
document that was settled last, while the remembered text is that of the update that was settled
last, and the two go together as long as no refresh that was begun before an update was settled is
itself settled after it.  The main statement is `shows_lastSettled`; that it says no more than can
be said is shown by `not_showsRememberedText`.
-/

namespace TestAtlas

open TestAtlas.Path

/-! ## What was settled -/

namespace Pending

/-- The document whose symbols are waited for. -/
def document : Pending → Document
  | .update d => d
  | .refresh _ d => d

/-- The document was opened or changed. -/
def isUpdate : Pending → Bool
  | .update _ => true
  | .refresh _ _ => false

end Pending

/-- A call that was settled: its number, how many calls had been made by then, and what it had
waited for. -/
structure Settlement where
  call : Nat
  made : Nat
  pending : Pending
  deriving DecidableEq

namespace Settlement

/-- The text whose symbols were waited for. -/
def text (x : Settlement) : String := x.pending.document.text

/-- The call was about the file at a location. -/
def isAt (cwd location : String) (x : Settlement) : Bool :=
  canonical cwd x.pending.document.path == location

/-- The text of the update that was settled last. -/
def lastText (history : List Settlement) : Option String :=
  ((history.filter fun x => x.pending.isUpdate).getLast?).map text

/-- No refresh that was begun before an update was settled is settled after it. -/
def InTime (history : List Settlement) : Prop :=
  history.Pairwise fun u x =>
    u.pending.isUpdate = true → x.pending.isUpdate = false → u.made ≤ x.call

theorem lastText_concat_update {history : List Settlement} {x : Settlement}
    (hx : x.pending.isUpdate = true) : lastText (history ++ [x]) = some x.text := by
  simp [lastText, hx]

theorem lastText_concat_refresh {history : List Settlement} {x : Settlement}
    (hx : x.pending.isUpdate = false) : lastText (history ++ [x]) = lastText history := by
  simp [lastText, hx]

theorem filter_isAt (cwd location : String) (x : Settlement) :
    [x].filter (·.isAt cwd location) =
      if canonical cwd x.pending.document.path = location then [x] else [] := by
  simp only [List.filter_singleton, isAt, beq_iff_eq, Bool.cond_eq_ite]

end Settlement

namespace Move

/-- The move is one of editing: filling in items, opening and changing documents. -/
def IsEditing : Move → Prop
  | .call .expandTop | .call (.expand _) | .call (.update _) | .settle _ => True
  | .call _ => False

end Move

namespace Session

/-- The call that a step settles. -/
def settlement? (s : Session) : Move → Option Settlement
  | .settle k =>
    match s.calls[k]? with
    | some (.waiting pending) => some ⟨k, s.calls.size, pending⟩
    | _ => none
  | .call _ => none

/-- The calls that are settled in a run, in order. -/
def settlements (s : Session) (w : Workspace) (p : SymbolProvider) : List Move → List Settlement
  | [] => []
  | m :: ms =>
    (s.settlement? m).toList ++
      match s.step w p m with
      | .ok s => s.settlements w p ms
      | .error _ => []

/-- What is settled in a run for the file at a location. -/
def settledAt (s : Session) (w : Workspace) (p : SymbolProvider) (moves : List Move)
    (location : String) : List Settlement :=
  (s.settlements w p moves).filter (·.isAt w.cwd location)

variable {w : Workspace} {J : Judgement} {p : SymbolProvider} {s : Session}

/-- What each step preserves, together with what was settled so far, a run preserves. -/
theorem run_induction {P : List Settlement → Session → Prop}
    (hstep : ∀ history s m s', P history s → m.IsEditing → s.step w p m = .ok s' →
      P (history ++ (s.settlement? m).toList) s')
    {moves : List Move} (hmoves : ∀ m ∈ moves, m.IsEditing) (history : List Settlement)
    {s s' : Session} (hs : P history s) (hrun : s.run w p moves = .ok s') :
    P (history ++ s.settlements w p moves) s' := by
  induction moves generalizing history s with
  | nil =>
      rw [settlements, List.append_nil, ← Except.ok.inj hrun]
      exact hs
  | cons m moves ih =>
      rw [Session.run] at hrun
      cases hm : s.step w p m with
      | error err =>
          rw [hm] at hrun
          exact absurd hrun (by simp [bind, Except.bind])
      | ok t =>
          rw [hm] at hrun
          have ht := hstep history s m t hs (hmoves m List.mem_cons_self) hm
          rw [settlements, hm, ← List.append_assoc]
          exact ih (fun m' hm' => hmoves m' (List.mem_cons_of_mem _ hm')) _ ht hrun

/-! ## What a step can do -/

/-- The steps of editing, each with what it does. -/
inductive HasEdited (w : Workspace) (J : Judgement) (p : SymbolProvider) (s : Session) :
    Move → Session → Prop
  /-- A call was answered at once, and the tree only grew. -/
  | grown {request : Request} {e : Explorer} {answer : Answer} : e.IsOrderly w.cwd J →
      s.explorer.Grows e → HasEdited w J p s (.call request) ⟨e, s.calls.push (.answered answer)⟩
  /-- The symbols of a document that was opened or changed are waited for. -/
  | begun {d : Document} :
      HasEdited w J p s (.call (.update d)) ⟨s.explorer, s.calls.push (.waiting (.update d))⟩
  /-- A file item is filled in. -/
  | expanded {n : ItemNo} {i : Item} {progress : Progress} {e : Explorer} :
      s.explorer.forest.InTree n → s.explorer.forest.item? n = some i →
      s.explorer.HasBegunExpand w J n i progress e →
      HasEdited w J p s (.call (.expand n)) ⟨e, s.calls.push progress⟩
  /-- There was nothing to settle. -/
  | idle {k : Nat} : (∀ pending, s.calls[k]? ≠ some (.waiting pending)) →
      HasEdited w J p s (.settle k) s
  /-- A document was placed, and the leaves of its item were brought up to date. -/
  | updated {k : Nat} {d : Document} {t e : Explorer} {owner : Owner} {result : Option ItemNo}
      {r : Option Reconciliation} : s.calls[k]? = some (.waiting (.update d)) →
      e.IsOrderly w.cwd J →
      Explorer.HasUpdated w J (p.leaves d) (canonical w.cwd d.path) d.text
        (s.explorer.report (Explorer.symbolEvents p d)) t e owner result r →
      HasEdited w J p s (.settle k) ⟨e, s.calls.set! k (.answered (.reconciled r))⟩
  /-- The leaves of a file item were brought up to date. -/
  | refreshed {k : Nat} {n : ItemNo} {d : Document} {i : Item} {e : Explorer}
      {r : Reconciliation} : s.calls[k]? = some (.waiting (.refresh n d)) →
      s.explorer.forest.item? n = some i → i.kind = .file → e.IsOrderly w.cwd J →
      e.conventions = s.explorer.conventions → e.folders = s.explorer.folders →
      e.documents = s.explorer.documents →
      Forest.IsReconciled s.explorer.forest e.forest n
        ((Forest.wantedOf w.cwd i.location (p.leaves d)).map Prod.fst) r →
      HasEdited w J p s (.settle k) ⟨e, s.calls.set! k (.answered .done)⟩

theorem hasEdited_of_call (hw : w.IsInMemory) (hJ : J.Holds w s.explorer.conventions)
    (h : s.IsOrderly w.cwd J) {request : Request} (hrequest : (Move.call request).IsEditing)
    {s' : Session} (hstep : s.step w p (.call request) = .ok s') :
    HasEdited w J p s (.call request) s' := by
  obtain ⟨progress, e, hbegin, rfl⟩ := exists_begin_of_step p hstep
  cases request with
  | expandTop =>
      obtain ⟨t, hexpand, ht, hgrows⟩ := Explorer.expandTop_spec hw hJ h.explorer
      simp only [Explorer.begin, hexpand, bind, Except.bind, pure, Except.pure,
        Except.ok.injEq, Prod.mk.injEq] at hbegin
      obtain ⟨rfl, rfl⟩ := hbegin
      exact .grown ht hgrows
  | expand n =>
      obtain ⟨i, hn, hi, hexpanded⟩ := Explorer.beginExpand_cases hw hJ h.explorer hbegin
      exact .expanded hn hi hexpanded
  | update d =>
      simp only [Explorer.begin_update, Except.ok.injEq, Prod.mk.injEq] at hbegin
      obtain ⟨rfl, rfl⟩ := hbegin
      unfold Explorer.beginUpdate
      split
      · exact .begun
      · exact .grown h.explorer (.refl _)
  | fileCreated | fileDeleted | foldersChanged => exact hrequest.elim

theorem hasEdited_of_settle (hw : w.IsInMemory) (hJ : J.Holds w s.explorer.conventions)
    (h : s.IsOrderly w.cwd J) {k : Nat} {s' : Session}
    (hstep : s.step w p (.settle k) = .ok s') : HasEdited w J p s (.settle k) s' := by
  by_cases hidle : ∀ pending, s.calls[k]? ≠ some (.waiting pending)
  · rw [step_settle_of_not_waiting w p hidle, Except.ok.injEq] at hstep
    subst hstep
    exact .idle hidle
  · simp only [not_forall, not_not] at hidle
    obtain ⟨pending, hcall⟩ := hidle
    have hserve := h.calls k _ hcall
    cases hserve with
    | waiting hpending =>
        cases hpending with
        | @update d htest =>
            obtain ⟨r, e, hfinish, he, t, owner, result, hupdated⟩ :=
              Explorer.finish_update_spec hw hJ h.explorer p htest
            rw [step_settle_of_ok p hcall hfinish, Except.ok.injEq] at hstep
            subst hstep
            exact .updated hcall he hupdated
        | @refresh n d i hi hfile =>
            obtain ⟨r, e, hreconcile, he, ⟨hc, hf, hd⟩, hdone⟩ := Explorer.reconcile_spec
              (h.explorer.report (Explorer.symbolEvents p d)) hi hfile (p.isGenuine_leaves d)
            have hfinish : s.explorer.finish w p (.refresh n d) = .ok (.done, e) := by
              rw [Explorer.finish, hreconcile]
              rfl
            rw [step_settle_of_ok p hcall hfinish, Except.ok.injEq] at hstep
            subst hstep
            exact .refreshed hcall hi hfile he hc hf hd hdone

theorem hasEdited_of_step (hw : w.IsInMemory) (hJ : J.Holds w s.explorer.conventions)
    (h : s.IsOrderly w.cwd J) {m : Move} (hm : m.IsEditing) {s' : Session}
    (hstep : s.step w p m = .ok s') : HasEdited w J p s m s' := by
  cases m with
  | call request => exact hasEdited_of_call hw hJ h hm hstep
  | settle k => exact hasEdited_of_settle hw hJ h hstep

end Session

/-! ## What one step preserves for one file -/

theorem Forest.Spares.holdsFile {f g : Forest} {location : String} (h : f.Spares g location)
    (hheld : f.HoldsFile location) : g.HoldsFile location := by
  obtain ⟨n, i, hn, hi, hfile, hlocation⟩ := hheld
  exact ⟨n, i, h.inTree n i hn hi hfile, h.keeps n i hi, hfile, hlocation⟩

namespace Explorer

variable {w : Workspace} {c : Conventions} {p : SymbolProvider} {location : String}
  {history : List Settlement} {e e' : Explorer}

/-- What the explorer remembers of a file, compared with what was settled for it. -/
structure Recalls (w : Workspace) (location : String) (history : List Settlement) (e : Explorer) :
    Prop where
  remembered : e.documents.get? location = Settlement.lastText history
  known : history ≠ [] → ∃ text, e.text? w location = some text
  current : Settlement.InTime history → ∀ x ∈ history.getLast?, e.text? w location = some x.text

theorem text?_congr (h : e'.documents.get? location = e.documents.get? location) :
    e'.text? w location = e.text? w location := by
  rw [text?, text?, h]

theorem Recalls.congr (h : Recalls w location history e)
    (hdocuments : e'.documents.get? location = e.documents.get? location) :
    Recalls w location history e' := by
  have htext := text?_congr (w := w) hdocuments
  refine ⟨hdocuments.trans h.remembered, ?_, ?_⟩
  · rw [htext]
    exact h.known
  · rw [htext]
    exact h.current

/-- After an update the remembered text is its text. -/
theorem recalls_of_update {x : Settlement} (hx : x.pending.isUpdate = true)
    (hdocuments : e.documents.get? location = some x.text) :
    Recalls w location (history ++ [x]) e := by
  have htext : e.text? w location = some x.text := by rw [text?, hdocuments]; rfl
  refine ⟨?_, fun _ => ⟨x.text, htext⟩, ?_⟩
  · rw [hdocuments, Settlement.lastText_concat_update hx]
  · intro _ y hy
    rw [List.getLast?_concat, Option.mem_some_iff] at hy
    rw [← hy]
    exact htext

/-- A text that was taken when a call began is still current, or an update was settled since. -/
def IsCurrentSince (e : Explorer) (w : Workspace) (location : String) (history : List Settlement)
    (call : Nat) (text : String) : Prop :=
  e.text? w location = some text ∨
    ∃ u ∈ history, u.pending.isUpdate = true ∧ call < u.made

/-- After a refresh the remembered text is the same, and it is that of the refresh unless an update
was settled while the refresh was under way. -/
theorem Recalls.refresh (h : Recalls w location history e) {x : Settlement}
    (hx : x.pending.isUpdate = false)
    (hsince : e.IsCurrentSince w location history x.call x.text)
    (hdocuments : e'.documents.get? location = e.documents.get? location) :
    Recalls w location (history ++ [x]) e' := by
  have htext := text?_congr (w := w) hdocuments
  refine ⟨?_, ?_, ?_⟩
  · rw [hdocuments, Settlement.lastText_concat_refresh hx]
    exact h.remembered
  · intro _
    rw [htext]
    rcases hsince with hcurrent | ⟨u, hu, -⟩
    · exact ⟨_, hcurrent⟩
    · exact h.known (List.ne_nil_of_mem hu)
  · intro htime y hy
    rw [List.getLast?_concat, Option.mem_some_iff] at hy
    rw [← hy, htext]
    rcases hsince with hcurrent | ⟨u, hu, hupdate, hlt⟩
    · exact hcurrent
    · have hle := (List.pairwise_append.mp htime).2.2 u hu x (by simp) hupdate hx
      omega

/-- What the file items at a location show, compared with what was settled for it.  The location
has a root that reaches it, and its directory is not shared. -/
structure Tracks (w : Workspace) (c : Conventions) (p : SymbolProvider) (location : String)
    (history : List Settlement) (e : Explorer) : Prop where
  orderly : e.IsOrderly w.cwd (.ofWorkspace w c)
  conventions : e.conventions = c
  alone : ¬ w.IsShared c e.folders (directoryPart location)
  held : history ≠ [] → e.forest.HoldsFile location
  bare : ∀ n i, e.forest.item? n = some i → i.kind = .file → i.location = location →
    (e.forest.InTree n → history = []) → e.forest.ids (.under n) = []
  shown : ∀ n i, e.forest.InTree n → e.forest.item? n = some i → i.kind = .file →
    i.location = location → ∀ x ∈ history.getLast?,
      e.forest.Shows w.cwd n location (p.leaves x.pending.document)

theorem Tracks.file_unique (h : Tracks w c p location history e) {m n : ItemNo} {i j : Item}
    (hm : e.forest.InTree m) (hn : e.forest.InTree n) (hi : e.forest.item? m = some i)
    (hj : e.forest.item? n = some j) (hik : i.kind = .file) (hjk : j.kind = .file)
    (hil : i.location = location) (hjl : j.location = location) : m = n := by
  have hforest := h.orderly.forest
  rw [h.conventions] at hforest
  exact hforest.file_unique hm hn hi hj hik hjk (hil.trans hjl.symm) (hil ▸ h.alone)

theorem Tracks.spared (h : Tracks w c p location history e)
    (hspares : e.forest.Spares e'.forest location) (he' : e'.IsOrderly w.cwd (.ofWorkspace w c))
    (hconventions : e'.conventions = e.conventions) (hfolders : e'.folders = e.folders) :
    Tracks w c p location history e' where
  orderly := he'
  conventions := hconventions.trans h.conventions
  alone := hfolders ▸ h.alone
  held := fun hne => hspares.holdsFile (h.held hne)
  bare := by
    intro n i hi hfile hlocation hnone
    rw [hspares.ids n i hi hfile hlocation]
    by_cases hn : n < e.forest.nodes.size
    · have hold := hspares.keeps.item?_of_lt hn hi
      exact h.bare n i hold hfile hlocation fun htree =>
        hnone (hspares.inTree n i htree hold hfile)
    · exact Forest.ids_of_size_le (Nat.le_of_not_lt hn)
  shown := by
    intro n i hn hi hfile hlocation x hx
    -- the item that was settled is still in the tree, and there is no second one
    obtain ⟨m, j, hm, hj, hjfile, hjlocation⟩ := h.held (List.ne_nil_of_mem (List.mem_of_getLast? hx))
    have hm' := hspares.inTree m j hm hj hjfile
    have hj' := hspares.keeps m j hj
    have hforest := he'.forest
    rw [hconventions, hfolders, h.conventions] at hforest
    have hnm : n = m := hforest.file_unique hn hm' hi hj' hfile hjfile
      (hlocation.trans hjlocation.symm) (hlocation ▸ h.alone)
    subst hnm
    exact (h.shown n j hm hj hjfile hjlocation x hx).of_ids_eq
      (hspares.ids n i hi hfile hlocation)

/-- After the leaves of the item were brought into line with a document, it shows that document. -/
theorem Tracks.settled (h : Tracks w c p location history e) {n : ItemNo} {i : Item}
    (hn : e.forest.InTree n) (hi : e.forest.item? n = some i) (hfile : i.kind = .file)
    (hlocation : i.location = location) (he' : e'.IsOrderly w.cwd (.ofWorkspace w c))
    (hconventions : e'.conventions = e.conventions) (hfolders : e'.folders = e.folders)
    {x : Settlement} {r : Reconciliation}
    (hdone : Forest.IsReconciled e.forest e'.forest n
      ((Forest.wantedOf w.cwd location (p.leaves x.pending.document)).map Prod.fst) r) :
    Tracks w c p location (history ++ [x]) e' := by
  have hnonleaf : ∀ {j : Item}, j.kind = .file → j.kind.isLeaf = false := by
    intro j hj
    rw [hj]
    rfl
  have hn' := hn.of_isReconciled h.orderly.forest hi hfile hdone hi (hnonleaf hfile)
  have hi' := hdone.keeps n i hi
  have hforest := he'.forest
  rw [hconventions, hfolders, h.conventions] at hforest
  constructor
  · exact he'
  · exact hconventions.trans h.conventions
  · exact hfolders ▸ h.alone
  · exact fun _ => ⟨n, i, hn', hi', hfile, hlocation⟩
  · intro m j hj hjfile hjlocation hnone
    -- the history is not empty, so this item is not in the tree and is not the one at hand
    have htree : ¬ e'.forest.InTree m := fun hm => by simpa using hnone hm
    have hmn : m ≠ n := by
      rintro rfl
      exact htree hn'
    rw [hdone.ids_eq_of_ne h.orderly.forest.consistent hmn]
    by_cases hm : m < e.forest.nodes.size
    · have hold := hdone.keeps.item?_of_lt hm hj
      refine h.bare m j hold hjfile hjlocation fun hmtree => absurd ?_ htree
      exact hmtree.of_isReconciled h.orderly.forest hi hfile hdone hold (hnonleaf hjfile)
    · exact Forest.ids_of_size_le (Nat.le_of_not_lt hm)
  · intro m j hm hj hjfile hjlocation y hy
    rw [List.getLast?_concat, Option.mem_some_iff] at hy
    have hmn : m = n := hforest.file_unique hm hn' hj hi' hjfile hfile
      (hjlocation.trans hlocation.symm) (hjlocation ▸ h.alone)
    subst hmn
    rw [← hy]
    exact hdone.shows (p.isGenuine_leaves _)

/-- What a call still waits for: a refresh is one of a file item of the tree, with a text that was
current when the call began. -/
def Awaits (w : Workspace) (location : String) (history : List Settlement) (e : Explorer)
    (call : Nat) : Pending → Prop
  | .update _ => True
  | .refresh n d => ∃ i, e.forest.InTree n ∧ e.forest.item? n = some i ∧ i.kind = .file ∧
      d.path = i.location ∧
      (i.location = location → e.IsCurrentSince w location history call d.text)

/-- A call goes on waiting while files are spared and no text changes but by an update. -/
theorem Awaits.mono {history' : List Settlement} {call : Nat} {pending : Pending}
    (h : e.Awaits w location history call pending) (hkeeps : e.forest.Keeps e'.forest)
    (hinTree : ∀ n i, e.forest.InTree n → e.forest.item? n = some i → i.kind = .file →
      e'.forest.InTree n)
    (hhistory : history ⊆ history')
    (htext : e'.text? w location = e.text? w location ∨
      ∃ u ∈ history', u.pending.isUpdate = true ∧ call < u.made) :
    e'.Awaits w location history' call pending := by
  cases pending with
  | update d => trivial
  | refresh n d =>
      obtain ⟨i, hn, hi, hfile, hpath, hsince⟩ := h
      refine ⟨i, hinTree n i hn hi hfile, hkeeps n i hi, hfile, hpath, ?_⟩
      intro hlocation
      rcases htext with hsame | hupdated
      · rcases hsince hlocation with hcurrent | ⟨u, hu, hrest⟩
        · exact Or.inl (hsame.trans hcurrent)
        · exact Or.inr ⟨u, hhistory hu, hrest⟩
      · exact Or.inr hupdated

end Explorer

/-! ## Runs -/

namespace Session

variable {w : Workspace} {c : Conventions} {p : SymbolProvider} {location : String}
  {history : List Settlement} {s s' : Session}

/-- What is settled for a file at the location, and what its items show, go together. -/
structure Follows (w : Workspace) (c : Conventions) (p : SymbolProvider) (location : String)
    (history : List Settlement) (s : Session) : Prop where
  orderly : s.IsOrderly w.cwd (.ofWorkspace w c)
  tracks : Explorer.Tracks w c p location history s.explorer
  recalls : Explorer.Recalls w location history s.explorer
  waits : ∀ (k : Nat) pending, s.calls[k]? = some (.waiting pending) →
    s.explorer.Awaits w location history k pending
  reached : ∃ root, (w.nearestManifest c (directoryPart location) <|>
    s.explorer.folderAround w (directoryPart location)) = some root ∧
      c.Reaches root (directoryPart location)

theorem Follows.spared (h : Follows w c p location history s) {e : Explorer}
    {calls : Array Progress} (hs : (Session.mk e calls).IsOrderly w.cwd (.ofWorkspace w c))
    (hspares : s.explorer.forest.Spares e.forest location)
    (hconventions : e.conventions = s.explorer.conventions)
    (hfolders : e.folders = s.explorer.folders)
    (hdocuments : e.documents.get? location = s.explorer.documents.get? location)
    (hwaits : (∀ (k : Nat) pending, s.calls[k]? = some (.waiting pending) →
        e.Awaits w location history k pending) →
      ∀ (k : Nat) pending, calls[k]? = some (.waiting pending) →
        e.Awaits w location history k pending) :
    Follows w c p location history ⟨e, calls⟩ where
  orderly := hs
  tracks := h.tracks.spared hspares hs.explorer hconventions hfolders
  recalls := h.recalls.congr hdocuments
  waits := hwaits fun k pending hk => (h.waits k pending hk).mono hspares.keeps hspares.inTree
    (fun _ hx => hx) (Or.inl (Explorer.text?_congr hdocuments))
  reached := by
    have haround : e.folderAround w (directoryPart location) =
        s.explorer.folderAround w (directoryPart location) := by
      rw [Explorer.folderAround, Explorer.folderAround, hfolders]
    rw [haround]
    exact h.reached

theorem Follows.expanded (h : Follows w c p location history s) {n : ItemNo} {i : Item}
    (hn : s.explorer.forest.InTree n) (hi : s.explorer.forest.item? n = some i)
    {progress : Progress} {e : Explorer}
    (hs : (Session.mk e (s.calls.push progress)).IsOrderly w.cwd (.ofWorkspace w c))
    (hexpanded : s.explorer.HasBegunExpand w (.ofWorkspace w c) n i progress e) :
    Follows w c p location history ⟨e, s.calls.push progress⟩ := by
  cases hexpanded with
  | filled _ _ hgrows =>
      refine h.spared hs (hgrows.spares h.orderly.explorer location) hgrows.conventions
        hgrows.folders (by rw [hgrows.documents]) fun hwaits => ?_
      exact forall_waiting_push hwaits fun pending hp => absurd hp (by simp)
  | waiting hfile htext =>
      have hspares := (Explorer.Grows.refl s.explorer).spares h.orderly.explorer location
      refine h.spared hs hspares rfl rfl rfl fun hwaits => ?_
      refine forall_waiting_push hwaits fun pending hp => ?_
      rw [← Progress.waiting.inj hp]
      exact ⟨i, hn, hi, hfile, rfl, fun hlocation => Or.inl (hlocation ▸ htext)⟩
  | @cleared _ r hfile htext _ hconventions hfolders hdocuments hdone =>
      refine h.spared hs (Explorer.spares_of_isReconciled h.orderly.explorer hi hfile hdone ?_)
        hconventions hfolders (by rw [hdocuments]) fun hwaits =>
          forall_waiting_push hwaits fun pending hp => absurd hp (by simp)
      intro hlocation
      -- a file without a text was never settled, so it has shown nothing so far either
      have hnone : history = [] := by
        by_contra hne
        obtain ⟨text, hsome⟩ := h.recalls.known hne
        rw [hlocation, hsome] at htext
        exact absurd htext (by simp)
      rw [h.tracks.bare n i hi hfile hlocation fun _ => hnone, hdone.ids]
      simp

theorem Follows.refreshed (h : Follows w c p location history s) {k : Nat} {n : ItemNo}
    {d : Document} {i : Item} {e : Explorer} {r : Reconciliation}
    (hcall : s.calls[k]? = some (.waiting (.refresh n d)))
    (hi : s.explorer.forest.item? n = some i) (hfile : i.kind = .file)
    (hs : (Session.mk e (s.calls.set! k (.answered .done))).IsOrderly w.cwd (.ofWorkspace w c))
    (hconventions : e.conventions = s.explorer.conventions)
    (hfolders : e.folders = s.explorer.folders)
    (hdocuments : e.documents = s.explorer.documents)
    (hdone : Forest.IsReconciled s.explorer.forest e.forest n
      ((Forest.wantedOf w.cwd i.location (p.leaves d)).map Prod.fst) r) :
    Follows w c p location
      (history ++ [⟨k, s.calls.size, .refresh n d⟩].filter (·.isAt w.cwd location))
      ⟨e, s.calls.set! k (.answered .done)⟩ := by
  obtain ⟨j, hn, hj, -, hpath, hsince⟩ := h.waits k _ hcall
  rw [hi, Option.some.injEq] at hj
  subst hj
  have hcanonical : canonical w.cwd d.path = i.location := by
    rw [hpath]
    exact canonical_of_isLocation (h.orderly.explorer.forest.genuine n i hi).location w.cwd
  by_cases hlocation : i.location = location
  · have hget : e.documents.get? location = s.explorer.documents.get? location := by
      rw [hdocuments]
    have hat := hcanonical.trans hlocation
    simp only [Settlement.filter_isAt, Pending.document, hat, if_true]
    constructor
    · exact hs
    · exact h.tracks.settled hn hi hfile hlocation hs.explorer hconventions hfolders
        (hlocation ▸ hdone)
    · exact h.recalls.refresh rfl (hsince hlocation) hget
    · refine forall_waiting_set fun l pending hl => ?_
      refine (h.waits l pending hl).mono hdone.keeps ?_ (List.subset_append_left _ _)
        (Or.inl (Explorer.text?_congr hget))
      intro m j hm hj hjfile
      exact hm.of_isReconciled h.orderly.explorer.forest hi hfile hdone hj (by rw [hjfile]; rfl)
    · rw [Explorer.folderAround, hfolders]
      exact h.reached
  · have hnot : canonical w.cwd d.path ≠ location := hcanonical.trans_ne hlocation
    simp only [Settlement.filter_isAt, Pending.document, hnot, if_false, List.append_nil]
    have hspares := Explorer.spares_of_isReconciled h.orderly.explorer hi hfile hdone
      fun heq => absurd heq hlocation
    exact h.spared hs hspares hconventions hfolders (by rw [hdocuments])
      fun hwaits => forall_waiting_set hwaits

/-- A document at the location is placed, for its directory is reached from its root. -/
theorem Follows.placed (hw : w.IsInMemory) (h : Follows w c p location history s) {d : Document}
    (hlocation : canonical w.cwd d.path = location) {t e : Explorer} {owner : Owner}
    {result : Option ItemNo} {r : Option Reconciliation}
    (hupdated : Explorer.HasUpdated w (.ofWorkspace w c) (p.leaves d) (canonical w.cwd d.path)
      d.text (s.explorer.report (Explorer.symbolEvents p d)) t e owner result r) :
    ∃ n, result = some n := by
  obtain ⟨root, hroot, hreach⟩ := h.reached
  have hplacement := hupdated.placement
  rw [hlocation] at hplacement
  have haround : (s.explorer.report (Explorer.symbolEvents p d)).folderAround w
      (directoryPart location) = s.explorer.folderAround w (directoryPart location) := rfl
  rw [← haround] at hroot
  have hd : IsLocation (directoryPart location) :=
    isLocation_directoryPart (hlocation ▸ isLocation_canonical hw.rooted d.path)
  exact hplacement.exists_of_reaches h.tracks.conventions h.orderly.explorer.folders hd hroot
    hreach

theorem Follows.updated (hw : w.IsInMemory) (h : Follows w c p location history s) {k : Nat}
    {d : Document} {t e : Explorer} {owner : Owner} {result : Option ItemNo}
    {r : Option Reconciliation}
    (hs : (Session.mk e (s.calls.set! k (.answered (.reconciled r)))).IsOrderly w.cwd
      (.ofWorkspace w c))
    (hupdated : Explorer.HasUpdated w (.ofWorkspace w c) (p.leaves d) (canonical w.cwd d.path)
      d.text (s.explorer.report (Explorer.symbolEvents p d)) t e owner result r) :
    Follows w c p location
      (history ++ [⟨k, s.calls.size, .update d⟩].filter (·.isAt w.cwd location))
      ⟨e, s.calls.set! k (.answered (.reconciled r))⟩ := by
  by_cases hlocation : canonical w.cwd d.path = location
  · simp only [Settlement.filter_isAt, Pending.document, hlocation, if_true]
    obtain ⟨n, rfl⟩ := h.placed hw hlocation hupdated
    obtain ⟨hn, i, hi, hfile, hil⟩ := hupdated.item rfl
    obtain ⟨rec, -, hdone⟩ := hupdated.reconciled n rfl
    have hspares : s.explorer.forest.Spares t.forest location :=
      hupdated.grows.spares (h.orderly.explorer.report _) location
    have ht : Explorer.Tracks w c p location history t := h.tracks.spared hspares
      hupdated.orderly hupdated.grows.conventions hupdated.grows.folders
    constructor
    · exact hs
    · refine ht.settled hn hi hfile (hil.trans hlocation) hs.explorer
        (hupdated.conventions.trans hupdated.grows.conventions.symm)
        (hupdated.folders.trans hupdated.grows.folders.symm) (hlocation ▸ hdone)
    · refine Explorer.recalls_of_update rfl ?_
      rw [hupdated.remembered n rfl, Keyed.get?_insert, if_pos hlocation.symm]
      rfl
    · refine forall_waiting_set fun l pending hl => ?_
      have hlt : l < s.calls.size := (Array.getElem?_eq_some_iff.mp hl).1
      refine (h.waits l pending hl).mono (hspares.keeps.trans hdone.keeps) ?_
        (List.subset_append_left _ _) (Or.inr ⟨⟨k, _, .update d⟩, by simp, rfl, hlt⟩)
      intro m j hm hj hjfile
      exact (hspares.inTree m j hm hj hjfile).of_isReconciled hupdated.orderly.forest hi hfile
        hdone (hspares.keeps m j hj) (by rw [hjfile]; rfl)
    · rw [Explorer.folderAround, hupdated.folders]
      exact h.reached
  · simp only [Settlement.filter_isAt, Pending.document, hlocation, if_false, List.append_nil]
    obtain ⟨hspares, hdocuments⟩ := hupdated.spares (h.orderly.explorer.report _) hlocation
    exact h.spared hs hspares hupdated.conventions hupdated.folders hdocuments
      fun hwaits => forall_waiting_set hwaits

/-- Each step of editing goes on with what is settled and what is shown going together. -/
theorem Follows.step (hw : w.IsInMemory) (h : Follows w c p location history s) {m : Move}
    (hm : m.IsEditing) (hstep : s.step w p m = .ok s') :
    Follows w c p location
      (history ++ (s.settlement? m).toList.filter (·.isAt w.cwd location)) s' := by
  have hJ : (Judgement.ofWorkspace w c).Holds w s.explorer.conventions := by
    rw [h.tracks.conventions]
    exact Judgement.holds_ofWorkspace w c
  have hs' := (h.orderly.of_step hw hJ hstep).1
  cases hasEdited_of_step hw hJ h.orderly hm hstep with
  | grown _ hgrows =>
      rw [settlement?, Option.toList_none, List.filter_nil, List.append_nil]
      refine h.spared hs' (hgrows.spares h.orderly.explorer location) hgrows.conventions
        hgrows.folders (by rw [hgrows.documents]) fun hwaits => ?_
      exact forall_waiting_push hwaits fun pending hp => absurd hp (by simp)
  | begun =>
      rw [settlement?, Option.toList_none, List.filter_nil, List.append_nil]
      have hspares := (Explorer.Grows.refl s.explorer).spares h.orderly.explorer location
      refine h.spared hs' hspares rfl rfl rfl fun hwaits => ?_
      refine forall_waiting_push hwaits fun pending hp => ?_
      rw [← Progress.waiting.inj hp]
      trivial
  | expanded hn hi hexpanded =>
      rw [settlement?, Option.toList_none, List.filter_nil, List.append_nil]
      exact h.expanded hn hi hs' hexpanded
  | @idle k hidle =>
      have hnone : s.settlement? (.settle k) = none := by
        simp only [settlement?]
      rw [hnone, Option.toList_none, List.filter_nil, List.append_nil]
      exact h
  | updated hcall _ hupdated =>
      rw [settlement?, hcall]
      exact h.updated hw hs' hupdated
  | refreshed hcall hi hfile _ hconventions hfolders hdocuments hdone =>
      rw [settlement?, hcall]
      exact h.refreshed hcall hi hfile hs' hconventions hfolders hdocuments hdone

theorem HasEdited.folders {J : Judgement} {m : Move} (h : HasEdited w J p s m s') :
    s'.explorer.folders = s.explorer.folders := by
  cases h with
  | grown _ hgrows => exact hgrows.folders
  | begun | idle => rfl
  | expanded _ _ hexpanded =>
      cases hexpanded with
      | filled _ _ hgrows => exact hgrows.folders
      | waiting => rfl
      | cleared _ _ _ _ hfolders => exact hfolders
  | updated _ _ hupdated => exact hupdated.folders
  | refreshed _ _ _ _ _ hfolders => exact hfolders

theorem isOrderly_of_run (hw : w.IsInMemory) (folders : List String) {moves : List Move}
    (hmoves : ∀ m ∈ moves, m.IsEditing)
    (hrun : (ofExplorer (.start w c folders)).run w p moves = .ok s) :
    s.IsOrderly w.cwd (.ofWorkspace w c) ∧ s.explorer.conventions = c ∧
      s.explorer.folders = (Explorer.start w c folders).folders := by
  refine run_induction (P := fun _ s => s.IsOrderly w.cwd (.ofWorkspace w c) ∧
    s.explorer.conventions = c ∧ s.explorer.folders = (Explorer.start w c folders).folders)
    ?_ hmoves [] ⟨?_, rfl, rfl⟩ hrun
  · rintro - s m s' ⟨hs, hc, hfolders⟩ hm hstep
    have hJ : (Judgement.ofWorkspace w c).Holds w s.explorer.conventions := by
      rw [hc]
      exact Judgement.holds_ofWorkspace w c
    obtain ⟨hs', hkeeps⟩ := hs.of_step hw hJ hstep
    exact ⟨hs', hkeeps.conventions.trans hc,
      (hasEdited_of_step hw hJ hs hm hstep).folders.trans hfolders⟩
  · exact isOrderly_ofExplorer (Explorer.isOrderly_start _ hw.rooted c folders)

theorem follows_start (hw : w.IsInMemory) (folders : List String)
    (hshared : ¬ w.IsShared c (Explorer.start w c folders).folders (directoryPart location))
    (hreached : ∃ root, (w.nearestManifest c (directoryPart location) <|>
      (Explorer.start w c folders).folderAround w (directoryPart location)) = some root ∧
        c.Reaches root (directoryPart location)) :
    Follows w c p location [] (ofExplorer (.start w c folders)) := by
  have hstart := Explorer.isOrderly_start (.ofWorkspace w c) hw.rooted c folders
  have hnone : ∀ n, (Explorer.start w c folders).forest.item? n = none := fun _ => rfl
  constructor
  · exact isOrderly_ofExplorer hstart
  · refine ⟨hstart, rfl, hshared, fun hne => absurd rfl hne, ?_, ?_⟩
    · exact fun n i hi => absurd ((hnone n).symm.trans hi) (by simp)
    · exact fun n i _ hi => absurd ((hnone n).symm.trans hi) (by simp)
  · exact ⟨rfl, fun hne => absurd rfl hne, fun _ x hx => absurd hx (by simp)⟩
  · exact fun k pending hk => absurd hk (by simp [ofExplorer])
  · exact hreached

/-- In every run of editing, a file item whose directory is not shared by two folders shows the
leaves of the document that was settled last for its file, and none if no document was settled.  The
remembered text is that of the update that was settled last.  If no refresh that was begun before an
update of the file was settled is itself settled after it, then the document that is shown has the
remembered text or, without one, the text that the file has. -/
theorem shows_lastSettled (hw : w.IsInMemory) (folders : List String) {moves : List Move}
    (hmoves : ∀ m ∈ moves, m.IsEditing)
    (hrun : (ofExplorer (.start w c folders)).run w p moves = .ok s) {n : ItemNo} {i : Item}
    (hn : s.explorer.forest.InTree n) (hi : s.explorer.forest.item? n = some i)
    (hfile : i.kind = .file)
    (hshared : ¬ w.IsShared c s.explorer.folders (directoryPart i.location)) :
    let history := (ofExplorer (.start w c folders)).settledAt w p moves i.location
    s.explorer.forest.Shows w.cwd n i.location
        ((history.getLast?.map fun x => p.leaves x.pending.document).getD []) ∧
      s.explorer.documents.get? i.location = Settlement.lastText history ∧
      (Settlement.InTime history → ∀ x ∈ history.getLast?,
        s.explorer.text? w i.location = some x.text) := by
  intro history
  obtain ⟨hs, hc, hfolders⟩ := isOrderly_of_run hw folders hmoves hrun
  obtain ⟨root, hroot, hreach⟩ :=
    Explorer.exists_root_of_holdsFile hs.explorer hc ⟨n, i, hn, hi, hfile, rfl⟩
  rw [hfolders] at hshared
  rw [Explorer.folderAround, hfolders] at hroot
  have hstart : Follows w c p i.location [] (ofExplorer (.start w c folders)) :=
    follows_start hw folders hshared ⟨root, hroot, hreach⟩
  have hfollows : Follows w c p i.location history s := by
    refine run_induction (P := fun xs s =>
      Follows w c p i.location (xs.filter (·.isAt w.cwd i.location)) s) ?_ hmoves [] hstart hrun
    intro xs s m s' h hm hstep
    rw [List.filter_append]
    exact h.step hw hm hstep
  refine ⟨?_, hfollows.recalls.remembered, hfollows.recalls.current⟩
  cases hlast : history.getLast? with
  | some x => exact hfollows.tracks.shown n i hn hi hfile rfl x hlast
  | none =>
      have hnone := List.getLast?_eq_none_iff.mp hlast
      exact Forest.shows_nil_iff.mpr (hfollows.tracks.bare n i hi hfile rfl fun _ => hnone)

/-- An update that is settled after a refresh was begun wins, if the refresh is settled before it. -/
theorem shows_lastSettled_updateLast :
    let w := Workspace.holding "/" [("/a/x_test.go", "package a\n\nfunc TestOld() \x7b\x7d\n")]
    let d : Document := ⟨"/a/x_test.go", "package a\n\nfunc TestNew() \x7b\x7d\n", 1⟩
    ∃ s n i, (ofExplorer (.start w .usual ["/a"])).run w .scanner [.call .expandTop,
        .call (.expand 0), .call (.expand 1), .call (.update d), .settle 2, .settle 3] = .ok s ∧
      s.explorer.forest.InTree n ∧ s.explorer.forest.item? n = some i ∧ i.kind = .file ∧
      s.explorer.forest.Shows w.cwd n i.location (SymbolProvider.scanner.leaves d) ∧
      s.explorer.documents.get? i.location = some d.text := by
  intro w d
  have hw : w.IsInMemory := Workspace.isInMemory_holding (by decide) _
  have hview : ((ofExplorer (.start w .usual ["/a"])).run w .scanner [.call .expandTop,
      .call (.expand 0), .call (.expand 1), .call (.update d), .settle 2, .settle 3]).toOption.map
        (fun s => (s.explorer.folders, s.explorer.forest.top, s.explorer.forest.children 0,
          (s.explorer.forest.item? 1).map fun i => (i.kind, i.location))) =
      some (["/a"], [0], [1], some (.file, "/a/x_test.go")) := by
    decide +kernel
  obtain ⟨s, hrun, hview⟩ := exists_ok_of_view hview
  simp only [Prod.mk.injEq, Option.map_eq_some_iff] at hview
  obtain ⟨hfolders, htop, hchild, i, hi, hfile, hlocation⟩ := hview
  have h0 : s.explorer.forest.InTree 0 := .top (by rw [htop]; simp)
  have h1 : s.explorer.forest.InTree 1 := .under h0 (by rw [hchild]; simp)
  have hshared : ¬ w.IsShared .usual s.explorer.folders (directoryPart i.location) := by
    rw [hfolders]
    rintro ⟨-, f, hf, g, hg, hne, -⟩
    rw [List.mem_singleton] at hf hg
    exact hne (hf.trans hg.symm)
  have hhistory : (ofExplorer (.start w .usual ["/a"])).settledAt w .scanner [.call .expandTop,
      .call (.expand 0), .call (.expand 1), .call (.update d), .settle 2, .settle 3]
        "/a/x_test.go" =
      [⟨2, 4, .refresh 1 ⟨"/a/x_test.go", "package a\n\nfunc TestOld() \x7b\x7d\n", 0⟩⟩,
        ⟨3, 4, .update d⟩] := by
    decide +kernel
  obtain ⟨hshows, hremembered, -⟩ := shows_lastSettled hw ["/a"]
    (by simp [Move.IsEditing]) hrun h1 hi hfile hshared
  rw [hlocation, hhistory] at hshows hremembered
  refine ⟨s, 1, i, hrun, h1, hi, hfile, ?_, ?_⟩
  · rw [hlocation]
    exact hshows
  · rw [hlocation, hremembered]
    rfl

/-! ## What cannot be said -/

/-- Once every call of a run has its answer, each file item that was filled in, or whose document
was opened or changed, shows the leaves of the text that is remembered for it. -/
def ShowsRememberedText (w : Workspace) (c : Conventions) (folders : List String)
    (p : SymbolProvider) (moves : List Move) : Prop :=
  ∀ s, (ofExplorer (.start w c folders)).run w p moves = .ok s → s.isQuiet = true →
    ∀ n i text, s.explorer.forest.InTree n → s.explorer.forest.item? n = some i →
      i.kind = .file →
      (Move.call (.expand n) ∈ moves ∨
        ∃ d, Move.call (.update d) ∈ moves ∧ canonical w.cwd d.path = i.location) →
      s.explorer.documents.get? i.location = some text →
      s.explorer.forest.Shows w.cwd n i.location (p.leaves ⟨i.location, text, 0⟩)

/-- The moves that serve requests one by one. -/
def oneByOne (requests : List Request) : List Move :=
  requests.zipIdx.flatMap fun (request, k) => [.call request, .settle k]

/-- An item that has an identifier which none of the leaves has does not show them. -/
theorem not_shows_of_mem_ids {f : Forest} {cwd : String} {n : ItemNo} {location id : String}
    {leaves : List Leaf} (hid : id ∈ f.ids (.under n))
    (hleaves : ∀ leaf ∈ leaves,
      (Id.build cwd location leaf.kind (some leaf.name)).toOption ≠ some id) :
    ¬ f.Shows cwd n location leaves := by
  intro hshows
  obtain ⟨leaf, hleaf, hbuild⟩ := (hshows id).mp hid
  exact hleaves leaf hleaf (by rw [hbuild]; rfl)

/-- With one folder inside another one, a file with two items has its update at one of them only,
even if the calls are served one by one.  With one folder, a refresh that is settled after an update
leaves the older text over the newer one. -/
theorem not_showsRememberedText :
    (¬ ∀ w c folders p requests, w.IsInMemory → (∀ r ∈ requests, (Move.call r).IsEditing) →
      ShowsRememberedText w c folders p (oneByOne requests)) ∧
    (¬ ∀ w c folder p moves, w.IsInMemory → (∀ m ∈ moves, m.IsEditing) →
      ShowsRememberedText w c [folder] p moves) := by
  constructor
  · intro hall
    let w := Workspace.holding "/"
      [("/a/b/x_test.go", "package b\n\nfunc TestOld(t *testing.T) \x7b\x7d\n")]
    let d : Document :=
      ⟨"/a/b/x_test.go", "package b\n\nfunc TestNew(t *testing.T) \x7b\x7d\n", 0⟩
    let i : Item := ⟨"file:///a/b/x_test.go?file", "x_test.go", "/a/b/x_test.go", .file, none, none⟩
    -- the folders, the package below the outer one, the file twice, and both its items
    let requests : List Request := [.expandTop, .expand 0, .expand 1, .expand 2, .expand 3,
      .expand 4, .update d]
    have hw : w.IsInMemory := Workspace.isInMemory_holding (by decide) _
    have hview : ((ofExplorer (.start w .usual ["/a", "/a/b"])).run w .scanner
        (oneByOne requests)).toOption.map (fun s =>
          ((s.isQuiet, [.top, .under 0, .under 2].map s.explorer.forest.members),
            s.explorer.forest.item? 4, s.explorer.documents.get? i.location,
            s.explorer.forest.ids (.under 4))) =
        some ((true, [[0, 1], [2], [4]]), some i, some d.text,
          ["file:///a/b/x_test.go?test#TestOld"]) := by
      decide +kernel
    obtain ⟨s, hrun, hview⟩ := exists_ok_of_view hview
    simp only [Prod.mk.injEq, List.map_cons, List.cons.injEq] at hview
    obtain ⟨⟨hquiet, htop, hpackage, hchild, -⟩, hi, htext, hids⟩ := hview
    have h0 : s.explorer.forest.InTree 0 := .top (show 0 ∈ s.explorer.forest.members .top by
      rw [htop]
      simp)
    have h2 : s.explorer.forest.InTree 2 := .under h0 (by rw [Forest.children, hpackage]; simp)
    have h4 : s.explorer.forest.InTree 4 := .under h2 (by rw [Forest.children, hchild]; simp)
    have hshows := hall w .usual ["/a", "/a/b"] .scanner requests hw
      (by simp [requests, Move.IsEditing]) s hrun hquiet 4 i d.text h4 hi rfl
      (Or.inl (by simp [requests, oneByOne])) htext
    have hold : "file:///a/b/x_test.go?test#TestOld" ∈ s.explorer.forest.ids (.under 4) := by
      rw [hids]
      simp
    exact not_shows_of_mem_ids hold (by decide +kernel) hshows
  · intro hall
    let w := Workspace.holding "/"
      [("/a/x_test.go", "package a\n\nfunc TestOld(t *testing.T) \x7b\x7d\n")]
    let d : Document :=
      ⟨"/a/x_test.go", "package a\n\nfunc TestNew(t *testing.T) \x7b\x7d\n", 1⟩
    let i : Item := ⟨"file:///a/x_test.go?file", "x_test.go", "/a/x_test.go", .file, none, none⟩
    -- the refresh is begun before the update and settled after it
    let moves : List Move := [.call .expandTop, .call (.expand 0), .call (.expand 1),
      .call (.update d), .settle 3, .settle 2]
    have hw : w.IsInMemory := Workspace.isInMemory_holding (by decide) _
    have hview : ((ofExplorer (.start w .usual ["/a"])).run w .scanner moves).toOption.map
        (fun s => ((s.isQuiet, [.top, .under 0].map s.explorer.forest.members),
          s.explorer.forest.item? 1, s.explorer.documents.get? i.location,
          s.explorer.forest.ids (.under 1))) =
        some ((true, [[0], [1]]), some i, some d.text,
          ["file:///a/x_test.go?test#TestOld"]) := by
      decide +kernel
    obtain ⟨s, hrun, hview⟩ := exists_ok_of_view hview
    simp only [Prod.mk.injEq, List.map_cons, List.cons.injEq] at hview
    obtain ⟨⟨hquiet, htop, hchild, -⟩, hi, htext, hids⟩ := hview
    have h0 : s.explorer.forest.InTree 0 := .top (show 0 ∈ s.explorer.forest.members .top by
      rw [htop]
      simp)
    have h1 : s.explorer.forest.InTree 1 := .under h0 (by rw [Forest.children, hchild]; simp)
    have hshows := hall w .usual "/a" .scanner moves hw (by simp [moves, Move.IsEditing]) s hrun
      hquiet 1 i d.text h1 hi rfl (Or.inl (by simp [moves])) htext
    have hold : "file:///a/x_test.go?test#TestOld" ∈ s.explorer.forest.ids (.under 1) := by
      rw [hids]
      simp
    exact not_shows_of_mem_ids hold (by decide +kernel) hshows

end Session

end TestAtlas
