import TestAtlas.Proofs.Explorer.Layers
import TestAtlas.Proofs.Explorer.Session
import TestAtlas.Proofs.Tree.Lookup

/-!
# Nothing but a stray call is refused, and no text but one that cannot be encoded ends a call

However the calls of a session are made and settled, and whatever the files are at each step, the
tree stays layered and every call that waits can go on.  A call about an item that is not in the
tree is refused as unknown and changes nothing.  Any other step succeeds, unless it meets a text
that cannot be encoded; also then the session can go on.  The main statement is
`Session.Arises.completes`.  Such a text need not be one of the caller, so a listing can end a call:
`Session.not_completes_named`.
-/

namespace TestAtlas

/-- What is to be refreshed is the item of a file, in the tree or not. -/
def Forest.Awaits (f : Forest) : Pending → Prop
  | .update _ => True
  | .refresh n _ => ∃ i, f.item? n = some i ∧ i.kind = .file

theorem Forest.Awaits.keeps {f g : Forest} (hfg : f.Keeps g) {pending : Pending}
    (h : f.Awaits pending) : g.Awaits pending := by
  cases pending with
  | update d => trivial
  | refresh n d =>
      obtain ⟨i, hi, hfile⟩ := h
      exact ⟨i, hfg n i hi, hfile⟩

namespace Explorer

variable {w : Workspace} {e : Explorer}

/-- A request was begun: the tree goes on, and so can what is waited for. -/
structure HasBegunOn (f : Forest) (result : Progress × Explorer) : Prop where
  continues : f.Continues result.2.forest
  awaits : ∀ pending, result.1 = .waiting pending → result.2.forest.Awaits pending

theorem HasBegunOn.answered {f : Forest} {answer : Answer} {e' : Explorer}
    (h : f.Continues e'.forest) : HasBegunOn f (.answered answer, e') where
  continues := h
  awaits := fun _ hpending => absurd hpending (by simp)

section Serving

variable [StandIns]

/-! ## Finishing -/

theorem finishUpdate_continues (h : e.forest.IsLayered) (w : Workspace) (d : Document)
    {leaves : List Leaf} (hleaves : ∀ leaf ∈ leaves, leaf.IsGenuine) :
    Proceeds e.forest (fun r => e.forest.Continues r.2.forest) (e.finishUpdate w d leaves) := by
  unfold finishUpdate
  refine (ensureFile_continues h w d.path).bind ?_
  rintro ⟨result, s⟩ ⟨hs, hfile⟩
  cases result with
  | none => exact .ok hs
  | some n =>
      obtain ⟨i, hi, hkind⟩ := hfile n rfl
      have hreconcile := reconcile_continues
        (e := { s with documents := s.documents.insert i.location d.text })
        hs.layered w hi hkind hleaves
      simp only [hi, Option.map_some, Option.getD_some]
      exact (hreconcile.after hs fun _ hr => hr).bind fun r hr => .ok (hs.trans hr)

/-- What is left of a request can always be done, whatever the provider does. -/
theorem finish_continues (h : e.forest.IsLayered) (w : Workspace) (p : SymbolProvider)
    {pending : Pending} (hpending : e.forest.Awaits pending) :
    Proceeds e.forest (fun r => e.forest.Continues r.2.forest ∧ ∀ err, r.1 ≠ .failed err)
      (e.finish w p pending) := by
  cases pending with
  | update d =>
      have hupdate := finishUpdate_continues (e := e.report (symbolEvents p d)) h w d
        (p.isGenuine_leaves d)
      exact hupdate.bind fun r hr => .ok ⟨hr, by simp⟩
  | refresh n d =>
      obtain ⟨i, hi, hfile⟩ := hpending
      have hreconcile := reconcile_continues (e := e.report (symbolEvents p d)) h w hi hfile
        (p.isGenuine_leaves d)
      exact hreconcile.bind fun r hr => .ok ⟨hr, by simp⟩

/-! ## Beginning -/

theorem begins_of_bind {f : Forest} {result : Except Refusal Explorer} {answer : Answer}
    (h : Proceeds f (fun e' => f.Continues e'.forest) result) :
    Proceeds f (HasBegunOn f) (result >>= fun e => pure (Progress.answered answer, e)) :=
  h.bind fun _ he' => .ok (.answered he')

theorem beginRefresh_begins (h : e.forest.IsLayered) (w : Workspace) {n : ItemNo} {item : Item}
    (hitem : e.forest.item? n = some item) (hfile : item.kind = .file) :
    Proceeds e.forest (HasBegunOn e.forest) (e.beginRefresh w n item) := by
  have hwaits : ∀ d, HasBegunOn e.forest (.waiting (.refresh n d), e) := by
    intro d
    refine ⟨.refl h, ?_⟩
    rintro _ ⟨⟩
    exact ⟨item, hitem, hfile⟩
  unfold beginRefresh
  split
  · exact .ok (hwaits _)
  · split
    · exact .ok (hwaits _)
    · -- a file that cannot be read has no leaves
      rename_i err _
      have hnone : ∀ leaf ∈ ([] : List Leaf), leaf.IsGenuine := by simp
      have hreconcile := reconcile_continues
        (e := e.report [.cannotReadFile item.location err]) h w hitem hfile hnone
      exact hreconcile.bind fun r hr => .ok (.answered hr)

/-- An item of the tree can be filled in. -/
theorem beginExpand_begins (h : e.forest.IsLayered) (w : Workspace) {n : ItemNo}
    (hn : e.forest.InTree n) : Proceeds e.forest (HasBegunOn e.forest) (e.beginExpand w n) := by
  obtain ⟨item, hitem⟩ := h.exists_item_of_inTree hn
  have hattached := (Forest.isAttached_iff h StandsLower.level_lt n).mpr hn
  unfold beginExpand
  simp only [hitem, hattached, Bool.not_true, Bool.false_eq_true, if_false]
  cases hkind : item.kind with
  | module | workspace =>
      have hroot : item.kind.isRoot = true := by rw [hkind]; rfl
      exact begins_of_bind (expandRoot_continues h w hitem hroot)
  | package => exact begins_of_bind (expandPackage_continues h w hitem hkind)
  | file => exact beginRefresh_begins h w hitem hkind
  | test | benchmark | «example» => exact .ok (.answered (.refl h))

/-- Every request can be begun, but for one about an item that is not in the tree. -/
theorem begin_begins (h : e.forest.IsLayered) (w : Workspace) {request : Request}
    (hrequest : ¬ Request.IsStray e.forest request) :
    Proceeds e.forest (HasBegunOn e.forest) (e.begin w request) := by
  have hupdate : ∀ d, HasBegunOn e.forest (e.beginUpdate w d, e) := by
    intro d
    unfold beginUpdate
    split
    · refine ⟨.refl h, ?_⟩
      rintro _ ⟨⟩
      trivial
    · exact .answered (.refl h)
  cases request with
  | expandTop => exact begins_of_bind (expandTop_continues h w)
  | expand n => exact beginExpand_begins h w (not_not.mp hrequest)
  | update d => exact .ok (hupdate d)
  | fileCreated path =>
      show Proceeds e.forest _ (.ok (e.beginCreated w path))
      unfold beginCreated
      simp only
      split
      · exact .ok (.answered (.refl h))
      · split
        · exact .ok (.answered (.refl h))
        · split
          · exact .ok (.answered (.refl h))
          · exact .ok (hupdate _)
  | fileDeleted path =>
      obtain ⟨ids, e', hremove, he'⟩ := remove_continues h w path
      simp only [begin, hremove, bind, Except.bind]
      exact .ok (.answered he')
  | foldersChanged added removed => exact begins_of_bind (changeFolders_continues h w added removed)

end Serving

/-- What is found at a path are the items of the tree with that location. -/
theorem mem_find_iff (h : e.forest.IsLayered) (w : Workspace) (path : String) (n : ItemNo) :
    n ∈ e.find w path ↔ e.forest.InTree n ∧
      ∃ i, e.forest.item? n = some i ∧ i.location = Path.canonical w.cwd path := by
  rw [find, Forest.mem_locatedAt_iff, Forest.mem_walk_top_iff h StandsLower.level_lt]

end Explorer

namespace Session

variable {w : Workspace} {s : Session}

/-- The tree is layered, and every call that waits can go on. -/
structure IsSafe (s : Session) : Prop where
  layered : s.explorer.forest.IsLayered
  awaits : ∀ (k : Nat) pending, s.calls[k]? = some (.waiting pending) →
    s.explorer.forest.Awaits pending

theorem isSafe_start (w : Workspace) (c : Conventions) (folders : List String) :
    (ofExplorer (.start w c folders)).IsSafe where
  layered := Forest.isArranged_empty _ _
  awaits := fun _ _ hk => absurd hk (by simp [ofExplorer])

theorem IsSafe.set (h : s.IsSafe) {e : Explorer} (he : s.explorer.forest.Continues e.forest)
    {k : Nat} {pending : Pending} (hcall : s.calls[k]? = some (.waiting pending))
    (answer : Answer) :
    (Session.mk e (s.calls.set! k (.answered answer))).IsSafe ∧
      (Session.mk e (s.calls.set! k (.answered answer))).answer? k = some answer := by
  refine ⟨⟨he.layered, ?_⟩, (answer?_set hcall).mpr (Or.inr rfl)⟩
  exact forall_waiting_set (P := fun _ => e.forest.Awaits)
    fun l pending hl => (h.awaits l pending hl).keeps he.keeps

theorem IsStray.exists_expand {m : Move} (hm : s.IsStray m) :
    ∃ n, m = .call (.expand n) ∧ ¬ s.explorer.forest.InTree n := by
  cases m with
  | settle k => exact hm.elim
  | call request =>
      cases request with
      | expand n => exact ⟨n, rfl, hm⟩
      | expandTop | update | fileCreated | fileDeleted | foldersChanged => exact hm.elim

section Serving

variable [StandIns]

/-- A call about an item that is not in the tree is refused, by the identifier of the item. -/
theorem IsSafe.outcome_of_not_inTree (h : s.IsSafe) (w : Workspace) (p : SymbolProvider)
    {n : ItemNo} (hn : ¬ s.explorer.forest.InTree n) :
    s.outcome w p (.call (.expand n)) =
      (some (.unknownItem ((s.explorer.forest.idOf? n).getD "")), s) := by
  have hattached := Forest.isAttached_eq_false h.layered StandsLower.level_lt hn
  simp only [outcome, Explorer.begin, Explorer.beginExpand_of_not_isAttached w hattached]

/-- A call that waits has an answer once it is settled, and the session stays safe.  An error in the
answer is the one that is told, that of a text that cannot be encoded. -/
theorem IsSafe.settle (h : s.IsSafe) (w : Workspace) (p : SymbolProvider) {k : Nat}
    {pending : Pending} (hcall : s.calls[k]? = some (.waiting pending)) :
    ∃ told answer s', s.outcome w p (.settle k) = (told, s') ∧ s'.IsSafe ∧
      s'.answer? k = some answer ∧ (∀ err, answer = .failed err ↔ told = some err) ∧
      ∀ err, told = some err → err.IsEncoding := by
  have hfinish := Explorer.finish_continues h.layered w p (h.awaits k pending hcall)
  simp only [outcome, hcall]
  generalize s.explorer.finish w p pending = result at hfinish ⊢
  cases hfinish with
  | @ok r hr =>
      obtain ⟨hsafe, hanswer⟩ := h.set hr.1 hcall r.1
      have hnone : ∀ err, r.1 = .failed err ↔ (none : Option TreeError) = some err :=
        fun err => iff_of_false (hr.2 err) (by simp)
      exact ⟨_, _, _, rfl, hsafe, hanswer, hnone, fun _ htold => absurd htold (by simp)⟩
  | @error r herr hg =>
      obtain ⟨hsafe, hanswer⟩ := h.set hg hcall (.failed r.error)
      refine ⟨_, _, _, rfl, hsafe, hanswer, by simp, ?_⟩
      rintro _ ⟨⟩
      exact herr

/-- Each step keeps the session safe, and it succeeds unless it is a stray call or meets a text that
cannot be encoded. -/
theorem IsSafe.outcome (h : s.IsSafe) (w : Workspace) (p : SymbolProvider) (m : Move) :
    (s.outcome w p m).2.IsSafe ∧
      ∀ err, (s.outcome w p m).1 = some err → s.IsStray m ∨ err.IsEncoding := by
  by_cases hm : s.IsStray m
  · obtain ⟨n, rfl, hn⟩ := hm.exists_expand
    rw [h.outcome_of_not_inTree w p hn]
    exact ⟨h, fun _ _ => Or.inl hm⟩
  cases m with
  | call request =>
      have hbegin := Explorer.begin_begins h.layered w hm
      simp only [Session.outcome]
      generalize s.explorer.begin w request = result at hbegin ⊢
      cases hbegin with
      | @ok r hr =>
          refine ⟨⟨hr.continues.layered, ?_⟩, fun _ htold => absurd htold (by simp)⟩
          exact forall_waiting_push (P := fun _ => r.2.forest.Awaits)
            (fun k pending hk => (h.awaits k pending hk).keeps hr.continues.keeps) hr.awaits
      | error herr hg =>
          refine ⟨⟨hg.layered, fun k pending hk => (h.awaits k pending hk).keeps hg.keeps⟩, ?_⟩
          rintro _ ⟨⟩
          exact Or.inr herr
  | settle k =>
      by_cases hcall : ∃ pending, s.calls[k]? = some (.waiting pending)
      · obtain ⟨pending, hcall⟩ := hcall
        obtain ⟨told, answer, s', houtcome, hs', -, -, herr⟩ := h.settle w p hcall
        rw [houtcome]
        exact ⟨hs', fun err htold => Or.inr (herr err htold)⟩
      · rw [outcome_settle_of_not_waiting w p (not_exists.mp hcall)]
        exact ⟨h, fun _ htold => absurd htold (by simp)⟩

/-- Every session that comes about is safe, whatever the files are at each step. -/
theorem Arises.isSafe {admits : Workspace → Prop} {c : Conventions} (h : Arises admits c s) :
    s.IsSafe := by
  induction h with
  | start folders _ => exact isSafe_start _ _ folders
  | @step w s s' p m _ _ hstep ih =>
      rw [← (Prod.mk.inj (outcome_of_step hstep)).2]
      exact (ih.outcome w p m).1
  | @refused w s s' err p m _ _ hrefused ih =>
      have hsafe := (ih.outcome w p m).1
      rwa [hrefused] at hsafe

/-- However the calls were made and settled, and whatever the files were at each step: every move is
carried out, but for a call about an item that is not in the tree, as far as the texts it meets can
be encoded.  So without characters that stand for single halves every other move is carried out.  A
call about an item that is not in the tree is refused as unknown and changes nothing.  A call that
waits has its answer once it is settled, whatever the provider does, and only a text that cannot be
encoded makes an error of it.  A path is looked up among exactly the items of the tree. -/
theorem Arises.completes {c : Conventions} (h : Arises (fun _ => True) c s) (w : Workspace)
    (p : SymbolProvider) :
    (∀ m err, (s.outcome w p m).1 = some err → s.IsStray m ∨ err.IsEncoding) ∧
    (StandIns.all = [] → ∀ m, ¬ s.IsStray m → (s.outcome w p m).1 = none) ∧
    (∀ n i, s.explorer.forest.item? n = some i →
      (s.outcome w p (.call (.expand n)) = (some (.unknownItem i.id), s) ↔
        ¬ s.explorer.forest.InTree n)) ∧
    (∀ k pending, s.calls[k]? = some (.waiting pending) →
      ∃ answer, (s.outcome w p (.settle k)).2.answer? k = some answer ∧
        ∀ err, answer = .failed err → err.IsEncoding) ∧
    ∀ path n, n ∈ s.explorer.find w path ↔ s.explorer.forest.InTree n ∧
      ∃ i, s.explorer.forest.item? n = some i ∧ i.location = Path.canonical w.cwd path := by
  have hs := h.isSafe
  have htold : ∀ m err, (s.outcome w p m).1 = some err → s.IsStray m ∨ err.IsEncoding :=
    fun m => (hs.outcome w p m).2
  refine ⟨htold, ?_, ?_, ?_, fun path n => Explorer.mem_find_iff hs.layered w path n⟩
  · intro hnone m hm
    cases houtcome : (s.outcome w p m).1 with
    | none => rfl
    | some err =>
        rcases htold m err houtcome with hstray | herr
        · exact absurd hstray hm
        · exact absurd herr (TreeError.not_isEncoding hnone err)
  · intro n i hi
    constructor
    · intro hrefused hn
      rcases htold (.call (.expand n)) _ (congrArg Prod.fst hrefused) with hstray | herr
      · exact hstray hn
      · exact absurd herr (by rintro ⟨⟩)
    · intro hn
      rw [hs.outcome_of_not_inTree w p hn, Forest.idOf?, hi]
      rfl
  · intro k pending hcall
    obtain ⟨told, answer, s', houtcome, -, hanswer, hfailed, herr⟩ := hs.settle w p hcall
    rw [houtcome]
    exact ⟨answer, hanswer, fun err hanswered => herr err ((hfailed err).mp hanswered)⟩

end Serving

/-- A file is deleted while the symbols of its item are waited for.  Then no directory can be read
and the provider fails; still the call has its answer, and another one about the item is refused. -/
theorem Arises.completes_deleted :
    ∃ s w i, Arises (fun _ => True) .usual s ∧ s.explorer.forest.item? 1 = some i ∧
      i.kind = .file ∧ ¬ s.explorer.forest.InTree 1 ∧
      s.outcome w (.failing "no symbols") (.call (.expand 1)) = (some (.unknownItem i.id), s) ∧
      ∃ answer, (s.outcome w (.failing "no symbols") (.settle 2)).2.answer? 2 = some answer := by
  let before := Workspace.holding "/" [("/a/x_test.go", "package a")]
  let after : Workspace := { before with unreadable := ["/a", "/a/x_test.go"] }
  let waiting : Pending := .refresh 1 ⟨"/a/x_test.go", "package a", 0⟩
  have hview : ((ofExplorer (.start before .usual ["/a"])).run before .silent
      [.call .expandTop, .call (.expand 0), .call (.expand 1),
        .call (.fileDeleted "/a/x_test.go")]).toOption.map (fun s =>
          ((s.explorer.forest.item? 1).map Item.kind, s.explorer.forest.isAttached 1,
            s.calls[2]?)) = some (some .file, false, some (.waiting waiting)) := by
    decide +kernel
  obtain ⟨s, hrun, hview⟩ := exists_ok_of_view hview
  simp only [Prod.mk.injEq, Option.map_eq_some_iff] at hview
  obtain ⟨⟨i, hi, hfile⟩, hattached, hcall⟩ := hview
  have hs : Arises (fun _ => True) .usual s := (Arises.start ["/a"] trivial).run trivial .silent hrun
  have hn : ¬ s.explorer.forest.InTree 1 := by
    rw [← Forest.isAttached_iff hs.isSafe.layered StandsLower.level_lt, hattached]
    simp
  obtain ⟨-, -, hrefused, hanswered, -⟩ := Arises.completes hs after (.failing "no symbols")
  obtain ⟨answer, hanswer, -⟩ := hanswered 2 waiting hcall
  exact ⟨s, after, i, hs, hi, hfile, hn, (hrefused 1 i hi).mpr hn, answer, hanswer⟩

/-- A listing names a file by the byte `0xFF`, which is read as the half `U+DCFF`.  Then the folder
of the file cannot be filled in, though it is an item of the tree and no caller named the file. -/
theorem not_completes_named :
    ∃ (_ : StandIns) (s : Session) (w : Workspace) (err : TreeError),
      Arises (fun _ => True) .usual s ∧ s.explorer.forest.InTree 0 ∧
      (s.outcome w .silent (.call (.expand 0))).1 = some err ∧
      err.message = "'utf-8' codec can't encode character '\\udcff' in position 3: " ++
        "surrogates not allowed" := by
  let _ : StandIns := ⟨[⟨'\uE000', 0xDCFF, by decide, by decide⟩]⟩
  let w := Workspace.holding "/" [("/a/\uE000_test.go", "package a")]
  have hview : ((ofExplorer (.start w .usual ["/a"])).run w .silent
      [.call .expandTop]).toOption.map (fun s => (s.explorer.forest.isAttached 0,
        (s.outcome w .silent (.call (.expand 0))).1)) =
      some (true, some (.cannotBuildId (.notEncodable ⟨3, 0xDCFF, []⟩))) := by
    decide +kernel
  obtain ⟨s, hrun, hview⟩ := exists_ok_of_view hview
  simp only [Prod.mk.injEq] at hview
  obtain ⟨hattached, htold⟩ := hview
  have hs : Arises (fun _ => True) .usual s := (Arises.start ["/a"] trivial).run trivial .silent hrun
  have hn := (Forest.isAttached_iff hs.isSafe.layered StandsLower.level_lt 0).mp hattached
  exact ⟨_, s, w, _, hs, hn, htold, by decide +kernel⟩

end Session

end TestAtlas
