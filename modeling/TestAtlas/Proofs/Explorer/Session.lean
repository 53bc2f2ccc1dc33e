import TestAtlas.Explorer.Session
import TestAtlas.Proofs.Explorer.Call

/-!
# Sessions stay in order

A session is in order when its explorer is and every call that waits can be finished.  Each step
succeeds and keeps the session in order, except that a call about an item outside the tree is
refused.  So every session that can come about is in order, in whatever order the calls are made and
settled and however the workspace changes in between: `Arises.isOrderly`.
-/

namespace TestAtlas

open TestAtlas.Path

/-- What is seen of a result shows that there is one. -/
theorem exists_ok_of_view {ε α β : Type} {result : Except ε α} {view : α → β} {b : β}
    (h : result.toOption.map view = some b) : ∃ a, result = .ok a ∧ view a = b := by
  cases result with
  | error err => exact absurd h (by simp [Except.toOption])
  | ok a => exact ⟨a, rfl, Option.some.inj h⟩

theorem exists_ok_of_bind_view {ε α β : Type} {result : Except ε α} {view : α → Option β} {b : β}
    (h : result.toOption.bind view = some b) : ∃ a, result = .ok a ∧ view a = some b := by
  cases result with
  | error err => exact absurd h (by simp [Except.toOption])
  | ok a => exact ⟨a, rfl, h⟩

namespace Session

/-- The explorer is in order, and whatever a call still waits for can be done. -/
structure IsOrderly (cwd : String) (J : Judgement) (s : Session) : Prop where
  explorer : s.explorer.IsOrderly cwd J
  calls : ∀ (k : Nat) progress, s.calls[k]? = some progress → s.explorer.CanServe cwd progress

/-- The move is a call about an item that is not in the tree. -/
def IsStray (s : Session) : Move → Prop
  | .call request => Explorer.Request.IsStray s.explorer.forest request
  | .settle _ => False

variable {w : Workspace} {J : Judgement} {s : Session}

theorem isOrderly_ofExplorer {cwd : String} {e : Explorer} (h : e.IsOrderly cwd J) :
    (ofExplorer e).IsOrderly cwd J where
  explorer := h
  calls := fun _ _ hk => absurd hk (by simp [ofExplorer])

theorem IsOrderly.push (h : s.IsOrderly w.cwd J) {e : Explorer} (he : e.IsOrderly w.cwd J)
    (hkeeps : s.explorer.Keeps e) {progress : Progress} (hserve : e.CanServe w.cwd progress) :
    (Session.mk e (s.calls.push progress)).IsOrderly w.cwd J where
  explorer := he
  calls := by
    intro k other hk
    rw [Array.getElem?_push] at hk
    split at hk
    · rw [← Option.some.inj hk]
      exact hserve
    · exact (h.calls k other hk).keeps hkeeps

theorem IsOrderly.set (h : s.IsOrderly w.cwd J) {e : Explorer} (he : e.IsOrderly w.cwd J)
    (hkeeps : s.explorer.Keeps e) (k : Nat) (answer : Answer) :
    (Session.mk e (s.calls.set! k (.answered answer))).IsOrderly w.cwd J where
  explorer := he
  calls := by
    intro l other hl
    change (s.calls.setIfInBounds k (.answered answer))[l]? = some other at hl
    rw [Array.getElem?_setIfInBounds] at hl
    split at hl
    · split at hl
      · rw [← Option.some.inj hl]
        exact .answered answer
      · exact absurd hl (by simp)
    · exact (h.calls l other hl).keeps hkeeps

theorem forall_waiting_push {P : Nat → Pending → Prop}
    (h : ∀ (k : Nat) pending, s.calls[k]? = some (.waiting pending) → P k pending)
    {progress : Progress} (hnew : ∀ pending, progress = .waiting pending → P s.calls.size pending) :
    ∀ (k : Nat) pending, (s.calls.push progress)[k]? = some (.waiting pending) → P k pending := by
  intro k pending hk
  rw [Array.getElem?_push] at hk
  split at hk
  · rename_i heq
    rw [heq]
    exact hnew pending (Option.some.inj hk)
  · exact h k pending hk

theorem forall_waiting_set {P : Nat → Pending → Prop}
    (h : ∀ (k : Nat) pending, s.calls[k]? = some (.waiting pending) → P k pending) {l : Nat}
    {answer : Answer} : ∀ (k : Nat) pending,
      (s.calls.set! l (.answered answer))[k]? = some (.waiting pending) → P k pending := by
  intro k pending hk
  rw [Array.set!_eq_setIfInBounds, Array.getElem?_setIfInBounds] at hk
  split at hk
  · split at hk <;> exact absurd hk (by simp)
  · exact h k pending hk

theorem answer?_eq_some_iff {k : Nat} {a : Answer} :
    s.answer? k = some a ↔ s.calls[k]? = some (.answered a) := by
  unfold answer?
  split
  · rename_i hk
    rw [hk, Option.some.injEq, Option.some.injEq, Progress.answered.injEq]
  · rename_i hk
    exact ⟨fun h => absurd h (by simp), fun h => absurd h (hk a)⟩

theorem answer?_set {answer a : Answer} {e : Explorer} {k l : Nat} {pending : Pending}
    (hcall : s.calls[l]? = some (.waiting pending)) :
    (Session.mk e (s.calls.set! l (.answered answer))).answer? k = some a ↔
      s.answer? k = some a ∨ (k, a) = (l, answer) := by
  have hlt : l < s.calls.size := (Array.getElem?_eq_some_iff.mp hcall).1
  rw [answer?_eq_some_iff, answer?_eq_some_iff, Array.set!_eq_setIfInBounds,
    Array.getElem?_setIfInBounds, Prod.mk.injEq]
  by_cases hk : l = k
  · subst hk
    rw [if_pos rfl, if_pos hlt, hcall]
    simp [eq_comm]
  · simp [hk, Ne.symm hk]

/-- A call that is answered already, or was never made, is left alone. -/
theorem outcome_settle_of_not_waiting [StandIns] (w : Workspace) (p : SymbolProvider) {k : Nat}
    (h : ∀ pending, s.calls[k]? ≠ some (.waiting pending)) :
    s.outcome w p (.settle k) = (none, s) := by
  cases hcall : s.calls[k]? with
  | none => simp only [outcome, hcall]
  | some progress =>
      cases progress with
      | answered answer => simp only [outcome, hcall]
      | waiting pending => exact absurd hcall (h pending)

theorem step_settle_of_not_waiting [StandIns] (w : Workspace) (p : SymbolProvider) {k : Nat}
    (h : ∀ pending, s.calls[k]? ≠ some (.waiting pending)) : s.step w p (.settle k) = .ok s := by
  rw [step, outcome_settle_of_not_waiting w p h]

/-- Each step that is not a stray call succeeds and keeps the session in order. -/
theorem step_spec (hw : w.IsInMemory) (hJ : J.Holds w s.explorer.conventions)
    (h : s.IsOrderly w.cwd J) (p : SymbolProvider) {m : Move} (hm : ¬ s.IsStray m) :
    ∃ s', s.step w p m = .ok s' ∧ s'.IsOrderly w.cwd J ∧ s.explorer.Keeps s'.explorer := by
  cases m with
  | call request =>
      obtain ⟨progress, e, hbegin, he, hkeeps, hserve⟩ := Explorer.begin_spec hw hJ h.explorer hm
      exact ⟨_, step_call_of_ok p hbegin, h.push he hkeeps hserve, hkeeps⟩
  | settle k =>
      cases hcall : s.calls[k]? with
      | none =>
          have hidle := step_settle_of_not_waiting w p (s := s) (k := k) (by rw [hcall]; simp)
          exact ⟨s, hidle, h, Explorer.Keeps.refl _⟩
      | some progress =>
          cases h.calls k progress hcall with
          | answered answer =>
              have hidle := step_settle_of_not_waiting w p (s := s) (k := k) (by rw [hcall]; simp)
              exact ⟨s, hidle, h, Explorer.Keeps.refl _⟩
          | waiting hpending =>
              obtain ⟨answer, e, hfinish, he, hkeeps⟩ :=
                Explorer.finish_spec hw hJ h.explorer p hpending
              exact ⟨_, step_settle_of_ok p hcall hfinish, h.set he hkeeps k answer, hkeeps⟩

/-- A stray call is refused, and nothing changes. -/
theorem outcome_of_isStray (h : s.IsOrderly w.cwd J) (p : SymbolProvider) {m : Move}
    (hm : s.IsStray m) : ∃ id, s.outcome w p m = (some (.unknownItem id), s) := by
  cases m with
  | call request =>
      obtain ⟨id, hbegin⟩ := Explorer.begin_of_isStray h.explorer hm
      exact ⟨id, by rw [outcome, hbegin]⟩
  | settle k => exact hm.elim

theorem step_of_isStray (h : s.IsOrderly w.cwd J) (p : SymbolProvider) {m : Move}
    (hm : s.IsStray m) : ∃ id, s.step w p m = .error (.unknownItem id) := by
  obtain ⟨id, hrefused⟩ := outcome_of_isStray h p hm
  exact ⟨id, by rw [step, hrefused]⟩

theorem IsOrderly.of_step (hw : w.IsInMemory) (hJ : J.Holds w s.explorer.conventions)
    (h : s.IsOrderly w.cwd J) {p : SymbolProvider} {m : Move} {s' : Session}
    (hstep : s.step w p m = .ok s') :
    s'.IsOrderly w.cwd J ∧ s.explorer.Keeps s'.explorer := by
  by_cases hm : s.IsStray m
  · obtain ⟨id, herror⟩ := step_of_isStray h p hm
    exact absurd (hstep.symm.trans herror) (by simp)
  · obtain ⟨t, hok, ht, hkeeps⟩ := step_spec hw hJ h p hm
    rw [hstep, Except.ok.injEq] at hok
    exact hok ▸ ⟨ht, hkeeps⟩

/-- Only stray calls are refused, so a refusal changes nothing. -/
theorem IsOrderly.eq_of_refused (hw : w.IsInMemory) (hJ : J.Holds w s.explorer.conventions)
    (h : s.IsOrderly w.cwd J) {p : SymbolProvider} {m : Move} {err : TreeError} {s' : Session}
    (hrefused : s.outcome w p m = (some err, s')) : s' = s := by
  by_cases hm : s.IsStray m
  · obtain ⟨id, hstray⟩ := outcome_of_isStray h p hm
    exact (Prod.mk.inj (hrefused.symm.trans hstray)).2
  · obtain ⟨t, hok, -⟩ := step_spec hw hJ h p hm
    rw [step, hrefused] at hok
    exact absurd hok (by simp)

/-! ## Sessions that come about -/

/-- The sessions of an explorer with some conventions that can come about, where each step is made
in one of the workspaces that are admitted.  The workspace of one step need not be that of the step
before: files may have been written and removed, also while calls wait.  After a call that was
refused the session goes on as that left it. -/
inductive Arises [StandIns] (admits : Workspace → Prop) (c : Conventions) : Session → Prop
  | start {w : Workspace} (folders : List String) : admits w →
      Arises admits c (ofExplorer (.start w c folders))
  | step {w : Workspace} {s s' : Session} (p : SymbolProvider) (m : Move) : admits w →
      Arises admits c s → s.step w p m = .ok s' → Arises admits c s'
  | refused {w : Workspace} {s s' : Session} {err : TreeError} (p : SymbolProvider) (m : Move) :
      admits w → Arises admits c s → s.outcome w p m = (some err, s') → Arises admits c s'

variable {admits : Workspace → Prop} {c : Conventions} {cwd : String}

theorem Arises.run [StandIns] {s' : Session} (h : Arises admits c s) (hw : admits w)
    (p : SymbolProvider) {moves : List Move} (hrun : s.run w p moves = .ok s') : Arises admits c s' := by
  induction moves generalizing s with
  | nil => rwa [← Except.ok.inj hrun]
  | cons m moves ih =>
      rw [Session.run] at hrun
      cases hstep : s.step w p m with
      | error err =>
          rw [hstep] at hrun
          exact absurd hrun (by simp [bind, Except.bind])
      | ok t =>
          rw [hstep] at hrun
          exact ih (h.step p m hw hstep) hrun

theorem Arises.isOrderly (hadmits : ∀ w, admits w → w.IsInMemory ∧ w.cwd = cwd ∧ J.Holds w c)
    (h : Arises admits c s) : s.IsOrderly cwd J ∧ s.explorer.conventions = c := by
  induction h with
  | @start w folders hw =>
      obtain ⟨hmemory, rfl, -⟩ := hadmits w hw
      exact ⟨isOrderly_ofExplorer (Explorer.isOrderly_start J hmemory.rooted c folders), rfl⟩
  | @step w s s' p m hw _ hstep ih =>
      obtain ⟨hs, hc⟩ := ih
      obtain ⟨hmemory, rfl, hJ⟩ := hadmits w hw
      rw [← hc] at hJ
      obtain ⟨hs', hkeeps⟩ := hs.of_step hmemory hJ hstep
      exact ⟨hs', hkeeps.conventions.trans hc⟩
  | @refused w s s' err p m hw _ hrefused ih =>
      obtain ⟨hs, hc⟩ := ih
      obtain ⟨hmemory, rfl, hJ⟩ := hadmits w hw
      rw [← hc] at hJ
      rw [hs.eq_of_refused hmemory hJ hrefused]
      exact ⟨hs, hc⟩

end Session

end TestAtlas
