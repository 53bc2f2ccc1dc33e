import TestAtlas.Explorer.Call

/-!
# Calls that overlap

A session is an explorer together with the calls made of it, numbered in the order in which they
were made.  A call that waits for symbols is settled later; what happens to the explorer in between
is up to the other calls.
-/

namespace TestAtlas

/-- An explorer and how far the calls made of it have come. -/
structure Session where
  explorer : Explorer
  calls : Array Progress

/-- A step of a session. -/
inductive Move where
  | call (request : Request)
  /-- The symbols that a call waits for are known. -/
  | settle (call : Nat)
  deriving DecidableEq, Repr

namespace Session

/-- The session in which no call was made yet. -/
def ofExplorer (e : Explorer) : Session := ⟨e, #[]⟩

/-- What the caller of a move is told if it fails, and the session afterwards.  A call that fails at
once gets no number; one that fails when it is settled has the error for its answer.  Settling a
call that does not wait changes nothing. -/
def outcome [StandIns] (s : Session) (w : Workspace) (p : SymbolProvider) :
    Move → Option TreeError × Session
  | .call request =>
    match s.explorer.begin w request with
    | .ok (progress, e) => (none, ⟨e, s.calls.push progress⟩)
    | .error r => (some r.error, ⟨r.explorer, s.calls⟩)
  | .settle k =>
    match s.calls[k]? with
    | some (.waiting pending) =>
      match s.explorer.finish w p pending with
      | .ok (answer, e) => (none, ⟨e, s.calls.set! k (.answered answer)⟩)
      | .error r =>
        (some r.error, ⟨r.explorer, s.calls.set! k (.answered (.failed r.error))⟩)
    | _ => (none, s)

/-- Makes one step. -/
def step [StandIns] (s : Session) (w : Workspace) (p : SymbolProvider) (m : Move) :
    Except TreeError Session :=
  match s.outcome w p m with
  | (none, s') => .ok s'
  | (some err, _) => .error err

/-- Makes several steps. -/
def run [StandIns] (s : Session) (w : Workspace) (p : SymbolProvider) :
    List Move → Except TreeError Session
  | [] => .ok s
  | m :: ms => do
    let s ← s.step w p m
    s.run w p ms

/-- Every call has its answer. -/
def isQuiet (s : Session) : Bool := s.calls.all fun
  | .answered _ => true
  | .waiting _ => false

/-- The answer of a call, if it has one. -/
def answer? (s : Session) (k : Nat) : Option Answer :=
  match s.calls[k]? with
  | some (.answered answer) => some answer
  | _ => none

theorem outcome_of_step [StandIns] {s s' : Session} {w : Workspace} {p : SymbolProvider} {m : Move}
    (h : s.step w p m = .ok s') : s.outcome w p m = (none, s') := by
  unfold step at h
  split at h
  · rename_i houtcome
    rw [houtcome, Except.ok.inj h]
  · exact absurd h (by simp)

section Step

variable [StandIns] {s : Session} {w : Workspace} (p : SymbolProvider)

theorem step_call_of_ok {request : Request} {progress : Progress} {e : Explorer}
    (h : s.explorer.begin w request = .ok (progress, e)) :
    s.step w p (.call request) = .ok ⟨e, s.calls.push progress⟩ := by
  simp only [step, outcome, h]

theorem step_call_of_error {request : Request} {r : Refusal}
    (h : s.explorer.begin w request = .error r) :
    s.step w p (.call request) = .error r.error := by
  simp only [step, outcome, h]

theorem exists_begin_of_step {request : Request} {s' : Session}
    (h : s.step w p (.call request) = .ok s') :
    ∃ progress e, s.explorer.begin w request = .ok (progress, e) ∧
      s' = ⟨e, s.calls.push progress⟩ := by
  cases hbegin : s.explorer.begin w request with
  | error r => exact absurd ((step_call_of_error p hbegin).symm.trans h) (by simp)
  | ok result =>
      obtain ⟨progress, e⟩ := result
      exact ⟨progress, e, rfl, Except.ok.inj (h.symm.trans (step_call_of_ok p hbegin))⟩

variable {k : Nat} {pending : Pending} (hk : s.calls[k]? = some (.waiting pending))

include hk

theorem step_settle_of_ok {answer : Answer} {e : Explorer}
    (h : s.explorer.finish w p pending = .ok (answer, e)) :
    s.step w p (.settle k) = .ok ⟨e, s.calls.set! k (.answered answer)⟩ := by
  simp only [step, outcome, hk, h]

theorem step_settle_of_error {r : Refusal} (h : s.explorer.finish w p pending = .error r) :
    s.step w p (.settle k) = .error r.error := by
  simp only [step, outcome, hk, h]

theorem exists_finish_of_step {s' : Session} (h : s.step w p (.settle k) = .ok s') :
    ∃ answer e, s.explorer.finish w p pending = .ok (answer, e) ∧
      s' = ⟨e, s.calls.set! k (.answered answer)⟩ := by
  cases hfinish : s.explorer.finish w p pending with
  | error r => exact absurd ((step_settle_of_error p hk hfinish).symm.trans h) (by simp)
  | ok result =>
      obtain ⟨answer, e⟩ := result
      exact ⟨answer, e, rfl, Except.ok.inj (h.symm.trans (step_settle_of_ok p hk hfinish))⟩

end Step

theorem run_append [StandIns] (s : Session) (w : Workspace) (p : SymbolProvider)
    (ms ns : List Move) : s.run w p (ms ++ ns) = (s.run w p ms >>= fun s => s.run w p ns) := by
  induction ms generalizing s with
  | nil => rfl
  | cons m ms ih =>
    simp only [List.cons_append, run, bind, Except.bind]
    split
    · rfl
    · exact ih _

end Session

end TestAtlas
