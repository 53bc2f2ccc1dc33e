import TestAtlas.Log.Setup
import Mathlib.Data.List.Basic
import Mathlib.Data.List.Induction

/-!
# The log stays sane

The log is set up again and again, forced or not and with any options, on disks that allow it or
not, and in between other parts of the program add handlers of their own.  What a call leaves
behind is one of four things: the log as it was, the log without any handler of this library, the
emergency handler, or a new listener with its handler (`configure_cases`).  The mark that the log
is set up, the listener in charge, the listeners that run and the handlers are changed at different
points of a call; that they agree after every call is `isSane_run`.
-/

namespace TestAtlas.Log

/-- What happens to the log: it is set up, with some disk at hand, or another part of the program
adds a handler. -/
inductive Step where
  | configure (disk : Disk) (cwd : String) (o : Options) (force : Bool)
  | join (number : Nat)

namespace Step

def apply (s : State) : Step → State
  | configure disk cwd o force => (Log.configure s disk cwd o force).1
  | join number => s.addHandler (.foreign number)

/-- The log after several steps. -/
def run (s : State) (steps : List Step) : State := steps.foldl apply s

/-- The handlers of other parts that came, in order. -/
def joined : List Step → List Nat
  | [] => []
  | configure _ _ _ _ :: steps => joined steps
  | join number :: steps => number :: joined steps

end Step

/-- The number of a foreign handler. -/
def Handler.number? : Handler → Option Nat
  | foreign number => some number
  | _ => none

namespace State

/-- A listener runs. -/
def Runs (s : State) (k : Nat) : Prop := ∃ l, s.listeners[k]? = some l ∧ l.isRunning = true

/-- The handlers of other parts of the program, in order. -/
def foreigners (s : State) : List Nat := s.handlers.filterMap Handler.number?

/-- The handlers of this library. -/
def ours (s : State) : List Handler := s.handlers.filter Handler.isOurs

/-- Handlers, listeners and marks agree. -/
structure IsSane (s : State) : Prop where
  /-- There is at most one handler of this library, and at most one listener runs. -/
  ours : s.ours.length ≤ 1
  single : ∀ k l, s.Runs k → s.Runs l → k = l
  /-- A listener runs exactly when the handler that feeds it is there, and is in charge then. -/
  fed : ∀ k, .queue k ∈ s.handlers ↔ s.Runs k
  charge : ∀ k, s.current = some k ↔ s.Runs k
  /-- The log counts as set up once a listener was started. -/
  configured : s.isConfigured = true ↔ 0 < s.listeners.size

/-- No handler of this library is there, and no listener runs. -/
structure IsCleared (s : State) : Prop where
  foreign : ∀ h ∈ s.handlers, h.isOurs = false
  quiet : ∀ k, ¬ s.Runs k
  current : s.current = none
  configured : s.isConfigured = true ↔ 0 < s.listeners.size

/-- The handlers of this library that are left by a call which acts, from what became of the
outlets. -/
def oursAfter (s : State) : Except SetupError (List Outlet) → List Handler
  | .error _ => [.emergency]
  | .ok [] => []
  | .ok (_ :: _) => [.queue s.listeners.size]

variable {s : State}

theorem isSane_initial : initial.IsSane where
  ours := by decide
  single := fun k l hk => by simp [Runs, initial] at hk
  fed := fun k => by simp [Runs, initial]
  charge := fun k => by simp [Runs, initial]
  configured := by decide

/-! ## Handlers that come and go -/

theorem handlers_addHandler_of_not_mem {h : Handler} (hnew : h ∉ s.handlers) :
    (s.addHandler h).handlers = s.handlers ++ [h] :=
  if_neg hnew

theorem mem_addHandler {h h' : Handler} :
    h' ∈ (s.addHandler h).handlers ↔ h' ∈ s.handlers ∨ h' = h := by
  simp only [addHandler]
  split
  · rename_i hmem
    constructor
    · exact Or.inl
    · rintro (hold | rfl)
      · exact hold
      · exact hmem
  · simp

@[simp]
theorem runs_addHandler (h : Handler) (k : Nat) : (s.addHandler h).Runs k ↔ s.Runs k := Iff.rfl

theorem foreigners_removeOurs (s : State) : s.removeOurs.foreigners = s.foreigners := by
  rw [foreigners, foreigners, removeOurs, List.filterMap_filter]
  refine List.filterMap_congr fun h _ => ?_
  cases h <;> rfl

theorem foreigners_addHandler_of_isOurs {h : Handler} (hours : h.isOurs = true) :
    (s.addHandler h).foreigners = s.foreigners := by
  have hnone : h.number? = none := by
    cases h with
    | queue | emergency => rfl
    | foreign => exact absurd hours (by simp [Handler.isOurs])
  simp only [foreigners, addHandler]
  split
  · rfl
  · simp [hnone]

theorem foreign_mem_handlers_iff {number : Nat} :
    .foreign number ∈ s.handlers ↔ number ∈ s.foreigners := by
  rw [foreigners, List.mem_filterMap]
  constructor
  · exact fun hmem => ⟨_, hmem, rfl⟩
  · rintro ⟨h, hmem, hnumber⟩
    cases h with
    | queue | emergency => exact absurd hnumber (by simp [Handler.number?])
    | foreign n => rwa [← Option.some.inj hnumber]

theorem foreigners_join (s : State) (number : Nat) :
    (s.addHandler (.foreign number)).foreigners =
      if number ∈ s.foreigners then s.foreigners else s.foreigners ++ [number] := by
  by_cases hmem : .foreign number ∈ s.handlers
  · have hsame : (s.addHandler (.foreign number)).handlers = s.handlers := if_pos hmem
    rw [if_pos (foreign_mem_handlers_iff.mp hmem), foreigners, hsame, foreigners]
  · rw [if_neg fun hold => hmem (foreign_mem_handlers_iff.mpr hold), foreigners,
      handlers_addHandler_of_not_mem hmem, List.filterMap_append]
    rfl

theorem ours_join (s : State) (number : Nat) : (s.addHandler (.foreign number)).ours = s.ours := by
  simp only [ours, addHandler]
  split
  · rfl
  · simp [Handler.isOurs]

/-! ## Listeners that start and stop -/

theorem runs_halt {k l : Nat} : (s.halt k).Runs l ↔ s.Runs l ∧ l ≠ k := by
  simp only [Runs, halt, Array.getElem?_modify]
  by_cases hsame : k = l
  · subst hsame
    simp
  · simp [hsame, Ne.symm hsame]

/-- Once the listener in charge is stopped, none runs. -/
theorem not_runs_drain (h : ∀ k, s.current = some k ↔ s.Runs k) (k : Nat) : ¬ s.drain.Runs k := by
  intro hruns
  unfold drain at hruns
  split at hruns
  · rename_i c hcurrent
    obtain ⟨hruns, hne⟩ := runs_halt.mp hruns
    rw [← h, hcurrent] at hruns
    exact hne (Option.some.inj hruns).symm
  · rename_i hcurrent
    rw [← h, hcurrent] at hruns
    exact absurd hruns (by simp)

theorem handlers_drain (s : State) : s.drain.handlers = s.handlers := by
  unfold drain
  split <;> rfl

theorem isConfigured_drain (s : State) : s.drain.isConfigured = s.isConfigured := by
  unfold drain
  split <;> rfl

theorem size_listeners_drain (s : State) : s.drain.listeners.size = s.listeners.size := by
  unfold drain
  split
  · exact Array.size_modify
  · rfl

theorem handlers_clear (s : State) (level : Nat) :
    (s.clear level).handlers = s.removeOurs.handlers :=
  handlers_drain _

theorem size_listeners_clear (s : State) (level : Nat) :
    (s.clear level).listeners.size = s.listeners.size :=
  size_listeners_drain _

theorem foreigners_clear (s : State) (level : Nat) : (s.clear level).foreigners = s.foreigners := by
  rw [foreigners, handlers_clear]
  exact foreigners_removeOurs s

theorem IsSane.clear (h : s.IsSane) (level : Nat) : (s.clear level).IsCleared where
  foreign := by
    intro g hg
    rw [handlers_clear, removeOurs, List.mem_filter, Bool.not_eq_true'] at hg
    exact hg.2
  quiet := fun k => by
    have hdrained := not_runs_drain (s := removeOurs { s with level }) h.charge k
    exact hdrained
  current := rfl
  configured := by
    have hmark : (s.clear level).isConfigured = s.isConfigured := isConfigured_drain _
    rw [hmark, size_listeners_clear]
    exact h.configured

/-! ## What a call leaves behind -/

namespace IsCleared

theorem not_mem (h : s.IsCleared) {g : Handler} (hours : g.isOurs = true) : g ∉ s.handlers :=
  fun hmem => absurd (hours.symm.trans (h.foreign g hmem)) (by decide)

theorem ours_eq (h : s.IsCleared) : s.ours = [] :=
  List.filter_eq_nil_iff.mpr fun g hg => by simp [h.foreign g hg]

theorem removeOurs_eq (h : s.IsCleared) : s.removeOurs = s := by
  rw [removeOurs, List.filter_eq_self.mpr fun g hg => by rw [h.foreign g hg]; rfl]

theorem ours_addHandler (h : s.IsCleared) {g : Handler} (hours : g.isOurs = true) :
    (s.addHandler g).ours = [g] := by
  have hnone : s.handlers.filter Handler.isOurs = [] := h.ours_eq
  rw [ours, handlers_addHandler_of_not_mem (h.not_mem hours), List.filter_append, hnone]
  simp [hours]

/-- Nothing is left of this library. -/
theorem isSane (h : s.IsCleared) : s.IsSane where
  ours := by rw [h.ours_eq]; exact Nat.zero_le _
  single := fun k _ hk => absurd hk (h.quiet k)
  fed := fun k => iff_of_false (h.not_mem rfl) (h.quiet k)
  charge := fun k => iff_of_false (by simp [h.current]) (h.quiet k)
  configured := h.configured

theorem fallBack_eq (h : s.IsCleared) : s.fallBack = s.addHandler .emergency := by
  rw [fallBack, h.removeOurs_eq]

/-- The emergency handler is the only one of this library. -/
theorem isSane_fallBack (h : s.IsCleared) : s.fallBack.IsSane := by
  rw [h.fallBack_eq]
  exact {
    ours := by
      rw [h.ours_addHandler rfl]
      exact Nat.le_refl _
    single := fun k _ hk => absurd hk (h.quiet k)
    fed := fun k => by
      have hqueue : .queue k ∉ s.handlers := h.not_mem rfl
      rw [mem_addHandler]
      exact iff_of_false (by simpa using hqueue) (h.quiet k)
    charge := fun k => iff_of_false (by simp [addHandler, h.current]) (h.quiet k)
    configured := h.configured }

theorem ours_startListener (h : s.IsCleared) (outlets : List Outlet) :
    (s.startListener outlets).ours = [.queue s.listeners.size] :=
  h.ours_addHandler rfl

theorem runs_startListener (h : s.IsCleared) (outlets : List Outlet) (k : Nat) :
    (s.startListener outlets).Runs k ↔ k = s.listeners.size := by
  simp only [Runs, startListener, Array.getElem?_push]
  constructor
  · rintro ⟨l, hl, hruns⟩
    split at hl
    · assumption
    · exact absurd ⟨l, hl, hruns⟩ (h.quiet k)
  · rintro rfl
    exact ⟨_, if_pos rfl, rfl⟩

/-- The new listener runs alone, and its handler is the only one of this library. -/
theorem isSane_startListener (h : s.IsCleared) (outlets : List Outlet) :
    (s.startListener outlets).IsSane := by
  have hruns := h.runs_startListener outlets
  constructor
  · rw [h.ours_startListener]
    exact Nat.le_refl _
  · intro k l hk hl
    rw [hruns] at hk hl
    rw [hk, hl]
  · intro k
    have hold : .queue k ∉ s.handlers := h.not_mem rfl
    have hmem : .queue k ∈ (s.startListener outlets).handlers ↔
        .queue k ∈ s.handlers ∨ Handler.queue k = .queue s.listeners.size := mem_addHandler
    rw [hmem, hruns, or_iff_right hold, Handler.queue.injEq]
  · intro k
    rw [hruns]
    exact Option.some_inj.trans eq_comm
  · have hsize : (s.startListener outlets).listeners.size = s.listeners.size + 1 :=
      Array.size_push _
    rw [hsize]
    exact iff_of_true rfl (Nat.succ_pos _)

end IsCleared

end State

/-- A call leaves a log that is set up as it is.  Any other call takes the handlers of this library
out and stops the listener in charge; then there may be no outlets, or a new listener is started, or
the options are wrong and the emergency handler is put in. -/
theorem configure_cases (s : State) (disk : Disk) (cwd : String) (o : Options) (force : Bool) :
    (s.isConfigured = true ∧ force = false ∧ configure s disk cwd o force = (s, disk)) ∨
    (∃ e disk', outlets disk cwd o = (.error e, disk') ∧
      configure s disk cwd o force = ((s.clear (levelNumber o.level)).fallBack, disk')) ∨
    (∃ disk', outlets disk cwd o = (.ok [], disk') ∧
      configure s disk cwd o force = (s.clear (levelNumber o.level), disk')) ∨
    ∃ outlet more disk', outlets disk cwd o = (.ok (outlet :: more), disk') ∧
      configure s disk cwd o force =
        ((s.clear (levelNumber o.level)).startListener (outlet :: more), disk') := by
  unfold configure
  split
  · rename_i hskip
    rw [Bool.and_eq_true, Bool.not_eq_true'] at hskip
    exact Or.inl ⟨hskip.1, hskip.2, rfl⟩
  · refine Or.inr ?_
    rcases outlets disk cwd o with ⟨e | (_ | ⟨outlet, more⟩), disk'⟩
    · exact Or.inl ⟨e, disk', rfl, rfl⟩
    · exact Or.inr (Or.inl ⟨disk', rfl, rfl⟩)
    · exact Or.inr (Or.inr ⟨outlet, more, disk', rfl, rfl⟩)

namespace State

variable {s : State}

theorem IsSane.configure (h : s.IsSane) (disk : Disk) (cwd : String) (o : Options)
    (force : Bool) : (Log.configure s disk cwd o force).1.IsSane := by
  have hcleared := h.clear (levelNumber o.level)
  rcases configure_cases s disk cwd o force with
    ⟨-, -, heq⟩ | ⟨_, _, -, heq⟩ | ⟨_, -, heq⟩ | ⟨_, _, _, -, heq⟩
  · rw [heq]
    exact h
  · rw [heq]
    exact hcleared.isSane_fallBack
  · rw [heq]
    exact hcleared.isSane
  · rw [heq]
    exact hcleared.isSane_startListener _

/-- A call that acts leaves a handler of this library as its outlets allow: that of a new listener,
none, or the emergency handler. -/
theorem IsSane.ours_configure (h : s.IsSane) (disk : Disk) (cwd : String) (o : Options)
    {force : Bool} (hacts : s.isConfigured = false ∨ force = true) :
    (Log.configure s disk cwd o force).1.ours = s.oursAfter (outlets disk cwd o).1 := by
  have hcleared := h.clear (levelNumber o.level)
  rcases configure_cases s disk cwd o force with
    ⟨hmark, hforce, -⟩ | ⟨_, _, houtlets, heq⟩ | ⟨_, houtlets, heq⟩ | ⟨_, _, _, houtlets, heq⟩
  · rw [hmark, hforce] at hacts
    exact absurd hacts (by decide)
  · rw [heq, houtlets, oursAfter, hcleared.fallBack_eq, hcleared.ours_addHandler rfl]
  · rw [heq, houtlets, oursAfter, hcleared.ours_eq]
  · rw [heq, houtlets, oursAfter, hcleared.ours_startListener, size_listeners_clear]

theorem foreigners_configure (s : State) (disk : Disk) (cwd : String) (o : Options)
    (force : Bool) : (Log.configure s disk cwd o force).1.foreigners = s.foreigners := by
  have hcleared := foreigners_clear s (levelNumber o.level)
  rcases configure_cases s disk cwd o force with
    ⟨-, -, heq⟩ | ⟨_, _, -, heq⟩ | ⟨_, -, heq⟩ | ⟨_, _, _, -, heq⟩
  · rw [heq]
  · rw [heq, fallBack, foreigners_addHandler_of_isOurs rfl, foreigners_removeOurs, hcleared]
  · rw [heq, hcleared]
  · rw [heq]
    exact (foreigners_addHandler_of_isOurs rfl).trans hcleared

/-- A handler of another part changes nothing for those of this library. -/
theorem IsSane.join (h : s.IsSane) (number : Nat) : (s.addHandler (.foreign number)).IsSane where
  ours := by
    rw [ours_join]
    exact h.ours
  single := h.single
  fed := fun k => by
    rw [mem_addHandler, runs_addHandler, or_iff_left (by simp)]
    exact h.fed k
  charge := h.charge
  configured := h.configured

end State

/-! ## Any steps -/

namespace Step

variable {s : State}

theorem isSane_apply (h : s.IsSane) (step : Step) : (step.apply s).IsSane := by
  cases step with
  | configure disk cwd o force => exact h.configure disk cwd o force
  | join number => exact h.join number

theorem joined_append (steps more : List Step) :
    joined (steps ++ more) = joined steps ++ joined more := by
  induction steps with
  | nil => rfl
  | cons step steps ih =>
      cases step with
      | configure => exact ih
      | join number => exact congrArg (number :: ·) ih

theorem run_concat (s : State) (steps : List Step) (step : Step) :
    run s (steps ++ [step]) = step.apply (run s steps) := by
  rw [run, run, List.foldl_append]
  rfl

theorem isSane_run_of_isSane (h : s.IsSane) (steps : List Step) : (run s steps).IsSane := by
  induction steps generalizing s with
  | nil => exact h
  | cons step steps ih => exact ih (isSane_apply h step)

/-- A number that came before is not taken up again. -/
theorem eraseDups_concat (ns : List Nat) (n : Nat) : (ns ++ [n]).eraseDups =
    if n ∈ ns.eraseDups then ns.eraseDups else ns.eraseDups ++ [n] := by
  rw [List.eraseDups_append]
  by_cases hmem : n ∈ ns
  · rw [if_pos (List.mem_eraseDups.mpr hmem)]
    simp [List.removeAll, hmem]
  · have hnew : [n].removeAll ns = [n] := by simp [List.removeAll, hmem]
    rw [if_neg fun hold => hmem (List.mem_eraseDups.mp hold), hnew]
    rfl

/-- The foreign handlers are those that came, in their order. -/
theorem foreigners_run (steps : List Step) :
    (run .initial steps).foreigners = (joined steps).eraseDups := by
  induction steps using List.reverseRecOn with
  | nil => rfl
  | append_singleton steps step ih =>
      rw [run_concat, joined_append]
      cases step with
      | configure disk cwd o force =>
          rw [apply, State.foreigners_configure, ih]
          exact congrArg List.eraseDups (List.append_nil _).symm
      | join number =>
          rw [apply, State.foreigners_join, ih]
          exact (eraseDups_concat (joined steps) number).symm

end Step

/-- However often the log is set up, forced or not, with whatever options and disks, and whatever
foreign handlers come in between: the log is sane, and the foreign handlers are there in the order
in which they came.  A log that is set up already is left as it is unless the next call is forced,
and else that call leaves the handler that its outlets allow. -/
theorem isSane_run (steps : List Step) :
    (Step.run .initial steps).IsSane ∧
    (Step.run .initial steps).foreigners = (Step.joined steps).eraseDups ∧
    ((Step.run .initial steps).isConfigured = true → ∀ disk cwd o,
      configure (Step.run .initial steps) disk cwd o false = (Step.run .initial steps, disk)) ∧
    ∀ disk cwd o force, (Step.run .initial steps).isConfigured = false ∨ force = true →
      (configure (Step.run .initial steps) disk cwd o force).1.ours =
        (Step.run .initial steps).oursAfter (outlets disk cwd o).1 := by
  have hsane := Step.isSane_run_of_isSane State.isSane_initial steps
  exact ⟨hsane, Step.foreigners_run steps, fun h => configure_of_isConfigured h,
    fun disk cwd o _ => hsane.ours_configure disk cwd o⟩

/-- Another part adds a handler, the log is set up with the console, another handler comes, and a
forced call fails: the emergency handler is left behind the others. -/
theorem isSane_run_forced :
    let console : Options := { Options.default with level := "", consoleFormat := .null }
    let steps : List Step := [.join 7, .configure .empty "/" console false, .join 4,
      .configure .empty "/" { console with consoleFormat := .int 3 } true, .join 7]
    let s := Step.run .initial steps
    s.handlers = [.foreign 7, .foreign 4, .emergency] ∧ s.isConfigured = true ∧ s.IsSane ∧
      s.foreigners = [7, 4] ∧ configure s .empty "/" console false = (s, .empty) := by
  intro console steps s
  obtain ⟨hsane, hforeigners, hagain, -⟩ := isSane_run steps
  have hmark : s.isConfigured = true := by decide +kernel
  exact ⟨by decide +kernel, hmark, hsane, hforeigners, hagain hmark .empty "/" console⟩

end TestAtlas.Log
