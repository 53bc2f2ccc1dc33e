import TestAtlas.Explorer.Call
import TestAtlas.Proofs.Explorer.Placement

/-!
# The conventions never change

Whatever is asked of the explorer, and whether or not the tree is in order, the conventions stay as
they are.  They are all of the explorer that an update looks at before it waits for symbols.
-/

namespace TestAtlas

/-- A chain of steps succeeds only if its first step does. -/
theorem exists_of_bind_eq_ok {ε α β : Type} {x : Except ε α} {f : α → Except ε β} {b : β}
    (h : x >>= f = .ok b) : ∃ a, x = .ok a ∧ f a = .ok b := by
  cases x with
  | error err => exact absurd h (by simp [bind, Except.bind])
  | ok a => exact ⟨a, rfl, h⟩

namespace Explorer

variable {w : Workspace} {e e' : Explorer}

/-! ## Filling in -/

@[simp]
theorem conventions_surveyed (e : Explorer) (w : Workspace) :
    (e.surveyed w).conventions = e.conventions := by
  unfold surveyed
  split <;> rfl

/-- Of the explorer a container changes the forest only, and that only with a report. -/
theorem eq_of_ensure_eq_ok {place : Place} {k : Container} {n : ItemNo}
    (h : e.ensure w place k = .ok (n, e')) :
    e' = e ∨ ∃ forest events, e' = { e with forest }.report events := by
  unfold ensure at h
  rw [attempt_eq_ok_iff] at h
  split at h
  · exact absurd h (by simp)
  · split at h
    · cases h
      exact Or.inl rfl
    · obtain ⟨⟨m, f⟩, -, h⟩ := exists_of_bind_eq_ok h
      obtain ⟨g, -, h⟩ := exists_of_bind_eq_ok h
      cases h
      exact Or.inr ⟨_, _, rfl⟩

theorem conventions_foldl_dropRoot (removed : List String) (ns : List ItemNo) (e : Explorer) :
    (ns.foldl (dropRoot w removed) e).conventions = e.conventions := by
  induction ns generalizing e with
  | nil => rfl
  | cons n ns ih =>
      have hdrop : (dropRoot w removed e n).conventions = e.conventions := by
        unfold dropRoot
        split
        · split <;> rfl
        · rfl
      rw [List.foldl_cons, ih, hdrop]

end Explorer

end TestAtlas
