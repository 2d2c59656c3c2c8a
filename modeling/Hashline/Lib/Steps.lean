/-
  Runs of a step function that not every state has for every action, and what its steps
  carry from the first state to the last.
-/
import Mathlib.Data.List.Basic

namespace Steps
variable {S X : Type}

section
variable (step : S → X → Option S)

/-- The state after the actions, if each of them is possible. -/
def runs (s : S) (xs : List X) : Option S := xs.foldlM step s

/-- All steps of a run meet a condition on the state they start from. -/
def Along (Q : S → X → Prop) : S → List X → Prop
  | _, [] => True
  | s, x :: xs => Q s x ∧ ∀ s', step s x = some s' → Along Q s' xs

end

variable {step : S → X → Option S} {s s' : S} {x : X} {xs : List X}

theorem runs_cons : runs step s (x :: xs) = some s' ↔
    ∃ mid, step s x = some mid ∧ runs step mid xs = some s' := by
  rw [runs, List.foldlM_cons, Option.bind_eq_bind, Option.bind_eq_some_iff]
  rfl

theorem along_cons {Q : S → X → Prop} {mid : S} (hQ : Q s x) (hx : step s x = some mid)
    (h : Along step Q mid xs) : Along step Q s (x :: xs) := by
  refine ⟨hQ, fun s' hs => ?_⟩
  rw [hx, Option.some.injEq] at hs
  exact hs ▸ h

theorem along_of_forall {Q : S → X → Prop} (h : ∀ s, ∀ x ∈ xs, Q s x) : Along step Q s xs := by
  induction xs generalizing s with
  | nil => exact trivial
  | cons x xs ih =>
    exact ⟨h s x List.mem_cons_self, fun _ _ => ih fun s x hx => h s x (List.mem_cons_of_mem _ hx)⟩

theorem Along.and {Q Q' : S → X → Prop} (h : Along step Q s xs) (h' : Along step Q' s xs) :
    Along step (fun s x => Q s x ∧ Q' s x) s xs := by
  induction xs generalizing s with
  | nil => exact trivial
  | cons x xs ih =>
    exact ⟨⟨h.1, h'.1⟩, fun mid hx => ih (h.2 mid hx) (h'.2 mid hx)⟩

/-- **What every step keeps, the run keeps.** -/
theorem runs_keep {M : S → Prop} {Q : S → X → Prop}
    (hkeep : ∀ s x s', M s → Q s x → step s x = some s' → M s')
    (hM : M s) (hQ : Along step Q s xs) (hruns : runs step s xs = some s') : M s' := by
  induction xs generalizing s with
  | nil => cases hruns; exact hM
  | cons x xs ih =>
    obtain ⟨mid, hx, hxs⟩ := runs_cons.1 hruns
    exact ih (hkeep s x mid hM hQ.1 hx) (hQ.2 mid hx) hxs

end Steps
