/-
  A cell that parties replace in turns: the changes on record, and the runs of
  a sequential object they stand for.
-/
import Mathlib.Data.List.Forall2

/-- What was put where something else had been, and by whom. -/
structure Change (T V : Type) where
  who : T
  old : V
  new : V

/-- From `v` the changes on record lead to a value, the latest first, each from where the one before
    it had led. -/
inductive Leads {T V : Type} (v : V) : List (Change T V) → V → Prop
  | nil : Leads v [] v
  | cons {log : List (Change T V)} {c : Change T V} (h : Leads v log c.old) : Leads v (c :: log) c.new

/-- The latest change leads to what it put. -/
theorem Leads.eq_new {T V : Type} {v v' : V} {log : List (Change T V)} {c : Change T V}
    (h : Leads v (c :: log) v') : v' = c.new := by
  cases h
  rfl

/-- Where the record stood before a change is what it replaced. -/
theorem Leads.before {T V : Type} {v v' : V} {later log : List (Change T V)} {c : Change T V}
    (h : Leads v (later ++ c :: log) v') : Leads v log c.old := by
  induction later generalizing v' with
  | nil =>
    cases h with
    | cons h => exact h
  | cons d later ih =>
    cases h with
    | cons h => exact ih h

/-- A sequential object: from `v` the requests, in their order, are answered as they are and leave
    a value. -/
inductive Serial {V Q R : Type} (spec : V → Q → R → V → Prop) : V → List (Q × R) → V → Prop
  | nil (v : V) : Serial spec v [] v
  | cons {v u v' : V} {q : Q} {r : R} {calls : List (Q × R)} (hc : spec v q r u)
      (h : Serial spec u calls v') : Serial spec v ((q, r) :: calls) v'

namespace Serial
variable {V Q R : Type} {spec : V → Q → R → V → Prop} {v u v' : V}

theorem append {calls calls' : List (Q × R)} (h : Serial spec v calls u)
    (h' : Serial spec u calls' v') : Serial spec v (calls ++ calls') v' := by
  induction h with
  | nil => exact h'
  | cons hc _ ih => exact .cons hc (ih h')

end Serial

/-- **Changes that are each what the object does** are a run of it, in the order in which they were
    made. -/
theorem Leads.serial {T V Q R : Type} {spec : V → Q → R → V → Prop} {v v' : V}
    {log : List (Change T V)} {calls : List (Q × R)} (h : Leads v log v')
    (hs : List.Forall₂ (fun c q => spec c.old q.1 q.2 c.new) log calls) :
    Serial spec v calls.reverse v' := by
  induction h generalizing calls with
  | nil =>
    cases hs
    exact .nil _
  | cons _ ih =>
    cases hs with
    | cons hc hs =>
      rw [List.reverse_cons]
      exact (ih hs).append (.cons hc (.nil _))
