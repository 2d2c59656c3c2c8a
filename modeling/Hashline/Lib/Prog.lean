/-
  Programs that make calls, their runs against a machine that answers them,
  and weakest preconditions.
-/
import Mathlib.Data.Nat.Basic

/-- A program that makes calls `c : C`, each answered by an `A c`. -/
inductive Prog (C : Type) (A : C → Type) (α : Type) where
  | ret (a : α)
  | call (c : C) (k : A c → Prog C A α)

namespace Prog
variable {C : Type} {A : C → Type} {α β : Type}

protected def bind : Prog C A α → (α → Prog C A β) → Prog C A β
  | ret a, f => f a
  | call c k, f => call c fun a => (k a).bind f

instance : Monad (Prog C A) where
  pure := ret
  bind := Prog.bind

/-- Every call the program can make is in `K`. -/
def All (K : C → Prop) : Prog C A α → Prop
  | ret _ => True
  | call c k => K c ∧ ∀ a, (k a).All K

theorem All.bind {K : C → Prop} {p : Prog C A α} {f : α → Prog C A β} (hp : p.All K)
    (hf : ∀ a, (f a).All K) : (p.bind f).All K := by
  induction p with
  | ret a => exact hf a
  | call c k ih => exact ⟨hp.1, fun a => ih a (hp.2 a)⟩

theorem All.mono {K K' : C → Prop} (h : ∀ c, K c → K' c) {p : Prog C A α} (hp : p.All K) :
    p.All K' := by
  induction p with
  | ret a => trivial
  | call c k ih => exact ⟨h c hp.1, fun a => ih a (hp.2 a)⟩

/-- Whatever is answered, the program ends in a value in `P`. -/
def Ends (P : α → Prop) : Prog C A α → Prop
  | ret a => P a
  | call _ k => ∀ a, (k a).Ends P

theorem Ends.bind {P : α → Prop} {Q : β → Prop} {p : Prog C A α} {f : α → Prog C A β} (hp : p.Ends P)
    (hf : ∀ a, P a → (f a).Ends Q) : (p.bind f).Ends Q := by
  induction p with
  | ret a => exact hf a hp
  | call c k ih => exact fun a => ih a (hp a)

theorem Ends.mono {P Q : α → Prop} {p : Prog C A α} (hp : p.Ends P) (h : ∀ a, P a → Q a) :
    p.Ends Q := by
  induction p with
  | ret a => exact h a hp
  | call c k ih => exact fun a => ih a (hp a)

theorem Ends.and {P Q : α → Prop} {p : Prog C A α} (hp : p.Ends P) (hq : p.Ends Q) :
    p.Ends fun a => P a ∧ Q a := by
  induction p with
  | ret a => exact ⟨hp, hq⟩
  | call c k ih => exact fun r => ih r (hp r) (hq r)

/-- The program can return `a`. -/
inductive Returns (a : α) : Prog C A α → Prop
  | ret : Returns a (ret a)
  | call {c : C} {k : A c → Prog C A α} (r : A c) (h : Returns a (k r)) : Returns a (call c k)

theorem ends_returns (p : Prog C A α) : p.Ends fun a => p.Returns a := by
  induction p with
  | ret a => exact .ret
  | call c k ih => exact fun r => (ih r).mono fun a ha => .call r ha

/-- After calls in `K`, what is left of the program is in `P`. -/
inductive Until (K : C → Prop) (P : Prog C A α → Prop) : Prog C A α → Prop
  | done {p : Prog C A α} (h : P p) : Until K P p
  | call {c : C} {k : A c → Prog C A α} (hc : K c) (hk : ∀ r, Until K P (k r)) : Until K P (call c k)

theorem until_bind {K : C → Prop} {P : Prog C A β → Prop} {E : α → Prop} {p : Prog C A α}
    {f : α → Prog C A β} (hp : p.All K) (he : p.Ends E) (hf : ∀ a, E a → (f a).Until K P) :
    (p.bind f).Until K P := by
  induction p with
  | ret a => exact hf a he
  | call c k ih => exact .call hp.1 fun r => ih r (hp.2 r) (he r)

/-! ## Runs -/

section
variable {X S : Type} (step : X → (c : C) → S → Option (A c × S))

/-- One call, answered by the machine as the oracle `x` says; `none` when it cannot be. -/
def advance (x : X) : Prog C A α × S → Option (Prog C A α × S)
  | (ret _, _) => none
  | (call c k, s) => (step x c s).map fun r => (k r.1, r.2)

/-- As many calls as there are oracles. -/
def runs : List X → Prog C A α × S → Option (Prog C A α × S)
  | [], σ => some σ
  | x :: xs, σ => (advance step x σ).bind (runs xs)

/-- Whatever the oracles say, if the program returns, `Q` holds of its value and the state. -/
def wp : Prog C A α → (α → S → Prop) → S → Prop
  | ret a, Q, s => Q a s
  | call c k, Q, s => ∀ x r s', step x c s = some (r, s') → (k r).wp Q s'

variable {step}

theorem wp_bind {p : Prog C A α} {f : α → Prog C A β} {Q : β → S → Prop} {s : S} :
    (p.bind f).wp step Q s ↔ p.wp step (fun a s => (f a).wp step Q s) s := by
  induction p generalizing s with
  | ret a => rfl
  | call c k ih =>
    exact forall_congr' fun x => forall_congr' fun r => forall_congr' fun s' =>
      forall_congr' fun _ => ih r

theorem wp_mono {p : Prog C A α} {Q Q' : α → S → Prop} {s : S} (h : p.wp step Q s)
    (hQ : ∀ a s, Q a s → Q' a s) : p.wp step Q' s := by
  induction p generalizing s with
  | ret a => exact hQ a s h
  | call c k ih => exact fun x r s' hs => ih r (h x r s' hs)

/-- Two postconditions hold together. -/
theorem wp_and {p : Prog C A α} {Q Q' : α → S → Prop} {s : S} (h : p.wp step Q s)
    (h' : p.wp step Q' s) : p.wp step (fun a s => Q a s ∧ Q' a s) s := by
  induction p generalizing s with
  | ret a => exact ⟨h, h'⟩
  | call c k ih => exact fun x r s' hs => ih r (h x r s' hs) (h' x r s' hs)

/-- What holds of every end holds at the end of every run. -/
theorem Ends.wp {P : α → Prop} {p : Prog C A α} (hp : p.Ends P) (s : S) :
    p.wp step (fun a _ => P a) s := by
  induction p generalizing s with
  | ret a => exact hp
  | call c k ih => exact fun x r s' _ => ih r (hp r) s'

/-- **Weakest preconditions speak about runs.** -/
theorem wp_runs {Q : α → S → Prop} {a : α} {s' : S} : ∀ {xs : List X} {p : Prog C A α} {s : S},
    p.wp step Q s → runs step xs (p, s) = some (ret a, s') → Q a s'
  | [], p, s, h, hr => by
    rw [runs, Option.some.injEq, Prod.mk.injEq] at hr
    obtain ⟨rfl, rfl⟩ := hr
    exact h
  | x :: xs, p, s, h, hr => by
    rw [runs, Option.bind_eq_some_iff] at hr
    obtain ⟨⟨p₁, s₁⟩, h₁, hr⟩ := hr
    cases p with
    | ret b => cases h₁
    | call c k =>
      rw [advance, Option.map_eq_some_iff] at h₁
      obtain ⟨⟨r, s₂⟩, hs, h₁⟩ := h₁
      rw [Prod.mk.injEq] at h₁
      obtain ⟨rfl, rfl⟩ := h₁
      exact wp_runs (h x r s₂ hs) hr

/-- A machine that can answer every call lets the program end. -/
theorem exists_run {K : C → Prop} (hstep : ∀ c s, K c → ∃ x r s', step x c s = some (r, s'))
    {p : Prog C A α} (hp : p.All K) : ∀ s, ∃ xs a s', runs step xs (p, s) = some (ret a, s') := by
  induction p with
  | ret a => exact fun s => ⟨[], a, s, rfl⟩
  | call c k ih =>
    intro s
    obtain ⟨x, r, s', hs⟩ := hstep c s hp.1
    obtain ⟨xs, a, s'', hr⟩ := ih r (hp.2 r) s'
    refine ⟨x :: xs, a, s'', ?_⟩
    rw [runs, advance, hs]
    exact hr

/-- What every step keeps, the whole program keeps. -/
theorem wp_invariant {I : S → Prop} {p : Prog C A α} {Q : α → S → Prop} {s : S}
    (hI : ∀ x c s r s', I s → step x c s = some (r, s') → I s') (hs : I s)
    (h : p.wp step Q s) : p.wp step (fun a s => Q a s ∧ I s) s := by
  induction p generalizing s with
  | ret a => exact ⟨h, hs⟩
  | call c k ih => exact fun x r s' hst => ih r (hI x c s r s' hs hst) (h x r s' hst)

/-- What every call keeps, the whole program keeps. -/
theorem wp_of_all {I : S → Prop} {K : C → Prop} {p : Prog C A α} {Q : α → S → Prop} {s : S}
    (hp : p.All K) (hK : ∀ x c s r s', K c → I s → step x c s = some (r, s') → I s')
    (hs : I s) (h : p.wp step Q s) : p.wp step (fun a s => Q a s ∧ I s) s := by
  induction p generalizing s with
  | ret a => exact ⟨h, hs⟩
  | call c k ih =>
    exact fun x r s' hst => ih r (hp.2 r) (hK x c s r s' hp.1 hs hst) (h x r s' hst)

end

end Prog
