/-
  Several programs on one machine, one running at a time and giving way where
  it rests, and a rely-guarantee rule for what holds in every state they reach.
-/
import Mathlib.Logic.Function.Basic
import Hashline.Lib.Prog

variable {T C X S : Type} {A : C → Type} {α β : Type}

/-- The programs, the one that must go on before another may, and the machine's state. -/
structure Pool (T C : Type) (A : C → Type) (α S : Type) where
  threads : T → Prog C A α
  current : Option T
  state : S

namespace Prog

/-- The program has returned, or is about to make a call at which others may run. -/
def Rests (pause : C → Bool) : Prog C A α → Bool
  | ret _ => true
  | call c _ => pause c

/-- Where no call is a rest, to rest is to have returned. -/
theorem ret_of_rests {p : Prog C A α} (h : p.Rests (fun _ => false) = true) : ∃ a, p = .ret a := by
  cases p with
  | ret a => exact ⟨a, rfl⟩
  | call c k => cases h

/-- Where every call is one, every program rests. -/
theorem rests_everywhere (p : Prog C A α) : p.Rests (fun _ => true) = true := by cases p <;> rfl

end Prog

namespace Pool
variable [DecidableEq T] (step : T → X → (c : C) → S → Option (A c × S)) (pause : C → Bool)

/-- One call of program `i`. -/
def advance (m : T × X) (P : Pool T C A α S) : Option (Pool T C A α S) :=
  if P.current = none ∨ P.current = some m.1 then
    (Prog.advance (step m.1) m.2 (P.threads m.1, P.state)).map fun r =>
      ⟨Function.update P.threads m.1 r.1, if r.1.Rests pause then none else some m.1, r.2⟩
  else none

/-- A schedule: who runs next, and what the machine answers. -/
def runs : List (T × X) → Pool T C A α S → Option (Pool T C A α S)
  | [], P => some P
  | m :: ms, P => (advance step pause m P).bind (runs ms)

end Pool

/-! ## Rely and guarantee -/

/-- What a program may rely on while it rests, what it guarantees with each call, and what all keep. -/
structure Contract (S : Type) where
  rely : S → S → Prop
  guar : S → S → Prop
  inv : S → Prop

namespace Prog
variable (step : X → (c : C) → S → Option (A c × S)) (pause : C → Bool) (κ : Contract S)

/-- Under the contract, if the program returns, `Q` holds. -/
def Safe : Prog C A α → (α → S → Prop) → S → Prop
  | ret a, Q, s => Q a s
  | call c k, Q, s => ∀ s', (if pause c then κ.rely s s' else s' = s) → κ.inv s' →
      ∀ x r s'', step x c s' = some (r, s'') →
        κ.inv s'' ∧ κ.guar s' s'' ∧ (k r).Safe Q s''

variable {step pause κ}

theorem safe_bind {p : Prog C A α} {f : α → Prog C A β} {Q : β → S → Prop} {s : S} :
    (p.bind f).Safe step pause κ Q s ↔
      p.Safe step pause κ (fun a s => (f a).Safe step pause κ Q s) s := by
  induction p generalizing s with
  | ret a => rfl
  | call c k ih =>
    refine forall_congr' fun s' => forall_congr' fun _ => forall_congr' fun _ =>
      forall_congr' fun x => forall_congr' fun r => forall_congr' fun s'' => forall_congr' fun _ => ?_
    rw [← ih r]

theorem safe_mono {p : Prog C A α} {Q Q' : α → S → Prop} {s : S}
    (h : p.Safe step pause κ Q s) (hQ : ∀ a s, Q a s → Q' a s) : p.Safe step pause κ Q' s := by
  induction p generalizing s with
  | ret a => exact hQ a s h
  | call c k ih =>
    intro s' hs' hi x r s'' hst
    obtain ⟨hi', hg, hk⟩ := h s' hs' hi x r s'' hst
    exact ⟨hi', hg, ih r hk⟩

/-- What a resting program needs survives what it relies on. -/
theorem safe_rely {p : Prog C A α} {Q : α → S → Prop} {s s' : S} (hrest : p.Rests pause = true)
    (htrans : ∀ a b c, κ.rely a b → κ.rely b c → κ.rely a c)
    (hQ : ∀ a s s', κ.rely s s' → κ.inv s' → Q a s → Q a s') (hs : κ.rely s s') (hi : κ.inv s')
    (h : p.Safe step pause κ Q s) : p.Safe step pause κ Q s' := by
  cases p with
  | ret a => exact hQ a s s' hs hi h
  | call c k =>
    intro s₂ hs₂ hi₂
    have hpause : pause c = true := hrest
    rw [hpause, if_pos rfl] at hs₂
    exact h s₂ (by rw [hpause, if_pos rfl]; exact htrans _ _ _ hs hs₂) hi₂

/-- What all keep holds wherever a program that never rests has come to. -/
theorem Safe.inv_runs {Q : α → S → Prop} {p' : Prog C A α} {s' : S} : ∀ {xs : List X} {p : Prog C A α}
    {s : S}, p.Safe step (fun _ => false) κ Q s → κ.inv s → runs step xs (p, s) = some (p', s') → κ.inv s'
  | [], p, s, _, hi, hr => by
    rw [runs, Option.some.injEq, Prod.mk.injEq] at hr
    rw [← hr.2]
    exact hi
  | x :: xs, p, s, h, hi, hr => by
    rw [runs, Option.bind_eq_some_iff] at hr
    obtain ⟨⟨p₁, s₁⟩, h₁, hr⟩ := hr
    cases p with
    | ret a => cases h₁
    | call c k =>
      rw [advance, Option.map_eq_some_iff] at h₁
      obtain ⟨⟨r, s₂⟩, hs, h₁⟩ := h₁
      rw [Prod.mk.injEq] at h₁
      obtain ⟨rfl, rfl⟩ := h₁
      obtain ⟨hi', -, hk⟩ := h s rfl hi x r s₂ hs
      exact Safe.inv_runs hk hi' hr

/-- A program of calls that keep what all keep. -/
theorem safe_of_all {K : C → Prop} {p : Prog C A α} {Q : α → S → Prop} {s : S} (hp : p.All K)
    (hK : ∀ x c s r s', K c → κ.inv s → step x c s = some (r, s') → κ.inv s' ∧ κ.guar s s')
    (hi : κ.inv s) (h : p.wp step Q s) :
    p.Safe step (fun _ => false) κ (fun a s => κ.inv s ∧ Q a s) s := by
  induction p generalizing s with
  | ret a => exact ⟨hi, h⟩
  | call c k ih =>
    intro s' hs hi x r s'' hst
    cases hs
    obtain ⟨hi', hg⟩ := hK x c s r s'' hp.1 hi hst
    exact ⟨hi', hg, ih r (hp.2 r) hi' (h x r s'' hst)⟩

end Prog

namespace Pool
variable [DecidableEq T] {step : T → X → (c : C) → S → Option (A c × S)} {pause : C → Bool}

/-- The contracts of the programs fit together. -/
structure Fits (κ : T → Contract S) (I : S → Prop) (Q : T → α → S → Prop) : Prop where
  inv : ∀ i, (κ i).inv = I
  refl : ∀ i s, (κ i).rely s s
  trans : ∀ i a b c, (κ i).rely a b → (κ i).rely b c → (κ i).rely a c
  guar : ∀ i j s s', i ≠ j → (κ i).guar s s' → (κ j).rely s s'
  stable : ∀ i a s s', (κ i).rely s s' → I s' → Q i a s → Q i a s'

/-- Every program is safe from here, and only the current one is not at rest. -/
structure Sound (step : T → X → (c : C) → S → Option (A c × S)) (pause : C → Bool)
    (κ : T → Contract S) (I : S → Prop) (Q : T → α → S → Prop) (P : Pool T C A α S) : Prop where
  inv : I P.state
  safe : ∀ i, (P.threads i).Safe (step i) pause (κ i) (Q i) P.state
  rests : ∀ i, P.current ≠ some i → (P.threads i).Rests pause = true

variable {κ : T → Contract S} {I : S → Prop} {Q : T → α → S → Prop}

/-- One call keeps every program safe. -/
theorem Sound.advance (hf : Fits κ I Q) {m : T × X} {P P' : Pool T C A α S}
    (h : Sound step pause κ I Q P) (hst : P.advance step pause m = some P') :
    Sound step pause κ I Q P' := by
  obtain ⟨i, x⟩ := m
  unfold Pool.advance at hst
  split_ifs at hst with hcur
  rw [Option.map_eq_some_iff] at hst
  obtain ⟨⟨p, s⟩, hadv, rfl⟩ := hst
  rcases hprog : P.threads i with a | ⟨c, k⟩
  · rw [hprog] at hadv; cases hadv
  rw [hprog, Prog.advance, Option.map_eq_some_iff] at hadv
  obtain ⟨⟨r, s₁⟩, hcall, hadv⟩ := hadv
  rw [Prod.mk.injEq] at hadv
  obtain ⟨rfl, rfl⟩ := hadv
  have hsafe := h.safe i
  rw [hprog] at hsafe
  have hrely : if pause c then (κ i).rely P.state P.state else P.state = P.state := by
    split_ifs
    · exact hf.refl i P.state
    · rfl
  obtain ⟨hinv, hguar, hk⟩ := hsafe P.state hrely (by rw [hf.inv]; exact h.inv) x r s₁ hcall
  rw [hf.inv] at hinv
  refine ⟨hinv, fun j => ?_, fun j hj => ?_⟩
  · by_cases hji : j = i
    · subst hji; simpa using hk
    · have hjrest := h.rests j (by
        rcases hcur with hn | hn
        · rw [hn]; simp
        · rw [hn]; simpa using fun he => hji he.symm)
      simp only [Function.update_of_ne hji]
      exact Prog.safe_rely hjrest (hf.trans j) (fun a s s' hr hi => hf.stable j a s s' hr
        (by rwa [hf.inv] at hi)) (hf.guar i j _ _ (Ne.symm hji) hguar) (by rw [hf.inv]; exact hinv)
        (h.safe j)
  · by_cases hji : j = i
    · subst hji
      by_contra hrest
      simp only [Function.update_self, Bool.not_eq_true] at hrest
      simp [hrest] at hj
    · simp only [Function.update_of_ne hji]
      refine h.rests j ?_
      rcases hcur with hn | hn
      · rw [hn]; simp
      · rw [hn]; simpa using fun he => hji he.symm

/-- **What holds in every state a pool reaches**, under any schedule. -/
theorem Sound.runs (hf : Fits κ I Q) : ∀ {ms : List (T × X)} {P P' : Pool T C A α S},
    Sound step pause κ I Q P → P.runs step pause ms = some P' → Sound step pause κ I Q P'
  | [], P, P', h, hr => by cases hr; exact h
  | m :: ms, P, P', h, hr => by
    rw [Pool.runs, Option.bind_eq_some_iff] at hr
    obtain ⟨P₁, h₁, hr⟩ := hr
    exact Sound.runs hf (h.advance hf h₁) hr

/-- What every call keeps holds in every state a pool reaches. -/
theorem runs_keep {I : S → Prop}
    (hstep : ∀ i x c s r s', I s → step i x c s = some (r, s') → I s') :
    ∀ {ms : List (T × X)} {P P' : Pool T C A α S}, I P.state → P.runs step pause ms = some P' →
      I P'.state
  | [], P, P', hi, hr => by cases hr; exact hi
  | (i, x) :: ms, P, P', hi, hr => by
    rw [Pool.runs, Option.bind_eq_some_iff] at hr
    obtain ⟨P₁, h₁, hr⟩ := hr
    refine runs_keep hstep ?_ hr
    unfold Pool.advance at h₁
    split_ifs at h₁
    rw [Option.map_eq_some_iff] at h₁
    obtain ⟨⟨p, s⟩, hadv, rfl⟩ := h₁
    rcases hprog : P.threads i with a | ⟨c, k⟩
    · rw [hprog] at hadv
      cases hadv
    · rw [hprog, Prog.advance, Option.map_eq_some_iff] at hadv
      obtain ⟨⟨r, s₁⟩, hcall, hadv⟩ := hadv
      rw [Prod.mk.injEq] at hadv
      obtain ⟨-, rfl⟩ := hadv
      exact hstep i x c _ r _ hi hcall

end Pool
