/-
  Programs that all may run, some of whose calls are made under a lock: to take
  the lock is one step, to make the call and leave it the next.
-/
import Mathlib.Logic.Function.Basic
import Hashline.Lib.Prog

variable {T L C X S : Type} {A : C → Type} {α : Type}

/-- The programs, who holds each lock, and the machine's state. -/
structure Crowd (T L C : Type) (A : C → Type) (α S : Type) where
  threads : T → Prog C A α
  holder : L → Option T
  state : S

namespace Crowd
variable [DecidableEq T] [DecidableEq L]

/-- One step of program `i`; `none` where it has returned, or must wait. -/
def advance (step : T → X → (c : C) → S → Option (A c × S)) (guard : C → Option L) (m : T × X)
    (P : Crowd T L C A α S) : Option (Crowd T L C A α S) :=
  match P.threads m.1 with
  | .ret _ => none
  | .call c k =>
    match guard c with
    | none => (step m.1 m.2 c P.state).map fun r =>
        { P with threads := Function.update P.threads m.1 (k r.1), state := r.2 }
    | some l =>
      match P.holder l with
      | none => some { P with holder := Function.update P.holder l (some m.1) }
      | some j =>
        if j = m.1 then (step m.1 m.2 c P.state).map fun r =>
          ⟨Function.update P.threads m.1 (k r.1), Function.update P.holder l none, r.2⟩
        else none

/-- A schedule: who goes on next, and what the machine answers. -/
def runs (step : T → X → (c : C) → S → Option (A c × S)) (guard : C → Option L) :
    List (T × X) → Crowd T L C A α S → Option (Crowd T L C A α S)
  | [], P => some P
  | m :: ms, P => (P.advance step guard m).bind (runs step guard ms)

variable {step : T → X → (c : C) → S → Option (A c × S)} {guard : C → Option L}
  {P P' : Crowd T L C A α S} {i : T} {x : X}

/-- **What a step is**: a lock that is free is taken, or a call is made, and its lock left. -/
theorem advance_cases (h : P.advance step guard (i, x) = some P') :
    ∃ c k, P.threads i = .call c k ∧
      ((∃ l, guard c = some l ∧ P.holder l = none ∧
          P' = { P with holder := Function.update P.holder l (some i) }) ∨
        ∃ a s, step i x c P.state = some (a, s) ∧
          P'.threads = Function.update P.threads i (k a) ∧ P'.state = s ∧
          (guard c = none ∧ P'.holder = P.holder ∨
            ∃ l, guard c = some l ∧ P.holder l = some i ∧
              P'.holder = Function.update P.holder l none)) := by
  unfold advance at h
  rcases hprog : P.threads i with a | ⟨c, k⟩
  · simp only [hprog, reduceCtorEq] at h
  refine ⟨c, k, rfl, ?_⟩
  simp only [hprog] at h
  rcases hguard : guard c with _ | l
  · simp only [hguard, Option.map_eq_some_iff] at h
    obtain ⟨⟨a, s⟩, hs, rfl⟩ := h
    exact .inr ⟨a, s, hs, rfl, rfl, .inl ⟨rfl, rfl⟩⟩
  · simp only [hguard] at h
    rcases hheld : P.holder l with _ | j
    · simp only [hheld, Option.some.injEq] at h
      exact .inl ⟨l, rfl, hheld, h.symm⟩
    · simp only [hheld] at h
      split_ifs at h with hj
      subst hj
      rw [Option.map_eq_some_iff] at h
      obtain ⟨⟨a, s⟩, hs, rfl⟩ := h
      exact .inr ⟨a, s, hs, rfl, rfl, .inr ⟨l, rfl, hheld, rfl⟩⟩

/-- What every call keeps of the programs and the state holds in every state a crowd reaches. -/
theorem runs_keep {J : (T → Prog C A α) → S → Prop}
    (hstep : ∀ i x c k threads s a s', J threads s → threads i = .call c k →
      step i x c s = some (a, s') → J (Function.update threads i (k a)) s') :
    ∀ {ms : List (T × X)} {P P' : Crowd T L C A α S}, J P.threads P.state →
      P.runs step guard ms = some P' → J P'.threads P'.state
  | [], P, P', hj, hr => by cases hr; exact hj
  | (i, x) :: ms, P, P', hj, hr => by
    rw [runs, Option.bind_eq_some_iff] at hr
    obtain ⟨P₁, h₁, hr⟩ := hr
    refine runs_keep hstep ?_ hr
    obtain ⟨c, k, hprog, ⟨l, -, -, rfl⟩ | ⟨a, s, hs, hthreads, hstate, -⟩⟩ := advance_cases h₁
    · exact hj
    · rw [hthreads, hstate]
      exact hstep i x c k _ _ a s hj hprog hs

/-! ## Progress -/

/-- Whoever holds a lock is about to make the call it was taken for. -/
def Orderly (guard : C → Option L) (P : Crowd T L C A α S) : Prop :=
  ∀ l i, P.holder l = some i → ∃ c k, P.threads i = .call c k ∧ guard c = some l

theorem Orderly.advance (hp : P.Orderly guard) (h : P.advance step guard (i, x) = some P') :
    P'.Orderly guard := by
  obtain ⟨c, k, hprog, ⟨l, hguard, -, rfl⟩ | ⟨a, s, -, hthreads, -, hholder⟩⟩ := advance_cases h
  · intro l' j hj
    by_cases hl : l' = l
    · subst hl
      simp only [Function.update_self, Option.some.injEq] at hj
      subst hj
      exact ⟨c, k, hprog, hguard⟩
    · simp only [Function.update_of_ne hl] at hj
      exact hp l' j hj
  · intro l' j hj
    -- a lock that is still held is not the one of this call
    have hbefore : P.holder l' = some j ∧ guard c ≠ some l' := by
      rcases hholder with ⟨hguard, hholder⟩ | ⟨l, hguard, -, hholder⟩
      · rw [hholder] at hj
        exact ⟨hj, by rw [hguard]; exact (Option.some_ne_none _).symm⟩
      · rw [hholder] at hj
        by_cases hl : l' = l
        · subst hl
          rw [Function.update_self] at hj
          cases hj
        · rw [Function.update_of_ne hl] at hj
          exact ⟨hj, by rw [hguard]; exact fun he => hl (Option.some.inj he).symm⟩
    obtain ⟨c', k', hprog', hguard'⟩ := hp l' j hbefore.1
    have hji : j ≠ i := by
      rintro rfl
      rw [hprog] at hprog'
      cases hprog'
      exact hbefore.2 hguard'
    exact ⟨c', k', by rw [hthreads, Function.update_of_ne hji, hprog'], hguard'⟩

theorem Orderly.runs : ∀ {ms : List (T × X)} {P P' : Crowd T L C A α S}, P.Orderly guard →
    P.runs step guard ms = some P' → P'.Orderly guard
  | [], P, P', hp, hr => by cases hr; exact hp
  | (i, x) :: ms, P, P', hp, hr => by
    rw [Crowd.runs, Option.bind_eq_some_iff] at hr
    obtain ⟨P₁, h₁, hr⟩ := hr
    exact Orderly.runs (hp.advance h₁) hr

/-- **Locks that are left after one call are no obstacle**: where a program is about to make a call
    that can be answered, some program can go on, if calls under locks always can be. -/
theorem Orderly.progress (hp : P.Orderly guard)
    (hguarded : ∀ i c, guard c ≠ none → ∃ x, (step i x c P.state).isSome)
    {c : C} {k : A c → Prog C A α} (hprog : P.threads i = .call c k)
    (hanswer : ∃ x, (step i x c P.state).isSome) : ∃ m P', P.advance step guard m = some P' := by
  have hwhole : ∀ j, (∃ c k, P.threads j = .call c k ∧ (∃ x, (step j x c P.state).isSome) ∧
      ∀ l, guard c = some l → P.holder l = none ∨ P.holder l = some j) →
      ∃ m P', P.advance step guard m = some P' := by
    rintro j ⟨c, k, hprog, ⟨x, hx⟩, hheld⟩
    obtain ⟨r, hr⟩ := Option.isSome_iff_exists.1 hx
    refine ⟨(j, x), ?_⟩
    unfold Crowd.advance
    rcases hguard : guard c with _ | l
    · simp only [hprog, hguard, hr, Option.map_some]
      exact ⟨_, rfl⟩
    · rcases hheld l hguard with hl | hl
      · simp only [hprog, hguard, hl]
        exact ⟨_, rfl⟩
      · simp only [hprog, hguard, hl, if_true, hr, Option.map_some]
        exact ⟨_, rfl⟩
  rcases hguard : guard c with _ | l
  · refine hwhole i ⟨c, k, hprog, hanswer, fun l hl => ?_⟩
    rw [hguard] at hl
    cases hl
  · rcases hl : P.holder l with _ | j
    · refine hwhole i ⟨c, k, hprog, hanswer, fun l' hl' => .inl ?_⟩
      rw [hguard] at hl'
      rw [← Option.some.inj hl', hl]
    · -- the holder makes its call, and leaves
      obtain ⟨c', k', hprog', hguard'⟩ := hp l j hl
      refine hwhole j ⟨c', k', hprog', hguarded j c' ?_, fun l' hl' => .inr ?_⟩
      · rw [hguard']
        exact Option.some_ne_none l
      · rw [hguard'] at hl'
        rw [← Option.some.inj hl', hl]

end Crowd
