/-
  Single flight: callers that load by key, the first of which, once it has the
  lock of the key's cell, loads for all that have the cell.
-/
import Mathlib.Data.Nat.Basic
import Mathlib.Logic.Function.Basic

variable {T K R : Type}

/-- Where a caller stands. -/
inductive Stage (R : Type) where
  | outside
  | waiting (cell : ℕ)
  | loading (cell : ℕ)
  | settling (cell : ℕ) (outcome : R)
  | leaving (cell : ℕ) (outcome : R)
  | owned (cell : ℕ) (outcome : R)
  | reading (cell : ℕ) (outcome : R)
  | joined (cell : ℕ) (outcome : R)

namespace Stage

/-- The cell it has been given. -/
def cell : Stage R → Option ℕ
  | outside => none
  | waiting c | loading c | settling c _ | leaving c _ | owned c _ | reading c _ | joined c _ => some c

/-- The cell whose lock it holds. -/
def holds : Stage R → Option ℕ
  | loading c | settling c _ | leaving c _ | reading c _ => some c
  | outside | waiting _ | owned .. | joined .. => none

/-- The cell it has found pending. -/
def owns : Stage R → Option ℕ
  | loading c | settling c _ | leaving c _ | owned c _ => some c
  | outside | waiting _ | reading .. | joined .. => none

/-- What its own load came to. -/
def outcome : Stage R → Option R
  | settling _ r | leaving _ r | owned _ r => some r
  | outside | waiting _ | loading _ | reading .. | joined .. => none

/-- Its cell is out of the map. -/
def settled : Stage R → Bool
  | leaving .. | owned .. => true
  | _ => false

variable {s : Stage R} {c : ℕ}

theorem cell_of_owns (h : s.owns = some c) : s.cell = some c := by
  cases s <;> first | exact h | cases h

theorem eq_loading (h : s.owns = some c) (hr : s.outcome = none) : s = loading c := by
  cases s with
  | loading => exact congrArg loading (Option.some.inj h)
  | outside | waiting | reading | joined => cases h
  | settling | leaving | owned => cases hr

theorem eq_owned {r : R} (h : s.owns = some c) (hr : s.outcome = some r) (hs : s.holds ≠ some c) :
    s = owned c r := by
  cases s with
  | owned c' r' =>
    rw [show c' = c from Option.some.inj h, show r' = r from Option.some.inj hr]
  | settling | leaving => exact absurd h hs
  | outside | waiting | reading | joined => cases h
  | loading => cases hr

end Stage

/-- The cell in flight of each key, what a cell holds and who has its lock, and the next cell; which
    key a cell was made for and who found it pending are history. -/
structure Flights (T K R : Type) where
  flight : K → Option ℕ
  value : ℕ → Option R
  holder : ℕ → Option T
  next : ℕ
  made : ℕ → Option K
  owner : ℕ → Option T
  stage : T → Stage R

namespace Flights

/-- What callers do. -/
inductive Step [DecidableEq T] [DecidableEq K] (key : T → K) (F : Flights T K R) : Flights T K R → Prop
  | skip (next : ℕ) (h : F.next ≤ next) : Step key F { F with next }
  | join {i : T} {c : ℕ} (next : ℕ) (hnext : F.next ≤ next) (hi : F.stage i = .outside)
      (hc : F.flight (key i) = some c) : Step key F { F with
        stage := Function.update F.stage i (.waiting c)
        next }
  | claim {i : T} (hi : F.stage i = .outside) (hc : F.flight (key i) = none) :
      Step key F { F with
        stage := Function.update F.stage i (.waiting F.next)
        flight := Function.update F.flight (key i) (some F.next)
        made := Function.update F.made F.next (some (key i))
        next := F.next + 1 }
  | take {i : T} {c : ℕ} (hi : F.stage i = .waiting c) (hfree : F.holder c = none)
      (hc : F.value c = none) : Step key F { F with
        stage := Function.update F.stage i (.loading c)
        holder := Function.update F.holder c (some i)
        owner := Function.update F.owner c (some i) }
  | find {i : T} {c : ℕ} {r : R} (hi : F.stage i = .waiting c) (hfree : F.holder c = none)
      (hc : F.value c = some r) : Step key F { F with
        stage := Function.update F.stage i (.reading c r)
        holder := Function.update F.holder c (some i) }
  | resolve {i : T} {c : ℕ} (r : R) (hi : F.stage i = .loading c) :
      Step key F { F with
        stage := Function.update F.stage i (.settling c r)
        value := Function.update F.value c (some r) }
  | settle {i : T} {c : ℕ} {r : R} (hi : F.stage i = .settling c r) :
      Step key F { F with
        stage := Function.update F.stage i (.leaving c r)
        flight := Function.update F.flight (key i) none }
  | leave {i : T} {c : ℕ} {r : R} (hi : F.stage i = .leaving c r) :
      Step key F { F with
        stage := Function.update F.stage i (.owned c r)
        holder := Function.update F.holder c none }
  | part {i : T} {c : ℕ} {r : R} (hi : F.stage i = .reading c r) :
      Step key F { F with
        stage := Function.update F.stage i (.joined c r)
        holder := Function.update F.holder c none }

/-! ## Who a cell belongs to -/

/-- `f` tells of which caller `obs` sees a cell. -/
def Tells (f : ℕ → Option T) (obs : Stage R → Option ℕ) (stage : T → Stage R) : Prop :=
  ∀ c i, f c = some i ↔ obs (stage i) = some c

section
variable {f : ℕ → Option T} {obs : Stage R → Option ℕ} {stage : T → Stage R} {i j : T} {b : Stage R}
  {c : ℕ}

theorem Tells.unique (h : Tells f obs stage) (hi : obs (stage i) = some c)
    (hj : obs (stage j) = some c) : i = j :=
  Option.some.inj (((h c i).2 hi).symm.trans ((h c j).2 hj))

variable [DecidableEq T]

theorem Tells.keep (h : Tells f obs stage) (hb : obs b = obs (stage i)) :
    Tells f obs (Function.update stage i b) := by
  intro c j
  by_cases hj : j = i
  · subst hj
    rw [Function.update_self, hb]
    exact h c j
  · rw [Function.update_of_ne hj]
    exact h c j

theorem Tells.gain (h : Tells f obs stage) (hi : obs (stage i) = none) (hc : f c = none)
    (hb : obs b = some c) : Tells (Function.update f c (some i)) obs (Function.update stage i b) := by
  intro c' j
  by_cases hj : j = i
  · subst hj
    rw [Function.update_self, hb, Option.some.injEq]
    by_cases hc' : c' = c
    · subst hc'
      rw [Function.update_self]
      exact ⟨fun _ => rfl, fun _ => rfl⟩
    · rw [Function.update_of_ne hc', h c' j, hi]
      exact ⟨fun he => (by cases he), fun he => absurd he.symm hc'⟩
  · rw [Function.update_of_ne hj]
    by_cases hc' : c' = c
    · subst hc'
      rw [Function.update_self, ← h c' j, hc, Option.some.injEq]
      exact ⟨fun he => absurd he.symm hj, fun he => (by cases he)⟩
    · rw [Function.update_of_ne hc']
      exact h c' j

theorem Tells.lose (h : Tells f obs stage) (hi : obs (stage i) = some c) (hb : obs b = none) :
    Tells (Function.update f c none) obs (Function.update stage i b) := by
  intro c' j
  by_cases hj : j = i
  · subst hj
    rw [Function.update_self, hb]
    by_cases hc' : c' = c
    · subst hc'
      rw [Function.update_self]
      exact ⟨fun he => (by cases he), fun he => (by cases he)⟩
    · rw [Function.update_of_ne hc', h c' j, hi, Option.some.injEq]
      exact ⟨fun he => absurd he.symm hc', fun he => (by cases he)⟩
  · rw [Function.update_of_ne hj]
    by_cases hc' : c' = c
    · subst hc'
      rw [Function.update_self, ← h c' j, (h c' i).2 hi, Option.some.injEq]
      exact ⟨fun he => (by cases he), fun he => absurd he.symm hj⟩
    · rw [Function.update_of_ne hc']
      exact h c' j

end

/-! ## The invariant -/

/-- A cell is in flight from when it is made until its owner settles, and holds what its owner's load
    came to; whoever has joined a load finds that its owner is done. -/
structure Inv (key : T → K) (F : Flights T K R) : Prop where
  held : Tells F.holder Stage.holds F.stage
  owner : Tells F.owner Stage.owns F.stage
  made : ∀ i c, (F.stage i).cell = some c → F.made c = some (key i)
  flight : ∀ k c, F.flight k = some c ↔
    F.made c = some k ∧ ∀ i, F.owner c = some i → (F.stage i).settled = false
  value : ∀ c, F.made c ≠ none → F.value c = (F.owner c).bind fun i => (F.stage i).outcome
  fresh : ∀ c, F.next ≤ c → F.made c = none ∧ F.value c = none
  reading : ∀ i c r, F.stage i = .reading c r → F.value c = some r
  joined : ∀ i c r, F.stage i = .joined c r → ∃ j, F.stage j = .owned c r

/-- Where nobody has begun, and no cell is in flight or held. -/
theorem inv_initial {key : T → K} {F : Flights T K R} (hstage : ∀ i, F.stage i = .outside)
    (hflight : ∀ k, F.flight k = none) (hholder : ∀ c, F.holder c = none)
    (hvalue : ∀ c, F.next ≤ c → F.value c = none) (hmade : ∀ c, F.made c = none)
    (howner : ∀ c, F.owner c = none) : F.Inv key where
  held c i := by rw [hholder, hstage]; exact ⟨fun he => (by cases he), fun he => (by cases he)⟩
  owner c i := by rw [howner, hstage]; exact ⟨fun he => (by cases he), fun he => (by cases he)⟩
  made i c hc := by rw [hstage] at hc; cases hc
  flight k c := by
    rw [hflight, hmade]
    exact ⟨fun he => (by cases he), fun he => (by cases he.1)⟩
  value c hc := absurd (hmade c) hc
  fresh c hc := ⟨hmade c, hvalue c hc⟩
  reading i c r hi := by rw [hstage] at hi; cases hi
  joined i c r hi := by rw [hstage] at hi; cases hi

namespace Inv
variable {key : T → K} {F : Flights T K R} {i j : T} {c : ℕ} {r : R} {b : Stage R}

theorem made_of_owner (h : F.Inv key) (ho : F.owner c = some i) : F.made c = some (key i) :=
  h.made i c (Stage.cell_of_owns ((h.owner c i).1 ho))

/-- A cell that is found pending under its lock has no owner. -/
theorem owner_eq_none (h : F.Inv key) (hmade : F.made c ≠ none) (hfree : F.holder c = none)
    (hc : F.value c = none) : F.owner c = none := by
  rcases ho : F.owner c with _ | j
  · rfl
  have hvalue := h.value c hmade
  rw [hc, ho, Option.bind_some] at hvalue
  have hj := Stage.eq_loading ((h.owner c j).1 ho) hvalue.symm
  have hheld := (h.held c j).2 (by rw [hj, Stage.holds])
  rw [hfree] at hheld
  cases hheld

theorem value_of_loading (h : F.Inv key) (hi : F.stage i = .loading c) : F.value c = none := by
  have howner : F.owner c = some i := (h.owner c i).2 (by rw [hi]; rfl)
  rw [h.value c (by rw [h.made_of_owner howner]; exact Option.some_ne_none _), howner,
    Option.bind_some, hi]
  rfl

/-- What a caller finds in a cell it has the lock of is what its owner's load came to, and the owner
    is done. -/
theorem owned_of_reading (h : F.Inv key) (hi : F.stage i = .reading c r) :
    ∃ j, F.stage j = .owned c r := by
  have hmade : F.made c ≠ none := by
    rw [h.made i c (by rw [hi]; rfl)]
    exact Option.some_ne_none _
  have hvalue := h.value c hmade
  rw [h.reading i c r hi, eq_comm, Option.bind_eq_some_iff] at hvalue
  obtain ⟨j, ho, hr⟩ := hvalue
  have howns := (h.owner c j).1 ho
  have hnot : (F.stage j).holds ≠ some c := by
    intro hj
    obtain rfl := h.held.unique hj (i := j) (j := i) (by rw [hi]; rfl)
    rw [hi] at hr
    cases hr
  exact ⟨j, Stage.eq_owned howns hr hnot⟩

/-! ## What a step keeps -/

section
variable [DecidableEq T]

/-- What is seen alike before and after a caller's step is seen of all callers as before. -/
theorem seen_keep {β : Type} {stage : T → Stage R} (obs : Stage R → β) (hb : obs b = obs (stage i)) :
    (fun j => obs (Function.update stage i b j)) = fun j => obs (stage j) := by
  funext j
  by_cases hj : j = i
  · subst hj
    rw [Function.update_self, hb]
  · rw [Function.update_of_ne hj]

theorem made_keep (h : F.Inv key) (hb : b.cell = (F.stage i).cell) :
    ∀ j c, (Function.update F.stage i b j).cell = some c → F.made c = some (key j) := by
  intro j c hc
  rw [congrFun (seen_keep Stage.cell hb) j] at hc
  exact h.made j c hc

theorem flight_keep (h : F.Inv key) (hb : b.settled = (F.stage i).settled) : ∀ k c,
    F.flight k = some c ↔ F.made c = some k ∧
      ∀ j, F.owner c = some j → (Function.update F.stage i b j).settled = false := by
  intro k c
  simp only [congrFun (seen_keep Stage.settled hb)]
  exact h.flight k c

theorem value_keep (h : F.Inv key) (hb : b.outcome = (F.stage i).outcome) : ∀ c, F.made c ≠ none →
    F.value c = (F.owner c).bind fun j => (Function.update F.stage i b j).outcome := by
  rw [seen_keep Stage.outcome hb]
  exact h.value

theorem reading_keep (h : F.Inv key) (hb : ∀ c r, b ≠ .reading c r) :
    ∀ j c r, Function.update F.stage i b j = .reading c r → F.value c = some r := by
  intro j c r hj
  by_cases hji : j = i
  · subst hji
    rw [Function.update_self] at hj
    exact absurd hj (hb c r)
  · rw [Function.update_of_ne hji] at hj
    exact h.reading j c r hj

theorem joined_keep (h : F.Inv key) (hi : ∀ c r, F.stage i ≠ .owned c r)
    (hb : ∀ c r, b ≠ .joined c r) : ∀ j c r, Function.update F.stage i b j = .joined c r →
      ∃ j', Function.update F.stage i b j' = .owned c r := by
  intro j c r hj
  by_cases hji : j = i
  · subst hji
    rw [Function.update_self] at hj
    exact absurd hj (hb c r)
  · rw [Function.update_of_ne hji] at hj
    obtain ⟨j', hj'⟩ := h.joined j c r hj
    refine ⟨j', ?_⟩
    rw [Function.update_of_ne, hj']
    rintro rfl
    exact hi c r hj'

theorem join (h : F.Inv key) {next : ℕ} (hnext : F.next ≤ next) (hi : F.stage i = .outside)
    (hc : F.flight (key i) = some c) : Inv key { F with
        stage := Function.update F.stage i (.waiting c)
        next } where
  held := h.held.keep (by rw [hi]; rfl)
  owner := h.owner.keep (by rw [hi]; rfl)
  made j c' hj := by
    dsimp only at hj ⊢
    by_cases hji : j = i
    · subst hji
      rw [Function.update_self] at hj
      rw [← Option.some.inj hj]
      exact ((h.flight _ _).1 hc).1
    · rw [Function.update_of_ne hji] at hj
      exact h.made j c' hj
  flight := h.flight_keep (by rw [hi]; rfl)
  value := h.value_keep (by rw [hi]; rfl)
  fresh c' hc' := h.fresh c' (le_trans hnext hc')
  reading := h.reading_keep (fun _ _ he => by cases he)
  joined := h.joined_keep (fun _ _ he => by rw [hi] at he; cases he) (fun _ _ he => by cases he)

theorem claim [DecidableEq K] (h : F.Inv key) (hi : F.stage i = .outside) (hc : F.flight (key i) = none) :
    Inv key { F with
      stage := Function.update F.stage i (.waiting F.next)
      flight := Function.update F.flight (key i) (some F.next)
      made := Function.update F.made F.next (some (key i))
      next := F.next + 1 } := by
  have hfresh := h.fresh F.next le_rfl
  have hunowned : F.owner F.next = none := by
    rcases ho : F.owner F.next with _ | j
    · rfl
    · rw [h.made_of_owner ho] at hfresh
      cases hfresh.1
  refine ⟨h.held.keep (by rw [hi]; rfl), h.owner.keep (by rw [hi]; rfl), fun j c' hj => ?_,
    fun k c' => ?_, fun c' hmade => ?_, fun c' hc' => ?_,
    h.reading_keep (fun _ _ he => by cases he),
    h.joined_keep (fun _ _ he => by rw [hi] at he; cases he) (fun _ _ he => by cases he)⟩ <;>
    dsimp only at *
  · by_cases hji : j = i
    · subst hji
      rw [Function.update_self] at hj
      rw [← Option.some.inj hj, Function.update_self]
    · rw [Function.update_of_ne hji] at hj
      have hmade := h.made j c' hj
      rw [Function.update_of_ne, hmade]
      rintro rfl
      rw [hfresh.1] at hmade
      cases hmade
  · have hbefore := h.flight_keep (i := i) (b := .waiting F.next) (by rw [hi]; rfl) k c'
    by_cases hc' : c' = F.next
    · subst hc'
      rw [Function.update_self, hunowned]
      by_cases hk : k = key i
      · subst hk
        rw [Function.update_self]
        exact ⟨fun _ => ⟨rfl, fun j hj => by cases hj⟩, fun _ => rfl⟩
      · rw [Function.update_of_ne hk, hbefore, hfresh.1]
        exact ⟨fun he => (by cases he.1), fun he => absurd (Option.some.inj he.1).symm hk⟩
    · rw [Function.update_of_ne hc']
      by_cases hk : k = key i
      · subst hk
        rw [Function.update_self, Option.some.injEq, ← hbefore, hc]
        exact ⟨fun he => absurd he.symm hc', fun he => (by cases he)⟩
      · rw [Function.update_of_ne hk]
        exact hbefore
  · have hbefore := h.value_keep (i := i) (b := .waiting F.next) (by rw [hi]; rfl)
    by_cases hc' : c' = F.next
    · subst hc'
      rw [hunowned]
      exact hfresh.2
    · refine hbefore c' ?_
      rwa [Function.update_of_ne hc'] at hmade
  · have hne : c' ≠ F.next := by
      rintro rfl
      exact absurd hc' (Nat.not_succ_le_self _)
    rw [Function.update_of_ne hne]
    exact h.fresh c' (Nat.le_of_succ_le hc')

theorem take (h : F.Inv key) (hi : F.stage i = .waiting c) (hfree : F.holder c = none)
    (hc : F.value c = none) : Inv key { F with
      stage := Function.update F.stage i (.loading c)
      holder := Function.update F.holder c (some i)
      owner := Function.update F.owner c (some i) } := by
  have hmade : F.made c = some (key i) := h.made i c (by rw [hi]; rfl)
  have hunowned : F.owner c = none :=
    h.owner_eq_none (by rw [hmade]; exact Option.some_ne_none _) hfree hc
  refine ⟨h.held.gain (by rw [hi]; rfl) hfree rfl, h.owner.gain (by rw [hi]; rfl) hunowned rfl,
    h.made_keep (by rw [hi]; rfl), fun k c' => ?_, fun c' hmade' => ?_, h.fresh,
    h.reading_keep (fun _ _ he => by cases he),
    h.joined_keep (fun _ _ he => by rw [hi] at he; cases he) (fun _ _ he => by cases he)⟩ <;>
    dsimp only at *
  · refine (h.flight_keep (i := i) (b := .loading c) (by rw [hi]; rfl) k c').trans
      (and_congr_right fun _ => ?_)
    by_cases hc' : c' = c
    · subst hc'
      rw [Function.update_self, hunowned]
      refine ⟨fun _ j hj => ?_, fun _ j hj => by cases hj⟩
      rw [← Option.some.inj hj, Function.update_self]
      rfl
    · rw [Function.update_of_ne hc']
  · by_cases hc' : c' = c
    · subst hc'
      rw [Function.update_self, Option.bind_some, Function.update_self]
      exact hc
    · rw [Function.update_of_ne hc']
      exact h.value_keep (i := i) (b := .loading c) (by rw [hi]; rfl) c' hmade'

theorem find (h : F.Inv key) (hi : F.stage i = .waiting c) (hfree : F.holder c = none)
    (hc : F.value c = some r) : Inv key { F with
      stage := Function.update F.stage i (.reading c r)
      holder := Function.update F.holder c (some i) } where
  held := h.held.gain (by rw [hi]; rfl) hfree rfl
  owner := h.owner.keep (by rw [hi]; rfl)
  made := h.made_keep (by rw [hi]; rfl)
  flight := h.flight_keep (by rw [hi]; rfl)
  value := h.value_keep (by rw [hi]; rfl)
  fresh := h.fresh
  reading j c' r' hj := by
    dsimp only at hj ⊢
    by_cases hji : j = i
    · subst hji
      rw [Function.update_self] at hj
      cases hj
      exact hc
    · rw [Function.update_of_ne hji] at hj
      exact h.reading j c' r' hj
  joined := h.joined_keep (fun _ _ he => by rw [hi] at he; cases he) (fun _ _ he => by cases he)

theorem resolve (h : F.Inv key) (r : R) (hi : F.stage i = .loading c) :
    Inv key { F with
        stage := Function.update F.stage i (.settling c r)
        value := Function.update F.value c (some r) } := by
  have howner : F.owner c = some i := (h.owner c i).2 (by rw [hi]; rfl)
  have hvalue := h.value_of_loading hi
  refine ⟨h.held.keep (by rw [hi]; rfl), h.owner.keep (by rw [hi]; rfl),
    h.made_keep (by rw [hi]; rfl), h.flight_keep (by rw [hi]; rfl), fun c' hmade => ?_,
    fun c' hc' => ?_, fun j c' r' hj => ?_,
    h.joined_keep (fun _ _ he => by rw [hi] at he; cases he) (fun _ _ he => by cases he)⟩ <;>
    dsimp only at *
  · by_cases hc' : c' = c
    · subst hc'
      rw [Function.update_self, howner, Option.bind_some, Function.update_self]
      rfl
    · rw [Function.update_of_ne hc', h.value c' hmade]
      rcases ho : F.owner c' with _ | j
      · rfl
      · rw [Option.bind_some, Option.bind_some, Function.update_of_ne]
        rintro rfl
        have howns := (h.owner c' j).1 ho
        rw [hi] at howns
        exact hc' (Option.some.inj howns).symm
  · have hold := h.fresh c' hc'
    rw [Function.update_of_ne]
    · exact hold
    · rintro rfl
      rw [h.made_of_owner howner] at hold
      cases hold.1
  · have hold := h.reading_keep (i := i) (b := .settling c r) (fun _ _ he => by cases he) j c' r' hj
    rw [Function.update_of_ne, hold]
    rintro rfl
    rw [hvalue] at hold
    cases hold

theorem settle [DecidableEq K] (h : F.Inv key) (hi : F.stage i = .settling c r) :
    Inv key { F with
        stage := Function.update F.stage i (.leaving c r)
        flight := Function.update F.flight (key i) none } := by
  have howner : F.owner c = some i := (h.owner c i).2 (by rw [hi]; rfl)
  have hmade := h.made_of_owner howner
  have hflight : F.flight (key i) = some c := by
    refine (h.flight _ _).2 ⟨hmade, fun j hj => ?_⟩
    rw [← Option.some.inj (howner.symm.trans hj), hi]
    rfl
  refine ⟨h.held.keep (by rw [hi]; rfl), h.owner.keep (by rw [hi]; rfl),
    h.made_keep (by rw [hi]; rfl), fun k c' => ?_, h.value_keep (by rw [hi]; rfl), h.fresh,
    h.reading_keep (fun _ _ he => by cases he),
    h.joined_keep (fun _ _ he => by rw [hi] at he; cases he) (fun _ _ he => by cases he)⟩
  dsimp only
  by_cases hc' : c' = c
  · subst hc'
    -- this cell is settled
    have hright : ¬∀ j, F.owner c' = some j →
        (Function.update F.stage i (.leaving c' r) j).settled = false := by
      intro hall
      have hfalse := hall i howner
      rw [Function.update_self] at hfalse
      cases hfalse
    by_cases hk : k = key i
    · subst hk
      rw [Function.update_self]
      exact ⟨fun he => (by cases he), fun he => absurd he.2 hright⟩
    · rw [Function.update_of_ne hk]
      refine ⟨fun he => ?_, fun he => absurd he.2 hright⟩
      have hother := ((h.flight k c').1 he).1
      rw [hmade] at hother
      exact absurd (Option.some.inj hother).symm hk
  · have hbefore : F.flight k = some c' ↔ F.made c' = some k ∧ ∀ j, F.owner c' = some j →
        (Function.update F.stage i (.leaving c r) j).settled = false := by
      refine (h.flight k c').trans (and_congr_right fun _ => forall_congr' fun j =>
        forall_congr' fun hj => ?_)
      rw [Function.update_of_ne]
      rintro rfl
      have howns := (h.owner c' j).1 hj
      rw [hi] at howns
      exact hc' (Option.some.inj howns).symm
    by_cases hk : k = key i
    · subst hk
      rw [Function.update_self, ← hbefore, hflight, Option.some.injEq]
      exact ⟨fun he => (by cases he), fun he => absurd he.symm hc'⟩
    · rw [Function.update_of_ne hk]
      exact hbefore

theorem leave (h : F.Inv key) (hi : F.stage i = .leaving c r) :
    Inv key { F with
        stage := Function.update F.stage i (.owned c r)
        holder := Function.update F.holder c none } where
  held := h.held.lose (by rw [hi]; rfl) rfl
  owner := h.owner.keep (by rw [hi]; rfl)
  made := h.made_keep (by rw [hi]; rfl)
  flight := h.flight_keep (by rw [hi]; rfl)
  value := h.value_keep (by rw [hi]; rfl)
  fresh := h.fresh
  reading := h.reading_keep (fun _ _ he => by cases he)
  joined := h.joined_keep (fun _ _ he => by rw [hi] at he; cases he) (fun _ _ he => by cases he)

theorem part (h : F.Inv key) (hi : F.stage i = .reading c r) :
    Inv key { F with
        stage := Function.update F.stage i (.joined c r)
        holder := Function.update F.holder c none } where
  held := h.held.lose (by rw [hi]; rfl) rfl
  owner := h.owner.keep (by rw [hi]; rfl)
  made := h.made_keep (by rw [hi]; rfl)
  flight := h.flight_keep (by rw [hi]; rfl)
  value := h.value_keep (by rw [hi]; rfl)
  fresh := h.fresh
  reading := h.reading_keep (fun _ _ he => by cases he)
  joined j c' r' hj := by
    dsimp only at hj ⊢
    obtain ⟨j', hj'⟩ : ∃ j', F.stage j' = .owned c' r' := by
      by_cases hji : j = i
      · subst hji
        rw [Function.update_self] at hj
        cases hj
        exact h.owned_of_reading hi
      · rw [Function.update_of_ne hji] at hj
        exact h.joined j c' r' hj
    refine ⟨j', ?_⟩
    rw [Function.update_of_ne, hj']
    rintro rfl
    rw [hi] at hj'
    cases hj'

/-- **Every step keeps the invariant.** -/
theorem step [DecidableEq K] {F' : Flights T K R} (h : F.Inv key) (hs : Step key F F') : F'.Inv key := by
  cases hs with
  | skip next hnext => exact { h with fresh := fun c hc => h.fresh c (le_trans hnext hc) }
  | join next hnext hi hc => exact h.join hnext hi hc
  | claim hi hc => exact h.claim hi hc
  | take hi hfree hc => exact h.take hi hfree hc
  | find hi hfree hc => exact h.find hi hfree hc
  | resolve r hi => exact h.resolve r hi
  | settle hi => exact h.settle hi
  | leave hi => exact h.leave hi
  | part hi => exact h.part hi

end

/-! ## What it says -/

/-- **At most one caller loads a key.** -/
theorem loading_unique (h : F.Inv key) {c' : ℕ} (hi : F.stage i = .loading c)
    (hj : F.stage j = .loading c') (hkey : key i = key j) : i = j := by
  have hflight : ∀ {i c}, F.stage i = .loading c → F.flight (key i) = some c := by
    intro i c hi
    have howner := (h.owner c i).2 (by rw [hi]; rfl)
    refine (h.flight _ _).2 ⟨h.made_of_owner howner, fun j hj => ?_⟩
    rw [← Option.some.inj (howner.symm.trans hj), hi]
    rfl
  have hcell : some c = some c' := by rw [← hflight hi, ← hflight hj, hkey]
  cases hcell
  exact h.held.unique (c := c) (by rw [hi]; rfl) (by rw [hj]; rfl)

/-- Callers that have been given one cell ask for one key. -/
theorem key_eq (h : F.Inv key) (hi : (F.stage i).cell = some c) (hj : (F.stage j).cell = some c) :
    key i = key j :=
  Option.some.inj ((h.made i c hi).symm.trans (h.made j c hj))

end Inv

end Flights
