/-
  Machine arithmetic and abrupt ends: `u64`/`usize` operations on naturals,
  and computations that return an error or panic.
-/
import Mathlib.Algebra.Ring.Nat

/-- A byte string. -/
abbrev Bytes := List UInt8

namespace Machine

/-- `u64::MAX` (and `usize::MAX`: targets are 64-bit). -/
def u64Max : ℕ := 2 ^ 64 - 1

/-- `i64::MAX`. -/
def i64Max : ℕ := 2 ^ 63 - 1

/-- `u32::MAX`. -/
def u32Max : ℕ := 2 ^ 32 - 1

/-- `u64::checked_add`. -/
def checkedAdd (a b : ℕ) : Option ℕ := if a + b ≤ u64Max then some (a + b) else none

/-- `u64::checked_sub`. -/
def checkedSub (a b : ℕ) : Option ℕ := if b ≤ a then some (a - b) else none

/-- `u64::saturating_add`. -/
def saturatingAdd (a b : ℕ) : ℕ := min (a + b) u64Max

theorem checkedAdd_eq_some {a b c : ℕ} : checkedAdd a b = some c ↔ a + b = c ∧ c ≤ u64Max := by
  unfold checkedAdd; split_ifs with h
  · constructor
    · rintro ⟨⟩; exact ⟨rfl, h⟩
    · rintro ⟨rfl, -⟩; rfl
  · constructor
    · rintro ⟨⟩
    · rintro ⟨rfl, h'⟩; exact absurd h' h

theorem checkedSub_eq_some {a b c : ℕ} : checkedSub a b = some c ↔ b ≤ a ∧ a - b = c := by
  unfold checkedSub; split_ifs with h <;> simp [h]

theorem saturatingAdd_of_le {a b : ℕ} (h : a + b ≤ u64Max) : saturatingAdd a b = a + b :=
  Nat.min_eq_left h

end Machine

/-- How a computation ends early: with an error it returns, or with a panic. -/
inductive Fault (ε : Type) where
  | err (e : ε)
  | panic
  deriving DecidableEq, Repr

/-- A computation that returns a value, returns an error, or panics. -/
abbrev Exec (ε α : Type) := Except (Fault ε) α

namespace Exec
variable {ε ε' α β : Type}

/-- `Err(e)`. -/
def fail (e : ε) : Exec ε α := .error (.err e)

/-- A panic. -/
def panic : Exec ε α := .error .panic

/-- `Option::ok_or`. -/
def okOr (e : ε) : Option α → Exec ε α
  | some a => .ok a
  | none => fail e

/-- `Option::expect`: a panic on `None`. -/
def expect : Option α → Exec ε α
  | some a => .ok a
  | none => panic

/-- `Result::map_err`. -/
def mapErr (f : ε → ε') : Exec ε α → Exec ε' α
  | .ok a => .ok a
  | .error (.err e) => .error (.err (f e))
  | .error .panic => .error .panic

/-- Unsigned subtraction: an underflow panics. -/
def sub (a b : ℕ) : Exec ε ℕ := expect (Machine.checkedSub a b)

/-- `&s[a..b]`: a range outside `s` panics. -/
def slice (s : List α) (a b : ℕ) : Exec ε (List α) :=
  if a ≤ b ∧ b ≤ s.length then .ok ((s.take b).drop a) else panic

/-- `iter().try_fold(0, |total, a| total.checked_add(f(a)).ok_or(e))`. -/
def checkedSum (e : ε) (f : α → Exec ε ℕ) (l : List α) : Exec ε ℕ :=
  l.foldlM (fun total a => do
    let n ← f a
    okOr e (Machine.checkedAdd total n)) 0

@[simp] theorem ok_bind (a : α) (f : α → Exec ε β) : ((.ok a : Exec ε α) >>= f) = f a := rfl

@[simp] theorem fail_bind (e : ε) (f : α → Exec ε β) : (fail e >>= f) = fail e := rfl

theorem bind_eq_ok {x : Exec ε α} {f : α → Exec ε β} {b : β} :
    (x >>= f) = .ok b ↔ ∃ a, x = .ok a ∧ f a = .ok b := by
  cases x with
  | ok a => simp [bind, Except.bind]
  | error e => simp [bind, Except.bind]

@[simp] theorem okOr_eq_ok {e : ε} {o : Option α} {a : α} : okOr e o = .ok a ↔ o = some a := by
  cases o <;> simp [okOr, fail]

@[simp] theorem expect_eq_ok {o : Option α} {a : α} :
    (expect o : Exec ε α) = .ok a ↔ o = some a := by
  cases o <;> simp [expect, panic]

@[simp] theorem mapErr_eq_ok {f : ε → ε'} {x : Exec ε α} {a : α} :
    mapErr f x = .ok a ↔ x = .ok a := by
  rcases x with (_ | _) | _ <;> simp [mapErr]

theorem mapErr_bind (f : ε → ε') (x : Exec ε α) (g : α → Exec ε β) :
    mapErr f (x >>= g) = mapErr f x >>= fun a => mapErr f (g a) := by
  rcases x with (_ | _) | _ <;> rfl

@[simp] theorem mapErr_okOr (f : ε → ε') (e : ε) (o : Option α) : mapErr f (okOr e o) = okOr (f e) o := by
  cases o <;> rfl

@[simp] theorem mapErr_expect (f : ε → ε') (o : Option α) : mapErr f (expect o) = expect o := by
  cases o <;> rfl

@[simp] theorem fail_ne_ok {e : ε} {a : α} : (fail e : Exec ε α) ≠ .ok a := by simp [fail]

@[simp] theorem panic_ne_ok {a : α} : (panic : Exec ε α) ≠ .ok a := by simp [panic]

/-- A loop none of whose rounds fails. -/
theorem mapM_eq_ok {f : α → Exec ε β} {g : α → β} {l : List α} (h : ∀ a ∈ l, f a = .ok (g a)) :
    l.mapM f = .ok (l.map g) := by
  induction l with
  | nil => rfl
  | cons a l ih =>
    rw [List.mapM_cons, h a List.mem_cons_self, ih fun b hb => h b (List.mem_cons_of_mem _ hb)]
    rfl

/-- A loop none of whose rounds fails, by what is seen of its results. -/
theorem mapM_view {γ : Type} (f : α → Exec ε β) (view : β → γ) (g : α → γ) (l : List α)
    (h : ∀ a ∈ l, ∃ b, f a = .ok b ∧ view b = g a) :
    ∃ bs, l.mapM f = .ok bs ∧ bs.map view = l.map g := by
  induction l with
  | nil => exact ⟨[], rfl, rfl⟩
  | cons a l ih =>
    obtain ⟨b, hb, hv⟩ := h a List.mem_cons_self
    obtain ⟨bs, hbs, hvs⟩ := ih fun c hc => h c (List.mem_cons_of_mem _ hc)
    exact ⟨b :: bs, by rw [List.mapM_cons, hb, hbs]; rfl, by rw [List.map_cons, List.map_cons, hv, hvs]⟩

theorem sub_eq_ok {a b c : ℕ} : (sub a b : Exec ε ℕ) = .ok c ↔ b ≤ a ∧ a - b = c := by
  rw [sub, expect_eq_ok, Machine.checkedSub_eq_some]

/-- **A checked sum is the sum, when that fits.** -/
theorem checkedSum_eq_ok {e : ε} {f : α → Exec ε ℕ} {g : α → ℕ} {l : List α}
    (h : ∀ a ∈ l, f a = .ok (g a)) {n : ℕ} :
    checkedSum e f l = .ok n ↔ (l.map g).sum = n ∧ n ≤ Machine.u64Max := by
  have key : ∀ total, total ≤ Machine.u64Max → ((l.foldlM (fun total a => do
      let n ← f a
      okOr e (Machine.checkedAdd total n)) total : Exec ε ℕ) = .ok n ↔
        total + (l.map g).sum = n ∧ n ≤ Machine.u64Max) := by
    induction l with
    | nil => intro total ht; simp [pure, Except.pure]; omega
    | cons a l ih =>
      intro total ht
      have ih := ih fun b hb => h b (List.mem_cons_of_mem _ hb)
      rw [List.foldlM_cons, bind_eq_ok, h a List.mem_cons_self, List.map_cons, List.sum_cons]
      constructor
      · rintro ⟨t, ht', hrest⟩
        rw [bind_eq_ok] at ht'
        obtain ⟨m, hm, ht'⟩ := ht'
        cases hm
        rw [okOr_eq_ok, Machine.checkedAdd_eq_some] at ht'
        have := (ih t ht'.2).1 hrest
        omega
      · rintro ⟨hn, hle⟩
        refine ⟨total + g a, ?_, (ih _ (by omega)).2 ⟨by omega, hle⟩⟩
        rw [bind_eq_ok]
        exact ⟨g a, rfl, by rw [okOr_eq_ok, Machine.checkedAdd_eq_some]; exact ⟨rfl, by omega⟩⟩
  rw [checkedSum, key 0 (Nat.zero_le _), Nat.zero_add]

theorem slice_of_le {s : List α} {a b : ℕ} (h : a ≤ b) (hb : b ≤ s.length) :
    (slice s a b : Exec ε (List α)) = .ok ((s.take b).drop a) := by
  simp [slice, h, hb]

/-! ## Computations that do not panic -/

/-- The computation returns a value or an error. -/
def NoPanic (x : Exec ε α) : Prop := x ≠ .error .panic

@[simp] theorem noPanic_ok (a : α) : NoPanic (.ok a : Exec ε α) := by simp [NoPanic]

@[simp] theorem noPanic_fail (e : ε) : NoPanic (fail e : Exec ε α) := by simp [NoPanic, fail]

theorem noPanic_okOr (e : ε) (o : Option α) : NoPanic (okOr e o) := by cases o <;> simp [okOr]

theorem noPanic_mapErr {f : ε → ε'} {x : Exec ε α} (h : NoPanic x) : NoPanic (mapErr f x) := by
  rcases x with (_ | _) | _
  · exact noPanic_fail _
  · exact absurd rfl h
  · exact noPanic_ok _

theorem noPanic_bind {x : Exec ε α} {f : α → Exec ε β} (hx : NoPanic x)
    (hf : ∀ a, x = .ok a → NoPanic (f a)) : NoPanic (x >>= f) := by
  rcases x with (_ | _) | a
  · exact noPanic_fail _
  · exact absurd rfl hx
  · exact hf a rfl

/-- Without a panic, and with nothing to say in an error, there is one way to fail. -/
theorem NoPanic.fail_or_ok {x : Exec Unit α} (h : NoPanic x) : x = fail () ∨ ∃ a, x = .ok a := by
  rcases x with (_ | _) | a
  · exact .inl rfl
  · exact absurd rfl h
  · exact .inr ⟨a, rfl⟩

/-! ## Computations that end as they should -/

/-- A value in `V`, or an error in `E`. -/
def Meets (V : α → Prop) (E : ε → Prop) : Exec ε α → Prop
  | .ok a => V a
  | .error (.err e) => E e
  | .error .panic => False

section
variable {V V' : α → Prop} {W : β → Prop} {E : ε → Prop} {E' : ε' → Prop} {x : Exec ε α}

@[simp] theorem meets_ok {a : α} : Meets V E (.ok a) ↔ V a := Iff.rfl

@[simp] theorem meets_fail {e : ε} : Meets V E (fail e) ↔ E e := Iff.rfl

@[simp] theorem meets_err {e : ε} : Meets V E (.error (.err e)) ↔ E e := Iff.rfl

@[simp] theorem meets_panic : Meets V E (.error .panic) ↔ False := Iff.rfl

theorem NoPanic.meets (h : x.NoPanic) : x.Meets (fun _ => True) fun _ => True := by
  rcases x with (_ | _) | _
  · trivial
  · exact absurd rfl h
  · trivial

theorem Meets.mono {E' : ε → Prop} (h : x.Meets V E) (hV : ∀ a, V a → V' a)
    (hE : ∀ e, E e → E' e) : x.Meets V' E' := by
  rcases x with (e | _) | a
  · exact hE e h
  · exact h
  · exact hV a h

theorem Meets.bind {f : α → Exec ε β} (h : x.Meets V E) (hf : ∀ a, V a → (f a).Meets W E) :
    (x >>= f).Meets W E := by
  rcases x with (e | _) | a
  · exact h
  · exact h
  · exact hf a h

theorem Meets.mapErr {f : ε → ε'} (h : x.Meets V E) (hE : ∀ e, E e → E' (f e)) :
    (x.mapErr f).Meets V E' := by
  rcases x with (e | _) | a
  · exact hE e h
  · exact h
  · exact h

end

/-! ## Arithmetic that does not panic -/

theorem noPanic_sub {a b : ℕ} (h : b ≤ a) : NoPanic (sub a b : Exec ε ℕ) := by
  rw [sub_eq_ok.2 ⟨h, rfl⟩]; exact noPanic_ok _

theorem noPanic_checkedSum {e : ε} {f : α → Exec ε ℕ} {l : List α} (h : ∀ a ∈ l, NoPanic (f a)) :
    NoPanic (checkedSum e f l) := by
  have key : ∀ total, NoPanic (l.foldlM (fun total a => do
      let n ← f a
      okOr e (Machine.checkedAdd total n)) total : Exec ε ℕ) := by
    induction l with
    | nil => intro total; exact noPanic_ok _
    | cons a l ih =>
      intro total
      rw [List.foldlM_cons]
      refine noPanic_bind (noPanic_bind (h a List.mem_cons_self) fun n _ => noPanic_okOr _ _) ?_
      exact fun t _ => ih (fun b hb => h b (List.mem_cons_of_mem _ hb)) t
  exact key 0

end Exec
