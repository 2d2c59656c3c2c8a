/-
  Numerals: decimals without leading zeros, and digits of a fixed number in any
  base.
-/
import Mathlib.Data.Nat.Notation
import Mathlib.Tactic.Ring

namespace Numeral

/-! ## Decimals -/

/-- A decimal numeral: digits, the first of which is no zero unless it is the only one. -/
structure Canonical (cs : List Char) : Prop where
  ne_nil : cs ≠ []
  digits : ∀ c ∈ cs, c.isDigit
  leading : cs.head? = some '0' → cs.length = 1

/-- The number digits stand for. -/
def value (cs : List Char) : ℕ := Nat.ofDigitChars 10 cs 0

theorem digit_bounds {c : Char} (hc : c.isDigit) : 48 ≤ c.toNat ∧ c.toNat ≤ 57 := by
  simpa [Char.isDigit, UInt32.le_iff_toNat_le] using hc

theorem digitChar_toNat {c : Char} (hc : c.isDigit) : (c.toNat - 48).digitChar = c := by
  have hbounds := digit_bounds hc
  refine Char.toNat_inj.1 ?_
  rw [Nat.toNat_digitChar_of_lt_ten (by omega)]
  omega

theorem le_ofDigitChars (cs : List Char) : ∀ a, a ≤ Nat.ofDigitChars 10 cs a := by
  induction cs with
  | nil => intro a; rw [Nat.ofDigitChars_nil]
  | cons c cs ih =>
    intro a
    rw [Nat.ofDigitChars_cons]
    have := ih (10 * a + (c.toNat - '0'.toNat))
    omega

/-- Digits put after a number that is not zero. -/
theorem toDigits_append {cs : List Char} (hcs : ∀ c ∈ cs, c.isDigit) : ∀ {a}, 0 < a →
    Nat.toDigits 10 a ++ cs = Nat.toDigits 10 (Nat.ofDigitChars 10 cs a) := by
  induction cs with
  | nil => intro a _; rw [Nat.ofDigitChars_nil, List.append_nil]
  | cons c cs ih =>
    intro a ha
    have hc := hcs c List.mem_cons_self
    have hbounds := digit_bounds hc
    have hlast := Nat.toDigits_append_toDigits (b := 10) (n := a) (d := c.toNat - 48) (by decide) ha
      (by omega)
    have hone : Nat.toDigits 10 (c.toNat - 48) = [c] := by
      rw [Nat.toDigits_of_lt_base (by omega), digitChar_toNat hc]
    rw [hone] at hlast
    rw [Nat.ofDigitChars_cons, ← ih (fun d hd => hcs d (List.mem_cons_of_mem _ hd)) (by omega)]
    rw [show 10 * a + (c.toNat - '0'.toNat) = 10 * a + (c.toNat - 48) from rfl, ← hlast]
    simp

/-- **A numeral is how its number is written.** -/
theorem Canonical.eq_toDigits {cs : List Char} (h : Canonical cs) : cs = Nat.toDigits 10 (value cs) := by
  rcases cs with _ | ⟨c, cs⟩
  · exact absurd rfl h.ne_nil
  have hc := h.digits c List.mem_cons_self
  have hbounds := digit_bounds hc
  have hfirst : Nat.toDigits 10 (c.toNat - 48) = [c] := by
    rw [Nat.toDigits_of_lt_base (by omega), digitChar_toNat hc]
  have hvalue : value (c :: cs) = Nat.ofDigitChars 10 cs (c.toNat - 48) := by
    rw [value, Nat.ofDigitChars_cons, Nat.mul_zero, Nat.zero_add]
    rfl
  rw [hvalue]
  by_cases hz : c = '0'
  · have hlen := h.leading (by rw [hz]; rfl)
    rw [List.length_cons, Nat.add_eq_right, List.length_eq_zero_iff] at hlen
    rw [hlen, Nat.ofDigitChars_nil, hfirst]
  · have hpos : 0 < c.toNat - 48 := by
      have hne : c.toNat ≠ 48 := fun he => hz (Char.toNat_inj.1 he)
      omega
    rw [← toDigits_append (fun d hd => h.digits d (List.mem_cons_of_mem _ hd)) hpos, hfirst]
    rfl

theorem digitChar_ne_zero : ∀ n < 10, 0 < n → n.digitChar ≠ '0' := by
  decide

theorem head_toDigits (n : ℕ) (hn : 0 < n) : (Nat.toDigits 10 n).head? ≠ some '0' := by
  induction n using Nat.strong_induction_on with
  | _ n ih =>
    by_cases hlt : n < 10
    · rw [Nat.toDigits_of_lt_base hlt]
      exact fun h => digitChar_ne_zero n hlt hn (Option.some.inj h)
    · rw [Nat.toDigits_of_base_le (by decide) (by omega)]
      have hhead := ih (n / 10) (by omega) (by omega)
      rcases hd : Nat.toDigits 10 (n / 10) with _ | ⟨c, cs⟩
      · exact absurd hd Nat.toDigits_ne_nil
      · rw [hd] at hhead
        exact hhead

/-- Numbers are written as numerals. -/
theorem canonical_toDigits (n : ℕ) : Canonical (Nat.toDigits 10 n) where
  ne_nil := Nat.toDigits_ne_nil
  digits c hc := Nat.isDigit_of_mem_toDigits (by decide) (by decide) hc
  leading hz := by
    rcases Nat.eq_zero_or_pos n with rfl | hn
    · rfl
    · exact absurd hz (head_toDigits n hn)

@[simp] theorem value_toDigits (n : ℕ) : value (Nat.toDigits 10 n) = n := Nat.ofDigitChars_ten_toDigits

/-! ## Digits of a fixed number -/

/-- The last `n` digits of `v` in base `b`, the first one first. -/
def fixed (b n v : ℕ) : List ℕ := (List.range n).reverse.map fun k => v / b ^ k % b

/-- What digits stand for, after `a`. -/
def read (b : ℕ) (ds : List ℕ) (a : ℕ) : ℕ := ds.foldl (fun v d => b * v + d) a

@[simp] theorem length_fixed (b n v : ℕ) : (fixed b n v).length = n := by simp [fixed]

theorem fixed_succ (b n v : ℕ) : fixed b (n + 1) v = v / b ^ n % b :: fixed b n v := by
  rw [fixed, List.range_succ, List.reverse_append]
  rfl

@[simp] theorem read_cons (b d a : ℕ) (ds : List ℕ) : read b (d :: ds) a = read b ds (b * a + d) := rfl

/-- Digits that are read give the number back. -/
theorem read_fixed {b : ℕ} (v : ℕ) : ∀ n a, read b (fixed b n v) a = b ^ n * a + v % b ^ n
  | 0, a => by simp [fixed, read, Nat.mod_one]
  | n + 1, a => by
    rw [fixed_succ, read_cons, read_fixed v n, Nat.pow_succ, Nat.mod_mul]
    ring

theorem read_eq {b : ℕ} (ds : List ℕ) : ∀ a, read b ds a = b ^ ds.length * a + read b ds 0 := by
  induction ds with
  | nil => intro a; simp [read]
  | cons d ds ih =>
    intro a
    rw [read_cons, read_cons, ih, ih (b * 0 + d), List.length_cons, Nat.pow_succ]
    ring

theorem read_lt {b : ℕ} {ds : List ℕ} (hds : ∀ d ∈ ds, d < b) : read b ds 0 < b ^ ds.length := by
  induction ds with
  | nil => simp [read]
  | cons d ds ih =>
    have hd := hds d List.mem_cons_self
    have hrest := ih fun e he => hds e (List.mem_cons_of_mem _ he)
    rw [read_cons, read_eq, Nat.mul_zero, Nat.zero_add, List.length_cons, Nat.pow_succ]
    calc b ^ ds.length * d + read b ds 0 < b ^ ds.length * (d + 1) := by
          rw [Nat.mul_succ]; omega
      _ ≤ b ^ ds.length * b := Nat.mul_le_mul_left _ hd

/-- **Digits are those of the number they are read as.** -/
theorem fixed_read {b : ℕ} {ds : List ℕ} (hds : ∀ d ∈ ds, d < b) :
    ∀ a, fixed b ds.length (read b ds a) = ds := by
  induction ds with
  | nil => intro a; rfl
  | cons d ds ih =>
    intro a
    have hd := hds d List.mem_cons_self
    have hds' : ∀ e ∈ ds, e < b := fun e he => hds e (List.mem_cons_of_mem _ he)
    have hpos : 0 < b ^ ds.length := Nat.pow_pos (by omega)
    rw [List.length_cons, fixed_succ, read_cons, ih hds', read_eq, Nat.mul_add_div hpos,
      Nat.div_eq_of_lt (read_lt hds'), Nat.add_zero, Nat.mul_add_mod, Nat.mod_eq_of_lt hd]

end Numeral
