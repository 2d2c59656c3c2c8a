/-
  Well-formed UTF-8, as the byte automaton of the table of well-formed byte
  sequences: the state is the list of ranges the continuation bytes owed must
  lie in.
-/
import Mathlib.Data.Nat.Basic
import Mathlib.Data.List.Basic

namespace Utf8

/-- The continuation bytes owed, each with the range it must lie in. -/
abbrev Pending := List (UInt8 × UInt8)

/-- An unconstrained continuation byte. -/
def tail : UInt8 × UInt8 := (0x80, 0xBF)

/-- What the first byte of a character makes owed, if it can be a first byte. -/
def follow (b : UInt8) : Option Pending :=
  if b ≤ 0x7F then some []
  else if 0xC2 ≤ b ∧ b ≤ 0xDF then some [tail]
  else if b = 0xE0 then some [(0xA0, 0xBF), tail]
  else if b = 0xED then some [(0x80, 0x9F), tail]
  else if 0xE1 ≤ b ∧ b ≤ 0xEF then some [tail, tail]
  else if b = 0xF0 then some [(0x90, 0xBF), tail, tail]
  else if 0xF1 ≤ b ∧ b ≤ 0xF3 then some [tail, tail, tail]
  else if b = 0xF4 then some [(0x80, 0x8F), tail, tail]
  else none

/-- One byte. -/
def step : Pending → UInt8 → Option Pending
  | [], b => follow b
  | r :: q, b => if r.1 ≤ b ∧ b ≤ r.2 then some q else none

/-- All the bytes of a string. -/
def run : Pending → List UInt8 → Option Pending
  | q, [] => some q
  | q, b :: bs => (step q b).bind fun q' => run q' bs

/-- Well-formed UTF-8. -/
def Valid (bs : List UInt8) : Prop := run [] bs = some []

instance (bs : List UInt8) : Decidable (Valid bs) := inferInstanceAs (Decidable (_ = _))

/-- Scan from a state at offset `i`, where the current character began at `start`: the start of
    the first character that is ill-formed or cut short. -/
def scan : Pending → ℕ → ℕ → List UInt8 → Option ℕ
  | [], _, _, [] => none
  | _ :: _, _, start, [] => some start
  | q, i, start, b :: bs => match step q b with
    | none => some start
    | some [] => scan [] (i + 1) (i + 1) bs
    | some (r :: q') => scan (r :: q') (i + 1) start bs

/-- The length of the longest well-formed prefix, `none` for well-formed strings. -/
def validUpTo (bs : List UInt8) : Option ℕ := scan [] 0 0 bs

/-- Whether offset `i` is at a character boundary (`str::is_char_boundary`). -/
def isCharBoundary (bs : List UInt8) (i : ℕ) : Bool :=
  i = 0 || i = bs.length || match bs[i]? with
    | some b => b < 0x80 || 0xC0 ≤ b
    | none => false

/-- `str::get(a..b)`: `None` unless both ends are character boundaries in order. -/
def get (bs : List UInt8) (a b : ℕ) : Option (List UInt8) :=
  if a ≤ b ∧ isCharBoundary bs a ∧ isCharBoundary bs b then some ((bs.take b).drop a) else none

/-! ## Runs of the automaton -/

theorem run_append (q : Pending) (xs ys : List UInt8) :
    run q (xs ++ ys) = (run q xs).bind fun q' => run q' ys := by
  induction xs generalizing q with
  | nil => rfl
  | cons b xs ih =>
    simp only [List.cons_append, run]
    rcases step q b with _ | q'
    · rfl
    · exact ih q'

theorem scan_eq_none (bs : List UInt8) :
    ∀ q i start, scan q i start bs = none ↔ run q bs = some [] := by
  induction bs with
  | nil => intro q i start; rcases q with _ | ⟨r, q⟩ <;> simp [scan, run]
  | cons b bs ih =>
    intro q i start
    rcases h : step q b with _ | _ | ⟨r, q'⟩ <;> simp [scan, run, h, ih]

/-- **The scan reports an offset exactly on ill-formed strings.** -/
theorem validUpTo_eq_none {bs : List UInt8} : validUpTo bs = none ↔ Valid bs := scan_eq_none bs _ _ _

/-- Every byte owed is at least `0x80`. -/
def Owed (q : Pending) : Prop := ∀ r ∈ q, 0x80 ≤ r.1

/-- What can be a first byte, and that it makes owed only continuation bytes. -/
theorem follow_cases {b : UInt8} {q : Pending} (h : follow b = some q) :
    (b ≤ 0x7F ∨ 0xC2 ≤ b) ∧ q.all (fun r => decide (0x80 ≤ r.1)) = true := by
  unfold follow at h
  split at h
  · cases h
    exact ⟨.inl ‹_›, rfl⟩
  split at h
  · rename_i hb
    cases h
    exact ⟨.inr hb.1, rfl⟩
  split at h
  · subst b; cases h
    exact ⟨.inr (by decide), rfl⟩
  split at h
  · subst b; cases h
    exact ⟨.inr (by decide), rfl⟩
  split at h
  · rename_i hb
    cases h
    exact ⟨.inr (UInt8.le_trans (by decide) hb.1), rfl⟩
  split at h
  · subst b; cases h
    exact ⟨.inr (by decide), rfl⟩
  split at h
  · rename_i hb
    cases h
    exact ⟨.inr (UInt8.le_trans (by decide) hb.1), rfl⟩
  split at h
  · subst b; cases h
    exact ⟨.inr (by decide), rfl⟩
  · cases h

theorem owed_follow {b : UInt8} {q : Pending} (h : follow b = some q) : Owed q := fun r hr =>
  of_decide_eq_true (List.all_eq_true.1 (follow_cases h).2 r hr)

theorem owed_step {q q' : Pending} {b : UInt8} (hq : Owed q) (h : step q b = some q') : Owed q' := by
  rcases q with _ | ⟨r, q⟩
  · exact owed_follow h
  · simp only [step] at h
    split_ifs at h
    cases h
    exact fun r' hr' => hq r' (List.mem_cons_of_mem _ hr')

theorem owed_run {q q' : Pending} {xs : List UInt8} (hq : Owed q) (h : run q xs = some q') :
    Owed q' := by
  induction xs generalizing q with
  | nil => cases h; exact hq
  | cons b xs ih =>
    simp only [run, Option.bind_eq_some_iff] at h
    obtain ⟨q₁, h₁, h₂⟩ := h
    exact ih (owed_step hq h₁) h₂

/-- An ASCII byte is accepted between characters only, and leaves the automaton there. -/
theorem step_ascii {q q' : Pending} {b : UInt8} (hq : Owed q) (hb : b < 0x80)
    (h : step q b = some q') : q = [] ∧ q' = [] := by
  rcases q with _ | ⟨r, q⟩
  · have hb' : b ≤ 0x7F := by
      simp only [UInt8.lt_iff_toNat_lt, UInt8.le_iff_toNat_le, UInt8.reduceToNat] at hb ⊢; omega
    simp only [step, follow, hb', if_true, Option.some.injEq] at h
    exact ⟨rfl, h.symm⟩
  · simp only [step] at h
    split_ifs at h with hr
    have := hq r List.mem_cons_self
    simp only [UInt8.lt_iff_toNat_lt, UInt8.le_iff_toNat_le] at hb this hr; omega

/-! ## Well-formed strings -/

@[simp] theorem valid_nil : Valid [] := rfl

theorem Valid.append {xs ys : List UInt8} (hx : Valid xs) (hy : Valid ys) : Valid (xs ++ ys) := by
  rw [Valid, run_append, hx]; exact hy

theorem Valid.right {xs ys : List UInt8} (h : Valid (xs ++ ys)) (hx : Valid xs) : Valid ys := by
  rw [Valid, run_append, hx] at h; exact h

theorem Valid.flatten {xss : List (List UInt8)} (h : ∀ xs ∈ xss, Valid xs) : Valid xss.flatten := by
  induction xss with
  | nil => exact valid_nil
  | cons xs xss ih =>
    rw [List.flatten_cons]
    exact (h xs List.mem_cons_self).append (ih fun ys hy => h ys (List.mem_cons_of_mem _ hy))

/-- What stands before an ASCII byte is well-formed. -/
theorem Valid.before_ascii {xs ys : List UInt8} {b : UInt8} (hb : b < 0x80)
    (h : Valid (xs ++ b :: ys)) : Valid xs := by
  rw [Valid, run_append, Option.bind_eq_some_iff] at h
  obtain ⟨q, hq, h⟩ := h
  simp only [run, Option.bind_eq_some_iff] at h
  obtain ⟨q', hq', -⟩ := h
  obtain ⟨rfl, -⟩ := step_ascii (owed_run (fun _ h => absurd h List.not_mem_nil) hq) hb hq'
  exact hq

/-- **A well-formed string splits after any ASCII byte.** -/
theorem Valid.split_ascii {xs ys : List UInt8} {b : UInt8} (hb : b < 0x80)
    (h : Valid (xs ++ b :: ys)) : Valid (xs ++ [b]) ∧ Valid ys := by
  rw [Valid, run_append, Option.bind_eq_some_iff] at h
  obtain ⟨q, hq, h⟩ := h
  simp only [run, Option.bind_eq_some_iff] at h
  obtain ⟨q', hq', h⟩ := h
  obtain ⟨rfl, rfl⟩ := step_ascii (owed_run (fun _ h => absurd h List.not_mem_nil) hq) hb hq'
  refine ⟨?_, h⟩
  simp [Valid, run_append, hq, run, hq']

/-- Between characters the next byte is no continuation byte. -/
theorem follow_boundary {b : UInt8} {q : Pending} (h : follow b = some q) : b < 0x80 ∨ 0xC0 ≤ b := by
  refine (follow_cases h).1.imp (fun hb => ?_) fun hb => UInt8.le_trans (by decide) hb
  exact UInt8.lt_of_le_of_lt hb (by decide)

/-- A well-formed prefix of a well-formed string ends at a character boundary. -/
theorem isCharBoundary_append {xs ys : List UInt8} (hx : Valid xs) (h : Valid (xs ++ ys)) :
    isCharBoundary (xs ++ ys) xs.length = true := by
  rcases ys with _ | ⟨b, ys⟩
  · simp [isCharBoundary]
  · have hy := h.right hx
    simp only [Valid, run, step, Option.bind_eq_some_iff] at hy
    obtain ⟨q, hq, -⟩ := hy
    have := follow_boundary hq
    simp [isCharBoundary, this]

/-- Two well-formed prefixes cut out a slice `str::get` accepts. -/
theorem get_of_valid {xs ys z : List UInt8} (hx : Valid xs) (hy : Valid ys)
    (h : Valid (xs ++ ys ++ z)) :
    get (xs ++ ys ++ z) xs.length (xs.length + ys.length) = some ys := by
  have h₁ := isCharBoundary_append hx (by rwa [List.append_assoc] at h)
  have h₂ := isCharBoundary_append (hx.append hy) h
  rw [← List.append_assoc] at h₁
  rw [List.length_append] at h₂
  rw [get, if_pos ⟨Nat.le_add_right _ _, h₁, h₂⟩, ← List.length_append, List.take_left,
    List.drop_left]

end Utf8
