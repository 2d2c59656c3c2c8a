/-
  The lines of a string: the maximal pieces ending right after a separator,
  and a last piece, possibly empty, that no separator ends.
-/
import Mathlib.Data.List.Basic
import Mathlib.Data.List.Infix

namespace Lines

variable {α : Type}

/-! ## Where the pieces of a concatenation start -/

/-- Where piece `k` starts in the concatenation. -/
def start (ls : List (List α)) (k : ℕ) : ℕ := (ls.take k).flatten.length

section
variable (ls : List (List α))

@[simp] theorem start_zero : start ls 0 = 0 := rfl

@[simp] theorem start_cons (l : List α) (k : ℕ) : start (l :: ls) (k + 1) = l.length + start ls k := by
  simp [start]

theorem start_of_length_le {k : ℕ} (h : ls.length ≤ k) : start ls k = ls.flatten.length := by
  rw [start, List.take_of_length_le h]

theorem start_succ {k : ℕ} (h : k < ls.length) : start ls (k + 1) = start ls k + ls[k].length := by
  rw [start, start, List.take_succ_eq_append_getElem h, List.flatten_append, List.length_append]
  simp

theorem take_flatten {j k : ℕ} (h : j ≤ k) :
    (ls.take k).flatten = (ls.take j).flatten ++ ((ls.take k).drop j).flatten := by
  have := List.take_append_drop j (ls.take k)
  rw [List.take_take, Nat.min_eq_left h] at this
  rw [← List.flatten_append, this]

theorem start_mono {j k : ℕ} (h : j ≤ k) : start ls j ≤ start ls k := by
  rw [start, start, take_flatten ls h, List.length_append]; omega

theorem start_le (k : ℕ) : start ls k ≤ ls.flatten.length := by
  rw [← start_of_length_le ls (Nat.le_max_left ls.length k)]
  exact start_mono ls (Nat.le_max_right _ _)

theorem take_start (k : ℕ) : ls.flatten.take (start ls k) = (ls.take k).flatten := by
  have h : ls.flatten = (ls.take k).flatten ++ (ls.drop k).flatten := by
    rw [← List.flatten_append, List.take_append_drop]
  rw [h, start, List.take_left]

theorem drop_start (k : ℕ) : ls.flatten.drop (start ls k) = (ls.drop k).flatten := by
  have h : ls.flatten = (ls.take k).flatten ++ (ls.drop k).flatten := by
    rw [← List.flatten_append, List.take_append_drop]
  rw [h, start, List.drop_left]

/-- What lies between two starts are the pieces between them. -/
theorem slice_start {j k : ℕ} (h : j ≤ k) :
    (ls.flatten.take (start ls k)).drop (start ls j) = ((ls.take k).drop j).flatten := by
  rw [take_start, take_flatten ls h, start, List.drop_left]

end

/-! ## Reading back what separators join -/

/-- What stands before the first separator is determined. -/
theorem append_cons_inj {x : α} {a a' b b' : List α} (ha : x ∉ a) (ha' : x ∉ a')
    (h : a ++ x :: b = a' ++ x :: b') : a = a' ∧ b = b' := by
  induction a generalizing a' with
  | nil =>
    cases a' with
    | nil => simpa using h
    | cons y ys =>
      rw [List.nil_append, List.cons_append, List.cons.injEq] at h
      exact absurd (h.1 ▸ List.mem_cons_self) ha'
  | cons y ys ih =>
    cases a' with
    | nil =>
      rw [List.nil_append, List.cons_append, List.cons.injEq] at h
      exact absurd (h.1 ▸ List.mem_cons_self) ha
    | cons z zs =>
      rw [List.cons_append, List.cons_append, List.cons.injEq] at h
      obtain ⟨rfl, h⟩ := h
      obtain ⟨rfl, rfl⟩ := ih (fun hm => ha (List.mem_cons_of_mem _ hm))
        (fun hm => ha' (List.mem_cons_of_mem _ hm)) h
      exact ⟨rfl, rfl⟩

/-- **Pieces without the separator** are read back from what it joins. -/
theorem join_inj {sep : α} {xs ys : List (List α)} {x y : List α} (hx : sep ∉ x) (hy : sep ∉ y)
    (hxs : ∀ z ∈ xs, sep ∉ z) (hys : ∀ z ∈ ys, sep ∉ z)
    (h : x ++ xs.flatMap (sep :: ·) = y ++ ys.flatMap (sep :: ·)) : x = y ∧ xs = ys := by
  induction xs generalizing x y ys with
  | nil =>
    cases ys with
    | nil => simpa using h
    | cons w ws =>
      rw [List.flatMap_nil, List.append_nil] at h
      exact absurd (h ▸ by simp) hx
  | cons z zs ih =>
    cases ys with
    | nil =>
      rw [List.flatMap_nil, List.append_nil] at h
      exact absurd (h.symm ▸ by simp) hy
    | cons w ws =>
      rw [List.flatMap_cons, List.flatMap_cons, List.cons_append, List.cons_append] at h
      obtain ⟨rfl, hrest⟩ := append_cons_inj hx hy h
      obtain ⟨rfl, rfl⟩ := ih (hxs z List.mem_cons_self) (hys w List.mem_cons_self)
        (fun v hv => hxs v (List.mem_cons_of_mem _ hv))
        (fun v hv => hys v (List.mem_cons_of_mem _ hv)) hrest
      exact ⟨rfl, rfl⟩

/-- What stands before the first element without the property is determined, and that element. -/
theorem append_cons_inj_of {p : α → Prop} {x x' : α} {a a' b b' : List α} (ha : ∀ y ∈ a, p y)
    (ha' : ∀ y ∈ a', p y) (hx : ¬p x) (hx' : ¬p x') (h : a ++ x :: b = a' ++ x' :: b') :
    a = a' ∧ x = x' ∧ b = b' := by
  induction a generalizing a' with
  | nil =>
    cases a' with
    | nil => simpa using h
    | cons y ys =>
      obtain ⟨rfl, -⟩ := List.cons.inj h
      exact absurd (ha' _ List.mem_cons_self) hx
  | cons y ys ih =>
    cases a' with
    | nil =>
      obtain ⟨rfl, -⟩ := List.cons.inj h
      exact absurd (ha _ List.mem_cons_self) hx'
    | cons z zs =>
      obtain ⟨rfl, hrest⟩ := List.cons.inj h
      obtain ⟨rfl, rfl, rfl⟩ := ih (fun w hw => ha w (List.mem_cons_of_mem _ hw))
        (fun w hw => ha' w (List.mem_cons_of_mem _ hw)) hrest
      exact ⟨rfl, rfl, rfl⟩

/-- Groups without the separator, each of them ended by it, are read back. -/
theorem groups_inj {β : Type} {sep : α} {f : β → List α} {xs ys : List β}
    (hxs : ∀ x ∈ xs, sep ∉ f x) (hys : ∀ y ∈ ys, sep ∉ f y)
    (h : xs.flatMap (fun x => f x ++ [sep]) = ys.flatMap (fun y => f y ++ [sep])) :
    xs.map f = ys.map f := by
  induction xs generalizing ys with
  | nil =>
    cases ys with
    | nil => rfl
    | cons y ys => exact absurd h (by simp)
  | cons x xs ih =>
    cases ys with
    | nil => exact absurd h (by simp)
    | cons y ys =>
      rw [List.flatMap_cons, List.flatMap_cons, List.append_assoc, List.append_assoc,
        List.singleton_append, List.singleton_append] at h
      obtain ⟨hfirst, hrest⟩ := append_cons_inj (hxs x List.mem_cons_self) (hys y List.mem_cons_self) h
      rw [List.map_cons, List.map_cons, hfirst, ih (fun z hz => hxs z (List.mem_cons_of_mem _ hz))
        (fun z hz => hys z (List.mem_cons_of_mem _ hz)) hrest]

/-! ## Splitting at a separator -/

variable [DecidableEq α]

/-- No piece of a split has the separator. -/
theorem notMem_of_mem_splitOn {sep : α} {s l : List α} (h : l ∈ s.splitOn sep) : sep ∉ l := by
  induction s generalizing l with
  | nil =>
    rw [List.splitOn_nil, List.mem_singleton] at h
    rw [h]
    exact List.not_mem_nil
  | cons b bs ih =>
    rw [List.splitOn_cons_eq_if_modifyHead] at h
    split_ifs at h with hb
    · rcases List.mem_cons.1 h with rfl | h
      · exact List.not_mem_nil
      · exact ih h
    · obtain ⟨l', ls, hsplit⟩ := List.exists_cons_of_ne_nil (List.splitOn_ne_nil sep bs)
      rw [hsplit, List.modifyHead_cons, List.mem_cons] at h
      rw [hsplit] at ih
      rcases h with rfl | h
      · rw [List.mem_cons, not_or]
        refine ⟨fun he => hb ?_, ih List.mem_cons_self⟩
        rw [he, beq_self_eq_true]
      · exact ih (List.mem_cons_of_mem _ h)

/-- **Lines ended by a separator, and a rest without one, are what splitting gives** exactly when no
    line has a separator. -/
theorem splitOn_lines {sep : α} {xs : List (List α)} {last : List α} (hlast : sep ∉ last) :
    (xs.flatMap (· ++ [sep]) ++ last).splitOn sep = xs ++ [last] ↔ ∀ x ∈ xs, sep ∉ x := by
  constructor
  · intro h x hx
    refine notMem_of_mem_splitOn (s := xs.flatMap (· ++ [sep]) ++ last) ?_
    rw [h]
    exact List.mem_append_left _ hx
  · intro h
    induction xs with
    | nil => exact List.splitOn_eq_singleton hlast
    | cons x xs ih =>
      rw [List.flatMap_cons, List.append_assoc, List.append_assoc, List.singleton_append,
        List.splitOn_append_cons_self_of_not_mem (h x List.mem_cons_self),
        ih fun y hy => h y (List.mem_cons_of_mem _ hy), List.cons_append]

/-- The lines of `s`, each with the separator that ends it. -/
def split (sep : α) : List α → List (List α)
  | [] => [[]]
  | b :: bs => if b = sep then [b] :: split sep bs else match split sep bs with
    | [] => [[b]]
    | l :: ls => (b :: l) :: ls

variable {sep : α}

theorem split_ne_nil (s : List α) : split sep s ≠ [] := by
  cases s with
  | nil => simp [split]
  | cons b bs =>
    simp only [split]
    split_ifs
    · simp
    · split <;> simp

theorem split_cons_sep (bs : List α) : split sep (sep :: bs) = [sep] :: split sep bs := by
  simp [split]

theorem split_cons_ne {b : α} (hb : b ≠ sep) (bs : List α) :
    ∃ l ls, split sep bs = l :: ls ∧ split sep (b :: bs) = (b :: l) :: ls := by
  rcases h : split sep bs with _ | ⟨l, ls⟩
  · exact absurd h (split_ne_nil bs)
  · exact ⟨l, ls, rfl, by simp [split, hb, h]⟩

@[simp] theorem flatten_split (sep : α) (s : List α) : (split sep s).flatten = s := by
  induction s with
  | nil => rfl
  | cons b bs ih =>
    by_cases hb : b = sep
    · subst hb; rw [split_cons_sep]; simp [ih]
    · obtain ⟨l, ls, h, h'⟩ := split_cons_ne hb bs
      rw [h'] ; rw [h] at ih; simpa using ih

theorem length_split (s : List α) : (split sep s).length = s.count sep + 1 := by
  induction s with
  | nil => rfl
  | cons b bs ih =>
    by_cases hb : b = sep
    · subst hb; rw [split_cons_sep]; simp [ih]
    · obtain ⟨l, ls, h, h'⟩ := split_cons_ne hb bs
      rw [h', List.count_cons_of_ne (by simpa using hb), ← ih, h]; rfl

theorem length_split_le (s : List α) : (split sep s).length ≤ s.length + 1 := by
  rw [length_split]; have := List.count_le_length (a := sep) (l := s); omega

/-- Every line but the last is ended by a separator, the only one in it. -/
theorem split_spec (sep : α) (s : List α) : ∃ ls l, split sep s = ls ++ [l] ∧ sep ∉ l ∧
    ∀ x ∈ ls, ∃ y, x = y ++ [sep] ∧ sep ∉ y := by
  induction s with
  | nil => exact ⟨[], [], rfl, by simp, by simp⟩
  | cons b bs ih =>
    obtain ⟨ls, l, h, hl, hls⟩ := ih
    by_cases hb : b = sep
    · subst hb
      refine ⟨[b] :: ls, l, by rw [split_cons_sep, h]; rfl, hl, fun x hx => ?_⟩
      rcases List.mem_cons.1 hx with rfl | hx
      · exact ⟨[], rfl, by simp⟩
      · exact hls x hx
    · obtain ⟨l', ls', h₁, h₂⟩ := split_cons_ne hb bs
      rw [h₂]; rw [h] at h₁
      rcases ls with _ | ⟨x, ls⟩
      · obtain ⟨rfl, rfl⟩ := List.cons.inj h₁
        exact ⟨[], b :: l, rfl, by simp [hl, Ne.symm hb], by simp⟩
      · obtain ⟨rfl, rfl⟩ := List.cons.inj h₁
        refine ⟨(b :: x) :: ls, l, rfl, hl, fun z hz => ?_⟩
        rcases List.mem_cons.1 hz with rfl | hz
        · obtain ⟨y, rfl, hy⟩ := hls x List.mem_cons_self
          exact ⟨b :: y, rfl, by simp [hy, Ne.symm hb]⟩
        · exact hls z (List.mem_cons_of_mem _ hz)

/-! ## Pieces that are lines -/

/-- Everything but the last has one property, and the last another. -/
def Ends {β : Type} (P Q : β → Prop) (s : List β) : Prop :=
  ∃ xs x, s = xs ++ [x] ∧ (∀ y ∈ xs, P y) ∧ Q x

theorem Ends.append {β : Type} {P Q : β → Prop} {xs s : List β} (hx : ∀ x ∈ xs, P x) (h : Ends P Q s) :
    Ends P Q (xs ++ s) := by
  obtain ⟨ys, y, rfl, hys, hy⟩ := h
  refine ⟨xs ++ ys, y, by rw [List.append_assoc], fun z hz => ?_, hy⟩
  exact (List.mem_append.1 hz).elim (hx z) (hys z)

/-- The separator ends the piece, and is nowhere else in it. -/
def Ended (sep : α) (x : List α) : Prop := ∃ y, x = y ++ [sep] ∧ sep ∉ y

theorem split_ends (sep : α) (s : List α) : Ends (Ended sep) (sep ∉ ·) (split sep s) := by
  obtain ⟨ls, l, h, hl, hls⟩ := split_spec sep s
  exact ⟨ls, l, h, hls, hl⟩

theorem split_of_notMem {s : List α} (h : sep ∉ s) : split sep s = [s] := by
  induction s with
  | nil => rfl
  | cons b bs ih =>
    rw [List.mem_cons, not_or] at h
    rw [split, if_neg (Ne.symm h.1), ih h.2]

theorem split_append {y : List α} (h : sep ∉ y) (s : List α) :
    split sep (y ++ sep :: s) = (y ++ [sep]) :: split sep s := by
  induction y with
  | nil => exact split_cons_sep s
  | cons b bs ih =>
    rw [List.mem_cons, not_or] at h
    rw [List.cons_append, split, if_neg (Ne.symm h.1), ih h.2]
    rfl

/-- Pieces that are ended come first, as they are. -/
theorem split_flatten_append {xs : List (List α)} (h : ∀ x ∈ xs, Ended sep x) (s : List α) :
    split sep (xs.flatten ++ s) = xs ++ split sep s := by
  induction xs with
  | nil => rfl
  | cons x xs ih =>
    obtain ⟨y, rfl, hy⟩ := h x List.mem_cons_self
    rw [List.flatten_cons, List.append_assoc, List.append_assoc, List.singleton_append, split_append hy,
      ih fun z hz => h z (List.mem_cons_of_mem _ hz), List.cons_append]

/-- What follows a last line first goes on with it. -/
theorem split_append_notMem {x c : List α} (hx : sep ∉ x) (hc : c ≠ []) :
    ∃ l ls, l ≠ [] ∧ split sep (x ++ c) = (x ++ l) :: ls := by
  by_cases hs : sep ∈ c
  · obtain ⟨y, z, rfl, hy⟩ := List.eq_append_cons_of_mem hs
    refine ⟨y ++ [sep], split sep z, by simp, ?_⟩
    rw [← List.append_assoc, split_append (by simp [hx, hy]), List.append_assoc]
  · exact ⟨c, [], hc, split_of_notMem (by simp [hx, hs])⟩

/-- **Pieces that are lines** are the lines of what they make up. -/
theorem split_flatten {ls : List (List α)} (h : Ends (Ended sep) (sep ∉ ·) ls) :
    split sep ls.flatten = ls := by
  obtain ⟨xs, x, rfl, hxs, hx⟩ := h
  rw [List.flatten_append, List.flatten_singleton, split_flatten_append hxs, split_of_notMem hx]

/-- Once something is appended, what had the number after the last line starts past the old end. -/
theorem length_lt_start (s : List α) {c : List α} (hc : c ≠ []) :
    s.length < start (split sep (s ++ c)) (split sep s).length := by
  obtain ⟨xs, x, hs, hxs, hx⟩ := split_ends sep s
  obtain ⟨l, ls, hl, hfirst⟩ := split_append_notMem hx hc
  have hflat : s = xs.flatten ++ x := by
    rw [← flatten_split sep s, hs, List.flatten_append, List.flatten_singleton]
  have hsplit : split sep (s ++ c) = (xs ++ [x ++ l]) ++ ls := by
    rw [hflat, List.append_assoc, split_flatten_append hxs, hfirst, List.append_assoc]
    rfl
  have hlen : (split sep s).length = (xs ++ [x ++ l]).length := by
    rw [hs, List.length_append, List.length_append]
    rfl
  rw [hsplit, start, List.take_left' hlen.symm, List.flatten_append, List.flatten_singleton,
    ← List.append_assoc, ← hflat, List.length_append]
  exact Nat.lt_add_of_pos_right (List.length_pos_iff.2 hl)

/-- Every line that is not the last is ended. -/
theorem ended_of_mem_take {s : List α} {m : ℕ} (h : m < (split sep s).length) :
    ∀ x ∈ (split sep s).take m, Ended sep x := by
  obtain ⟨xs, x, hs, hxs, -⟩ := split_ends sep s
  rw [hs, List.length_append, List.length_singleton] at h
  intro y hy
  rw [hs, List.take_append_of_le_length (by omega)] at hy
  exact hxs y (List.mem_of_mem_take hy)

end Lines
