/-
  Taking from a list until a budget is used up.
-/
import Mathlib.Algebra.BigOperators.Group.List.Basic
import Mathlib.Algebra.Order.BigOperators.Group.List
import Mathlib.Algebra.Order.Ring.Nat

namespace Budget
variable {α : Type} (weight : α → ℕ)

/-- What the elements weigh together. -/
def total (l : List α) : ℕ := (l.map weight).sum

/-- The elements taken, one after another, while less than the budget is used. -/
def spend (budget : ℕ) : ℕ → List α → List α
  | _, [] => []
  | used, a :: as => if budget ≤ used then [] else a :: spend budget (used + weight a) as

variable {weight} {budget : ℕ}

@[simp] theorem total_nil : total weight [] = 0 := rfl

@[simp] theorem total_cons (a : α) (as : List α) :
    total weight (a :: as) = weight a + total weight as := by simp [total]

@[simp] theorem total_append (l l' : List α) :
    total weight (l ++ l') = total weight l + total weight l' := by simp [total]

variable (weight) in
theorem total_perm {l l' : List α} (h : l.Perm l') : total weight l = total weight l' :=
  (h.map weight).sum_eq

variable (weight) in
theorem total_sublist {l l' : List α} (h : l.Sublist l') : total weight l ≤ total weight l' :=
  (h.map weight).sum_le_sum fun _ _ => Nat.zero_le _

variable (weight) in
theorem total_sublist_of_notMem {l l' : List α} {a : α} (h : l'.Sublist l) (ha : a ∈ l)
    (ha' : a ∉ l') : total weight l' + weight a ≤ total weight l := by
  induction h with
  | slnil => cases ha
  | cons b h ih =>
    rw [total_cons]
    rcases List.mem_cons.1 ha with rfl | ha
    · have := total_sublist weight h; omega
    · have := ih ha ha'; omega
  | cons_cons b h ih =>
    rw [List.mem_cons, not_or] at ha'
    rw [total_cons, total_cons]
    have := ih ((List.mem_cons.1 ha).resolve_left ha'.1) ha'.2
    omega

variable (weight budget) in
theorem spend_initial (used : ℕ) (l : List α) : spend weight budget used l <+: l := by
  induction l generalizing used with
  | nil => exact List.prefix_rfl
  | cons a as ih =>
    rw [spend]
    split_ifs
    · exact List.nil_prefix
    · exact (List.prefix_cons_inj a).2 (ih _)

/-- All are taken exactly when the budget lasts up to the last. -/
theorem spend_eq_self {used : ℕ} {l : List α} :
    spend weight budget used l = l ↔ l = [] ∨ used + total weight l.dropLast < budget := by
  induction l generalizing used with
  | nil => simp [spend]
  | cons a as ih =>
    rw [spend]
    split_ifs with h
    · simp only [false_or, not_lt, false_iff]; omega
    · rw [List.cons.injEq, eq_self, true_and, ih]
      rcases as with _ | ⟨b, bs⟩
      · simp; omega
      · simp only [reduceCtorEq, false_or, List.dropLast_cons_cons, total_cons]; omega

/-- Where something is left, the budget is used up, and what follows does not matter. -/
theorem spend_append {used : ℕ} {l : List α} (h : budget ≤ used + total weight l) (l' : List α) :
    spend weight budget used (l ++ l') = spend weight budget used l := by
  induction l generalizing used with
  | nil =>
    rw [total_nil] at h
    cases l' with
    | nil => rfl
    | cons a as => rw [List.nil_append, spend, spend, if_pos (by omega)]
  | cons a as ih =>
    rw [total_cons] at h
    rw [List.cons_append, spend, spend, ih (by omega)]

theorem spend_ne_self {used : ℕ} {l : List α} (h : spend weight budget used l ≠ l) :
    budget ≤ used + total weight (spend weight budget used l) := by
  induction l generalizing used with
  | nil => exact absurd rfl h
  | cons a as ih =>
    rw [spend] at h ⊢
    split_ifs at h ⊢ with hb
    · rw [total_nil]; omega
    · have := @ih (used + weight a) fun he => h (by rw [he])
      rw [total_cons]; omega

/-- Before the last that is taken the budget is not used up. -/
theorem total_take_lt {used : ℕ} {l : List α} {k : ℕ}
    (hk : k < (spend weight budget used l).length) : used + total weight (l.take k) < budget := by
  induction l generalizing used k with
  | nil => cases hk
  | cons a as ih =>
    rw [spend] at hk
    split_ifs at hk with hb
    · cases hk
    · cases k with
      | zero => rw [List.take_zero, total_nil]; omega
      | succ k =>
        rw [List.length_cons] at hk
        have := @ih (used + weight a) k (by omega)
        rw [List.take_succ_cons, total_cons]
        omega

theorem spend_spend (used : ℕ) (l : List α) :
    spend weight budget used (spend weight budget used l) = spend weight budget used l := by
  induction l generalizing used with
  | nil => rfl
  | cons a as ih =>
    by_cases hb : budget ≤ used
    · rw [spend, if_pos hb]; rfl
    · rw [spend, if_neg hb, spend, if_neg hb, ih]

theorem total_map {β : Type} (f : β → α) (l : List β) :
    total weight (l.map f) = total (weight ∘ f) l := by rw [total, total, List.map_map]

theorem map_spend {β : Type} (f : β → α) (used : ℕ) (l : List β) :
    (spend (weight ∘ f) budget used l).map f = spend weight budget used (l.map f) := by
  induction l generalizing used with
  | nil => rfl
  | cons a as ih =>
    rw [spend, List.map_cons, spend]
    split_ifs
    · rfl
    · rw [List.map_cons, ih]; rfl

/-- A sublist with all of a prefix starts with that prefix. -/
theorem prefix_of_sublist {r l l' : List α} (hr : r <+: l) (hs : l'.Sublist l) (hm : r ⊆ l')
    (hn : l.Nodup) : r <+: l' := by
  induction r generalizing l l' with
  | nil => exact List.nil_prefix
  | cons a r ih =>
    obtain ⟨t, rfl⟩ := hr
    rw [List.cons_append] at hs hn
    obtain ⟨hna, hn⟩ := List.nodup_cons.1 hn
    cases hs with
    | cons _ hs => exact absurd (hs.subset (hm List.mem_cons_self)) hna
    | cons_cons _ hs =>
      refine (List.prefix_cons_inj a).2 (ih ⟨t, rfl⟩ hs (fun b hb => ?_) hn)
      rcases List.mem_cons.1 (hm (List.mem_cons_of_mem _ hb)) with rfl | hb'
      · exact absurd (List.mem_append_left t hb) hna
      · exact hb'

/-- **What is taken does not depend on what is missing from the rest.** -/
theorem spend_sublist {l l' : List α} (hs : l'.Sublist l)
    (hm : spend weight budget 0 l ⊆ l') (hn : l.Nodup) :
    spend weight budget 0 l' = spend weight budget 0 l := by
  obtain ⟨t, rfl⟩ := prefix_of_sublist (spend_initial weight budget 0 l) hs hm hn
  by_cases he : spend weight budget 0 l = l
  · have ht : t = [] := by
      have := hs.length_le
      rw [he, List.length_append] at this
      exact List.length_eq_zero_iff.1 (by omega)
    rw [ht, List.append_nil, spend_spend]
  · rw [spend_append (spend_ne_self he), spend_spend]

end Budget
