/-
  Windows of naturals, merged in the order of their starts into spans that
  stand apart.
-/
import Mathlib.Data.List.Induction
import Mathlib.Data.List.Sort

namespace Spans

/-- One window, merged into the last span where they touch. -/
def push (spans : List (ℕ × ℕ)) (start end_ : ℕ) : List (ℕ × ℕ) :=
  match spans.getLast? with
  | some last =>
    if start ≤ last.2 then spans.dropLast ++ [(last.1, max last.2 end_)]
    else spans ++ [(start, end_)]
  | none => [(start, end_)]

def merge (windows : List (ℕ × ℕ)) : List (ℕ × ℕ) :=
  windows.foldl (fun spans w => push spans w.1 w.2) []

/-- Some span has `i`. -/
def Holds (spans : List (ℕ × ℕ)) (i : ℕ) : Prop := ∃ s ∈ spans, s.1 ≤ i ∧ i < s.2

/-- Spans cut off at `n`. -/
def clip (n : ℕ) (spans : List (ℕ × ℕ)) : List (ℕ × ℕ) := spans.map fun s => (s.1, min s.2 n)

/-- What the spans have, in order. -/
def members (spans : List (ℕ × ℕ)) : List ℕ := spans.flatMap fun s => List.range' s.1 (s.2 - s.1)

/-- The windows merged: spans that are not empty and do not touch. -/
structure Merged (windows spans : List (ℕ × ℕ)) : Prop where
  apart : spans.Pairwise fun a b => a.2 < b.1
  holds : ∀ i, Holds spans i ↔ Holds windows i
  filled : ∀ s ∈ spans, s.1 < s.2
  starts : ∀ s ∈ spans, ∃ w ∈ windows, w.1 = s.1

variable {windows spans : List (ℕ × ℕ)} {w : ℕ × ℕ}

@[simp] theorem holds_nil {i : ℕ} : ¬Holds [] i := by simp [Holds]

@[simp] theorem holds_append {spans' : List (ℕ × ℕ)} {i : ℕ} :
    Holds (spans ++ spans') i ↔ Holds spans i ∨ Holds spans' i := by
  simp only [Holds, List.mem_append]
  constructor
  · rintro ⟨s, hs | hs, hi⟩
    · exact .inl ⟨s, hs, hi⟩
    · exact .inr ⟨s, hs, hi⟩
  · rintro (⟨s, hs, hi⟩ | ⟨s, hs, hi⟩)
    · exact ⟨s, .inl hs, hi⟩
    · exact ⟨s, .inr hs, hi⟩

@[simp] theorem holds_singleton {s : ℕ × ℕ} {i : ℕ} : Holds [s] i ↔ s.1 ≤ i ∧ i < s.2 := by
  simp [Holds]

theorem push_concat (init : List (ℕ × ℕ)) (last : ℕ × ℕ) (start end_ : ℕ) :
    push (init ++ [last]) start end_ =
      if start ≤ last.2 then init ++ [(last.1, max last.2 end_)]
      else init ++ [last] ++ [(start, end_)] := by
  simp [push]

theorem merge_concat (ws : List (ℕ × ℕ)) (w : ℕ × ℕ) :
    merge (ws ++ [w]) = push (merge ws) w.1 w.2 := by
  rw [merge, List.foldl_append]
  rfl

theorem clip_concat (n : ℕ) (ws : List (ℕ × ℕ)) (w : ℕ × ℕ) :
    clip n (ws ++ [w]) = clip n ws ++ [(w.1, min w.2 n)] := by
  rw [clip, List.map_append]
  rfl

/-- What starts where a window starts. -/
theorem Merged.starts_append (h : Merged windows spans) (w : ℕ × ℕ) :
    ∀ s ∈ spans, ∃ v ∈ windows ++ [w], v.1 = s.1 := by
  intro s hs
  obtain ⟨v, hv, he⟩ := h.starts s hs
  exact ⟨v, List.mem_append_left _ hv, he⟩

/-- One more window, which touches no span. -/
theorem Merged.snoc (h : Merged windows spans) (hw : w.1 < w.2) (hafter : ∀ s ∈ spans, s.2 < w.1) :
    Merged (windows ++ [w]) (spans ++ [w]) := by
  refine ⟨?_, fun i => ?_, ?_, ?_⟩
  · refine List.pairwise_append.2 ⟨h.apart, List.pairwise_singleton _ _, fun s hs v hv => ?_⟩
    rw [List.mem_singleton.1 hv]
    exact hafter s hs
  · rw [holds_append, holds_append, h.holds]
  · exact List.forall_mem_append.2 ⟨h.filled, List.forall_mem_singleton.2 hw⟩
  · exact List.forall_mem_append.2 ⟨h.starts_append w, List.forall_mem_singleton.2 ⟨w, by simp, rfl⟩⟩

/-- One more window, which touches the last span. -/
theorem Merged.extend {init : List (ℕ × ℕ)} {last : ℕ × ℕ} (h : Merged windows (init ++ [last]))
    (hle : last.1 ≤ w.1) (ht : w.1 ≤ last.2) :
    Merged (windows ++ [w]) (init ++ [(last.1, max last.2 w.2)]) := by
  obtain ⟨hinit, -, hbefore⟩ := List.pairwise_append.1 h.apart
  obtain ⟨hfilled, hlast⟩ := List.forall_mem_append.1 h.filled
  obtain ⟨hstarts, hstart⟩ := List.forall_mem_append.1 (h.starts_append w)
  refine ⟨List.pairwise_append.2 ⟨hinit, List.pairwise_singleton _ _, ?_⟩, fun i => ?_, ?_, ?_⟩
  · simpa using hbefore
  · have hfilled := hlast last List.mem_cons_self
    have hall : Holds (windows ++ [w]) i ↔ Holds (init ++ [last]) i ∨ Holds [w] i := by
      rw [holds_append, ← h.holds]
    rw [hall, holds_append, holds_append, or_assoc, holds_singleton, holds_singleton, holds_singleton]
    refine or_congr_right ?_
    simp only
    omega
  · refine List.forall_mem_append.2 ⟨hfilled, List.forall_mem_singleton.2 ?_⟩
    exact (hlast last List.mem_cons_self).trans_le (Nat.le_max_left _ _)
  · refine List.forall_mem_append.2 ⟨hstarts, List.forall_mem_singleton.2 ?_⟩
    exact hstart last List.mem_cons_self

/-- One more window, which starts where the others do or later. -/
theorem Merged.push (h : Merged windows spans) (hw : w.1 < w.2) (hle : ∀ v ∈ windows, v.1 ≤ w.1) :
    Merged (windows ++ [w]) (push spans w.1 w.2) := by
  rcases spans.eq_nil_or_concat' with rfl | ⟨init, last, rfl⟩
  · exact h.snoc hw fun s hs => absurd hs List.not_mem_nil
  have hlast : last.1 ≤ w.1 := by
    obtain ⟨v, hv, he⟩ := h.starts last (by simp)
    exact he ▸ hle v hv
  rw [push_concat]
  split_ifs with ht
  · exact h.extend hlast ht
  · refine h.snoc hw fun s hs => ?_
    rcases List.mem_append.1 hs with hs | hs
    · -- the spans before the last end before it starts
      have hend := (List.pairwise_append.1 h.apart).2.2 s hs last (by simp)
      exact hend.trans_le hlast
    · rw [List.mem_singleton.1 hs]
      exact not_le.1 ht

/-- **Windows in the order of their starts are merged.** -/
theorem merge_merged (hs : windows.Pairwise fun a b => a.1 ≤ b.1) (hf : ∀ w ∈ windows, w.1 < w.2) :
    Merged windows (merge windows) := by
  induction windows using List.reverseRecOn with
  | nil => exact ⟨List.Pairwise.nil, fun _ => Iff.rfl, by simp [merge], by simp [merge]⟩
  | append_singleton ws w ih =>
    obtain ⟨hws, -, hle⟩ := List.pairwise_append.1 hs
    rw [merge_concat]
    exact (ih hws fun v hv => hf v (List.mem_append_left _ hv)).push (hf w (by simp))
      fun v hv => hle v hv w (by simp)

/-- Spans that start below the bound stay apart, and not empty, when they are cut off there. -/
theorem Merged.clip {n : ℕ} (h : Merged windows spans) (hn : ∀ w ∈ windows, w.1 < n) :
    (clip n spans).Pairwise (fun a b => a.2 < b.1) ∧
    (∀ i, Holds (clip n spans) i ↔ i < n ∧ Holds windows i) ∧
    ∀ s ∈ clip n spans, s.1 < s.2 ∧ s.2 ≤ n := by
  refine ⟨?_, fun i => ?_, fun s hs => ?_⟩
  · rw [Spans.clip, List.pairwise_map]
    exact h.apart.imp fun hab => (Nat.min_le_left _ _).trans_lt hab
  · rw [← h.holds]
    simp only [Holds, Spans.clip, List.mem_map]
    constructor
    · rintro ⟨_, ⟨s, hs, rfl⟩, h₁, h₂⟩
      exact ⟨by omega, s, hs, h₁, by omega⟩
    · rintro ⟨hi, s, hs, h₁, h₂⟩
      exact ⟨_, ⟨s, hs, rfl⟩, h₁, by omega⟩
  · obtain ⟨t, ht, rfl⟩ := List.mem_map.1 hs
    obtain ⟨w, hw, he⟩ := h.starts t ht
    have hfilled := h.filled t ht
    have hbelow := hn w hw
    simp only
    omega

theorem clip_push {n start end_ : ℕ} (h : start ≤ n) (spans : List (ℕ × ℕ)) :
    clip n (push spans start end_) = push (clip n spans) start (min end_ n) := by
  rcases spans.eq_nil_or_concat' with rfl | ⟨init, last, rfl⟩
  · rfl
  · -- a window touches the last span where it touches what is left of it below the bound
    have htouch : start ≤ min last.2 n ↔ start ≤ last.2 := by omega
    rw [push_concat, clip_concat, push_concat]
    simp only [htouch]
    split_ifs
    · rw [clip_concat, Nat.min_max_distrib_right]
    · rw [clip_concat, clip_concat]

/-- **Windows that start up to the bound are merged alike**, be they cut off before or after. -/
theorem merge_clip {n : ℕ} (h : ∀ w ∈ windows, w.1 ≤ n) :
    merge (clip n windows) = clip n (merge windows) := by
  induction windows using List.reverseRecOn with
  | nil => rfl
  | append_singleton ws w ih =>
    have hws := ih fun v hv => h v (List.mem_append_left _ hv)
    have hw : w.1 ≤ n := h w (by simp)
    calc merge (clip n (ws ++ [w]))
        = push (merge (clip n ws)) w.1 (min w.2 n) := by rw [clip_concat, merge_concat]
      _ = push (clip n (merge ws)) w.1 (min w.2 n) := by rw [hws]
      _ = clip n (push (merge ws) w.1 w.2) := (clip_push hw _).symm
      _ = clip n (merge (ws ++ [w])) := by rw [merge_concat]

/-- Where a span ends, there is no other. -/
theorem not_holds_end (h : spans.Pairwise fun a b => a.2 < b.1) (hf : ∀ s ∈ spans, s.1 < s.2)
    {s : ℕ × ℕ} (hs : s ∈ spans) : ¬Holds spans s.2 := by
  obtain ⟨pre, post, rfl⟩ := List.append_of_mem hs
  obtain ⟨-, hpost, hpre⟩ := List.pairwise_append.1 h
  have hfilled := hf s hs
  rintro ⟨t, ht, h₁, h₂⟩
  rcases List.mem_append.1 ht with ht | ht
  · have := hpre t ht s List.mem_cons_self
    omega
  · rcases List.mem_cons.1 ht with rfl | ht
    · exact absurd h₂ (lt_irrefl _)
    · exact absurd ((List.pairwise_cons.1 hpost).1 t ht) (not_lt.2 h₁)

theorem mem_members {i : ℕ} : i ∈ members spans ↔ Holds spans i := by
  simp only [members, List.mem_flatMap, List.mem_range'_1, Holds]
  refine exists_congr fun s => and_congr_right fun _ => ?_
  omega

theorem members_sorted (h : spans.Pairwise fun a b => a.2 < b.1) :
    (members spans).Pairwise (· < ·) := by
  rw [members, List.pairwise_flatMap]
  refine ⟨fun s _ => List.pairwise_lt_range', h.imp fun {a b} hab x hx y hy => ?_⟩
  rw [List.mem_range'_1] at hx hy
  omega

/-- **What the spans have**, found one by one. -/
theorem members_eq_filter (h : spans.Pairwise fun a b => a.2 < b.1) {n : ℕ} {p : ℕ → Prop}
    [DecidablePred p] (hp : ∀ i, Holds spans i ↔ i < n ∧ p i) :
    members spans = (List.range n).filter fun i => p i := by
  refine (members_sorted h).eq_of_mem_iff (List.pairwise_lt_range.filter _) fun i => ?_
  rw [mem_members, hp, List.mem_filter, List.mem_range, decide_eq_true_iff]

end Spans
