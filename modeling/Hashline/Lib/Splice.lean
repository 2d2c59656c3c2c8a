/-
  Editing a sequence of pieces: insertions between pieces and replacements of
  ranges of pieces, first as a meaning given piece by piece, then as one sweep
  over the operations in order.
-/
import Mathlib.Algebra.Ring.Nat
import Mathlib.Data.List.Sort
import Hashline.Lib.Lines

namespace Splice

variable {α : Type}

/-- Put `text` in the place of the pieces `first, …, last - 1`: an insertion before piece `first`
    when there are none. -/
structure Op (α : Type) where
  first : ℕ
  last : ℕ
  text : List α

namespace Op

def isInsertion (o : Op α) : Bool := o.first = o.last

/-- Piece `i` is among the replaced ones. -/
def covers (o : Op α) (i : ℕ) : Bool := o.first ≤ i ∧ i < o.last

/-- An insertion before piece `i`. -/
def insertsAt (i : ℕ) (o : Op α) : Bool := o.isInsertion && o.first = i

/-- A replacement whose first piece is `i`. -/
def replacesAt (i : ℕ) (o : Op α) : Bool := !o.isInsertion && o.first = i

theorem isInsertion_iff {o : Op α} : o.isInsertion = true ↔ o.first = o.last := decide_eq_true_iff

theorem covers_iff {o : Op α} {i : ℕ} : o.covers i = true ↔ o.first ≤ i ∧ i < o.last :=
  decide_eq_true_iff

theorem insertsAt_iff {o : Op α} {i : ℕ} :
    o.insertsAt i = true ↔ o.first = o.last ∧ o.first = i := by simp [insertsAt, isInsertion]

theorem replacesAt_iff {o : Op α} {i : ℕ} :
    o.replacesAt i = true ↔ o.first ≠ o.last ∧ o.first = i := by simp [replacesAt, isInsertion]

end Op

/-- What stands at piece `i` after the edit: the insertions there, the replacement starting there,
    and the piece itself unless it is replaced. -/
def piece (ls : List (List α)) (ops : List (Op α)) (i : ℕ) : List α :=
  (ops.filter (Op.insertsAt i)).flatMap Op.text ++ (ops.filter (Op.replacesAt i)).flatMap Op.text ++
    if ops.any fun o => o.covers i then [] else ls[i]?.getD []

/-- The edited sequence. -/
def edited (ls : List (List α)) (ops : List (Op α)) : List α :=
  (List.range (ls.length + 1)).flatMap (piece ls ops)

/-- The sweep: copy up to the next operation, put its text, and skip what it replaces. -/
def sweep (ls : List (List α)) : ℕ → List (Op α) → List α
  | m, [] => (ls.drop m).flatten
  | m, o :: ops => ((ls.take o.first).drop m).flatten ++ o.text ++
      sweep ls (if o.isInsertion then o.first else o.last) ops

/-- `p` may come after `o` in a sweep. -/
def After (o p : Op α) : Prop := if o.isInsertion then o.first ≤ p.first else o.last ≤ p.first

/-! ## The sweep computes the edit -/

theorem flatMap_congr {β γ : Type} {l : List β} {f g : β → List γ} (h : ∀ x ∈ l, f x = g x) :
    l.flatMap f = l.flatMap g := by
  rw [List.flatMap_def, List.flatMap_def, List.map_congr_left h]

theorem flatMap_nil {β γ : Type} {l : List β} {f : β → List γ} (h : ∀ x ∈ l, f x = []) :
    l.flatMap f = [] := List.flatMap_eq_nil_iff.2 h

theorem flatMap_pieces (ls : List (List α)) : ∀ k m,
    (List.range' m k).flatMap (fun i => ls[i]?.getD []) = ((ls.drop m).take k).flatten
  | 0, m => by simp
  | k + 1, m => by
    rw [List.range'_succ, List.flatMap_cons, flatMap_pieces ls k (m + 1)]
    by_cases hm : m < ls.length
    · rw [List.getElem?_eq_getElem hm, List.drop_eq_getElem_cons hm, List.take_succ_cons]; rfl
    · rw [List.getElem?_eq_none (by omega), List.drop_eq_nil_of_le (by omega),
        List.drop_eq_nil_of_le (by omega)]; simp

theorem piece_nil (ls : List (List α)) (i : ℕ) : piece ls [] i = ls[i]?.getD [] := by
  simp [piece]

/-- No operation starts at or before `i`: the piece is untouched. -/
theorem piece_before {ls : List (List α)} {ops : List (Op α)} {i : ℕ}
    (h : ∀ o ∈ ops, i < o.first) : piece ls ops i = ls[i]?.getD [] := by
  have h₁ : ops.filter (Op.insertsAt i) = [] := List.filter_eq_nil_iff.2 fun o ho => by
    have := h o ho; simp [Op.insertsAt]; omega
  have h₂ : ops.filter (Op.replacesAt i) = [] := List.filter_eq_nil_iff.2 fun o ho => by
    have := h o ho; simp [Op.replacesAt]; omega
  have h₃ : (ops.any fun o => o.covers i) = false := List.any_eq_false.2 fun o ho => by
    have := h o ho; simp [Op.covers]; omega
  simp [piece, h₁, h₂, h₃]

/-- An operation that neither starts at `i` nor replaces it does not matter there. -/
theorem piece_skip {ls : List (List α)} {o : Op α} {ops : List (Op α)} {i : ℕ}
    (h : o.first ≠ i) (hc : o.covers i = false) : piece ls (o :: ops) i = piece ls ops i := by
  simp [piece, Op.insertsAt, Op.replacesAt, h, hc]

theorem piece_insertion {ls : List (List α)} {o : Op α} {ops : List (Op α)}
    (h : o.isInsertion = true) : piece ls (o :: ops) o.first = o.text ++ piece ls ops o.first := by
  have hc : o.covers o.first = false := by
    simp [Op.isInsertion] at h; simp [Op.covers, h]
  simp [piece, Op.insertsAt, Op.replacesAt, h, hc]

/-- Where a replacement starts, and all that follows starts at its end or later, its text stands
    alone. -/
theorem piece_replacement {ls : List (List α)} {o : Op α} {ops : List (Op α)}
    (h : o.first < o.last) (hops : ∀ p ∈ ops, o.last ≤ p.first) :
    piece ls (o :: ops) o.first = o.text := by
  have hi : o.isInsertion = false := by simp [Op.isInsertion]; omega
  have hc : o.covers o.first = true := by simp [Op.covers, h]
  have h₁ : (o :: ops).filter (Op.insertsAt o.first) = [] := List.filter_eq_nil_iff.2 fun p hp => by
    rcases List.mem_cons.1 hp with rfl | hp
    · simp [Op.insertsAt, hi]
    · have := hops p hp; simp [Op.insertsAt]; omega
  have h₂ : ops.filter (Op.replacesAt o.first) = [] := List.filter_eq_nil_iff.2 fun p hp => by
    have := hops p hp; simp [Op.replacesAt]; omega
  rw [piece, h₁, List.filter_cons_of_pos (by simp [Op.replacesAt, hi]), h₂]
  simp [hc]

theorem piece_covered {ls : List (List α)} {o : Op α} {ops : List (Op α)} {i : ℕ}
    (h : o.first < i) (hi : i < o.last) (hops : ∀ p ∈ ops, o.last ≤ p.first) :
    piece ls (o :: ops) i = [] := by
  have h₁ : (o :: ops).filter (Op.insertsAt i) = [] := List.filter_eq_nil_iff.2 fun p hp => by
    rcases List.mem_cons.1 hp with rfl | hp
    · simp [Op.insertsAt]; omega
    · have := hops p hp; simp [Op.insertsAt]; omega
  have h₂ : (o :: ops).filter (Op.replacesAt i) = [] := List.filter_eq_nil_iff.2 fun p hp => by
    rcases List.mem_cons.1 hp with rfl | hp
    · simp [Op.replacesAt]; omega
    · have := hops p hp; simp [Op.replacesAt]; omega
  have hc : o.covers i = true := by simp [Op.covers]; omega
  rw [piece, h₁, h₂]; simp [hc]

theorem range'_split {m k n : ℕ} (h : m ≤ k) (hk : k ≤ n) :
    List.range' m (n - m) = List.range' m (k - m) ++ List.range' k (n - k) := by
  have := List.range'_append_1 (s := m) (m := k - m) (n := n - k)
  rw [show m + (k - m) = k by omega, show k - m + (n - k) = n - m by omega] at this
  exact this.symm

/-- **The sweep from piece `m` writes the edited pieces from `m` on**, for operations that start
    at `m` or later, each after the ones before it. -/
theorem sweep_eq (ls : List (List α)) : ∀ (ops : List (Op α)) (m : ℕ), m ≤ ls.length →
    ops.Pairwise After → (∀ o ∈ ops, m ≤ o.first ∧ o.first ≤ o.last ∧ o.last ≤ ls.length) →
    sweep ls m ops = (List.range' m (ls.length + 1 - m)).flatMap (piece ls ops)
  | [], m, hm, _, _ => by
    rw [flatMap_congr fun i _ => piece_nil ls i, flatMap_pieces, List.take_of_length_le (by simp; omega)]
    rfl
  | o :: ops, m, hm, hpw, hb => by
    obtain ⟨hmo, hol, hll⟩ := hb o List.mem_cons_self
    obtain ⟨ho, hpw⟩ := List.pairwise_cons.1 hpw
    have hfirst : ∀ p ∈ ops, o.first ≤ p.first := fun p hp => by
      have h := ho p hp; unfold After at h; split_ifs at h <;> omega
    -- the pieces before the operation are copied
    have hcopy : (List.range' m (o.first - m)).flatMap (piece ls (o :: ops)) =
        ((ls.take o.first).drop m).flatten := by
      rw [flatMap_congr (g := fun i => ls[i]?.getD []) fun i hi => piece_before fun p hp => ?_,
        flatMap_pieces, List.drop_take]
      rw [List.mem_range'_1] at hi
      rcases List.mem_cons.1 hp with rfl | hp
      · omega
      · have := hfirst p hp; omega
    rw [range'_split hmo (show o.first ≤ ls.length + 1 by omega), List.flatMap_append, hcopy, sweep,
      List.append_assoc]
    congr 1
    by_cases hi : o.isInsertion = true
    · have hrest := sweep_eq ls ops o.first (by omega) hpw fun p hp =>
        ⟨hfirst p hp, (hb p (List.mem_cons_of_mem _ hp)).2⟩
      rw [if_pos hi, hrest, show ls.length + 1 - o.first = ls.length - o.first + 1 by omega,
        List.range'_succ, List.flatMap_cons, List.flatMap_cons, piece_insertion hi, List.append_assoc]
      congr 2
      refine flatMap_congr fun i hi' => (piece_skip ?_ ?_).symm
      · rw [List.mem_range'_1] at hi'; omega
      · simp only [Op.isInsertion, decide_eq_true_eq] at hi; simp [Op.covers]; omega
    · have hlt : o.first < o.last := by simp only [Op.isInsertion, decide_eq_true_eq] at hi; omega
      have hlast : ∀ p ∈ ops, o.last ≤ p.first := fun p hp => by
        have h := ho p hp; rwa [After, if_neg hi] at h
      have hrest := sweep_eq ls ops o.last hll hpw fun p hp =>
        ⟨hlast p hp, (hb p (List.mem_cons_of_mem _ hp)).2⟩
      -- the replaced pieces after the first leave nothing
      have hgone : (List.range' (o.first + 1) (o.last - o.first - 1)).flatMap
          (piece ls (o :: ops)) = [] := flatMap_nil fun i hi' => by
        rw [List.mem_range'_1] at hi'; exact piece_covered (by omega) (by omega) hlast
      rw [if_neg hi, hrest, range'_split hol (show o.last ≤ ls.length + 1 by omega),
        List.flatMap_append, show o.last - o.first = o.last - o.first - 1 + 1 by omega,
        List.range'_succ, List.flatMap_cons, piece_replacement hlt hlast, hgone, List.append_nil]
      congr 1
      refine flatMap_congr fun i hi' => (piece_skip ?_ ?_).symm
      · rw [List.mem_range'_1] at hi'; omega
      · rw [List.mem_range'_1] at hi'; simp [Op.covers]; omega

theorem sweep_zero {ls : List (List α)} {ops : List (Op α)} (hpw : ops.Pairwise After)
    (hb : ∀ o ∈ ops, o.first ≤ o.last ∧ o.last ≤ ls.length) : sweep ls 0 ops = edited ls ops := by
  rw [sweep_eq ls ops 0 (Nat.zero_le _) hpw fun o ho => ⟨Nat.zero_le _, hb o ho⟩, edited,
    List.range_eq_range']; rfl

/-- What holds of the texts and of the pieces, and of concatenations of such, holds of the edited
    sequence. -/
theorem edited_induction {P : List α → Prop} (hnil : P []) (happ : ∀ xs ys, P xs → P ys → P (xs ++ ys))
    {ls : List (List α)} {ops : List (Op α)} (ht : ∀ o ∈ ops, P o.text) (hl : ∀ l ∈ ls, P l) :
    P (edited ls ops) := by
  have hflat : ∀ {β : Type} (l : List β) (f : β → List α), (∀ x ∈ l, P (f x)) → P (l.flatMap f) := by
    intro β l f h
    induction l with
    | nil => exact hnil
    | cons x l ih =>
      rw [List.flatMap_cons]
      exact happ _ _ (h x List.mem_cons_self) (ih fun y hy => h y (List.mem_cons_of_mem _ hy))
  refine hflat _ _ fun i _ => happ _ _ (happ _ _ (hflat _ _ fun o ho => ?_) (hflat _ _ fun o ho => ?_)) ?_
  · exact ht o (List.mem_of_mem_filter ho)
  · exact ht o (List.mem_of_mem_filter ho)
  · split_ifs
    · exact hnil
    · rcases h : ls[i]? with _ | l
      · exact hnil
      · exact hl l (List.mem_of_getElem? h)

/-! ## Lengths, and the order of the operations -/

/-- What an operation takes away, in elements. -/
def removed (ls : List (List α)) (o : Op α) : ℕ := Lines.start ls o.last - Lines.start ls o.first

theorem After.le {o p : Op α} (h : After o p) :
    (if o.isInsertion then o.first else o.last) ≤ p.first := by
  unfold After at h; split_ifs at h ⊢ <;> exact h

theorem After.last_le {o p : Op α} (h : After o p) : o.last ≤ p.first := by
  unfold After at h
  split_ifs at h with hi
  · rwa [← Op.isInsertion_iff.1 hi]
  · exact h

theorem length_sweep (ls : List (List α)) : ∀ (ops : List (Op α)) (m : ℕ),
    ops.Pairwise After → (∀ o ∈ ops, m ≤ o.first ∧ o.first ≤ o.last) →
    (sweep ls m ops).length + Lines.start ls m + (ops.map (removed ls)).sum =
      ls.flatten.length + (ops.map fun o => o.text.length).sum
  | [], m, _, _ => by
    have h := congrArg List.length (Lines.drop_start ls m)
    rw [List.length_drop] at h
    have hle := Lines.start_le ls m
    simp only [sweep, List.map_nil, List.sum_nil]; omega
  | o :: ops, m, hpw, hb => by
    obtain ⟨hmo, hol⟩ := hb o List.mem_cons_self
    obtain ⟨ho, hpw⟩ := List.pairwise_cons.1 hpw
    have hcopy := congrArg List.length (Lines.slice_start ls hmo)
    rw [List.length_drop, List.length_take, Nat.min_eq_left (Lines.start_le ls _)] at hcopy
    have hmo' := Lines.start_mono ls hmo
    have hol' := Lines.start_mono ls hol
    have hrest := length_sweep ls ops (if o.isInsertion then o.first else o.last) hpw fun p hp =>
      ⟨After.le (ho p hp), (hb p (List.mem_cons_of_mem _ hp)).2⟩
    have hgone : Lines.start ls (if o.isInsertion then o.first else o.last) =
        Lines.start ls o.first + removed ls o := by
      unfold removed
      split_ifs with hi
      · simp only [Op.isInsertion, decide_eq_true_eq] at hi; rw [← hi]; omega
      · omega
    simp only [sweep, List.length_append, List.map_cons, List.sum_cons]; omega

/-- All the texts are in the result. -/
theorem length_texts_le (ls : List (List α)) : ∀ (ops : List (Op α)) (m : ℕ),
    (ops.map fun o => o.text.length).sum ≤ (sweep ls m ops).length
  | [], m => Nat.zero_le _
  | o :: ops, m => by
    have := length_texts_le ls ops (if o.isInsertion then o.first else o.last)
    simp only [sweep, List.length_append, List.map_cons, List.sum_cons]; omega

/-- **The length of the edited sequence.** -/
theorem length_edited {ls : List (List α)} {ops : List (Op α)} (hpw : ops.Pairwise After)
    (hb : ∀ o ∈ ops, o.first ≤ o.last ∧ o.last ≤ ls.length) :
    (edited ls ops).length + (ops.map (removed ls)).sum =
      ls.flatten.length + (ops.map fun o => o.text.length).sum := by
  have h := length_sweep ls ops 0 hpw fun o ho => ⟨Nat.zero_le _, (hb o ho).1⟩
  rw [sweep_zero hpw hb] at h
  simpa using h

/-- Only the order among the operations at one piece matters. -/
theorem edited_congr (ls : List (List α)) {ops ops' : List (Op α)} (hp : ops.Perm ops')
    (hi : ∀ i, ops.filter (Op.insertsAt i) = ops'.filter (Op.insertsAt i))
    (hr : ∀ i, ops.filter (Op.replacesAt i) = ops'.filter (Op.replacesAt i)) :
    edited ls ops = edited ls ops' :=
  flatMap_congr fun i _ => by rw [piece, piece, hi, hr, hp.any_eq]

/-- Two operations that exclude each other: replacements of a common piece, or an insertion
    strictly inside a replacement. -/
def Clash (o p : Op α) : Prop :=
  (∃ i, o.covers i ∧ p.covers i) ∨
  (o.isInsertion ∧ !p.isInsertion ∧ p.first < o.first ∧ o.first < p.last) ∨
  (p.isInsertion ∧ !o.isInsertion ∧ o.first < p.first ∧ p.first < o.last)

theorem exists_covers_iff {o p : Op α} : (∃ i, o.covers i ∧ p.covers i) ↔
    o.first < o.last ∧ p.first < p.last ∧ o.first < p.last ∧ p.first < o.last := by
  simp only [Op.covers_iff]
  constructor
  · rintro ⟨i, h, h'⟩; omega
  · intro h; exact ⟨max o.first p.first, by omega⟩

theorem Clash.symm {o p : Op α} (h : Clash o p) : Clash p o := by
  rcases h with ⟨i, h, h'⟩ | h | h
  · exact .inl ⟨i, h', h⟩
  · exact .inr (.inr h)
  · exact .inr (.inl h)

/-- At one piece starts at most one of the replacements that do not clash, so that their order does
    not matter there. -/
theorem filter_replacesAt_perm {ops ops' : List (Op α)} (hp : ops.Perm ops')
    (hb : ∀ o ∈ ops, o.first ≤ o.last) (hc : ops.Pairwise fun o p => ¬Clash o p) (i : ℕ) :
    ops.filter (Op.replacesAt i) = ops'.filter (Op.replacesAt i) := by
  have hone : ∀ us : List (Op α), ops.Perm us →
      (us.filter (Op.replacesAt i)).Pairwise fun _ _ => False := by
    intro us hus
    have hcu := hc.perm hus fun h h' => h h'.symm
    have hat : ∀ o ∈ us.filter (Op.replacesAt i), o.covers i := by
      intro o ho
      obtain ⟨ho, hr⟩ := List.mem_filter.1 ho
      have hle := hb o (hus.mem_iff.2 ho)
      rw [Op.replacesAt_iff] at hr
      rw [Op.covers_iff]
      omega
    exact (hcu.filter _).imp_of_mem fun ho hq hn => hn (.inl ⟨i, hat _ ho, hat _ hq⟩)
  exact @List.Perm.eq_of_pairwise _ (fun _ _ => False) _ _ (fun _ _ _ _ h => h.elim)
    (hone _ (.refl ops)) (hone _ hp) (hp.filter _)

/-- In order of their first pieces, insertions first, operations that do not clash follow one
    another. -/
theorem after_of_not_clash {o p : Op α} (hp : p.first ≤ p.last)
    (h : ¬Clash o p) (hle : o.first ≤ p.first)
    (heq : o.first = p.first → o.isInsertion = false → p.isInsertion = false) : After o p := by
  unfold After
  split_ifs with hi
  · exact hle
  · simp only [Op.isInsertion, decide_eq_true_eq, decide_eq_false_iff_not] at hi heq
    by_contra hlt
    refine h ?_
    by_cases hpi : p.first = p.last
    · have hne : o.first ≠ p.first := fun he => heq he hi hpi
      exact .inr (.inr ⟨by simp [Op.isInsertion, hpi], by simp [Op.isInsertion, hi], by omega, by omega⟩)
    · refine .inl ⟨p.first, ?_, ?_⟩ <;> simp [Op.covers] <;> omega

/-! ## One operation after the others -/

/-- What a sweep copies first. -/
theorem sweep_from (ls : List (List α)) {ops : List (Op α)} {m : ℕ} (h : ∀ o ∈ ops, m ≤ o.first) :
    sweep ls 0 ops = (ls.take m).flatten ++ sweep ls m ops := by
  cases ops with
  | nil => rw [sweep, sweep, List.drop_zero, ← List.flatten_append, List.take_append_drop]
  | cons o ops =>
    rw [sweep, sweep, List.drop_zero, Lines.take_flatten ls (h o List.mem_cons_self), List.append_assoc,
      List.append_assoc, List.append_assoc]

/-- Operations past the last piece put their texts there. -/
theorem sweep_past (ls : List (List α)) {ops : List (Op α)}
    (h : ∀ o ∈ ops, o.first = ls.length ∧ o.last = ls.length) :
    sweep ls ls.length ops = ops.flatMap Op.text := by
  induction ops with
  | nil => rw [sweep, List.drop_length, List.flatten_nil, List.flatMap_nil]
  | cons o ops ih =>
    obtain ⟨hf, hl⟩ := h o List.mem_cons_self
    rw [sweep, hf, hl, ite_self, ih fun p hp => h p (List.mem_cons_of_mem _ hp), List.take_length,
      List.drop_length, List.flatten_nil, List.nil_append, List.flatMap_cons]

theorem edited_past (ls : List (List α)) {ops : List (Op α)} (hpw : ops.Pairwise After)
    (h : ∀ o ∈ ops, o.first = ls.length ∧ o.last = ls.length) :
    edited ls ops = ls.flatten ++ ops.flatMap Op.text := by
  rw [← sweep_zero hpw fun o ho => ⟨(h o ho).1.trans_le (h o ho).2.ge, (h o ho).2.le⟩,
    sweep_from ls fun o ho => (h o ho).1.ge, sweep_past ls h, List.take_length]

/-- **The first operation can be done last**: on pieces that the others make, where it leaves those up to
    its end as they are. -/
theorem edited_cons {ls ls' : List (List α)} {o : Op α} {ops : List (Op α)}
    (hpw : (o :: ops).Pairwise After) (hb : ∀ p ∈ o :: ops, p.first ≤ p.last ∧ p.last ≤ ls.length)
    (htake : ls'.take o.last = ls.take o.last) (hflat : ls'.flatten = edited ls ops) :
    edited ls' [o] = edited ls (o :: ops) := by
  obtain ⟨hafter, hpw'⟩ := List.pairwise_cons.1 hpw
  obtain ⟨hle, hlast⟩ := hb o List.mem_cons_self
  have hend : (if o.isInsertion then o.first else o.last) = o.last := by
    split_ifs with hi
    · exact Op.isInsertion_iff.1 hi
    · rfl
  have hlater : ∀ p ∈ ops, o.last ≤ p.first := fun p hp => (hafter p hp).last_le
  have hlen : o.last ≤ ls'.length := by
    have := congrArg List.length htake
    rw [List.length_take, List.length_take] at this
    omega
  have hfirst : ls'.take o.first = ls.take o.first := by
    have := congrArg (List.take o.first) htake
    rwa [List.take_take, List.take_take, Nat.min_eq_left hle] at this
  -- what follows the operation is what the sweep over the others writes from its end on
  have hrest : (ls'.drop o.last).flatten = sweep ls o.last ops := by
    rw [← sweep_zero hpw' fun p hp => hb p (List.mem_cons_of_mem _ hp), sweep_from ls hlater, ← htake,
      ← List.take_append_drop o.last ls', List.flatten_append, List.take_append_drop] at hflat
    exact List.append_cancel_left hflat
  rw [← sweep_zero (List.pairwise_singleton _ _) (by simpa using ⟨hle, hlen⟩), ← sweep_zero hpw hb, sweep,
    sweep, sweep, hend, hrest, hfirst]

/-! ## Texts of another kind -/

section
variable {β : Type}

/-- The same place with another text. -/
def Op.withText (o : Op α) (text : List β) : Op β := ⟨o.first, o.last, text⟩

theorem piece_withText (f : List α → List β) (hnil : f [] = []) (happ : ∀ xs ys, f (xs ++ ys) = f xs ++ f ys)
    (ls : List (List α)) (ops : List (Op α)) (i : ℕ) :
    piece (ls.map f) (ops.map fun o => o.withText (f o.text)) i = f (piece ls ops i) := by
  have htexts : ∀ os : List (Op α), (os.map fun o => o.withText (f o.text)).flatMap Op.text =
      f (os.flatMap Op.text) := by
    intro os
    induction os with
    | nil => exact hnil.symm
    | cons o os ih =>
      rw [List.map_cons, List.flatMap_cons, List.flatMap_cons, happ, ih]
      rfl
  have hcovers : (ops.map fun o => o.withText (f o.text)).any (fun o => o.covers i) =
      ops.any fun o => o.covers i := by
    rw [List.any_map]
    rfl
  have hpiece : (if ops.any fun o => o.covers i then [] else (ls.map f)[i]?.getD []) =
      f (if ops.any fun o => o.covers i then [] else ls[i]?.getD []) := by
    split_ifs
    · exact hnil.symm
    · rw [List.getElem?_map]
      rcases ls[i]? with _ | l
      · exact hnil.symm
      · rfl
  rw [piece, piece, happ, happ, List.filter_map, List.filter_map, htexts, htexts, hcovers, hpiece]
  rfl

/-- **Editing commutes with every reading of the pieces** that concatenation respects. -/
theorem edited_withText (f : List α → List β) (hnil : f [] = [])
    (happ : ∀ xs ys, f (xs ++ ys) = f xs ++ f ys) (ls : List (List α)) (ops : List (Op α)) :
    edited (ls.map f) (ops.map fun o => o.withText (f o.text)) = f (edited ls ops) := by
  have hflat : ∀ is : List ℕ, is.flatMap (fun i => f (piece ls ops i)) = f (is.flatMap (piece ls ops)) := by
    intro is
    induction is with
    | nil => exact hnil.symm
    | cons i is ih => rw [List.flatMap_cons, List.flatMap_cons, happ, ih]
  rw [edited, edited, List.length_map, ← hflat]
  exact flatMap_congr fun i _ => piece_withText f hnil happ ls ops i

/-- What a sweep ends with: the last piece, or the last of the text that replaces it. -/
theorem sweep_ends {P Q : α → Prop} {init : List (List α)} {l : α} (hinit : ∀ xs ∈ init, ∀ x ∈ xs, P x)
    (hl : Q l) : ∀ (ops : List (Op α)) (m : ℕ), ops.Pairwise After →
      (∀ o ∈ ops, m ≤ o.first ∧ o.first ≤ o.last ∧ o.first ≤ init.length ∧
        (o.last ≤ init.length ∧ (∀ x ∈ o.text, P x) ∨ o.last = init.length + 1 ∧ Lines.Ends P Q o.text)) →
      m ≤ init.length → Lines.Ends P Q (sweep (init ++ [[l]]) m ops)
  | [], m, _, _, hm => by
    refine ⟨(init.drop m).flatten, l, ?_, fun x hx => ?_, hl⟩
    · rw [sweep, List.drop_append_of_le_length hm, List.flatten_append]
      rfl
    · obtain ⟨xs, hxs, hx⟩ := List.mem_flatten.1 hx
      exact hinit xs (List.mem_of_mem_drop hxs) x hx
  | o :: ops, m, hpw, ho, hm => by
    obtain ⟨hafter, hpw⟩ := List.pairwise_cons.1 hpw
    obtain ⟨hmo, hle, hfirst, hlast⟩ := ho o List.mem_cons_self
    have hcopied : ∀ x ∈ (((init ++ [[l]]).take o.first).drop m).flatten, P x := by
      intro x hx
      rw [List.take_append_of_le_length hfirst] at hx
      obtain ⟨xs, hxs, hx⟩ := List.mem_flatten.1 hx
      exact hinit xs (List.mem_of_mem_take (List.mem_of_mem_drop hxs)) x hx
    rw [sweep, List.append_assoc]
    refine Lines.Ends.append hcopied ?_
    rcases hlast with ⟨hlast, htext⟩ | ⟨hlast, htext⟩
    · refine Lines.Ends.append htext (sweep_ends hinit hl ops _ hpw (fun p hp => ?_) ?_)
      · exact ⟨After.le (hafter p hp), (ho p (List.mem_cons_of_mem _ hp)).2⟩
      · split_ifs <;> assumption
    · -- nothing starts after the end
      have hnot : o.isInsertion = false := by simp [Op.isInsertion]; omega
      obtain rfl : ops = [] := List.eq_nil_iff_forall_not_mem.2 fun p hp => by
        have hp' := After.le (hafter p hp)
        rw [hnot] at hp'
        have := (ho p (List.mem_cons_of_mem _ hp)).2.2.1
        simp only [Bool.false_eq_true, if_false] at hp'
        omega
      have hrest : sweep (init ++ [[l]]) o.last [] = [] := by
        rw [sweep, hlast, List.drop_eq_nil_of_le (by simp), List.flatten_nil]
      rwa [hnot, if_neg (by decide), hrest, List.append_nil]

end

end Splice
