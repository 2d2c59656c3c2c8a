/-
  A batch as a whole: rearranging it changes nothing but the order of the
  insertions at one boundary, and its lengths are accounted for exactly.
-/
import Hashline.Engine

namespace Hashline

open Machine

variable {contentId : Bytes → SnapshotId} {source : Bytes} {ops ops' : List EditOperation}

/-! ## Rearranged batches -/

/-- An insertion at the complete position `p`. -/
def EditOperation.insertsAt (p : Position) (operation : EditOperation) : Bool :=
  operation.start = p ∧ operation.end_ = p

/-- The same operations in another order, the insertions at each position in the same order. -/
structure Rearranged (ops ops' : List EditOperation) : Prop where
  perm : ops.Perm ops'
  insertions : ∀ p, ops.filter (EditOperation.insertsAt p) = ops'.filter (EditOperation.insertsAt p)

theorem Rearranged.symm (h : Rearranged ops ops') : Rearranged ops' ops :=
  ⟨h.perm.symm, fun p => (h.insertions p).symm⟩

/-- Boundaries of one line are the same position. -/
theorem Boundary.eq_of_line {p q : Position} (hp : Boundary source p) (hq : Boundary source q)
    (h : p.line = q.line) : p = q :=
  Position.ext h (by rw [hp.byte_eq, hq.byte_eq, h])

/-- Between boundaries, inserting before the line of `p` is inserting at `p`. -/
theorem EditOperation.onLines_insertsAt {o : EditOperation} {p : Position}
    (hs : Boundary source o.start) (he : Boundary source o.end_) (hp : Boundary source p) :
    o.onLines.insertsAt (p.line - 1) = o.insertsAt p := by
  have hs' := o.start.line_ne
  have he' := o.end_.line_ne
  have hp' := p.line_ne
  rw [Bool.eq_iff_iff, Splice.Op.insertsAt_iff, insertsAt, decide_eq_true_iff]
  constructor
  · rintro ⟨hi, hl⟩
    change o.start.line - 1 = o.end_.line - 1 at hi
    change o.start.line - 1 = p.line - 1 at hl
    exact ⟨hs.eq_of_line hp (by omega), he.eq_of_line hp (by omega)⟩
  · rintro ⟨h₁, h₂⟩
    exact ⟨congrArg (·.line - 1) (h₁.trans h₂.symm), congrArg (·.line - 1) h₁⟩

/-- At every line the insertions of rearranged batches are the same, in the same order. -/
theorem Rearranged.onLines_insertsAt (h : Rearranged ops ops') (hr : Resolves source ops) (i : ℕ) :
    (ops.map EditOperation.onLines).filter (Splice.Op.insertsAt i) =
      (ops'.map EditOperation.onLines).filter (Splice.Op.insertsAt i) := by
  rw [List.filter_map, List.filter_map]
  refine congrArg _ ?_
  by_cases hex : ∃ o ∈ ops, o.onLines.insertsAt i = true
  · obtain ⟨o, ho, hi⟩ := hex
    have hp := (hr o ho).2.1
    have hat : ∀ q ∈ ops, q.onLines.insertsAt i = q.insertsAt o.start := by
      intro q hq
      rw [← (Splice.Op.insertsAt_iff.1 hi).2]
      exact EditOperation.onLines_insertsAt (hr q hq).2.1 (hr q hq).2.2.1 hp
    calc ops.filter (fun q => q.onLines.insertsAt i)
        = ops.filter (EditOperation.insertsAt o.start) := List.filter_congr hat
      _ = ops'.filter (EditOperation.insertsAt o.start) := h.insertions o.start
      _ = ops'.filter (fun q => q.onLines.insertsAt i) :=
          List.filter_congr fun q hq => (hat q (h.perm.mem_iff.2 hq)).symm
  · -- no batch inserts there
    have hnone : ∀ us : List EditOperation, (∀ o ∈ us, o ∈ ops) →
        us.filter (fun q => q.onLines.insertsAt i) = [] := by
      intro us hus
      rw [List.filter_eq_nil_iff]
      intro o ho hi
      exact hex ⟨o, hus o ho, hi⟩
    exact (hnone ops fun _ ho => ho).trans (hnone ops' fun _ ho => h.perm.mem_iff.2 ho).symm

/-- **Rearranged batches edit a text alike.** -/
theorem Rearranged.edited_eq (h : Rearranged ops ops') (hr : Resolves source ops)
    (hc : ops.Pairwise fun o p => ¬Splice.Clash o.onLines p.onLines) :
    edited source ops = edited source ops' := by
  refine Splice.edited_congr (lines source) (h.perm.map _) (h.onLines_insertsAt hr) fun i => ?_
  refine Splice.filter_replacesAt_perm (h.perm.map _) (fun o ho => ?_) (List.pairwise_map.2 hc) i
  obtain ⟨p, hp, rfl⟩ := List.mem_map.1 ho
  exact Nat.sub_le_sub_right (hr p hp).2.2.2 1

theorem Accepts.resolves (h : Accepts source ops) : Resolves source ops :=
  fun o ho => ⟨h.contents o ho, h.boundaries o ho⟩

theorem Rearranged.accepts (h : Rearranged ops ops') (ha : Accepts source ops) :
    Accepts source ops' := by
  have hmem : ∀ {o}, o ∈ ops' → o ∈ ops := fun ho => h.perm.mem_iff.2 ho
  have hc := pairwise_not_clash_iff.2 ⟨ha.covered, ha.inside⟩
  refine ⟨?_, ha.text, fun o ho => ha.boundaries o (hmem ho), fun o ho => ha.contents o (hmem ho),
    ha.covered.perm h.perm fun hn i hi => hn i hi.symm,
    fun o ho p hp => ha.inside o (hmem ho) p (hmem hp), ?_⟩
  · rw [← h.perm.length_eq]; exact ha.count
  · rw [← h.edited_eq ha.resolves hc]; exact ha.size

/-- The reference model on a rearranged batch. -/
theorem Rearranged.reference (h : Rearranged ops ops') {out : Bytes}
    (hout : applyReferenceEdits source ops = .ok out) : applyReferenceEdits source ops' = .ok out := by
  obtain ⟨ha, rfl⟩ := applyReferenceEdits_eq_ok.1 hout
  have hc := pairwise_not_clash_iff.2 ⟨ha.covered, ha.inside⟩
  exact applyReferenceEdits_eq_ok.2 ⟨h.accepts ha, h.edited_eq ha.resolves hc⟩

/-- **The order of a batch does not matter** but for the insertions at one position, in the
    reference model and in the fast engine. -/
theorem apply_rearranged (h : Rearranged ops ops') (source : Bytes) (granted granted' : Bool)
    (snapshot : Snapshot contentId) (request : EditRequest) (out : Bytes) :
    (applyReferenceEdits source ops = .ok out ↔ applyReferenceEdits source ops' = .ok out) ∧
    (applyEditsFast granted snapshot { request with edits := ops } = .ok out ↔
      applyEditsFast granted' snapshot { request with edits := ops' } = .ok out) := by
  have hiff : ∀ source, applyReferenceEdits source ops = .ok out ↔
      applyReferenceEdits source ops' = .ok out :=
    fun _ => ⟨h.reference, h.symm.reference⟩
  refine ⟨hiff source, ?_⟩
  rw [applyEditsFast_eq_ok, applyEditsFast_eq_ok]
  exact and_congr_right fun _ => hiff snapshot.bytes

/-- Two insertions at the start of a line and its replacement, in any place among them: the batch is
    accepted, and the insertions stand before the replacement in their order. -/
theorem apply_rearranged_line :
    let p : Position := ⟨1, 0, by decide, by decide, by decide⟩
    let q : Position := ⟨2, 2, by decide, by decide, by decide⟩
    let ops : List EditOperation := [.replace p p ⟨[98], by decide⟩, .replace p q ⟨[99], by decide⟩,
      .replace p p ⟨[100], by decide⟩]
    let ops' : List EditOperation := [.replace p q ⟨[99], by decide⟩, .replace p p ⟨[98], by decide⟩,
      .replace p p ⟨[100], by decide⟩]
    let snapshot : Snapshot fun _ => ⟨0⟩ := .ofText ⟨[97, 10], by decide⟩ none
    applyReferenceEdits [97, 10] ops = .ok [98, 100, 99] ∧
    applyReferenceEdits [97, 10] ops' = .ok [98, 100, 99] ∧
    applyEditsFast true snapshot ⟨"f", ⟨0⟩, ops⟩ = .ok [98, 100, 99] ∧
    applyEditsFast false snapshot ⟨"f", ⟨0⟩, ops'⟩ = .ok [98, 100, 99] := by
  intro p q ops ops' snapshot
  have hre : Rearranged ops ops' := by
    refine ⟨by decide, fun r => ?_⟩
    by_cases hr : p = r
    · subst hr; decide
    · simp [ops, ops', EditOperation.insertsAt, hr, EditOperation.start]
  obtain ⟨href, hfast⟩ := apply_rearranged hre [97, 10] true false snapshot ⟨"f", ⟨0⟩, []⟩
    [98, 100, 99]
  have hok : applyReferenceEdits [97, 10] ops = .ok [98, 100, 99] := by decide
  have hok' : applyEditsFast true snapshot ⟨"f", ⟨0⟩, ops⟩ = .ok [98, 100, 99] :=
    applyEditsFast_eq_ok.2 ⟨rfl, hok⟩
  exact ⟨hok, href.1 hok, hok', hfast.1 hok'⟩

/-! ## Lengths and slices -/

/-- From one round of the splice loop to a later one: the cursor, the bytes written and the
    operations left. -/
inductive Rounds (source : Bytes) : ℕ × Bytes × List ValidatedEdit →
    ℕ × Bytes × List ValidatedEdit → Prop
  | refl (s) : Rounds source s s
  | round {cursor cursor' output output' operation rest s}
      (hcopy : copyUpTo (ε := Unit) source operation.startByte cursor output = .ok (cursor', output'))
      (hrest : Rounds source (if operation.isInsertion then cursor' else operation.endByte,
        output' ++ operation.content, rest) s) :
      Rounds source (cursor, output, operation :: rest) s

/-- The bytes a resolved batch removes. -/
def removedBytes (validated : List ValidatedEdit) : ℕ :=
  (validated.map fun v => v.endByte - v.startByte).sum

def addedBytes (validated : List ValidatedEdit) : ℕ := (validated.map fun v => v.content.length).sum

/-- The exact accounting of a resolved batch. -/
structure Accounted (source : Bytes) (validated : List ValidatedEdit) : Prop where
  /-- No range is subtracted the wrong way round. -/
  sub : ∀ v ∈ validated, v.startByte ≤ v.endByte
  /-- Without an overlap no more is removed than there is. -/
  removed : firstOverlap validated = none → removedBytes validated ≤ source.length
  /-- Without an overlap every slice of the loop is in bounds. -/
  slices : firstOverlap validated = none → ∀ {cursor output left},
    Rounds source (0, [], sorted validated) (cursor, output, left) → cursor ≤ source.length ∧
      ∀ operation ∈ left.head?, cursor ≤ operation.startByte ∧ operation.startByte ≤ source.length
  /-- What is written has the length computed in advance. -/
  final : ∀ {ε : Type} {e : ContractError → ε} {out : Bytes},
    spliceValidated e source validated = .ok out →
      ((checkedSub source.length (removedBytes validated)).bind fun length =>
        checkedAdd length (addedBytes validated)) = some out.length

section
variable {vs : List ValidatedEdit}

/-- **Every round stands at the start of a line**, and what is left starts there or later. -/
theorem Rounds.inside {s s' : ℕ × Bytes × List ValidatedEdit} (h : Rounds source s s') : ∀ {m : ℕ},
    s.1 = lineStart source m → (∀ v ∈ s.2.2, v.Fits source ∧ m ≤ v.startOrdinal) →
    (s.2.2.map ValidatedEdit.onLines).Pairwise Splice.After →
    s'.1 ≤ source.length ∧ ∀ v ∈ s'.2.2.head?, s'.1 ≤ v.startByte ∧ v.startByte ≤ source.length := by
  induction h with
  | refl s =>
    intro m hm hf _
    rw [hm]
    refine ⟨lineStart_le source m, fun v hv => ?_⟩
    obtain ⟨hv, hle⟩ := hf v (List.mem_of_mem_head? hv)
    rw [hv.startByte]
    exact ⟨lineStart_mono source hle, lineStart_le source _⟩
  | @round cursor cursor' output output' v rest s' hcopy _ ih =>
    intro m hm hf hpw
    obtain ⟨hv, hle⟩ := hf v List.mem_cons_self
    rw [List.map_cons, List.pairwise_cons] at hpw
    obtain ⟨hafter, hpw⟩ := hpw
    change cursor = _ at hm
    rw [hm, hv.startByte, copyUpTo_eq source hle] at hcopy
    cases hcopy
    refine ih (m := if v.onLines.isInsertion then v.onLines.first else v.onLines.last) ?_ ?_ hpw
    · show (if v.isInsertion then _ else v.endByte) =
        lineStart source (if v.isInsertion then v.startOrdinal else v.endOrdinal)
      rw [hv.endByte]
      split_ifs <;> rfl
    · intro w hw
      exact ⟨(hf w (List.mem_cons_of_mem _ hw)).1,
        Splice.After.le (hafter w.onLines (List.mem_map_of_mem hw))⟩

theorem removedBytes_eq (hf : ∀ v ∈ vs, v.Fits source) : removedBytes vs =
    ((vs.map ValidatedEdit.onLines).map (Splice.removed (lines source))).sum := by
  rw [removedBytes, List.map_map]
  refine congrArg List.sum (List.map_congr_left fun v hv => ?_)
  rw [(hf v hv).startByte, (hf v hv).endByte]
  rfl

theorem addedBytes_eq (vs : List ValidatedEdit) : addedBytes vs =
    ((vs.map ValidatedEdit.onLines).map fun o => o.text.length).sum := by
  rw [addedBytes, List.map_map]; rfl

/-- Without a clash the lengths before and after balance. -/
theorem length_edited_add_removedBytes (hf : ∀ v ∈ vs, v.Fits source)
    (hi : vs.Pairwise fun a b => a.index < b.index)
    (hc : vs.Pairwise fun a b => ¬Splice.Clash a.onLines b.onLines) :
    (Splice.edited (lines source) (vs.map ValidatedEdit.onLines)).length + removedBytes vs =
      source.length + addedBytes vs ∧ removedBytes vs ≤ source.length := by
  have hpw := sorted_after hf hc
  have hb := sorted_bounds hf
  have hperm := (sorted_perm vs).map ValidatedEdit.onLines
  have hlen := Splice.length_edited hpw hb
  have htexts := Splice.length_texts_le (lines source) ((sorted vs).map ValidatedEdit.onLines) 0
  rw [Splice.sweep_zero hpw hb, sorted_edited hf hi hc, (hperm.map _).sum_nat, ← addedBytes_eq] at htexts
  rw [flatten_lines, sorted_edited hf hi hc, (hperm.map _).sum_nat, (hperm.map _).sum_nat,
    ← addedBytes_eq, ← removedBytes_eq hf] at hlen
  omega

/-- **A batch that resolves is accounted for.** -/
theorem accounted_resolved (hs : source.length ≤ maxFileBytes) (hf : ∀ v ∈ vs, v.Fits source)
    (hi : vs.Pairwise fun a b => a.index < b.index) : Accounted source vs where
  sub v hv := by
    rw [(hf v hv).startByte, (hf v hv).endByte]
    exact lineStart_mono source (hf v hv).le
  removed hnone :=
    (length_edited_add_removedBytes hf hi ((firstOverlap_eq_none_iff hf).1 hnone)).2
  slices hnone {cursor output left} hrounds := by
    have hc := (firstOverlap_eq_none_iff hf).1 hnone
    refine hrounds.inside (m := 0) (lineStart_zero source).symm (fun v hv => ?_) (sorted_after hf hc)
    exact ⟨hf v ((sorted_perm vs).mem_iff.1 hv), Nat.zero_le _⟩
  final {ε e out} hout := by
    obtain ⟨hc, hsize, rfl⟩ := (spliceValidated_eq_ok hs hf hi).1 hout
    obtain ⟨hlen, hle⟩ := length_edited_add_removedBytes hf hi hc
    have := add_two_le_u64Max hsize
    simp only [Option.bind_eq_some_iff, checkedSub_eq_some, checkedAdd_eq_some]
    exact ⟨_, ⟨hle, rfl⟩, by omega, by omega⟩

end

theorem noPanic_tryFast (granted : Bool) (snapshot : Snapshot contentId) (request : EditRequest) :
    (tryFast granted snapshot request).NoPanic := by
  rcases tryFast_spec granted snapshot request with h | ⟨out, h, -⟩
  · rw [h]; exact Exec.noPanic_fail _
  · rw [h]; exact Exec.noPanic_ok _

/-- **No panic and exact lengths in both engines**: whatever batch their validation loops let
    through is accounted for. -/
theorem apply_accounted (source : Bytes) (operations : List EditOperation) (granted : Bool)
    (snapshot : Snapshot contentId) (request : EditRequest) :
    (applyReferenceEdits source operations).NoPanic ∧ (tryFast granted snapshot request).NoPanic ∧
    (∀ text validated, validateText source = .ok text →
      validateOperations text.bytes (referenceLineStarts text.bytes) 0 operations = .ok validated →
      Accounted source validated) ∧
    ∀ validated, fastEdits granted snapshot 0 request.edits = .ok validated →
      Accounted snapshot.bytes validated := by
  refine ⟨noPanic_applyReferenceEdits _ _, noPanic_tryFast _ _ _, ?_, ?_⟩
  · intro text validated htext hv
    obtain ⟨ht, hb⟩ := validateText_eq_ok.1 htext
    rw [hb] at hv
    obtain ⟨hr, rfl⟩ := (validateOperations_eq_ok ht.size _ _ _).1 hv
    exact accounted_resolved ht.size hr.fits (resolved_indices _ _)
  · intro validated hv
    rcases fastEdits_spec granted snapshot request.edits 0 with h | ⟨hr, h⟩
    · rw [h] at hv; cases hv
    · rw [h] at hv; cases hv
      exact accounted_resolved snapshot.isText.size hr.fits (resolved_indices _ _)

end Hashline
