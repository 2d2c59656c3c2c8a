/-
  The reference application of an edit batch, and what it means line by line.
-/
import Mathlib.Data.List.Pairwise
import Mathlib.Data.Prod.Lex
import Hashline.Lib.Splice
import Hashline.Text

namespace Hashline

open Machine

/-! ## The algorithm -/

/-- An operation whose positions are resolved. -/
structure ValidatedEdit where
  index : ℕ
  startOrdinal : ℕ
  endOrdinal : ℕ
  startByte : ℕ
  endByte : ℕ
  content : Bytes
  deriving DecidableEq

namespace ValidatedEdit

def isInsertion (e : ValidatedEdit) : Bool := e.startOrdinal = e.endOrdinal

/-- `(start_ordinal, u8::from(!is_insertion), index)`, ordered lexicographically. -/
def sortKey (e : ValidatedEdit) : ℕ ×ₗ ℕ ×ₗ ℕ :=
  toLex (e.startOrdinal, toLex ((!e.isInsertion).toNat, e.index))

/-- The order of `sort_by_key`. -/
def Before (a b : ValidatedEdit) : Prop := a.sortKey ≤ b.sortKey

instance : DecidableRel Before := fun a b => inferInstanceAs (Decidable (a.sortKey ≤ b.sortKey))

end ValidatedEdit

def editsOverlap (left right : ValidatedEdit) : Bool :=
  match left.isInsertion, right.isInsertion with
  | false, false =>
    left.startOrdinal < right.endOrdinal && right.startOrdinal < left.endOrdinal
  | true, false =>
    right.startOrdinal < left.startOrdinal && left.startOrdinal < right.endOrdinal
  | false, true =>
    left.startOrdinal < right.startOrdinal && right.startOrdinal < left.endOrdinal
  | true, true => false

/-- The first pair `left < right` that overlaps, as request indices. -/
def firstOverlap : List ValidatedEdit → Option (ℕ × ℕ)
  | [] => none
  | left :: rest => match rest.find? (editsOverlap left) with
    | some right => some (left.index, right.index)
    | none => firstOverlap rest

section
variable {ε : Type} (e : ContractError → ε)

/-- The bytes the batch removes. -/
def removedLength (validated : List ValidatedEdit) : Exec ε ℕ :=
  Exec.checkedSum (e .outputLengthOverflow)
    (fun operation => Exec.sub operation.endByte operation.startByte) validated

/-- The bytes the batch adds. -/
def addedLength (validated : List ValidatedEdit) : Exec ε ℕ :=
  Exec.checkedSum (e .outputLengthOverflow) (fun operation => .ok operation.content.length) validated

/-- Copy what lies between the cursor and the next operation. -/
def copyUpTo (source : Bytes) (startByte cursor : ℕ) (output : Bytes) : Exec ε (ℕ × Bytes) :=
  if startByte > cursor then do
    let copied ← Exec.slice source cursor startByte
    .ok (startByte, output ++ copied)
  else .ok (cursor, output)

/-- The loop over the sorted batch, with the bytes already consumed and written. -/
def spliceFrom (source : Bytes) : ℕ → Bytes → List ValidatedEdit → Exec ε Bytes
  | cursor, output, [] => do
    let rest ← Exec.slice source cursor source.length
    .ok (output ++ rest)
  | cursor, output, operation :: rest => do
    let (cursor, output) ← copyUpTo source operation.startByte cursor output
    spliceFrom source (if operation.isInsertion then cursor else operation.endByte)
      (output ++ operation.content) rest

/-- What follows the resolution of the positions, in the reference model and in the fast path: the
    overlap test, the length arithmetic, the sort and the splice. -/
def spliceValidated (source : Bytes) (validated : List ValidatedEdit) : Exec ε Bytes := do
  match firstOverlap validated with
  | some (first, second) => Exec.fail (e (.overlappingEdits first second))
  | none => do
    let removed ← removedLength e validated
    let added ← addedLength e validated
    let finalLength ← Exec.okOr (e .outputLengthOverflow)
      ((checkedSub source.length removed).bind fun length => checkedAdd length added)
    (validateFileSize finalLength).mapErr e
    spliceFrom source 0 [] (validated.insertionSort ValidatedEdit.Before)

end

/-- One round of the validation loop. -/
def validateOperation (text : Bytes) (starts : List ℕ) (index : ℕ) (operation : EditOperation) :
    Exec ContractError ValidatedEdit :=
  match nulPosition operation.content with
  | some byte => Exec.fail (.nulReplacement index byte)
  | none => do
    let startOrdinal ← boundaryOrdinal text starts operation.start
    let endOrdinal ← boundaryOrdinal text starts operation.end_
    if startOrdinal > endOrdinal then
      Exec.fail (.reversedRange operation.start operation.end_)
    else
      .ok ⟨index, startOrdinal, endOrdinal, operation.start.byte, operation.end_.byte,
        operation.content⟩

/-- The validation loop from request index `index` on. -/
def validateOperations (text : Bytes) (starts : List ℕ) :
    ℕ → List EditOperation → Exec ContractError (List ValidatedEdit)
  | _, [] => .ok []
  | index, operation :: rest => do
    let first ← validateOperation text starts index operation
    let others ← validateOperations text starts (index + 1) rest
    .ok (first :: others)

def applyReferenceEdits (source : Bytes) (operations : List EditOperation) :
    Exec ContractError Bytes := do
  validateEditCount operations.length
  let text ← validateText source
  let starts := referenceLineStarts text.bytes
  let validated ← validateOperations text.bytes starts 0 operations
  spliceValidated id source validated

/-! ## The meaning of a batch -/

/-- An operation on the logical lines, by the ordinals of its boundaries. -/
def EditOperation.onLines (operation : EditOperation) : Splice.Op UInt8 :=
  ⟨operation.start.line - 1, operation.end_.line - 1, operation.content⟩

/-- The edited bytes: at each ordinal the insertions, then the replacement starting there, then the
    original line unless it is replaced. -/
def edited (source : Bytes) (operations : List EditOperation) : Bytes :=
  Splice.edited (lines source) (operations.map EditOperation.onLines)

/-- What the reference model accepts. -/
structure Accepts (source : Bytes) (operations : List EditOperation) : Prop where
  count : 1 ≤ operations.length ∧ operations.length ≤ maxEditOperations
  text : IsText source
  boundaries : ∀ o ∈ operations, Boundary source o.start ∧ Boundary source o.end_ ∧
    o.start.line ≤ o.end_.line
  contents : ∀ o ∈ operations, (0 : UInt8) ∉ o.content
  covered : operations.Pairwise fun o p => ∀ i, ¬(o.onLines.covers i ∧ p.onLines.covers i)
  inside : ∀ o ∈ operations, ∀ p ∈ operations, o.onLines.isInsertion → ¬p.onLines.isInsertion →
    ¬(p.onLines.first < o.onLines.first ∧ o.onLines.first < p.onLines.last)
  size : (edited source operations).length ≤ maxFileBytes

/-! ## The resolved batch -/

/-- The resolution of an operation whose positions are boundaries. -/
def ValidatedEdit.of (operation : EditOperation) (index : ℕ) : ValidatedEdit :=
  ⟨index, operation.start.line - 1, operation.end_.line - 1, operation.start.byte,
    operation.end_.byte, operation.content⟩

/-- The resolutions of a batch, numbered from `index` on. -/
def resolved (index : ℕ) (operations : List EditOperation) : List ValidatedEdit :=
  (operations.zipIdx index).map fun o => .of o.1 o.2

/-- The operation on lines of a resolved edit. -/
def ValidatedEdit.onLines (e : ValidatedEdit) : Splice.Op UInt8 :=
  ⟨e.startOrdinal, e.endOrdinal, e.content⟩

/-- A resolved edit of `source`: its ordinals in order, its bytes where its lines start. -/
structure ValidatedEdit.Fits (source : Bytes) (e : ValidatedEdit) : Prop where
  le : e.startOrdinal ≤ e.endOrdinal
  le_count : e.endOrdinal ≤ lineCount source
  startByte : e.startByte = lineStart source e.startOrdinal
  endByte : e.endByte = lineStart source e.endOrdinal

/-- Every operation lies between boundaries in order, and no content has a NUL. -/
def Resolves (source : Bytes) (operations : List EditOperation) : Prop :=
  ∀ o ∈ operations, (0 : UInt8) ∉ o.content ∧ Boundary source o.start ∧ Boundary source o.end_ ∧
    o.start.line ≤ o.end_.line

@[simp] theorem resolved_onLines (operations : List EditOperation) (index : ℕ) :
    (resolved index operations).map ValidatedEdit.onLines =
      operations.map EditOperation.onLines := by
  rw [resolved, List.map_map]
  conv_rhs => rw [← List.zipIdx_map_fst index operations, List.map_map]
  rfl

theorem validateOperation_eq_ok {source : Bytes} (h : source.length ≤ maxFileBytes) {index : ℕ}
    {o : EditOperation} {v : ValidatedEdit} :
    validateOperation source (referenceLineStarts source) index o = .ok v ↔
      ((0 : UInt8) ∉ o.content ∧ Boundary source o.start ∧ Boundary source o.end_ ∧
        o.start.line ≤ o.end_.line) ∧ v = .of o index := by
  have hs := o.start.line_ne
  have he := o.end_.line_ne
  unfold validateOperation
  rcases hn : nulPosition o.content with _ | byte
  · have h0 := nulPosition_eq_none.1 hn
    simp only [Exec.bind_eq_ok, boundaryOrdinal_eq_ok h]
    constructor
    · rintro ⟨i, ⟨hB, rfl⟩, j, ⟨hB', rfl⟩, hv⟩
      split_ifs at hv with hlt
      · simp at hv
      · cases hv; exact ⟨⟨h0, hB, hB', by omega⟩, rfl⟩
    · rintro ⟨⟨-, hB, hB', hle⟩, rfl⟩
      exact ⟨_, ⟨hB, rfl⟩, _, ⟨hB', rfl⟩, by rw [if_neg (by omega)]; rfl⟩
  · have h0 : (0 : UInt8) ∈ o.content := by
      by_contra h'; rw [nulPosition_eq_none.2 h'] at hn; cases hn
    simp [h0]

/-- **The validation loop resolves the batch.** -/
theorem validateOperations_eq_ok {source : Bytes} (h : source.length ≤ maxFileBytes)
    (operations : List EditOperation) : ∀ (index : ℕ) (vs : List ValidatedEdit),
    validateOperations source (referenceLineStarts source) index operations = .ok vs ↔
      Resolves source operations ∧ vs = resolved index operations := by
  induction operations with
  | nil => intro _ vs; simp [validateOperations, Resolves, resolved, eq_comm]
  | cons o os ih =>
    intro index vs
    simp only [validateOperations, Exec.bind_eq_ok, validateOperation_eq_ok h, ih, Resolves,
      List.forall_mem_cons]
    constructor
    · rintro ⟨_, ⟨ho, rfl⟩, _, ⟨hos, rfl⟩, hv⟩
      cases hv; exact ⟨⟨ho, hos⟩, rfl⟩
    · rintro ⟨⟨ho, hos⟩, rfl⟩
      exact ⟨_, ⟨ho, rfl⟩, _, ⟨hos, rfl⟩, rfl⟩

theorem Resolves.fits {source : Bytes} {operations : List EditOperation}
    (h : Resolves source operations) {index : ℕ} : ∀ v ∈ resolved index operations, v.Fits source := by
  intro v hv
  obtain ⟨o, ho, rfl⟩ := List.mem_map.1 hv
  obtain ⟨-, hs, he, hle⟩ := h _ (List.fst_mem_of_mem_zipIdx ho)
  exact ⟨Nat.sub_le_sub_right hle 1, he.line_le, hs.byte_eq, he.byte_eq⟩

/-! ## The overlap test -/

theorem firstOverlap_eq_none {vs : List ValidatedEdit} :
    firstOverlap vs = none ↔ vs.Pairwise fun a b => editsOverlap a b = false := by
  induction vs with
  | nil => simp [firstOverlap]
  | cons v vs ih =>
    rw [firstOverlap, List.pairwise_cons]
    rcases h : vs.find? (editsOverlap v) with _ | w
    · rw [List.find?_eq_none] at h
      simp only [ih, Bool.not_eq_true] at h ⊢
      exact ⟨fun h' => ⟨h, h'⟩, And.right⟩
    · have hw := List.find?_some h
      have hmem := List.mem_of_find?_eq_some h
      simp only [reduceCtorEq, false_iff, not_and]
      intro h'; rw [h' w hmem] at hw; cases hw

/-- **The overlap test looks for a clash on lines.** -/
theorem ValidatedEdit.editsOverlap_eq_false {a b : ValidatedEdit} (ha : a.startOrdinal ≤ a.endOrdinal)
    (hb : b.startOrdinal ≤ b.endOrdinal) :
    editsOverlap a b = false ↔ ¬Splice.Clash a.onLines b.onLines := by
  simp only [Splice.Clash, Splice.exists_covers_iff, Splice.Op.isInsertion, onLines, editsOverlap,
    isInsertion]
  rcases Nat.lt_or_eq_of_le ha with ha' | ha' <;> rcases Nat.lt_or_eq_of_le hb with hb' | hb'
  · simp [ha'.ne, hb'.ne, ha', hb']
  · simp [ha'.ne, hb']
  · simp [ha', hb'.ne]
  · simp [ha', hb']

/-! ## The sorted batch -/

theorem ValidatedEdit.before_iff {a b : ValidatedEdit} : a.Before b ↔
    a.startOrdinal < b.startOrdinal ∨ a.startOrdinal = b.startOrdinal ∧
      ((!a.isInsertion).toNat < (!b.isInsertion).toNat ∨
        (!a.isInsertion).toNat = (!b.isInsertion).toNat ∧ a.index ≤ b.index) := by
  rw [Before, sortKey, sortKey, Prod.Lex.toLex_le_toLex, Prod.Lex.toLex_le_toLex]

instance : Std.Total ValidatedEdit.Before := ⟨fun a b => le_total a.sortKey b.sortKey⟩

instance : IsTrans ValidatedEdit ValidatedEdit.Before := ⟨fun _ _ _ h h' => le_trans h h'⟩

/-- The batch in the order of the splice. -/
def sorted (vs : List ValidatedEdit) : List ValidatedEdit := vs.insertionSort ValidatedEdit.Before

theorem sorted_perm (vs : List ValidatedEdit) : (sorted vs).Perm vs := List.perm_insertionSort _ _

theorem sorted_pairwise (vs : List ValidatedEdit) : (sorted vs).Pairwise ValidatedEdit.Before :=
  List.pairwise_insertionSort _ _

section
variable {source : Bytes} {vs : List ValidatedEdit}

/-- In the sorted batch, edits that do not clash follow one another. -/
theorem sorted_after (hf : ∀ v ∈ vs, v.Fits source)
    (hc : vs.Pairwise fun a b => ¬Splice.Clash a.onLines b.onLines) :
    ((sorted vs).map ValidatedEdit.onLines).Pairwise Splice.After := by
  have hc' := hc.perm (sorted_perm vs).symm fun h h' => h h'.symm
  rw [List.pairwise_map]
  refine ((sorted_pairwise vs).and hc').imp_of_mem fun {a b} _ hb ⟨hab, hn⟩ => ?_
  have hb' := (hf b ((sorted_perm vs).mem_iff.1 hb)).le
  rw [ValidatedEdit.before_iff] at hab
  refine Splice.after_of_not_clash hb' hn ?_ fun he hi => ?_
  · show a.startOrdinal ≤ b.startOrdinal
    omega
  · change a.startOrdinal = b.startOrdinal at he
    change a.isInsertion = false at hi
    change b.isInsertion = false
    rcases hab with h | ⟨-, h⟩
    · omega
    · rw [hi] at h
      by_contra hbi
      rw [Bool.not_eq_false] at hbi
      rw [hbi] at h; simp at h

/-- Among insertions at one ordinal the sort keeps the request order. -/
theorem sorted_insertsAt (hi : vs.Pairwise fun a b => a.index < b.index) (i : ℕ) :
    (sorted vs).filter (fun v => v.onLines.insertsAt i) = vs.filter fun v => v.onLines.insertsAt i := by
  refine @List.Perm.eq_of_pairwise _ (fun a b => a.index < b.index) _ _
    (fun a b _ _ h h' => absurd h (Nat.lt_asymm h')) ?_ (hi.filter _) ((sorted_perm vs).filter _)
  have hne : (sorted vs).Pairwise fun a b => a.index ≠ b.index :=
    (hi.imp Nat.ne_of_lt).perm (sorted_perm vs).symm Ne.symm
  refine (((sorted_pairwise vs).and hne).filter _).imp_of_mem fun {a b} ha hb ⟨hab, hn⟩ => ?_
  have ha' := (List.mem_filter.1 ha).2
  have hb' := (List.mem_filter.1 hb).2
  rw [Splice.Op.insertsAt_iff] at ha' hb'
  have hs : a.startOrdinal = b.startOrdinal := ha'.2.trans hb'.2.symm
  have hI : a.isInsertion = b.isInsertion :=
    (Splice.Op.isInsertion_iff.2 ha'.1).trans (Splice.Op.isInsertion_iff.2 hb'.1).symm
  rw [ValidatedEdit.before_iff, hs, hI] at hab
  omega

/-- **Sorting changes no order that matters.** -/
theorem sorted_edited (hf : ∀ v ∈ vs, v.Fits source)
    (hi : vs.Pairwise fun a b => a.index < b.index)
    (hc : vs.Pairwise fun a b => ¬Splice.Clash a.onLines b.onLines) (ls : List Bytes) :
    Splice.edited ls ((sorted vs).map ValidatedEdit.onLines) =
      Splice.edited ls (vs.map ValidatedEdit.onLines) := by
  refine Splice.edited_congr ls ((sorted_perm vs).map _) (fun i => ?_) fun i => ?_
  · rw [List.filter_map, List.filter_map]
    exact congrArg _ (sorted_insertsAt hi i)
  · refine Splice.filter_replacesAt_perm ((sorted_perm vs).map _).symm (fun o ho => ?_)
      (List.pairwise_map.2 hc) i |>.symm
    obtain ⟨v, hv, rfl⟩ := List.mem_map.1 ho
    exact (hf v hv).le

end

/-! ## The splice -/

section
variable {ε : Type} {e : ContractError → ε} {source : Bytes} {vs : List ValidatedEdit}

/-- Whether or not bytes are copied, the cursor is then at the start of the operation. -/
theorem copyUpTo_eq (source : Bytes) {m k : ℕ} (h : m ≤ k) (output : Bytes) :
    (copyUpTo source (lineStart source k) (lineStart source m) output : Exec ε (ℕ × Bytes)) =
      .ok (lineStart source k, output ++ (((lines source).take k).drop m).flatten) := by
  have hmono := lineStart_mono source h
  have hcopy := Lines.slice_start (lines source) h
  rw [flatten_lines] at hcopy
  rw [← hcopy, copyUpTo]
  split_ifs with hgt
  · rw [Exec.slice_of_le hmono (lineStart_le source _)]; rfl
  · have heq : lineStart source m = lineStart source k := by omega
    have hnil : (source.take (lineStart source k)).drop (lineStart source m) = [] :=
      List.drop_eq_nil_of_le (by rw [List.length_take]; omega)
    rw [heq] at hnil ⊢
    change (source.take (lineStart source k)).drop (lineStart source m) = _ at hcopy
    rw [← lineStart, ← lineStart, heq, hnil, List.append_nil]

/-- **The cursor loop is the sweep over the lines**: the cursor stands at the start of a line, the
    first that is not consumed. -/
theorem spliceFrom_eq (source : Bytes) : ∀ (vs : List ValidatedEdit) (m : ℕ) (output : Bytes),
    (∀ v ∈ vs, v.Fits source ∧ m ≤ v.startOrdinal) →
    (vs.map ValidatedEdit.onLines).Pairwise Splice.After →
    (spliceFrom source (lineStart source m) output vs : Exec ε Bytes) =
      .ok (output ++ Splice.sweep (lines source) m (vs.map ValidatedEdit.onLines))
  | [], m, output, _, _ => by
    have hd := Lines.drop_start (lines source) m
    rw [flatten_lines] at hd
    rw [spliceFrom, Exec.slice_of_le (lineStart_le source m) le_rfl, List.take_length, lineStart, hd]
    rfl
  | v :: vs, m, output, hf, hpw => by
    obtain ⟨hv, hm⟩ := hf v List.mem_cons_self
    rw [List.map_cons, List.pairwise_cons] at hpw
    obtain ⟨hafter, hpw⟩ := hpw
    have hcursor : (if v.isInsertion then lineStart source v.startOrdinal else v.endByte) =
        lineStart source (if v.onLines.isInsertion then v.onLines.first else v.onLines.last) := by
      rw [hv.endByte]
      show _ = lineStart source (if v.isInsertion then v.startOrdinal else v.endOrdinal)
      split_ifs <;> rfl
    have hrest := spliceFrom_eq source vs
      (if v.onLines.isInsertion then v.onLines.first else v.onLines.last)
      (output ++ (((lines source).take v.startOrdinal).drop m).flatten ++ v.content)
      (fun w hw => ⟨(hf w (List.mem_cons_of_mem _ hw)).1, Splice.After.le (hafter w.onLines (List.mem_map_of_mem hw))⟩)
      hpw
    rw [spliceFrom, hv.startByte, copyUpTo_eq source hm]
    show spliceFrom source (if v.isInsertion then lineStart source v.startOrdinal else v.endByte)
      (output ++ (((lines source).take v.startOrdinal).drop m).flatten ++ v.content) vs = _
    rw [hcursor, hrest, List.map_cons, Splice.sweep]
    simp only [List.append_assoc]; rfl

theorem removedLength_eq_ok (hf : ∀ v ∈ vs, v.Fits source) {n : ℕ} :
    removedLength e vs = .ok n ↔
      ((vs.map ValidatedEdit.onLines).map (Splice.removed (lines source))).sum = n ∧ n ≤ u64Max := by
  rw [removedLength, List.map_map]
  refine Exec.checkedSum_eq_ok fun v hv => Exec.sub_eq_ok.2 ?_
  rw [(hf v hv).startByte, (hf v hv).endByte]
  exact ⟨lineStart_mono source (hf v hv).le, rfl⟩

theorem addedLength_eq_ok {n : ℕ} : addedLength e vs = .ok n ↔
    ((vs.map ValidatedEdit.onLines).map fun o => o.text.length).sum = n ∧ n ≤ u64Max := by
  rw [addedLength, List.map_map]
  exact Exec.checkedSum_eq_ok fun v _ => rfl

theorem sorted_bounds (hf : ∀ v ∈ vs, v.Fits source) :
    ∀ o ∈ (sorted vs).map ValidatedEdit.onLines, o.first ≤ o.last ∧ o.last ≤ (lines source).length := by
  intro o ho
  obtain ⟨v, hv, rfl⟩ := List.mem_map.1 ho
  have := hf v ((sorted_perm vs).mem_iff.1 hv)
  exact ⟨this.le, this.le_count⟩

/-- The loop over the sorted batch computes the edit. -/
theorem spliceFrom_sorted (hf : ∀ v ∈ vs, v.Fits source)
    (hi : vs.Pairwise fun a b => a.index < b.index)
    (hc : vs.Pairwise fun a b => ¬Splice.Clash a.onLines b.onLines) :
    (spliceFrom source 0 [] (sorted vs) : Exec ε Bytes) =
      .ok (Splice.edited (lines source) (vs.map ValidatedEdit.onLines)) := by
  have := spliceFrom_eq (ε := ε) source (sorted vs) 0 [] (fun v hv =>
    ⟨hf v ((sorted_perm vs).mem_iff.1 hv), Nat.zero_le _⟩) (sorted_after hf hc)
  rw [lineStart_zero, Splice.sweep_zero (sorted_after hf hc) (sorted_bounds hf),
    sorted_edited hf hi hc] at this
  exact this

theorem firstOverlap_eq_none_iff (hf : ∀ v ∈ vs, v.Fits source) :
    firstOverlap vs = none ↔ vs.Pairwise fun a b => ¬Splice.Clash a.onLines b.onLines := by
  rw [firstOverlap_eq_none]
  refine List.Pairwise.iff_of_mem fun {a b} ha hb => ?_
  exact ValidatedEdit.editsOverlap_eq_false (hf a ha).le (hf b hb).le

/-- **What the fast path and the reference model share**: on a resolved batch they refuse a clash
    and a result that is too long, and compute the edit otherwise. -/
theorem spliceValidated_eq_ok (hs : source.length ≤ maxFileBytes) (hf : ∀ v ∈ vs, v.Fits source)
    (hi : vs.Pairwise fun a b => a.index < b.index) {out : Bytes} :
    spliceValidated e source vs = .ok out ↔
      (vs.Pairwise fun a b => ¬Splice.Clash a.onLines b.onLines) ∧
      (Splice.edited (lines source) (vs.map ValidatedEdit.onLines)).length ≤ maxFileBytes ∧
      out = Splice.edited (lines source) (vs.map ValidatedEdit.onLines) := by
  have hfo := firstOverlap_eq_none_iff hf
  unfold spliceValidated
  rcases h : firstOverlap vs with _ | ⟨first, second⟩
  · have hc := hfo.1 h
    have hpw := sorted_after hf hc
    have hb := sorted_bounds hf
    have hsplice := spliceFrom_sorted (ε := ε) hf hi hc
    have hlen := Splice.length_edited hpw hb
    have htexts := Splice.length_texts_le (lines source) ((sorted vs).map ValidatedEdit.onLines) 0
    have hperm := (sorted_perm vs).map ValidatedEdit.onLines
    rw [Splice.sweep_zero hpw hb] at htexts
    rw [flatten_lines] at hlen
    rw [sorted_edited hf hi hc, (hperm.map _).sum_nat] at htexts hlen
    rw [(hperm.map _).sum_nat] at hlen
    have hmax := add_two_le_u64Max hs
    simp only [Exec.bind_eq_ok, removedLength_eq_ok hf, addedLength_eq_ok, Exec.okOr_eq_ok,
      Option.bind_eq_some_iff, checkedSub_eq_some, checkedAdd_eq_some, Exec.mapErr_eq_ok,
      validateFileSize_eq_ok]
    constructor
    · rintro ⟨_, ⟨rfl, -⟩, _, ⟨rfl, -⟩, _, ⟨_, ⟨hle, rfl⟩, rfl, -⟩, _, hsize, hout⟩
      rw [← sorted, hsplice] at hout
      cases hout
      exact ⟨hc, by omega, rfl⟩
    · rintro ⟨-, hsize, rfl⟩
      have := add_two_le_u64Max hsize
      exact ⟨_, ⟨rfl, by omega⟩, _, ⟨rfl, by omega⟩, _, ⟨_, ⟨by omega, rfl⟩, rfl, by omega⟩, (),
        by omega, hsplice⟩
  · have hc : ¬vs.Pairwise fun a b => ¬Splice.Clash a.onLines b.onLines := fun hc => by
      rw [hfo.2 hc] at h; cases h
    simp [hc]

end

/-- Nothing after the resolution panics. -/
theorem noPanic_spliceValidated {ε : Type} {e : ContractError → ε} {source : Bytes}
    {vs : List ValidatedEdit} (hf : ∀ v ∈ vs, v.Fits source)
    (hi : vs.Pairwise fun a b => a.index < b.index) : (spliceValidated e source vs).NoPanic := by
  unfold spliceValidated
  rcases h : firstOverlap vs with _ | ⟨first, second⟩
  · refine Exec.noPanic_bind (Exec.noPanic_checkedSum fun v hv => Exec.noPanic_sub ?_) fun _ _ =>
      Exec.noPanic_bind (Exec.noPanic_checkedSum fun v _ => Exec.noPanic_ok _) fun _ _ =>
      Exec.noPanic_bind (Exec.noPanic_okOr _ _) fun _ _ =>
      Exec.noPanic_bind (Exec.noPanic_mapErr (noPanic_validateFileSize _)) fun _ _ => ?_
    · rw [(hf v hv).startByte, (hf v hv).endByte]
      exact lineStart_mono source (hf v hv).le
    · have := spliceFrom_sorted (ε := ε) hf hi ((firstOverlap_eq_none_iff hf).1 h)
      rw [sorted] at this
      rw [this]; exact Exec.noPanic_ok _
  · exact Exec.noPanic_fail _

/-! ## The reference model -/

theorem resolved_indices (operations : List EditOperation) (index : ℕ) :
    (resolved index operations).Pairwise fun a b => a.index < b.index := by
  induction operations generalizing index with
  | nil => exact List.Pairwise.nil
  | cons o os ih =>
    refine List.pairwise_cons.2 ⟨fun v hv => ?_, ih (index + 1)⟩
    obtain ⟨⟨p, k⟩, hp, rfl⟩ := List.mem_map.1 hv
    have := List.le_snd_of_mem_zipIdx hp
    show index < k
    omega

section
variable {source : Bytes} {operations : List EditOperation}

theorem resolved_pairwise {R : Splice.Op UInt8 → Splice.Op UInt8 → Prop} {index : ℕ} :
    ((resolved index operations).Pairwise fun a b => R a.onLines b.onLines) ↔
      operations.Pairwise fun o p => R o.onLines p.onLines := by
  rw [← List.pairwise_map (f := ValidatedEdit.onLines), resolved_onLines, List.pairwise_map]

/-- On a batch that resolves, the splice computes the edit. -/
theorem spliceValidated_resolved {ε : Type} {e : ContractError → ε}
    (hs : source.length ≤ maxFileBytes) (h : Resolves source operations) {out : Bytes} :
    spliceValidated e source (resolved 0 operations) = .ok out ↔
      (operations.Pairwise fun o p => ¬Splice.Clash o.onLines p.onLines) ∧
      (edited source operations).length ≤ maxFileBytes ∧ out = edited source operations := by
  rw [spliceValidated_eq_ok hs h.fits (resolved_indices _ _), resolved_onLines,
    resolved_pairwise (R := fun o p => ¬Splice.Clash o p)]; rfl

/-- `applyReferenceEdits` step by step. -/
theorem applyReferenceEdits_iff {out : Bytes} : applyReferenceEdits source operations = .ok out ↔
    (1 ≤ operations.length ∧ operations.length ≤ maxEditOperations) ∧ IsText source ∧
      Resolves source operations ∧ spliceValidated id source (resolved 0 operations) = .ok out := by
  simp only [applyReferenceEdits, Exec.bind_eq_ok, validateEditCount_eq_ok, validateText_eq_ok]
  constructor
  · rintro ⟨_, hc, text, ⟨ht, rfl⟩, vs, hv, hout⟩
    obtain ⟨hr, rfl⟩ := (validateOperations_eq_ok ht.size _ _ _).1 hv
    exact ⟨hc, ht, hr, hout⟩
  · rintro ⟨hc, ht, hr, hout⟩
    exact ⟨(), hc, ⟨source, ht.utf8⟩, ⟨ht, rfl⟩, _, (validateOperations_eq_ok ht.size _ _ _).2 ⟨hr, rfl⟩,
      hout⟩

theorem noPanic_validateOperations (text : Bytes) (starts : List ℕ) (ops : List EditOperation) :
    ∀ index, (validateOperations text starts index ops).NoPanic := by
  induction ops with
  | nil => intro _; exact Exec.noPanic_ok _
  | cons op ops ih =>
    intro index
    refine Exec.noPanic_bind ?_ fun _ _ => Exec.noPanic_bind (ih _) fun _ _ => Exec.noPanic_ok _
    unfold validateOperation
    split
    · exact Exec.noPanic_fail _
    · refine Exec.noPanic_bind (noPanic_boundaryOrdinal _ _ _) fun _ _ =>
        Exec.noPanic_bind (noPanic_boundaryOrdinal _ _ _) fun _ _ => ?_
      split_ifs
      · exact Exec.noPanic_fail _
      · exact Exec.noPanic_ok _

/-- Nothing in the reference model panics. -/
theorem noPanic_applyReferenceEdits (source : Bytes) (operations : List EditOperation) :
    (applyReferenceEdits source operations).NoPanic := by
  refine Exec.noPanic_bind (noPanic_validateEditCount _) fun _ _ =>
    Exec.noPanic_bind (noPanic_validateText _) fun text ht =>
    Exec.noPanic_bind (noPanic_validateOperations _ _ _ _) fun vs hv => ?_
  obtain ⟨ht, hb⟩ := validateText_eq_ok.1 ht
  rw [hb] at hv
  obtain ⟨hr, rfl⟩ := (validateOperations_eq_ok ht.size _ _ _).1 hv
  exact noPanic_spliceValidated hr.fits (resolved_indices _ _)

/-- Two operations that exclude each other cover a common line, or one inserts inside the other. -/
theorem pairwise_not_clash_iff :
    (operations.Pairwise fun o p => ¬Splice.Clash o.onLines p.onLines) ↔
      (operations.Pairwise fun o p => ∀ i, ¬(o.onLines.covers i ∧ p.onLines.covers i)) ∧
      ∀ o ∈ operations, ∀ p ∈ operations, o.onLines.isInsertion → ¬p.onLines.isInsertion →
        ¬(p.onLines.first < o.onLines.first ∧ o.onLines.first < p.onLines.last) := by
  constructor
  · intro h
    refine ⟨h.imp fun hn i hi => hn (.inl ⟨i, hi⟩), fun o ho p hp hoi hpi hlt => ?_⟩
    have : Std.Symm fun a b : EditOperation => ¬Splice.Clash a.onLines b.onLines :=
      ⟨fun a b hn hc => hn hc.symm⟩
    by_cases hop : o = p
    · subst hop; exact hpi hoi
    · exact h.forall ho hp hop (.inr (.inl ⟨hoi, by simpa using hpi, hlt⟩))
  · rintro ⟨hc, hi⟩
    refine hc.imp_of_mem fun {o p} ho hp hn => ?_
    rintro (h | ⟨h₁, h₂, h⟩ | ⟨h₁, h₂, h⟩)
    · exact h.elim hn
    · exact hi o ho p hp h₁ (by simpa using h₂) h
    · exact hi p hp o ho h₁ (by simpa using h₂) h

/-- **An edited text is a text**, when it is not too long. -/
theorem edited_isText (h : IsText source) (hc : ∀ o ∈ operations, (0 : UInt8) ∉ o.content)
    (hs : (edited source operations).length ≤ maxFileBytes) : IsText (edited source operations) where
  size := hs
  nul := by
    refine Splice.edited_induction (P := fun xs => (0 : UInt8) ∉ xs) (by simp)
      (fun xs ys hx hy => by simp [hx, hy]) (fun o ho => ?_) (not_mem_of_mem_lines h.nul)
    obtain ⟨p, hp, rfl⟩ := List.mem_map.1 ho
    exact hc p hp
  utf8 := by
    refine Splice.edited_induction Utf8.valid_nil (fun _ _ => Utf8.Valid.append) (fun o ho => ?_)
      (valid_of_mem_lines h.utf8)
    obtain ⟨p, -, rfl⟩ := List.mem_map.1 ho
    exact p.content_valid

/-- What the reference model returns is a text. -/
theorem applyReferenceEdits_isText {out : Bytes} (h : applyReferenceEdits source operations = .ok out) :
    IsText source ∧ IsText out := by
  obtain ⟨-, ht, hr, hout⟩ := applyReferenceEdits_iff.1 h
  obtain ⟨-, hs, rfl⟩ := (spliceValidated_resolved ht.size hr).1 hout
  exact ⟨ht, edited_isText ht (fun o ho => (hr o ho).1) hs⟩

/-- **The reference model, line by line.** It accepts exactly the batches of the definition, and
    returns the edited lines. -/
theorem applyReferenceEdits_eq_ok {out : Bytes} :
    applyReferenceEdits source operations = .ok out ↔
      Accepts source operations ∧ out = edited source operations := by
  rw [applyReferenceEdits_iff]
  constructor
  · rintro ⟨hc, ht, hr, hout⟩
    obtain ⟨hn, hsize, rfl⟩ := (spliceValidated_resolved ht.size hr).1 hout
    obtain ⟨hcov, hins⟩ := pairwise_not_clash_iff.1 hn
    exact ⟨⟨hc, ht, fun o ho => (hr o ho).2, fun o ho => (hr o ho).1, hcov, hins, hsize⟩, rfl⟩
  · rintro ⟨h, rfl⟩
    have hr : Resolves source operations := fun o ho => ⟨h.contents o ho, h.boundaries o ho⟩
    exact ⟨h.count, h.text, hr, (spliceValidated_resolved h.text.size hr).2
      ⟨pairwise_not_clash_iff.2 ⟨h.covered, h.inside⟩, h.size, rfl⟩⟩

end

end Hashline
