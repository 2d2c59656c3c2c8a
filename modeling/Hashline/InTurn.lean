/-
  A batch and its operations one by one: done from the last in the text to the
  first, each as an edit of its own on what the one before it left, they leave
  what the batch leaves.
-/
import Hashline.Addressing
import Hashline.Batch

namespace Hashline

open Machine

variable {contentId : Bytes → SnapshotId} {source : Bytes} {ops : List EditOperation}

/-! ## Operations in the order of the text -/

/-- Listed as they stand in the text: each starts where the one before it ends or later. -/
structure InOrder (source : Bytes) (ops : List EditOperation) : Prop where
  resolves : Resolves source ops
  after : (ops.map EditOperation.onLines).Pairwise Splice.After

theorem InOrder.tail {o : EditOperation} (h : InOrder source (o :: ops)) : InOrder source ops :=
  ⟨fun p hp => h.resolves p (List.mem_cons_of_mem _ hp), (List.pairwise_cons.1 h.after).2⟩

/-- Those that follow leave the first one its place: it ends at a line there is, or they put nothing. -/
def Anchored (source : Bytes) : List EditOperation → Prop
  | [] => True
  | o :: late => o.end_.line ≤ lineCount source ∨ ∀ p ∈ late, p.content = []

instance : ∀ ops, Decidable (Anchored source ops)
  | [] => inferInstanceAs (Decidable True)
  | _ :: _ => inferInstanceAs (Decidable (_ ∨ _))

theorem Resolves.bounds (h : Resolves source ops) : ∀ o ∈ ops.map EditOperation.onLines,
    o.first ≤ o.last ∧ o.last ≤ (lines source).length := by
  intro o ho
  obtain ⟨p, hp, rfl⟩ := List.mem_map.1 ho
  obtain ⟨-, -, hend, hle⟩ := h p hp
  exact ⟨Nat.sub_le_sub_right hle 1, hend.line_le⟩

theorem edited_nil (source : Bytes) : edited source [] = source := by
  rw [edited, List.map_nil, ← Splice.sweep_zero List.Pairwise.nil nofun, Splice.sweep, List.drop_zero,
    flatten_lines]

/-- **What operations after a line leave before it**: the lines up to it, as they were. -/
theorem InOrder.take_lines (h : InOrder source ops) {m : ℕ} (hm : m < lineCount source)
    (hlater : ∀ o ∈ ops, m ≤ o.onLines.first) :
    (lines (edited source ops)).take m = (lines source).take m ∧ m < lineCount (edited source ops) := by
  have hsplit : edited source ops = ((lines source).take m).flatten ++
      Splice.sweep (lines source) m (ops.map EditOperation.onLines) := by
    rw [edited, ← Splice.sweep_zero h.after h.resolves.bounds, Splice.sweep_from]
    intro o ho
    obtain ⟨p, hp, rfl⟩ := List.mem_map.1 ho
    exact hlater p hp
  have hlen : ((lines source).take m).length = m := by
    rw [List.length_take]
    exact Nat.min_eq_left hm.le
  have hlines : lines (edited source ops) = (lines source).take m ++
      lines (Splice.sweep (lines source) m (ops.map EditOperation.onLines)) := by
    rw [hsplit, lines, lines, Lines.split_flatten_append (Lines.ended_of_mem_take hm)]
    rfl
  constructor
  · rw [hlines, List.take_left' hlen]
  · rw [lineCount, hlines, List.length_append, hlen]
    exact Nat.lt_add_of_pos_right (lineCount_pos _)

/-- A boundary up to a line that stays is one of the text that is left. -/
theorem Boundary.of_take {text : Bytes} {m : ℕ} {p : Position} (hp : Boundary source p)
    (hle : p.line - 1 ≤ m) (htake : (lines text).take m = (lines source).take m) (hm : m < lineCount text) :
    Boundary text p := by
  have hne := p.line_ne
  refine .inl ⟨p.line - 1, by omega, by omega, ?_⟩
  rw [hp.byte_eq, lineStart, lineStart, Lines.start, Lines.start]
  have := congrArg (List.take (p.line - 1)) htake
  rw [List.take_take, List.take_take, Nat.min_eq_left hle] at this
  rw [this]

theorem InOrder.later {o : EditOperation} (h : InOrder source (o :: ops)) :
    ∀ p ∈ ops, o.onLines.last ≤ p.onLines.first := fun p hp =>
  ((List.pairwise_cons.1 h.after).1 p.onLines (List.mem_map_of_mem hp)).last_le

/-- What follows an operation past the last line is put at the end of the text. -/
theorem InOrder.edited_past {o : EditOperation} (h : InOrder source (o :: ops))
    (hpast : lineCount source < o.end_.line) :
    edited source ops = source ++ ops.flatMap EditOperation.content := by
  have hends : ∀ p ∈ ops.map EditOperation.onLines,
      p.first = (lines source).length ∧ p.last = (lines source).length := by
    intro p hp
    obtain ⟨hle, hlast⟩ := h.tail.resolves.bounds p hp
    obtain ⟨q, hq, rfl⟩ := List.mem_map.1 hp
    have hlater : o.end_.line - 1 ≤ q.onLines.first := h.later q hq
    change lineCount source < _ at hpast
    rw [lineCount] at hpast
    omega
  rw [edited, Splice.edited_past _ h.tail.after hends, flatten_lines, List.flatMap_map]
  rfl

/-- The first operation, with its place, is one of the text that the others leave. -/
theorem InOrder.first_alone {o : EditOperation} (h : InOrder source (o :: ops))
    (hplace : Anchored source (o :: ops)) :
    Boundary (edited source ops) o.start ∧ Boundary (edited source ops) o.end_ ∧
      edited (edited source ops) [o] = edited source (o :: ops) := by
  obtain ⟨-, hstart, hend, hle⟩ := h.resolves o List.mem_cons_self
  have hcons : (lines (edited source ops)).take o.onLines.last = (lines source).take o.onLines.last →
      edited (edited source ops) [o] = edited source (o :: ops) := fun htake =>
    Splice.edited_cons h.after h.resolves.bounds htake (flatten_lines _)
  by_cases hline : o.end_.line ≤ lineCount source
  · have hm : o.onLines.last < lineCount source := by
      have hne := o.end_.line_ne
      change o.end_.line - 1 < _
      omega
    obtain ⟨htake, hlt⟩ := h.tail.take_lines hm h.later
    exact ⟨hstart.of_take (Nat.sub_le_sub_right hle 1) htake hlt, hend.of_take le_rfl htake hlt,
      hcons htake⟩
  · -- the others put nothing, and take nothing
    have hsame : edited source ops = source := by
      rw [h.edited_past (Nat.lt_of_not_le hline), List.flatMap_eq_nil_iff.2 (hplace.resolve_left hline),
        List.append_nil]
    rw [hsame] at hcons ⊢
    exact ⟨hstart, hend, hcons rfl⟩

/-- Where the others put something at its end, that is no boundary any more. -/
theorem InOrder.anchored {o : EditOperation} (h : InOrder source (o :: ops))
    (hend : Boundary (edited source ops) o.end_) : Anchored source (o :: ops) := by
  by_cases hline : o.end_.line ≤ lineCount source
  · exact .inl hline
  have hpast := Nat.lt_of_not_le hline
  obtain ⟨-, -, hend', -⟩ := h.resolves o List.mem_cons_self
  have hlast : o.end_.line - 1 = (lines source).length := by
    have := hend'.line_le
    rw [lineCount] at this hpast
    omega
  rw [h.edited_past hpast] at hend
  refine .inr (List.flatMap_eq_nil_iff.1 ?_)
  by_contra hne
  have hlt : source.length < Lines.start (lines (source ++ ops.flatMap EditOperation.content))
      (lines source).length := Lines.length_lt_start source hne
  have hbyte := hend.byte_eq
  rw [hend'.byte_eq, hlast] at hbyte
  rw [lineStart, lineStart, Lines.start_of_length_le _ le_rfl, flatten_lines] at hbyte
  exact absurd hbyte hlt.ne

/-! ## One by one -/

/-- One operation as an edit of its own, on the text there is by then. -/
def editAlone (contentId : Bytes → SnapshotId) (granted : Bool) (path : String) (operation : EditOperation)
    (text : Bytes) : Exec ProtocolError Bytes := do
  let snapshot : Snapshot contentId ← (Snapshot.fromBytes text).mapErr (snapshotProtocolError "edit" path)
  applyEditsFast granted snapshot ⟨path, snapshot.id, [operation]⟩

theorem editAlone_eq_ok {granted : Bool} {path : String} {o : EditOperation} {text out : Bytes} :
    editAlone contentId granted path o text = .ok out ↔ Accepts text [o] ∧ out = edited text [o] := by
  rw [editAlone, Exec.bind_eq_ok]
  constructor
  · rintro ⟨snapshot, hload, happly⟩
    have hbytes := (Snapshot.fromBytes_refines text).2.2 snapshot (Exec.mapErr_eq_ok.1 hload)
    rw [← hbytes.1, ← applyReferenceEdits_eq_ok]
    exact (applyEditsFast_eq_ok.1 happly).2
  · intro h
    refine ⟨.ofText ⟨text, h.1.text⟩ none, Exec.mapErr_eq_ok.2 (Snapshot.fromBytes_eq h.1.text), ?_⟩
    exact applyEditsFast_eq_ok.2 ⟨rfl, applyReferenceEdits_eq_ok.2 h⟩

/-- One operation between boundaries is accepted, unless it makes the text too long. -/
theorem accepts_singleton {o : EditOperation} {text : Bytes} (ht : IsText text) (hr : Resolves text [o]) :
    Accepts text [o] ↔ (edited text [o]).length ≤ maxFileBytes := by
  refine ⟨Accepts.size, fun hsize => ?_⟩
  have hcount : [o].length ≤ maxEditOperations := by
    rw [List.length_singleton]
    decide
  refine ⟨⟨le_rfl, hcount⟩, ht, fun p hp => (hr p hp).2, fun p hp => (hr p hp).1,
    List.pairwise_singleton _ _, ?_, hsize⟩
  intro p hp q hq hpi hqi
  rw [List.mem_singleton.1 hp] at hpi
  rw [List.mem_singleton.1 hq] at hqi
  exact absurd hpi hqi

/-- **In the order of the text, one by one from the last**: the outcome is that of the batch, where no
    text on the way is too long and each operation still has its place. -/
theorem InOrder.alone_iff (h : InOrder source ops) (ht : IsText source) {granted : Bool} {path : String}
    {out : Bytes} : ops.foldrM (editAlone contentId granted path) source = .ok out ↔
      out = edited source ops ∧ ∀ late, late <:+ ops →
        (edited source late).length ≤ maxFileBytes ∧ Anchored source late := by
  induction ops generalizing out with
  | nil =>
    constructor
    · rintro ⟨⟩
      refine ⟨(edited_nil _).symm, fun late hlate => ?_⟩
      rw [List.suffix_nil.1 hlate, edited_nil]
      exact ⟨ht.size, trivial⟩
    · rintro ⟨rfl, -⟩
      rw [edited_nil]
      rfl
  | cons o ops ih =>
    obtain ⟨hcontent, -, -, hle⟩ := h.resolves o List.mem_cons_self
    rw [List.foldrM_cons, Exec.bind_eq_ok]
    constructor
    · rintro ⟨text, hlater, hlast⟩
      obtain ⟨rfl, hways⟩ := (ih h.tail).1 hlater
      obtain ⟨haccepts, rfl⟩ := editAlone_eq_ok.1 hlast
      have hplace := h.anchored (haccepts.boundaries o List.mem_cons_self).2.1
      obtain ⟨-, -, hcons⟩ := h.first_alone hplace
      refine ⟨hcons, fun late hlate => ?_⟩
      rcases List.suffix_cons_iff.1 hlate with rfl | hlate
      · exact ⟨hcons ▸ haccepts.size, hplace⟩
      · exact hways late hlate
    · rintro ⟨rfl, hways⟩
      have hlater := fun late hlate => hways late (List.IsSuffix.trans hlate (List.suffix_cons o ops))
      have htext := edited_isText ht (fun p hp => (h.tail.resolves p hp).1) (hlater ops List.suffix_rfl).1
      obtain ⟨hsize, hplace⟩ := hways _ List.suffix_rfl
      obtain ⟨hstart, hend, hcons⟩ := h.first_alone hplace
      have haccepts := (accepts_singleton htext
        (List.forall_mem_singleton.2 ⟨hcontent, hstart, hend, hle⟩)).2 (hcons ▸ hsize)
      exact ⟨_, (ih h.tail).2 ⟨rfl, hlater⟩, editAlone_eq_ok.2 ⟨haccepts, hcons.symm⟩⟩

/-! ## Any batch, arranged -/

/-- Where an operation stands in the text: an insertion before what replaces the line. -/
def EditOperation.standing (o : EditOperation) : ℕ ×ₗ ℕ :=
  toLex (o.onLines.first, (!o.onLines.isInsertion).toNat)

instance : Std.Total fun o p : EditOperation => o.standing ≤ p.standing := ⟨fun _ _ => le_total _ _⟩

instance : IsTrans EditOperation fun o p => o.standing ≤ p.standing := ⟨fun _ _ _ h h' => le_trans h h'⟩

/-- The batch in the order of the text. -/
def inTextOrder (ops : List EditOperation) : List EditOperation :=
  ops.insertionSort fun o p => o.standing ≤ p.standing

theorem inTextOrder_perm (ops : List EditOperation) : (inTextOrder ops).Perm ops :=
  List.perm_insertionSort _ _

theorem EditOperation.standing_of_insertsAt {o : EditOperation} {p : Position} (h : o.insertsAt p) :
    o.standing = toLex (p.line - 1, 0) := by
  obtain ⟨hstart, hend⟩ := of_decide_eq_true h
  have hi : o.onLines.isInsertion = true := Splice.Op.isInsertion_iff.2 (by
    change o.start.line - 1 = o.end_.line - 1
    rw [hstart, hend])
  rw [standing, hi]
  exact congrArg (fun q : Position => toLex (q.line - 1, 0)) hstart

/-- The arrangement keeps the order of the insertions at one position. -/
theorem inTextOrder_rearranged (ops : List EditOperation) : Rearranged ops (inTextOrder ops) := by
  refine ⟨(inTextOrder_perm ops).symm, fun p => ?_⟩
  have hsorted : (ops.filter (EditOperation.insertsAt p)).Pairwise fun o q => o.standing ≤ q.standing := by
    refine List.pairwise_of_forall_mem_list fun o ho q hq => ?_
    rw [EditOperation.standing_of_insertsAt (List.mem_filter.1 ho).2,
      EditOperation.standing_of_insertsAt (List.mem_filter.1 hq).2]
  have hsub := (List.sublist_insertionSort hsorted List.filter_sublist).filter (EditOperation.insertsAt p)
  simp only [List.filter_filter, Bool.and_self] at hsub
  exact hsub.eq_of_length ((inTextOrder_perm ops).filter _).length_eq.symm

/-- An accepted batch, arranged, is in order. -/
theorem Accepts.inOrder (h : Accepts source ops) : InOrder source (inTextOrder ops) := by
  have hperm := inTextOrder_perm ops
  have hr : Resolves source (inTextOrder ops) := fun o ho => h.resolves o (hperm.mem_iff.1 ho)
  have hclash := (pairwise_not_clash_iff.2 ⟨h.covered, h.inside⟩).perm hperm.symm fun hn hc => hn hc.symm
  have hstands := List.pairwise_insertionSort (fun o p : EditOperation => o.standing ≤ p.standing) ops
  refine ⟨hr, List.pairwise_map.2 ((hstands.and hclash).imp_of_mem fun {o p} _ hp ⟨hle, hn⟩ => ?_)⟩
  rw [EditOperation.standing, EditOperation.standing, Prod.Lex.toLex_le_toLex] at hle
  refine Splice.after_of_not_clash (Nat.sub_le_sub_right (hr p hp).2.2.2 1) hn ?_ fun he hi => ?_
  · rcases hle with hlt | ⟨heq, -⟩
    · exact hlt.le
    · exact heq.le
  · rcases hle with hlt | ⟨-, hle⟩
    · exact absurd he hlt.ne
    · rw [hi] at hle
      by_contra hpi
      rw [Bool.not_eq_false] at hpi
      rw [hpi] at hle
      exact absurd hle (Nat.not_succ_le_zero 0)

/-- **A batch is its operations one by one**: of a batch that is applied, the operations in the order of
    the text and done from the last, each an edit of its own on what the one before it left, leave what
    the batch leaves and nothing else; they fail only where a text on the way is too long, or where
    something was put at the end of the text, at which an operation before it ends too. -/
theorem batch_in_turn {granted : Bool} {snapshot : Snapshot contentId} {request : EditRequest} {out : Bytes}
    (hout : applyEditsFast granted snapshot request = .ok out) (path : String) :
    Rearranged request.edits (inTextOrder request.edits) ∧
      InOrder snapshot.bytes (inTextOrder request.edits) ∧
      ∀ out',
        (inTextOrder request.edits).foldrM (editAlone contentId granted path) snapshot.bytes = .ok out' ↔
          out' = out ∧ ∀ late, late <:+ inTextOrder request.edits →
            (edited snapshot.bytes late).length ≤ maxFileBytes ∧ Anchored snapshot.bytes late := by
  obtain ⟨haccepts, rfl⟩ := applyReferenceEdits_eq_ok.1 (applyEditsFast_eq_ok.1 hout).2
  have hclash := pairwise_not_clash_iff.2 ⟨haccepts.covered, haccepts.inside⟩
  have hre := inTextOrder_rearranged request.edits
  have horder := haccepts.inOrder
  refine ⟨hre, horder, fun out' => ?_⟩
  rw [horder.alone_iff haccepts.text, hre.edited_eq haccepts.resolves hclash]

/-- Two insertions after a line and its replacement between them, one by one. -/
theorem batch_in_turn_line :
    let p : Position := ⟨1, 0, by decide, by decide, by decide⟩
    let q : Position := ⟨2, 2, by decide, by decide, by decide⟩
    let ops : List EditOperation := [.replace q q ⟨[98], by decide⟩, .replace p q ⟨[99, 10], by decide⟩,
      .replace q q ⟨[100], by decide⟩]
    (inTextOrder ops).foldrM (editAlone (fun _ => ⟨0⟩) true "f") [97, 10, 101] =
      .ok [99, 10, 98, 100, 101] := by
  intro p q ops
  have hways : ∀ late ∈ (inTextOrder ops).tails,
      (edited [97, 10, 101] late).length ≤ maxFileBytes ∧ Anchored [97, 10, 101] late := by
    decide
  have hturn := @batch_in_turn (fun _ => ⟨0⟩) true (.ofText ⟨[97, 10, 101], by decide⟩ none)
    ⟨"f", ⟨0⟩, ops⟩ [99, 10, 98, 100, 101] (by decide) "f"
  exact (hturn.2.2 _).2 ⟨rfl, fun late hlate => hways late ((List.mem_tails _ _).2 hlate)⟩

end Hashline
