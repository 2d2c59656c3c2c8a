/-
  Recovery payloads: where an error carries one, and what the header and the
  context lines in it say.
-/
import Hashline.Engine
import Hashline.Read

namespace Hashline

open Machine

/-- Any value, any error. -/
def Anything {α : Type} (_ : α) : Prop := True

/-! ## Payloads in their places -/

/-- Payloads are present where they belong and only there, short, and the flag is the code's. -/
structure ProtocolError.Consistent (e : ProtocolError) : Prop where
  conflict : e.code = .snapshotConflict ↔ e.conflict.isSome
  existing : e.code = .alreadyExists ↔ e.existing.isSome
  conflictLines : ∀ c ∈ e.conflict, c.context.length ≤ conflictContextLines
  existingLines : ∀ x ∈ e.existing, x.context.length ≤ conflictContextLines
  retryable : e.retryable = e.code.retryable

/-- A header and context lines of the bytes. -/
structure Describes (contentId : Bytes → SnapshotId) (bytes : Bytes) (header : SnapshotHeader)
    (context : List ContextLine) : Prop where
  identity : header.snapshot = contentId bytes
  lineCount : header.lines = Hashline.lineCount bytes
  byteLen : header.bytes = bytes.length
  context : ∀ row ∈ context, ∃ line, 1 ≤ line ∧
    line ≤ Hashline.lineCount bytes ∧ row.view = lineView bytes line

/-- Whatever payload the error carries is of the bytes. -/
def ProtocolError.Tells (contentId : Bytes → SnapshotId) (bytes : Bytes) (e : ProtocolError) : Prop :=
  (∀ c ∈ e.conflict, Describes contentId bytes c.currentHeader c.context) ∧
    ∀ x ∈ e.existing, Describes contentId bytes x.currentHeader x.context

section
variable {contentId : Bytes → SnapshotId} {bytes : Bytes}

/-- Codes that come without a payload. -/
def ErrorCode.Plain (code : ErrorCode) : Prop := code ≠ .snapshotConflict ∧ code ≠ .alreadyExists

theorem ProtocolError.consistent_new {code : ErrorCode} (h : code.Plain) (message : String) :
    (ProtocolError.new code message).Consistent where
  conflict := by simp [ProtocolError.new, h.1]
  existing := by simp [ProtocolError.new, h.2]
  conflictLines := by simp [ProtocolError.new]
  existingLines := by simp [ProtocolError.new]
  retryable := rfl

theorem ProtocolError.tells_new (code : ErrorCode) (message : String) :
    (ProtocolError.new code message).Tells contentId bytes :=
  ⟨by simp [ProtocolError.new], by simp [ProtocolError.new]⟩

/-- A consistent error without a payload. -/
structure ProtocolError.Bare (e : ProtocolError) : Prop where
  consistent : e.Consistent
  conflict : e.conflict = none
  existing : e.existing = none

theorem ProtocolError.bare_new {code : ErrorCode} (h : code.Plain) (message : String) :
    (ProtocolError.new code message).Bare := ⟨consistent_new h message, rfl, rfl⟩

theorem ContractError.plain_code (e : ContractError) : e.code.Plain := by
  cases e <;> exact ⟨by simp [ContractError.code], by simp [ContractError.code]⟩

theorem snapshotProtocolError_consistent (operation path : String) (e : SnapshotError) :
    (snapshotProtocolError operation path e).Consistent := by
  have hio : ErrorCode.io.Plain := ⟨by decide, by decide⟩
  cases e with
  | contract error => exact ProtocolError.consistent_new error.plain_code _
  | io _ _ source =>
    refine ProtocolError.consistent_new ?_ _
    split_ifs
    · exact ⟨by decide, by decide⟩
    · exact hio
  | concurrentModification | allocation | lineCountOverflow | offsets =>
    exact ProtocolError.consistent_new hio _

theorem snapshotProtocolError_tells (operation path : String) (e : SnapshotError) :
    (snapshotProtocolError operation path e).Tells contentId bytes := by
  cases e <;> exact ProtocolError.tells_new _ _

theorem snapshotProtocolError_bare (operation path : String) (e : SnapshotError) :
    (snapshotProtocolError operation path e).Bare := by
  refine ⟨snapshotProtocolError_consistent operation path e, ?_, ?_⟩ <;> cases e <;> rfl

theorem ContractError.bare (e : ContractError) : (ProtocolError.ofContract e).Bare :=
  ProtocolError.bare_new e.plain_code _

/-- An error of a decision about the bytes. -/
def ProtocolError.Decided (contentId : Bytes → SnapshotId) (bytes : Bytes) (e : ProtocolError) :
    Prop := e.Consistent ∧ e.Tells contentId bytes

theorem ContractError.decided (e : ContractError) :
    (ProtocolError.ofContract e).Decided contentId bytes :=
  ⟨ProtocolError.consistent_new e.plain_code _, ProtocolError.tells_new _ _⟩

/-- A contract error is no payload. -/
theorem meets_ofContract {α : Type} {V : α → Prop} {r : Exec ContractError α}
    (h : r.Meets V fun _ => True) :
    (r.mapErr ProtocolError.ofContract).Meets V (ProtocolError.Decided contentId bytes) :=
  h.mapErr fun e _ => e.decided

end

/-! ## The header and the context of a text -/

theorem meets_validateText (bytes : Bytes) :
    (validateText bytes).Meets (fun text => IsText bytes ∧ text.bytes = bytes) fun _ => True := by
  rcases h : validateText bytes with (e | _) | text
  · trivial
  · exact noPanic_validateText bytes h
  · exact validateText_eq_ok.1 h

theorem meets_referenceHeader (path : String) (snapshot : SnapshotId) (bytes : Bytes) :
    (referenceHeader path snapshot bytes).Meets (fun header => IsText bytes ∧
      header = ⟨path, snapshot, lineCount bytes, bytes.length⟩) fun _ => True := by
  by_cases ht : IsText bytes
  · rw [referenceHeader_of_isText ht]
    exact ⟨ht, rfl⟩
  · refine (meets_validateText bytes).bind fun text h => absurd h.1 ht

/-- One line of the context of a text. -/
theorem contextLine_eq {bytes : Bytes} (ht : IsText bytes) {line : ℕ} (h : 1 ≤ line)
    (hl : line ≤ lineCount bytes) : ∃ row,
      contextLine bytes (referenceLineStarts bytes) line = .ok row ∧ row.view = lineView bytes line := by
  obtain ⟨k, rfl⟩ : ∃ k, line = k + 1 := ⟨line - 1, by omega⟩
  have hfit := add_two_le_u64Max ht.size
  have hcount := lineCount_le bytes
  have hstart := lineStart_le bytes k
  have hend : (referenceLineStarts bytes)[k + 1]?.getD bytes.length = lineStart bytes (k + 1) := by
    rw [referenceLineStarts_getElem? ht.size]
    split_ifs with hk
    · rfl
    · rw [show k + 1 = lineCount bytes by omega, lineStart_lineCount]; rfl
  have hat : (referenceLineStarts bytes)[k]? = some (lineStart bytes k) := by
    rw [referenceLineStarts_getElem? ht.size, if_pos (by omega)]
  have hpos : Position.ofParts (k + 1) (lineStart bytes k) =
      some ⟨k + 1, lineStart bytes k, by omega, by omega, by omega⟩ :=
    dif_pos ⟨by omega, by omega, by omega⟩
  refine ⟨⟨⟨k + 1, lineStart bytes k, by omega, by omega, by omega⟩, displayed bytes k⟩, ?_, rfl⟩
  rw [contextLine, Exec.sub_eq_ok.2 ⟨h, rfl⟩, Exec.ok_bind, Nat.add_sub_cancel, hat]
  show (do
    let content ← Exec.expect (Utf8.get bytes (lineStart bytes k)
      (contentEnd bytes (lineStart bytes k) ((referenceLineStarts bytes)[k + 1]?.getD bytes.length)))
    let position ← Exec.expect (Position.ofParts (k + 1) (lineStart bytes k))
    Except.ok (⟨position, content⟩ : ContextLine)) = _
  rw [hend, get_line ht.utf8 (by omega), hpos]; rfl

/-- The centre of a context, within the text. -/
def contextCentre (bytes : Bytes) (centerLine : ℕ) : ℕ := max 1 (min centerLine (lineCount bytes))

/-- The first and the last line of a context. -/
def contextFirst (bytes : Bytes) (centerLine : ℕ) : ℕ := max 1 (contextCentre bytes centerLine - 2)

def contextLast (bytes : Bytes) (centerLine : ℕ) : ℕ :=
  min (lineCount bytes) (contextCentre bytes centerLine + 2)

/-- **The context of a text**: its lines from two above the centre to two below. -/
theorem referenceContext_window {bytes : Bytes} (ht : IsText bytes) (centerLine : ℕ) :
    ∃ context, referenceContext bytes centerLine = .ok context ∧
      context.map ContextLine.view = (List.range' (contextFirst bytes centerLine)
        (contextLast bytes centerLine + 1 - contextFirst bytes centerLine)).map (lineView bytes) := by
  rw [referenceContext, ht.validate]
  simp only [Exec.ok_bind, length_referenceLineStarts ht.size]
  have hpos := lineCount_pos bytes
  have hcount := lineCount_le bytes
  have hsize : bytes.length ≤ maxFileBytes := ht.size
  have hroom : contextCentre bytes centerLine + 2 ≤ u64Max := by
    simp only [contextCentre, maxFileBytes, i64Max, u64Max] at *
    omega
  have hend : min (saturatingAdd (max 1 (min centerLine (lineCount bytes))) 2) (lineCount bytes) =
      contextLast bytes centerLine := by
    rw [← contextCentre, saturatingAdd_of_le hroom, contextLast, Nat.min_comm]
  have hstart : max (max (max 1 (min centerLine (lineCount bytes)) - 2) 1)
      (max (contextLast bytes centerLine - 4) 1) = contextFirst bytes centerLine := by
    rw [← contextCentre, contextFirst, contextLast]
    omega
  rw [hend, hstart]
  refine Exec.mapM_view _ _ _ _ fun line hline => ?_
  rw [List.mem_range'_1, contextFirst, contextLast] at hline
  exact contextLine_eq ht (by omega) (by omega)

/-- A context is at most five of the lines. -/
theorem referenceContext_eq {bytes : Bytes} (ht : IsText bytes) (centerLine : ℕ) :
    ∃ context, referenceContext bytes centerLine = .ok context ∧
      context.length ≤ conflictContextLines ∧ ∀ row ∈ context, ∃ line, 1 ≤ line ∧
        line ≤ lineCount bytes ∧ row.view = lineView bytes line := by
  obtain ⟨rows, hrows, hview⟩ := referenceContext_window ht centerLine
  have hpos := lineCount_pos bytes
  have hlen := congrArg List.length hview
  rw [List.length_map, List.length_map, List.length_range', contextFirst, contextLast,
    contextCentre] at hlen
  refine ⟨rows, hrows, by rw [hlen, conflictContextLines]; omega, fun row hrow => ?_⟩
  have hmem := List.mem_map_of_mem (f := ContextLine.view) hrow
  rw [hview, List.mem_map] at hmem
  obtain ⟨line, hline, hv⟩ := hmem
  rw [List.mem_range'_1, contextFirst, contextLast] at hline
  exact ⟨line, by omega, by omega, hv.symm⟩

theorem meets_referenceContext (bytes : Bytes) (centerLine : ℕ) :
    (referenceContext bytes centerLine).Meets (fun context =>
      context.length ≤ conflictContextLines ∧ ∀ row ∈ context, ∃ line, 1 ≤ line ∧
        line ≤ lineCount bytes ∧ row.view = lineView bytes line) fun _ => True := by
  by_cases ht : IsText bytes
  · obtain ⟨context, hcontext, hrows⟩ := referenceContext_eq ht centerLine
    rw [hcontext]
    exact hrows
  · refine (meets_validateText bytes).bind fun text h => absurd h.1 ht

/-! ## The decisions about one identified text -/

section
variable {contentId : Bytes → SnapshotId} {bytes : Bytes}

/-- A conflict built from the header and the context of the bytes. -/
theorem meets_conflictError {path : String} {requested : SnapshotId} {context : List ContextLine}
    (hlen : context.length ≤ conflictContextLines) (hrows : ∀ row ∈ context, ∃ line, 1 ≤ line ∧
      line ≤ lineCount bytes ∧ row.view = lineView bytes line) :
    (conflictError requested ⟨path, contentId bytes, lineCount bytes, bytes.length⟩ context).Meets
      (ProtocolError.Decided contentId bytes) fun _ => False := by
  rw [conflictError, ProtocolError.snapshotConflict, if_neg (by omega)]
  refine ⟨⟨by simp, by simp, fun c hc => ?_, by simp, rfl⟩, fun c hc => ?_, by simp⟩
  · cases hc; exact hlen
  · cases hc; exact ⟨rfl, rfl, rfl, hrows⟩

theorem meets_alreadyExists {path message : String} {context : List ContextLine}
    (hlen : context.length ≤ conflictContextLines) (hrows : ∀ row ∈ context, ∃ line, 1 ≤ line ∧
      line ≤ lineCount bytes ∧ row.view = lineView bytes line) :
    ((ProtocolError.alreadyExists ⟨path, contentId bytes, lineCount bytes, bytes.length⟩ context
      message).mapErr ProtocolError.ofContract).Meets (ProtocolError.Decided contentId bytes) fun _ => False := by
  rw [ProtocolError.alreadyExists, if_neg (by omega)]
  refine ⟨⟨by simp, by simp, by simp, fun x hx => ?_, rfl⟩, by simp, fun x hx => ?_⟩
  · cases hx; exact hlen
  · cases hx; exact ⟨rfl, rfl, rfl, hrows⟩

/-- Fail with an error that is built. -/
theorem meets_bind_fail {α : Type} {r : Exec ProtocolError ProtocolError} {V : α → Prop}
    {E : ProtocolError → Prop} (h : r.Meets E fun _ => False) :
    (r >>= fun error => (Exec.fail error : Exec ProtocolError α)).Meets V E :=
  (h.mono (fun _ he => he) fun _ hf => hf.elim).bind fun _ he => he

/-- **The versioned edit**: its errors have the payloads they should, of the text it is decided
    against. -/
theorem meets_applyVersionedReferenceEdits (request : EditRequest) :
    (applyVersionedReferenceEdits bytes (contentId bytes) request).Meets IsText
      (ProtocolError.Decided contentId bytes) := by
  refine (meets_ofContract request.noPanic_validate.meets).bind fun _ _ => ?_
  refine (meets_ofContract (meets_referenceHeader _ _ _)).bind fun header hheader => ?_
  obtain ⟨ht, rfl⟩ := hheader
  split_ifs with hs
  · refine (meets_ofContract (meets_referenceContext bytes _)).bind fun context hcontext => ?_
    exact meets_bind_fail (meets_conflictError hcontext.1 hcontext.2)
  · refine meets_ofContract ?_
    rcases h : applyReferenceEdits bytes request.edits with (e | _) | out
    · trivial
    · exact noPanic_applyReferenceEdits _ _ h
    · exact (applyReferenceEdits_isText h).2

/-- **The cursor.** -/
theorem meets_validateReferenceCursor (path : String) (cursor : PageCursor) :
    (validateReferenceCursor path bytes (contentId bytes) cursor).Meets (fun _ => True)
      (ProtocolError.Decided contentId bytes) := by
  refine (meets_ofContract (meets_referenceHeader _ _ _)).bind fun header hheader => ?_
  obtain ⟨ht, rfl⟩ := hheader
  split_ifs with hs
  · refine (meets_ofContract (meets_referenceContext bytes _)).bind fun context hcontext => ?_
    exact meets_bind_fail (meets_conflictError hcontext.1 hcontext.2)
  · refine (meets_ofContract (V := fun _ => True) ?_).bind fun _ _ => trivial
    refine (meets_validateText bytes).bind fun text htext => ?_
    refine (noPanic_boundaryOrdinal _ _ _).meets.bind fun _ _ => trivial

/-- **The write.** -/
theorem meets_validateReferenceWrite (request : WriteRequest) :
    (validateReferenceWrite (some (bytes, contentId bytes)) request).Meets (fun _ => True)
      (ProtocolError.Decided contentId bytes) := by
  refine (meets_ofContract request.noPanic_validate.meets).bind fun _ _ => ?_
  rcases request.expect with _ | requested
  · refine (meets_ofContract (meets_referenceHeader _ _ _)).bind fun header hheader => ?_
    obtain ⟨ht, rfl⟩ := hheader
    refine (meets_ofContract (meets_referenceContext bytes _)).bind fun context hcontext => ?_
    exact meets_bind_fail (meets_alreadyExists hcontext.1 hcontext.2)
  · show Exec.Meets _ _ (if requested ≠ contentId bytes then _ else _)
    split_ifs with hs
    · refine (meets_ofContract (meets_referenceHeader _ _ _)).bind fun header hheader => ?_
      obtain ⟨ht, rfl⟩ := hheader
      refine (meets_ofContract (meets_referenceContext bytes _)).bind fun context hcontext => ?_
      exact meets_bind_fail (meets_conflictError hcontext.1 hcontext.2)
    · trivial

/-- A write that finds no file has no payload in its errors. -/
theorem meets_validateReferenceWrite_none (request : WriteRequest) :
    (validateReferenceWrite none request).Meets (fun _ => True) ProtocolError.Bare := by
  refine (request.noPanic_validate.meets.mapErr fun e _ => e.bare).bind fun _ _ => ?_
  rcases request.expect with _ | requested
  · trivial
  · exact ProtocolError.bare_new ⟨by decide, by decide⟩ _

end

end Hashline
