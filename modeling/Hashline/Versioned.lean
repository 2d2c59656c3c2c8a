/-
  Requests decided against one identified byte sequence: the versioned edit,
  the page cursor and the write.
-/
import Hashline.Edits

namespace Hashline

/-- The structured conflict of a request for another snapshot. -/
def conflictError (requested : SnapshotId) (header : SnapshotHeader) (context : List ContextLine) :
    Exec ProtocolError ProtocolError :=
  (ProtocolError.snapshotConflict requested header context snapshotConflictMessage).mapErr
    .ofContract

def applyVersionedReferenceEdits (source : Bytes) (currentSnapshot : SnapshotId)
    (request : EditRequest) : Exec ProtocolError Bytes := do
  request.validate.mapErr .ofContract
  let currentHeader ←
    (referenceHeader request.filePath currentSnapshot source).mapErr .ofContract
  if request.snapshot ≠ currentSnapshot then
    let centerLine := (request.edits.head?.map fun edit => edit.start.line).getD 1
    let context ← (referenceContext source centerLine).mapErr .ofContract
    let error ← conflictError request.snapshot currentHeader context
    Exec.fail error
  else
    (applyReferenceEdits source request.edits).mapErr .ofContract

def validateReferenceCursor (path : String) (source : Bytes) (currentSnapshot : SnapshotId)
    (cursor : PageCursor) : Exec ProtocolError Position := do
  let currentHeader ← (referenceHeader path currentSnapshot source).mapErr .ofContract
  if cursor.snapshot ≠ currentSnapshot then
    let context ← (referenceContext source cursor.next.line).mapErr .ofContract
    let error ← conflictError cursor.snapshot currentHeader context
    Exec.fail error
  else do
    (validateReferencePosition source cursor.next).mapErr .ofContract
    .ok cursor.next

/-- Decide a write against the destination: whether it creates the file. -/
def validateReferenceWrite (current : Option (Bytes × SnapshotId)) (request : WriteRequest) :
    Exec ProtocolError Bool := do
  request.validate.mapErr .ofContract
  match request.expect, current with
  | .absent, none => .ok true
  | .absent, some (bytes, snapshot) => do
    let header ← (referenceHeader request.filePath snapshot bytes).mapErr .ofContract
    let context ← (referenceContext bytes 1).mapErr .ofContract
    let error ← (ProtocolError.alreadyExists header context alreadyExistsMessage).mapErr .ofContract
    Exec.fail error
  | .snapshot _, none => Exec.fail (.new .notFound
      s!"no file exists at {request.filePath}; use expect \"absent\" to create it")
  | .snapshot requested, some (bytes, currentSnapshot) =>
    if requested ≠ currentSnapshot then do
      let header ← (referenceHeader request.filePath currentSnapshot bytes).mapErr .ofContract
      let context ← (referenceContext bytes 1).mapErr .ofContract
      let error ← conflictError requested header context
      Exec.fail error
    else .ok false

/-! ## What the decisions accept -/

theorem referenceHeader_of_isText {path : String} {snapshot : SnapshotId} {bytes : Bytes}
    (h : IsText bytes) : referenceHeader path snapshot bytes =
      .ok ⟨path, snapshot, lineCount bytes, bytes.length⟩ := by
  rw [referenceHeader, h.validate]
  show SnapshotHeader.new path snapshot (referenceLineStarts bytes).length bytes.length = _
  rw [length_referenceLineStarts h.size, SnapshotHeader.new,
    if_neg (Nat.pos_iff_ne_zero.1 (lineCount_pos bytes)),
    (validateFileSize_eq_ok (u := ())).2 h.size]
  rfl

theorem EditRequest.validate_eq_ok {r : EditRequest} {u : Unit} : r.validate = .ok u ↔
    (1 ≤ r.edits.length ∧ r.edits.length ≤ maxEditOperations) ∧
      ∀ op ∈ r.edits, (0 : UInt8) ∉ op.content := by
  simp [EditRequest.validate, Exec.bind_eq_ok, validateReplacements_eq_ok]

theorem WriteRequest.validate_eq_ok {r : WriteRequest} {u : Unit} :
    r.validate = .ok u ↔ IsText r.content.bytes := by
  unfold WriteRequest.validate
  rcases h : nulPosition r.content.bytes with _ | byte
  · rw [validateFileSize_eq_ok]
    exact ⟨fun hs => ⟨hs, nulPosition_eq_none.1 h, r.content.utf8⟩, IsText.size⟩
  · simp only [Exec.fail_ne_ok, false_iff]
    intro ht; rw [nulPosition_eq_none.2 ht.nul] at h; cases h

/-- A versioned edit succeeds on its own snapshot only, as the reference model does. -/
theorem applyVersionedReferenceEdits_eq_ok {source : Bytes} {current : SnapshotId}
    {request : EditRequest} {out : Bytes} :
    applyVersionedReferenceEdits source current request = .ok out ↔
      request.snapshot = current ∧ applyReferenceEdits source request.edits = .ok out := by
  simp only [applyVersionedReferenceEdits, Exec.bind_eq_ok, Exec.mapErr_eq_ok,
    EditRequest.validate_eq_ok]
  constructor
  · rintro ⟨_, hv, _, hh, h⟩
    split_ifs at h with hs
    · simp [Exec.bind_eq_ok] at h
    · exact ⟨not_not.1 hs, by simpa using h⟩
  · rintro ⟨rfl, h⟩
    obtain ⟨hc, ht, hr, -⟩ := applyReferenceEdits_iff.1 h
    exact ⟨(), ⟨hc, fun o ho => (hr o ho).1⟩, _, referenceHeader_of_isText ht, by simpa using h⟩

/-- A write is accepted when it asks for an absent file and finds none, or for the identity it
    finds. -/
theorem validateReferenceWrite_eq_ok {current : Option (Bytes × SnapshotId)}
    {request : WriteRequest} {created : Bool} :
    validateReferenceWrite current request = .ok created ↔ IsText request.content.bytes ∧
      ((request.expect = .absent ∧ current = none ∧ created = true) ∨
        ∃ id bytes, request.expect = .snapshot id ∧ current = some (bytes, id) ∧
          created = false) := by
  simp only [validateReferenceWrite, Exec.bind_eq_ok, Exec.mapErr_eq_ok,
    WriteRequest.validate_eq_ok]
  constructor
  · rintro ⟨_, ht, h⟩
    refine ⟨ht, ?_⟩
    rcases he : request.expect with _ | id <;> rcases current with _ | ⟨bytes, cur⟩ <;>
      simp only [he] at h
    · cases h; exact .inl ⟨rfl, rfl, rfl⟩
    · simp [Exec.bind_eq_ok] at h
    · simp at h
    · split_ifs at h with hne
      · simp [Exec.bind_eq_ok] at h
      · cases h; rw [not_not] at hne; subst hne; exact .inr ⟨_, _, rfl, rfl, rfl⟩
  · rintro ⟨ht, ⟨he, rfl, rfl⟩ | ⟨id, bytes, he, rfl, rfl⟩⟩
    · exact ⟨(), ht, by rw [he]⟩
    · exact ⟨(), ht, by rw [he]; simp⟩

end Hashline
