/-
  The cursor of a read: the fast check decides as the reference rules do, and
  what the tool makes of each cursor.
-/
import Hashline.Addressing
import Hashline.Payload
import Hashline.Tools

namespace Hashline

open Machine

variable {contentId : Bytes → SnapshotId}

/-! ## The fast check -/

/-- The position is where a logical line starts: it is not the terminal boundary. -/
def Snapshot.StartsLine (s : Snapshot contentId) (p : Position) : Prop :=
  p.line ≤ s.lineCount ∧ p.byte = Hashline.lineStart s.bytes (p.line - 1)

instance (s : Snapshot contentId) (p : Position) : Decidable (s.StartsLine p) :=
  inferInstanceAs (Decidable (_ ∧ _))

section
variable (s : Snapshot contentId)

/-- A boundary is the start of a line or the terminal one, the only one past the last line. -/
theorem Snapshot.startsLine_iff {p : Position} :
    s.StartsLine p ↔ Boundary s.bytes p ∧ p.line ≤ s.lineCount := by
  have hp := p.line_ne
  have hc := s.lineCount_eq'
  constructor
  · rintro ⟨hl, hb⟩
    exact ⟨.inl ⟨p.line - 1, by omega, by omega, hb⟩, hl⟩
  · rintro ⟨hB, hl⟩
    exact ⟨hl, hB.byte_eq⟩

/-- What the offsets accept is a boundary, and so it is accepted when they can be built. -/
theorem Snapshot.boundary_of_validateBoundary {granted : Bool} {p : Position}
    (h : (s.validateBoundary granted p).isOk) : Boundary s.bytes p := by
  cases granted with
  | true =>
    rcases s.boundaryOrdinal_cases p with ⟨hB, -⟩ | ⟨-, ho, -⟩
    · exact hB
    · rw [Snapshot.validateBoundary, ho] at h; cases h
  | false =>
    rcases s.offsets_eq false with ⟨hf, -⟩ | ⟨-, ho⟩
    · cases hf
    · rw [Snapshot.validateBoundary, Snapshot.boundaryOrdinal, ho] at h; cases h

theorem validateReferencePosition_of_not_boundary {p : Position} (h : ¬Boundary s.bytes p) :
    validateReferencePosition s.bytes p = Exec.fail (.invalidPosition p) := by
  rcases s.boundaryOrdinal_cases p with ⟨hB, -⟩ | ⟨-, -, hr⟩
  · exact absurd hB h
  · exact hr

/-- The conflict of a stale cursor: the current header and the lines around its position. -/
def staleCursor (path : String) (cursor : PageCursor) (context : List ContextLine) : ProtocolError :=
  ⟨.snapshotConflict, snapshotConflictMessage, true,
    some ⟨cursor.snapshot, ⟨path, s.id, s.lineCount, s.byteLen⟩, context⟩, none⟩

/-- **The reference rules on a cursor**: another identity is a conflict wherever it points, and then
    the position has to be a boundary. -/
theorem validateReferenceCursor_eq (path : String) (cursor : PageCursor) :
    ∃ context, referenceContext s.bytes cursor.next.line = .ok context ∧
      validateReferenceCursor path s.bytes s.id cursor =
        if cursor.snapshot ≠ s.id then Exec.fail (staleCursor s path cursor context)
        else (validateReferencePosition s.bytes cursor.next).mapErr .ofContract >>=
          fun _ => .ok cursor.next := by
  obtain ⟨context, hcontext, hlen, -⟩ := referenceContext_eq s.isText cursor.next.line
  have herr : conflictError cursor.snapshot ⟨path, s.id, lineCount s.bytes, s.bytes.length⟩ context =
      .ok (staleCursor s path cursor context) := by
    rw [conflictError, ProtocolError.snapshotConflict, if_neg (by omega), staleCursor,
      s.lineCount_eq', s.byteLen_eq]
    rfl
  refine ⟨context, hcontext, ?_⟩
  rw [validateReferenceCursor, referenceHeader_of_isText s.isText, hcontext]
  show (if cursor.snapshot ≠ s.id then conflictError _ _ context >>= _ else _) = _
  rw [herr]; rfl

/-- **The fast check is the reference check**: the same line, or the same error. -/
theorem validateCursorOnSnapshot_refines (granted : Bool) (path : String) (cursor : PageCursor) :
    validateCursorOnSnapshot granted s path cursor =
      Position.line <$> validateReferenceCursor path s.bytes s.id cursor := by
  unfold validateCursorOnSnapshot
  split_ifs with h
  · obtain ⟨hid, hok⟩ := h
    obtain ⟨context, -, hr⟩ := validateReferenceCursor_eq s path cursor
    have hB := s.boundary_of_validateBoundary hok
    rw [hr, if_neg (not_not.2 hid), s.validateReferencePosition_eq_ok.2 hB]
    rfl
  · rfl

end

/-! ## What a read makes of its cursor -/

/-- A cursor that names a line of its own snapshot starts a page there. -/
theorem renderSnapshotPage_startsLine (quote : String → String) (s : Snapshot contentId)
    (path : String) {p : Position} (h : s.StartsLine p) {limit : ℕ} (hl : 1 ≤ limit)
    (hmax : limit ≤ maxPageLines) : ∃ page : Page,
      renderSnapshotPage quote true s path p.line limit = .ok (page.render quote) ∧
        page.Shows s p.line (min (p.line + limit - 1) s.lineCount) := by
  have hp := p.line_ne
  obtain ⟨page, hpage, hshows⟩ := snapshotPage_shows s path (by omega) h.1 hl hmax
  refine ⟨page, ?_, hshows⟩
  rw [renderSnapshotPage, hpage]; rfl

/-- Where the offsets cannot be built no page is rendered. -/
theorem renderSnapshotPage_refused (quote : String → String) (s : Snapshot contentId) (path : String)
    (startLine limit : ℕ) : renderSnapshotPage quote false s path startLine limit =
      Exec.fail (.offsets (.capacity s.lineCount)) := by
  have hheader : (SnapshotHeader.new path s.id s.lineCount s.byteLen).mapErr SnapshotError.contract =
      .ok ⟨path, s.id, s.lineCount, s.byteLen⟩ := Exec.mapErr_eq_ok.2 (s.header_new path)
  rcases s.offsets_eq false with ⟨hf, -⟩ | ⟨-, ho⟩
  · cases hf
  · rw [renderSnapshotPage, snapshotPage, hheader, ho]; rfl

/-- **A read with a cursor**: a conflict, with the current header and context, exactly for another
    identity, wherever it points; otherwise the page at the line it names exactly when it names the
    start of one, and an invalid position for all else, the terminal boundary too. That page fails
    only where the offsets cannot be built. -/
theorem cursor_decides {h : Host} (quote : String → String) (path : PathBuf)
    (s : Snapshot h.contentId) (input : ReadRequest) (cursor : PageCursor) :
    (∀ granted path, validateCursorOnSnapshot granted s path cursor =
      Position.line <$> validateReferenceCursor path s.bytes s.id cursor) ∧
    (∃ context, referenceContext s.bytes cursor.next.line = .ok context ∧
      Read.answer quote path { input with cursor := some cursor } s = do
        let granted ← Op.reserve s.lineCount
        if cursor.snapshot ≠ s.id then Proc.fail (staleCursor s input.path cursor context)
        else if s.StartsLine cursor.next then
          Read.maybeBlocking (decide (s.byteLen > Read.blockingReadBytes)) path
            (Proc.ofExec ((renderSnapshotPage quote granted s input.path cursor.next.line
              input.limit.toNat).mapErr (snapshotProtocolError "read" path.display)))
        else Proc.fail (.ofContract (.invalidPosition cursor.next))) ∧
    (s.StartsLine cursor.next → 1 ≤ input.limit.toNat → input.limit.toNat ≤ maxPageLines →
      ∃ page : Page, renderSnapshotPage quote true s input.path cursor.next.line input.limit.toNat =
          .ok (page.render quote) ∧
        page.Shows s cursor.next.line
          (min (cursor.next.line + input.limit.toNat - 1) s.lineCount)) ∧
    renderSnapshotPage quote false s input.path cursor.next.line input.limit.toNat =
      Exec.fail (.offsets (.capacity s.lineCount)) := by
  refine ⟨fun granted path => validateCursorOnSnapshot_refines s granted path cursor, ?_,
    fun hstart => renderSnapshotPage_startsLine quote s input.path hstart,
    renderSnapshotPage_refused quote s _ _ _⟩
  obtain ⟨context, hcontext, href⟩ := validateReferenceCursor_eq s input.path cursor
  refine ⟨context, hcontext, ?_⟩
  unfold Read.answer
  refine congrArg (Op.reserve s.lineCount >>= ·) (funext fun granted => ?_)
  simp only [pageStart, validateCursorOnSnapshot_refines, href]
  by_cases hid : cursor.snapshot = s.id
  · rw [if_neg (not_not.2 hid), if_neg (not_not.2 hid)]
    by_cases hB : Boundary s.bytes cursor.next
    · rw [s.validateReferencePosition_eq_ok.2 hB]
      show (if cursor.next.line > s.lineCount then _ else _) = _
      by_cases hl : cursor.next.line ≤ s.lineCount
      · rw [if_neg (by omega), if_pos (s.startsLine_iff.2 ⟨hB, hl⟩)]
      · rw [if_pos (by omega), if_neg fun hs => hl hs.1]
    · rw [validateReferencePosition_of_not_boundary s hB,
        if_neg fun hs => hB (s.startsLine_iff.1 hs).1]
      rfl
  · rw [if_pos hid, if_pos hid]; rfl

end Hashline
