/-
  The fast apply engine: positions resolved through the offsets of a snapshot,
  the reference model wherever that does not succeed.
-/
import Hashline.Snapshot
import Hashline.Versioned

namespace Hashline

open Machine

variable {contentId : Bytes → SnapshotId}

/-! ## The engine -/

/-- One validated operation, of the reference model's shape. -/
abbrev FastEdit := ValidatedEdit

def FastEdit.isInsertion (e : FastEdit) : Bool := ValidatedEdit.isInsertion e

/-- The same predicate as the reference model's `editsOverlap`. -/
def overlaps (left right : FastEdit) : Bool :=
  match FastEdit.isInsertion left, FastEdit.isInsertion right with
  | false, false =>
    left.startOrdinal < right.endOrdinal && right.startOrdinal < left.endOrdinal
  | true, false =>
    right.startOrdinal < left.startOrdinal && left.startOrdinal < right.endOrdinal
  | false, true =>
    left.startOrdinal < right.startOrdinal && right.startOrdinal < left.endOrdinal
  | true, true => false

/-- The loop over the pairs `left < right`. -/
def anyOverlaps : List FastEdit → Bool
  | [] => false
  | left :: rest => rest.any (overlaps left) || anyOverlaps rest

/-- Resolve a position to its ordinal and byte. `None` is the only failure of the fast path. -/
def resolveBoundary (granted : Bool) (snapshot : Snapshot contentId) (position : Position) :
    Exec Unit (ℕ × ℕ) := do
  if position.line ≤ snapshot.lineCount then
    let start ← match snapshot.lineStart granted position.line with
      | .ok (some start) => .ok start
      | .error .panic => Exec.panic
      | _ => Exec.fail ()
    if start ≠ position.byte then Exec.fail ()
    else .ok (← Exec.sub position.line 1, position.byte)
  else
    let terminal ← Exec.okOr () (checkedAdd snapshot.lineCount 1)
    if position.line = terminal ∧ position.byte = snapshot.byteLen then
      .ok (snapshot.lineCount, position.byte)
    else Exec.fail ()

/-- One round of the validation loop of `tryFast`. -/
def fastEdit (granted : Bool) (snapshot : Snapshot contentId) (index : ℕ)
    (operation : EditOperation) : Exec Unit FastEdit := do
  if (nulPosition operation.content).isSome then Exec.fail ()
  else
    let (startOrdinal, startByte) ← resolveBoundary granted snapshot operation.start
    let (endOrdinal, endByte) ← resolveBoundary granted snapshot operation.end_
    if startOrdinal > endOrdinal then Exec.fail ()
    else .ok ⟨index, startOrdinal, endOrdinal, startByte, endByte, operation.content⟩

/-- The validation loop of `tryFast` from request index `index` on. -/
def fastEdits (granted : Bool) (snapshot : Snapshot contentId) :
    ℕ → List EditOperation → Exec Unit (List FastEdit)
  | _, [] => .ok []
  | index, operation :: rest => do
    let first ← fastEdit granted snapshot index operation
    let others ← fastEdits granted snapshot (index + 1) rest
    .ok (first :: others)

/-- What `tryFast` does once the batch is validated: the pairs, the two folds, the sort and the loop
    of the splice. -/
def trySplice (source : Bytes) (validated : List FastEdit) : Exec Unit Bytes :=
  if anyOverlaps validated then Exec.fail ()
  else do
    let removed ← removedLength (fun _ => ()) validated
    let added ← addedLength (fun _ => ()) validated
    let finalLength ← Exec.okOr ()
      ((checkedSub source.length removed).bind fun length => checkedAdd length added)
    (validateFileSize finalLength).mapErr fun _ => ()
    spliceFrom source 0 [] (validated.insertionSort ValidatedEdit.Before)

/-- The fully-valid fast path; an error lets the reference model decide. -/
def tryFast (granted : Bool) (snapshot : Snapshot contentId) (request : EditRequest) :
    Exec Unit Bytes := do
  request.validate.mapErr fun _ => ()
  if request.snapshot ≠ snapshot.id then Exec.fail ()
  else
    let validated ← fastEdits granted snapshot 0 request.edits
    trySplice snapshot.bytes validated

def applyEditsFast (granted : Bool) (snapshot : Snapshot contentId) (request : EditRequest) :
    Exec ProtocolError Bytes :=
  match tryFast granted snapshot request with
  | .ok applied => .ok applied
  | .error .panic => Exec.panic
  | .error (.err _) => applyVersionedReferenceEdits snapshot.bytes snapshot.id request

/-! ## The fast path agrees with the reference model -/

theorem overlaps_eq (left right : FastEdit) : overlaps left right = editsOverlap left right := rfl

theorem anyOverlaps_eq (validated : List FastEdit) :
    anyOverlaps validated = (firstOverlap validated).isSome := by
  induction validated with
  | nil => rfl
  | cons left rest ih =>
    have hany : rest.any (overlaps left) = (rest.find? (editsOverlap left)).isSome := by
      rw [funext (overlaps_eq left), List.isSome_find?]
    rw [anyOverlaps, firstOverlap, hany, ih]
    cases rest.find? (editsOverlap left) with
    | none => rfl
    | some right => rfl

/-- **The fast path splices as the reference model does**, with no error to tell. -/
theorem trySplice_eq (source : Bytes) (validated : List FastEdit) :
    trySplice source validated = spliceValidated (fun _ => ()) source validated := by
  unfold trySplice spliceValidated
  rw [anyOverlaps_eq]
  cases firstOverlap validated with
  | none => rfl
  | some pair => rfl

section
variable {granted : Bool} {snapshot : Snapshot contentId}

/-- **A position resolved by the fast path is a boundary**; nothing panics on the way. -/
theorem resolveBoundary_spec (granted : Bool) (snapshot : Snapshot contentId) (p : Position) :
    resolveBoundary granted snapshot p = Exec.fail () ∨
      (Boundary snapshot.bytes p ∧
        resolveBoundary granted snapshot p = .ok (p.line - 1, p.byte)) := by
  have hp := p.line_ne
  have hu := add_two_le_u64Max snapshot.isText.size
  have hc := lineCount_le snapshot.bytes
  have hn := snapshot.lineCount_eq'
  unfold resolveBoundary
  by_cases hl : p.line ≤ snapshot.lineCount
  · rw [if_pos hl]
    rcases snapshot.lineStart_eq granted hp hl with ⟨-, hs⟩ | ⟨-, e, hs⟩
    · rw [hs]
      by_cases hb : Hashline.lineStart snapshot.bytes (p.line - 1) = p.byte
      · refine .inr ⟨.inl ⟨p.line - 1, by omega, by omega, hb.symm⟩, ?_⟩
        show (if _ ≠ p.byte then _ else _) = _
        rw [if_neg (not_not.2 hb), (Exec.sub_eq_ok (c := p.line - 1)).2 ⟨by omega, rfl⟩]; rfl
      · refine .inl ?_
        show (if _ ≠ p.byte then _ else _) = _
        rw [if_pos hb]
    · rw [hs]; exact .inl rfl
  · rw [if_neg hl, (checkedAdd_eq_some (c := snapshot.lineCount + 1)).2 ⟨rfl, by omega⟩]
    show (if p.line = snapshot.lineCount + 1 ∧ p.byte = snapshot.byteLen then _ else _) = _ ∨ _ ∧
      (if p.line = snapshot.lineCount + 1 ∧ p.byte = snapshot.byteLen then _ else _) = _
    split_ifs with hb
    · refine .inr ⟨.inr ⟨by omega, by rw [hb.2, snapshot.byteLen_eq]; rfl⟩, ?_⟩
      rw [hb.1, Nat.add_sub_cancel]
    · exact .inl rfl

theorem fastEdit_spec (granted : Bool) (snapshot : Snapshot contentId) (index : ℕ)
    (o : EditOperation) : fastEdit granted snapshot index o = Exec.fail () ∨
      (Resolves snapshot.bytes [o] ∧ fastEdit granted snapshot index o = .ok (.of o index)) := by
  unfold fastEdit
  rcases hz : nulPosition o.content with _ | byte
  · rw [if_neg (by simp)]
    rcases resolveBoundary_spec granted snapshot o.start with hs | ⟨hB, hs⟩
    · rw [hs]; exact .inl rfl
    rcases resolveBoundary_spec granted snapshot o.end_ with he | ⟨hB', he⟩
    · rw [hs, he]; exact .inl rfl
    rw [hs, he]
    show (if o.start.line - 1 > o.end_.line - 1 then _ else _) = _ ∨ _ ∧
      (if o.start.line - 1 > o.end_.line - 1 then _ else _) = _
    have := o.start.line_ne
    have := o.end_.line_ne
    split_ifs with hlt
    · exact .inl rfl
    · refine .inr ⟨fun o' ho' => ?_, rfl⟩
      rw [List.mem_singleton] at ho'; subst ho'
      exact ⟨nulPosition_eq_none.1 hz, hB, hB', by omega⟩
  · exact .inl rfl

/-- **The validation loop of the fast path resolves the batch, or gives up.** -/
theorem fastEdits_spec (granted : Bool) (snapshot : Snapshot contentId)
    (operations : List EditOperation) : ∀ index,
    fastEdits granted snapshot index operations = Exec.fail () ∨
      (Resolves snapshot.bytes operations ∧
        fastEdits granted snapshot index operations = .ok (resolved index operations)) := by
  induction operations with
  | nil => intro _; exact .inr ⟨by simp [Resolves], rfl⟩
  | cons o os ih =>
    intro index
    rw [fastEdits]
    rcases fastEdit_spec granted snapshot index o with h | ⟨hr, h⟩
    · rw [h]; exact .inl rfl
    rcases ih (index + 1) with h' | ⟨hrs, h'⟩
    · rw [h, h']; exact .inl rfl
    rw [h, h']
    exact .inr ⟨List.forall_mem_cons.2 ⟨hr o List.mem_cons_self, hrs⟩, rfl⟩

/-- **What the fast path returns, the reference model returns.** -/
theorem tryFast_spec (granted : Bool) (snapshot : Snapshot contentId) (request : EditRequest) :
    tryFast granted snapshot request = Exec.fail () ∨ ∃ out,
      tryFast granted snapshot request = .ok out ∧
        applyVersionedReferenceEdits snapshot.bytes snapshot.id request = .ok out := by
  unfold tryFast
  rcases (Exec.noPanic_mapErr (f := fun _ => ()) request.noPanic_validate).fail_or_ok with
    hv | ⟨⟨⟩, hv⟩
  · rw [hv]; exact .inl rfl
  rw [hv]
  by_cases hs : request.snapshot = snapshot.id
  · rcases fastEdits_spec granted snapshot request.edits 0 with he | ⟨hr, he⟩
    · refine .inl ?_
      show (if request.snapshot ≠ snapshot.id then _ else _) = _
      rw [if_neg (not_not.2 hs), he]; rfl
    have hrun : (do
        if request.snapshot ≠ snapshot.id then Exec.fail ()
        else
          let validated ← fastEdits granted snapshot 0 request.edits
          trySplice snapshot.bytes validated) =
        spliceValidated (fun _ => ()) snapshot.bytes (resolved 0 request.edits) := by
      rw [if_neg (not_not.2 hs), he]
      exact trySplice_eq _ _
    show (if request.snapshot ≠ snapshot.id then _ else _) = _ ∨ ∃ out,
      (if request.snapshot ≠ snapshot.id then _ else _) = _ ∧ _
    rw [hrun]
    rcases (noPanic_spliceValidated hr.fits (resolved_indices _ _)).fail_or_ok with h | ⟨out, h⟩
    · exact .inl h
    · refine .inr ⟨out, h, applyVersionedReferenceEdits_eq_ok.2 ⟨hs, ?_⟩⟩
      have hcount := (EditRequest.validate_eq_ok.1 (Exec.mapErr_eq_ok.1 hv)).1
      rw [spliceValidated_resolved snapshot.isText.size hr] at h
      exact applyReferenceEdits_iff.2 ⟨hcount, snapshot.isText, hr,
        (spliceValidated_resolved snapshot.isText.size hr).2 h⟩
  · refine .inl ?_
    show (if request.snapshot ≠ snapshot.id then _ else _) = _
    rw [if_pos hs]

/-- **The fast engine is the reference model**: same bytes, same error, whether or not the offsets
    could be built. -/
theorem applyEditsFast_eq (granted : Bool) (snapshot : Snapshot contentId) (request : EditRequest) :
    applyEditsFast granted snapshot request =
      applyVersionedReferenceEdits snapshot.bytes snapshot.id request := by
  unfold applyEditsFast
  rcases tryFast_spec granted snapshot request with h | ⟨out, h, href⟩
  · rw [h]; rfl
  · rw [h, href]

/-- **Refinement.** The fast engine computes what the reference model computes, and the fast path
    succeeds only with the reference model. -/
theorem applyEditsFast_refines (granted : Bool) (snapshot : Snapshot contentId)
    (request : EditRequest) :
    applyEditsFast granted snapshot request =
      applyVersionedReferenceEdits snapshot.bytes snapshot.id request ∧
    (tryFast granted snapshot request = Exec.fail () ∨ ∃ out,
      tryFast granted snapshot request = .ok out ∧
        applyVersionedReferenceEdits snapshot.bytes snapshot.id request = .ok out) :=
  ⟨applyEditsFast_eq granted snapshot request, tryFast_spec granted snapshot request⟩

/-! ## The unsafe constructor -/

theorem applyEditsFast_eq_ok {request : EditRequest} {out : Bytes} :
    applyEditsFast granted snapshot request = .ok out ↔
      request.snapshot = snapshot.id ∧ applyReferenceEdits snapshot.bytes request.edits = .ok out := by
  rw [applyEditsFast_eq, applyVersionedReferenceEdits_eq_ok]

/-- **The contract of the unsafe constructor is met**: what either engine returns is a text, of
    which both constructors make the same snapshot. -/
theorem applied_isText (granted : Bool) (snapshot : Snapshot contentId) (request : EditRequest)
    (source : Bytes) (operations : List EditOperation) {out : Bytes}
    (h : applyReferenceEdits source operations = .ok out ∨
      applyEditsFast granted snapshot request = .ok out) :
    IsText out ∧ ∃ s : Snapshot contentId,
      Snapshot.fromValidatedBytes out = .ok s ∧ Snapshot.fromBytes out = .ok s := by
  have ht : IsText out := by
    rcases h with h | h
    · exact (applyReferenceEdits_isText h).2
    · exact (applyReferenceEdits_isText (applyEditsFast_eq_ok.1 h).2).2
  exact ⟨ht, _, Snapshot.fromValidatedBytes_eq ht, Snapshot.fromBytes_eq ht⟩

/-- A line inserted, one replaced and the last deleted, by either engine: the text has line feeds,
    a CR LF and characters of two and three bytes. -/
theorem applied_isText_batch :
    let source : Bytes := [195, 169, 10, 98, 13, 10, 230, 151, 165]
    let first : Position := ⟨1, 0, by decide, by decide, by decide⟩
    let second : Position := ⟨2, 3, by decide, by decide, by decide⟩
    let third : Position := ⟨3, 6, by decide, by decide, by decide⟩
    let last : Position := ⟨4, 9, by decide, by decide, by decide⟩
    let operations : List EditOperation := [.replace second third ⟨[195, 188, 10], by decide⟩,
      .replace third last ⟨[], by decide⟩, .replace first first ⟨[97, 10], by decide⟩]
    let out : Bytes := [97, 10, 195, 169, 10, 195, 188, 10]
    let snapshot : Snapshot fun _ => ⟨0⟩ := .ofText ⟨source, by decide⟩ none
    applyReferenceEdits source operations = .ok out ∧
      applyEditsFast true snapshot ⟨"f", ⟨0⟩, operations⟩ = .ok out ∧
      applyEditsFast false snapshot ⟨"f", ⟨0⟩, operations⟩ = .ok out ∧
      IsText out ∧ ∃ s : Snapshot fun _ => ⟨0⟩,
        Snapshot.fromValidatedBytes out = .ok s ∧ Snapshot.fromBytes out = .ok s := by
  intro source first second third last operations out snapshot
  have href : applyReferenceEdits source operations = .ok out := by decide +kernel
  have hfast : ∀ granted, applyEditsFast granted snapshot ⟨"f", ⟨0⟩, operations⟩ = .ok out :=
    fun _ => applyEditsFast_eq_ok.2 ⟨rfl, href⟩
  exact ⟨href, hfast true, hfast false,
    applied_isText true snapshot ⟨"f", ⟨0⟩, operations⟩ source operations (.inr (hfast true))⟩

end

end Hashline
