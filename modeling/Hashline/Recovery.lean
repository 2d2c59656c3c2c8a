/-
  The errors of the three pipelines: `read`, `edit` and `write`, from the load
  to the check before the rename.
-/
import Hashline.NoPanic

namespace Hashline

open Machine

variable {h : Host} {ε α : Type}

/-! ## Persisting -/

/-- A failure of the machine. -/
def PersistError.IsIo (e : PersistError) : Prop := ∃ operation path source, e = .io operation path source

theorem meets_ioErr {operation : String} {path : PathBuf} (r : Except IoError α) :
    (Proc.orElse (ioErr path operation) r : Op h PersistError α).Meets Anything PersistError.IsIo :=
  Proc.meets_orElse (fun _ _ => trivial) fun _ _ => ⟨_, _, _, rfl⟩

theorem meets_createParentOf (path : PathBuf) :
    (createParentOf path : Op h _ _).Meets Anything PersistError.IsIo := by
  unfold createParentOf
  split
  · exact Proc.meets_call fun _ => meets_ioErr _
  · trivial

theorem meets_discard {E : ε → Prop} (tempPath : PathBuf) :
    (discard tempPath : Op h ε Unit).Meets Anything E := Proc.meets_call fun _ => trivial

theorem meets_refuse {V : α → Prop} {E : PersistError → Prop} (tempPath : PathBuf)
    {error : PersistError} (he : E error) : (refuse tempPath error : Op h _ α).Meets V E :=
  Proc.meets_call fun _ => he

theorem meets_writeAll {E : ε → Prop} (f : ℕ) (bytes : Bytes) : ∀ rounds offset : ℕ,
    (writeAll f bytes rounds offset : Op h ε _).Meets Anything E
  | 0, _ => trivial
  | rounds + 1, offset => by
    rw [writeAll]
    split_ifs
    · trivial
    · refine Proc.meets_call fun a => ?_
      change Except IoError ℕ at a
      rcases a with e | n
      · trivial
      · exact meets_writeAll f bytes rounds _

theorem meets_flush (path : PathBuf) (f : ℕ) (durability : Durability) :
    (flush path f durability : Op h _ _).Meets Anything PersistError.IsIo := by
  cases durability with
  | full | barrier => exact Proc.meets_call fun _ => meets_ioErr _
  | none => trivial

theorem meets_writeTemp (tempPath path : PathBuf) (bytes : Bytes) (durability : Durability) :
    (writeTemp tempPath path bytes durability : Op h _ _).Meets Anything PersistError.IsIo := by
  refine Proc.meets_call fun a => (meets_ioErr _).bind fun f _ => ?_
  refine (meets_writeAll f bytes _ _).bind fun r _ => (meets_ioErr _).bind fun _ _ => ?_
  refine (meets_flush path f durability).bind fun _ _ => ?_
  exact Proc.meets_call fun a => (meets_ioErr _).bind fun metadata _ => fun _ => trivial

/-- **The temporary file is written, or the machine has failed.** -/
theorem meets_writeUniqueTemp (parent path : PathBuf) (bytes : Bytes) (durability : Durability) :
    (writeUniqueTemp parent path bytes durability : Op h _ _).Meets Anything PersistError.IsIo := by
  refine Proc.Meets.bind (V := Anything) (fun _ _ => trivial) fun name _ => ?_
  refine (meets_writeTemp _ path bytes durability).attempt_bind (fun stamp _ => trivial)
    fun e he => meets_refuse _ he

theorem meets_afterInstall {E : ε → Prop} (path : PathBuf) (stamp : FileStamp)
    (durability : Durability) : (afterInstall path stamp durability : Op h ε _).Meets Anything E := by
  have hconfirm : (confirmStamp path stamp : Op h ε _).Meets Anything E := by
    refine Proc.meets_call fun a => ?_
    change Except IoError Metadata at a
    rcases a with e | metadata
    · trivial
    · exact fun _ => trivial
  unfold afterInstall Decoder.afterInstall
  split_ifs
  · exact Proc.Meets.bind (V := Anything) (fun _ => trivial) fun _ _ => hconfirm
  · exact hconfirm

/-- **An exclusive create** fails where the machine does, or the destination exists. -/
theorem meets_createLocked (path : PathBuf) (bytes : Bytes) (durability : Durability) :
    (createLocked path bytes durability : Op h _ _).Meets Anything fun e =>
      e.IsIo ∨ e = .destinationExists path.display := by
  refine Proc.Meets.bind ((meets_createParentOf path).mono (fun _ h => h) fun _ => .inl) fun _ _ => ?_
  refine Proc.Meets.bind ((meets_writeUniqueTemp _ path bytes durability).mono (fun _ h => h)
    fun _ => .inl) fun written _ => ?_
  refine Proc.meets_call fun linked => (meets_discard _).bind fun _ _ => ?_
  change Except IoError Unit at linked
  rcases linked with e | _
  · show Proc.Meets _ _ (if _ then _ else _)
    split_ifs
    · exact .inr rfl
    · exact .inl ⟨_, _, _, rfl⟩
  · exact meets_afterInstall path _ durability

/-! ## The calls of a persist -/

/-- Calls that persist a file beside others. -/
def Call.Persists : Call h → Prop
  | .now | .fetchAdd | .createDirAll _ | .createNew _ | .write .. | .sync _ | .fstat _ | .stat _
  | .syncDir _ | .rename .. | .hardLink .. | .removeFile _ => True
  | _ => False

theorem createParentOf_persists (path : PathBuf) : (createParentOf path : Op h _ _).All Call.Persists := by
  unfold createParentOf
  split
  · exact (Proc.all_ask trivial).bind fun _ => Proc.all_orElse _ _
  · exact Proc.all_pure _

theorem discard_persists (tempPath : PathBuf) : (discard tempPath : Op h ε Unit).All Call.Persists :=
  (Proc.all_ask trivial).bind fun _ => Proc.all_pure _

theorem refuse_persists (tempPath : PathBuf) (error : PersistError) :
    (refuse tempPath error : Op h _ α).All Call.Persists :=
  (discard_persists tempPath).bind fun _ => Proc.all_fail _

theorem writeAll_persists (f : ℕ) (bytes : Bytes) : ∀ rounds offset : ℕ,
    (writeAll f bytes rounds offset : Op h ε _).All Call.Persists
  | 0, _ => Proc.all_pure _
  | rounds + 1, offset => by
    rw [writeAll]
    split_ifs
    · exact Proc.all_pure _
    · refine (Proc.all_ask trivial).bind fun a => ?_
      change Except IoError ℕ at a
      rcases a with e | n
      · exact Proc.all_pure _
      · exact writeAll_persists f bytes rounds _

theorem fromMetadata_persists (metadata : Metadata) : (Op.fromMetadata metadata : Op h ε _).All Call.Persists :=
  (Proc.all_ask trivial).bind fun _ => Proc.all_pure _

theorem writeTemp_persists (tempPath path : PathBuf) (bytes : Bytes) (durability : Durability) :
    (writeTemp tempPath path bytes durability : Op h _ _).All Call.Persists := by
  have hflush : ∀ f, (flush path f durability : Op h _ _).All Call.Persists := fun f => by
    cases durability with
    | full | barrier => exact (Proc.all_ask trivial).bind fun _ => Proc.all_orElse _ _
    | none => exact Proc.all_pure _
  refine (Proc.all_ask trivial).bind fun a => (Proc.all_orElse _ _).bind fun f => ?_
  refine (writeAll_persists f bytes _ _).bind fun r => (Proc.all_orElse _ _).bind fun _ => ?_
  refine (hflush f).bind fun _ => (Proc.all_ask trivial).bind fun a => ?_
  exact (Proc.all_orElse _ _).bind fun metadata => fromMetadata_persists metadata

theorem writeUniqueTemp_persists (parent path : PathBuf) (bytes : Bytes) (durability : Durability) :
    (writeUniqueTemp parent path bytes durability : Op h _ _).All Call.Persists := by
  refine ((Proc.all_ask trivial).bind fun _ => (Proc.all_ask trivial).bind fun _ =>
    Proc.all_pure _).bind fun name => ?_
  refine (writeTemp_persists _ path bytes durability).attempt.bind fun r => ?_
  rcases r with e | stamp
  · exact refuse_persists _ e
  · exact Proc.all_pure _

theorem afterInstall_persists (path : PathBuf) (stamp : FileStamp) (durability : Durability) :
    (afterInstall path stamp durability : Op h ε _).All Call.Persists := by
  have hconfirm : (confirmStamp path stamp : Op h ε _).All Call.Persists := by
    refine (Proc.all_ask trivial).bind fun a => ?_
    change Except IoError Metadata at a
    rcases a with e | metadata
    · exact Proc.all_pure _
    · exact (fromMetadata_persists metadata).bind fun _ => Proc.all_pure _
  unfold afterInstall Decoder.afterInstall
  split_ifs
  · exact ((Proc.all_ask trivial).bind fun _ => Proc.all_pure _).bind fun _ => hconfirm
  · exact hconfirm

theorem createLocked_persists (path : PathBuf) (bytes : Bytes) (durability : Durability) :
    (createLocked path bytes durability : Op h _ _).All Call.Persists := by
  refine (createParentOf_persists path).bind fun _ =>
    (writeUniqueTemp_persists _ path bytes durability).bind fun written => ?_
  refine (Proc.all_ask trivial).bind fun linked => (discard_persists _).bind fun _ => ?_
  change Except IoError Unit at linked
  rcases linked with e | _
  · dsimp only
    split_ifs <;> exact Proc.all_fail _
  · exact afterInstall_persists path _ durability

/-! ## Errors and their payloads -/

theorem PersistError.IsIo.bare {e : PersistError} (he : e.IsIo) : (persistProtocolError e).Bare := by
  obtain ⟨_, _, _, rfl⟩ := he
  exact ProtocolError.bare_new plain_io _

/-- The conflict of a missing file describes the empty text. -/
theorem meets_missingConflict (input : EditRequest) {empty : Snapshot h.contentId}
    (hid : empty.id = h.contentId []) :
    (Edit.missingConflict input empty).Meets (ProtocolError.Decided h.contentId [])
      ProtocolError.Bare := by
  unfold Edit.missingConflict
  refine ((meets_referenceHeader _ _ _).mapErr fun e _ => e.bare).bind fun header hheader => ?_
  obtain ⟨-, rfl⟩ := hheader
  have hdecided : ∀ rows : List ContextLine, rows.length ≤ conflictContextLines →
      (∀ row ∈ rows, ∃ line, 1 ≤ line ∧ line ≤ lineCount [] ∧ row.view = lineView [] line) →
      ProtocolError.Decided h.contentId [] ⟨.snapshotConflict, snapshotConflictMessage, true,
        some ⟨input.snapshot, ⟨input.filePath, empty.id, lineCount [], 0⟩, rows⟩, none⟩ := by
    intro rows hlen hrows
    refine ⟨⟨by simp, by simp, fun c hc => ?_, by simp, rfl⟩, fun c hc => ?_, by simp⟩
    · cases hc; exact hlen
    · cases hc; exact ⟨hid, rfl, rfl, hrows⟩
  have hcontext := meets_referenceContext [] 1
  rcases hr : referenceContext [] 1 with e | rows
  · dsimp only
    rw [ProtocolError.snapshotConflict, if_neg (by simp)]
    exact hdecided [] (by simp) (by simp)
  · rw [hr] at hcontext
    dsimp only
    rw [ProtocolError.snapshotConflict, if_neg (by have := hcontext.1; omega)]
    exact hdecided rows hcontext.1 hcontext.2

/-- The errors of an edit tell of the snapshot. -/
theorem meets_applyEditsFast (granted : Bool) (snapshot : Snapshot h.contentId) (input : EditRequest) :
    (applyEditsFast granted snapshot input).Meets Anything
      (ProtocolError.Decided h.contentId snapshot.bytes) := by
  rw [applyEditsFast_eq, show snapshot.id = h.contentId snapshot.bytes from snapshot.id_eq]
  exact (meets_applyVersionedReferenceEdits input).mono (fun _ _ => trivial) fun _ he => he

/-- A write over a snapshot: its errors have the payloads they should, of the snapshot. -/
theorem meets_writeOver (snapshot : Snapshot h.contentId) (input : WriteRequest) :
    (validateReferenceWrite (some (snapshot.bytes, snapshot.id)) input).Meets (fun _ => True)
      (ProtocolError.Decided h.contentId snapshot.bytes) := by
  rw [show snapshot.id = h.contentId snapshot.bytes from snapshot.id_eq]
  exact meets_validateReferenceWrite input

end Hashline
