/-
  The protocol's data: identities, positions, requests, results and the
  error taxonomy.
-/
import Hashline.Lib.Machine
import Hashline.Lib.Utf8

namespace Hashline

open Machine

/-! ## Limits -/

def maxPageLines : ℕ := 2000
def maxEditOperations : ℕ := 1024
def maxGrepMatches : ℕ := 200
def maxGlobResults : ℕ := 1000
def maxContextLines : ℕ := 2000
def maxFileBytes : ℕ := i64Max
def conflictContextLines : ℕ := 5

/-! ## Tokens -/

/-- A Rust string: well-formed UTF-8. -/
structure Str where
  bytes : Bytes
  utf8 : Utf8.Valid bytes

instance : DecidableEq Str := fun a b =>
  decidable_of_iff (a.bytes = b.bytes) ⟨fun h => by cases a; cases b; cases h; rfl, fun h => h ▸ rfl⟩

def hexDigit (n : ℕ) : Char := if n < 10 then Char.ofNat (48 + n) else Char.ofNat (87 + n)

/-- An opaque identity for one exact byte sequence. -/
structure SnapshotId where
  value : BitVec 128
  deriving DecidableEq

/-- `{:032x}`. -/
def SnapshotId.display (s : SnapshotId) : String :=
  String.ofList ((List.range 32).reverse.map fun k => hexDigit (s.value.toNat / 16 ^ k % 16))

/-- A line number and a byte offset, both `u64`, the line never zero. -/
structure Position where
  line : ℕ
  byte : ℕ
  line_ne : line ≠ 0
  line_le : line ≤ u64Max
  byte_le : byte ≤ u64Max
  deriving DecidableEq

@[ext] theorem Position.ext {p q : Position} (h₁ : p.line = q.line) (h₂ : p.byte = q.byte) :
    p = q := by cases p; cases q; cases h₁; cases h₂; rfl

/-- The position of a line and a byte that fit `u64`. -/
def Position.ofParts (line byte : ℕ) : Option Position :=
  if h : line ≠ 0 ∧ line ≤ u64Max ∧ byte ≤ u64Max then some ⟨line, byte, h.1, h.2.1, h.2.2⟩
  else none

def Position.display (p : Position) : String := s!"{p.line}@{p.byte}"

/-! ## Requests -/

/-- The sole edit operation. -/
inductive EditOperation where
  | replace (start end_ : Position) (content : Str)
  deriving DecidableEq

namespace EditOperation

def start : EditOperation → Position | replace s _ _ => s
def end_ : EditOperation → Position | replace _ e _ => e
def content : EditOperation → Bytes | replace _ _ c => c.bytes

theorem content_valid : ∀ op : EditOperation, Utf8.Valid op.content
  | replace _ _ c => c.utf8

end EditOperation

structure EditRequest where
  filePath : String
  snapshot : SnapshotId
  edits : List EditOperation
  deriving DecidableEq

/-- The destination precondition named by one write request. -/
inductive WriteExpect where
  | absent
  | snapshot (id : SnapshotId)
  deriving DecidableEq

structure WriteRequest where
  filePath : String
  content : Str
  expect : WriteExpect
  deriving DecidableEq

/-- Cursor for the next read page in the same exact snapshot. -/
structure PageCursor where
  snapshot : SnapshotId
  next : Position
  deriving DecidableEq

structure ReadRequest where
  path : String
  limit : UInt16
  cursor : Option PageCursor
  startLine : Option UInt64
  deriving DecidableEq

/-- Output shape of one grep response. -/
inductive GrepOutputMode where
  | content
  | filesWithMatches
  | count
  deriving DecidableEq, Repr

structure GrepRequest where
  pattern : String
  path : Option String
  glob : Option String
  ignoreCase : Bool
  beforeContext : Option UInt16
  afterContext : Option UInt16
  context : Option UInt16
  maxMatches : UInt16
  outputMode : GrepOutputMode
  deriving DecidableEq

/-- Context counts before and after, where `context` overrides both. -/
def GrepRequest.effectiveContext (r : GrepRequest) : UInt16 × UInt16 :=
  match r.context with
  | some context => (context, context)
  | none => (r.beforeContext.getD 0, r.afterContext.getD 0)

structure GlobRequest where
  pattern : String
  path : Option String
  maxResults : UInt16
  deriving DecidableEq

/-! ## Errors -/

/-- Stable classification for recognized-tool errors. -/
inductive ErrorCode where
  | invalidRequest
  | invalidSnapshot
  | invalidPosition
  | invalidRange
  | overlappingEdits
  | invalidUtf8
  | binaryFile
  | fileTooLarge
  | notFound
  | notAFile
  | permissionDenied
  | rootEscape
  | snapshotConflict
  | alreadyExists
  | invalidPattern
  | io
  deriving DecidableEq, Repr

/-- Whether retrying after refreshing external state can succeed. -/
def ErrorCode.retryable : ErrorCode → Bool
  | notFound | permissionDenied | snapshotConflict | alreadyExists | io => true
  | _ => false

/-- Errors of request validation and of the reference model. -/
inductive ContractError where
  | invalidReadLimit (limit : UInt16)
  | invalidGrepLimit (limit : UInt16)
  | invalidContextLimit (limit : UInt16)
  | invalidGlobLimit (limit : UInt16)
  | contextOutsideContentMode
  | zeroStartLine
  | startLineWithCursor
  | emptyEditBatch
  | tooManyEdits (operations : ℕ)
  | nulReplacement (index byte : ℕ)
  | nulWriteContent (byte : ℕ)
  | nulFile (byte : ℕ)
  | invalidUtf8 (validUpTo : ℕ)
  | fileTooLarge (bytes : ℕ)
  | invalidLineCount
  | invalidPosition (position : Position)
  | reversedRange (start end_ : Position)
  | overlappingEdits (first second : ℕ)
  | outputLengthOverflow
  | tooManyConflictLines (lines : ℕ)
  deriving DecidableEq

namespace ContractError

def message : ContractError → String
  | invalidReadLimit limit => s!"read limit must be in 1..={maxPageLines}, got {limit}"
  | invalidGrepLimit limit => s!"grep max_matches must be in 1..={maxGrepMatches}, got {limit}"
  | invalidContextLimit limit => s!"grep context must be <= {maxContextLines}, got {limit}"
  | invalidGlobLimit limit => s!"glob max_results must be in 1..={maxGlobResults}, got {limit}"
  | contextOutsideContentMode => "grep context requires output_mode \"content\""
  | zeroStartLine => "read start_line must be at least 1"
  | startLineWithCursor => "read start_line cannot be combined with a cursor"
  | emptyEditBatch => "edit batch must contain at least one operation"
  | tooManyEdits operations =>
    s!"edit batch has {operations} operations; maximum is {maxEditOperations}"
  | nulReplacement index byte => s!"edit {index} replacement contains NUL at byte {byte}"
  | nulWriteContent byte => s!"write content contains NUL at byte {byte}"
  | nulFile byte => s!"file contains NUL at byte {byte}"
  | invalidUtf8 validUpTo => s!"file is invalid UTF-8 at byte {validUpTo}"
  | fileTooLarge bytes => s!"file has {bytes} bytes; maximum is {maxFileBytes}"
  | invalidLineCount => "snapshot line count must be at least one"
  | invalidPosition position =>
    s!"position {position.display} is not a valid boundary in the snapshot"
  | reversedRange start end_ => s!"range start {start.display} follows end {end_.display}"
  | overlappingEdits first second => s!"edit {first} overlaps edit {second}"
  | outputLengthOverflow => "edited output length overflowed"
  | tooManyConflictLines lines =>
    s!"snapshot conflict has {lines} context lines; maximum is {conflictContextLines}"

def code : ContractError → ErrorCode
  | invalidReadLimit _ | invalidGrepLimit _ | invalidContextLimit _ | invalidGlobLimit _
  | contextOutsideContentMode | zeroStartLine | startLineWithCursor | emptyEditBatch
  | tooManyEdits _ | invalidLineCount | tooManyConflictLines _ => .invalidRequest
  | nulReplacement .. | nulWriteContent _ | nulFile _ => .binaryFile
  | invalidUtf8 _ => .invalidUtf8
  | fileTooLarge _ | outputLengthOverflow => .fileTooLarge
  | invalidPosition _ => .invalidPosition
  | reversedRange .. => .invalidRange
  | overlappingEdits .. => .overlappingEdits

end ContractError

/-- `validate_file_size`. -/
def validateFileSize (bytes : ℕ) : Exec ContractError Unit :=
  if bytes > maxFileBytes then Exec.fail (.fileTooLarge bytes) else .ok ()

/-- Metadata preceding one file section. -/
structure SnapshotHeader where
  path : String
  snapshot : SnapshotId
  lines : ℕ
  bytes : ℕ
  deriving DecidableEq

def SnapshotHeader.new (path : String) (snapshot : SnapshotId) (lines bytes : ℕ) :
    Exec ContractError SnapshotHeader :=
  if lines = 0 then Exec.fail .invalidLineCount else do
    validateFileSize bytes
    .ok ⟨path, snapshot, lines, bytes⟩

/-- One fresh context line. -/
structure ContextLine where
  position : Position
  content : Bytes
  deriving DecidableEq

structure SnapshotConflict where
  requestedSnapshot : SnapshotId
  currentHeader : SnapshotHeader
  context : List ContextLine
  deriving DecidableEq

structure ExistingFile where
  currentHeader : SnapshotHeader
  context : List ContextLine
  deriving DecidableEq

/-- Structured failure for one recognized tool call. -/
structure ProtocolError where
  code : ErrorCode
  message : String
  retryable : Bool
  conflict : Option SnapshotConflict
  existing : Option ExistingFile
  deriving DecidableEq

namespace ProtocolError

def new (code : ErrorCode) (message : String) : ProtocolError :=
  ⟨code, message, code.retryable, none, none⟩

/-- `From<ContractError>`. -/
def ofContract (e : ContractError) : ProtocolError := new e.code e.message

def snapshotConflict (requested : SnapshotId) (header : SnapshotHeader)
    (context : List ContextLine) (message : String) : Exec ContractError ProtocolError :=
  if context.length > conflictContextLines then Exec.fail (.tooManyConflictLines context.length)
  else .ok ⟨.snapshotConflict, message, true, some ⟨requested, header, context⟩, none⟩

def alreadyExists (header : SnapshotHeader) (context : List ContextLine) (message : String) :
    Exec ContractError ProtocolError :=
  if context.length > conflictContextLines then Exec.fail (.tooManyConflictLines context.length)
  else .ok ⟨.alreadyExists, message, true, none, some ⟨header, context⟩⟩

end ProtocolError

def snapshotConflictMessage : String := "the file no longer matches the requested snapshot"
def alreadyExistsMessage : String := "the destination file already exists"

/-! ## Successes -/

structure EditSuccess where
  path : String
  previousSnapshot : SnapshotId
  snapshot : SnapshotId
  applied : ℕ
  bytes : ℕ
  lines : ℕ
  deriving DecidableEq

structure WriteSuccess where
  path : String
  snapshot : SnapshotId
  bytes : ℕ
  lines : ℕ
  created : Bool
  deriving DecidableEq

/-! ## Request validation -/

/-- `bytes().position(|byte| byte == 0)`. -/
def nulPosition (bs : Bytes) : Option ℕ := bs.findIdx? (· == 0)

def validateEditCount (count : ℕ) : Exec ContractError Unit :=
  if count = 0 then Exec.fail .emptyEditBatch
  else if count > maxEditOperations then Exec.fail (.tooManyEdits count)
  else .ok ()

/-- The loop of `EditRequest::validate` from request index `index` on. -/
def validateReplacements : ℕ → List EditOperation → Exec ContractError Unit
  | _, [] => .ok ()
  | index, op :: ops => match nulPosition op.content with
    | some byte => Exec.fail (.nulReplacement index byte)
    | none => validateReplacements (index + 1) ops

def EditRequest.validate (r : EditRequest) : Exec ContractError Unit := do
  validateEditCount r.edits.length
  validateReplacements 0 r.edits

def WriteRequest.validate (r : WriteRequest) : Exec ContractError Unit :=
  match nulPosition r.content.bytes with
  | some byte => Exec.fail (.nulWriteContent byte)
  | none => validateFileSize r.content.bytes.length

def ReadRequest.validate (r : ReadRequest) : Exec ContractError Unit :=
  if r.limit = 0 ∨ r.limit.toNat > maxPageLines then Exec.fail (.invalidReadLimit r.limit)
  else if r.startLine = some 0 then Exec.fail .zeroStartLine
  else if r.startLine.isSome ∧ r.cursor.isSome then Exec.fail .startLineWithCursor
  else .ok ()

/-- The loop of `GrepRequest::validate` over the counts that are given. -/
def validateContextLimits : List UInt16 → Exec ContractError Unit
  | [] => .ok ()
  | value :: values =>
    if value.toNat > maxContextLines then Exec.fail (.invalidContextLimit value)
    else validateContextLimits values

def GrepRequest.validate (r : GrepRequest) : Exec ContractError Unit :=
  if r.maxMatches = 0 ∨ r.maxMatches.toNat > maxGrepMatches then
    Exec.fail (.invalidGrepLimit r.maxMatches)
  else do
    validateContextLimits ([r.beforeContext, r.afterContext, r.context].filterMap fun value => value)
    if r.outputMode ≠ .content ∧ (r.beforeContext.isSome ∨ r.afterContext.isSome ∨
        r.context.isSome) then Exec.fail .contextOutsideContentMode
    else .ok ()

def GlobRequest.validate (r : GlobRequest) : Exec ContractError Unit :=
  if r.maxResults = 0 ∨ r.maxResults.toNat > maxGlobResults then
    Exec.fail (.invalidGlobLimit r.maxResults)
  else .ok ()

/-! ## What validation accepts -/

@[simp] theorem validateFileSize_eq_ok {n : ℕ} {u : Unit} :
    validateFileSize n = .ok u ↔ n ≤ maxFileBytes := by
  unfold validateFileSize; split_ifs with h <;> simp <;> omega

@[simp] theorem validateEditCount_eq_ok {n : ℕ} {u : Unit} :
    validateEditCount n = .ok u ↔ 1 ≤ n ∧ n ≤ maxEditOperations := by
  unfold validateEditCount; split_ifs <;> simp <;> omega

@[simp] theorem nulPosition_eq_none {bs : Bytes} : nulPosition bs = none ↔ (0 : UInt8) ∉ bs := by
  rw [nulPosition, List.findIdx?_eq_none_iff]
  constructor
  · intro h h0; simpa using h 0 h0
  · intro h b hb; simp only [beq_eq_false_iff_ne]; rintro rfl; exact h hb

theorem validateReplacements_eq_ok {u : Unit} (ops : List EditOperation) :
    ∀ index, validateReplacements index ops = .ok u ↔ ∀ op ∈ ops, (0 : UInt8) ∉ op.content := by
  induction ops with
  | nil => simp [validateReplacements]
  | cons op ops ih =>
    intro index
    rw [validateReplacements]
    rcases h : nulPosition op.content with _ | byte
    · have h0 := nulPosition_eq_none.1 h
      simp only [ih, List.forall_mem_cons, h0, not_false_eq_true, true_and]
    · have h0 : (0 : UInt8) ∈ op.content := by
        by_contra h'; rw [nulPosition_eq_none.2 h'] at h; cases h
      simp [h0]

theorem noPanic_validateFileSize (n : ℕ) : (validateFileSize n).NoPanic := by
  unfold validateFileSize; split_ifs
  · exact Exec.noPanic_fail _
  · exact Exec.noPanic_ok _

theorem noPanic_validateReplacements (ops : List EditOperation) :
    ∀ index, (validateReplacements index ops).NoPanic := by
  induction ops with
  | nil => intro _; exact Exec.noPanic_ok _
  | cons op ops ih =>
    intro index
    rw [validateReplacements]
    split
    · exact Exec.noPanic_fail _
    · exact ih _

theorem noPanic_validateEditCount (count : ℕ) : (validateEditCount count).NoPanic := by
  unfold validateEditCount; split_ifs
  · exact Exec.noPanic_fail _
  · exact Exec.noPanic_fail _
  · exact Exec.noPanic_ok _

theorem EditRequest.noPanic_validate (r : EditRequest) : r.validate.NoPanic :=
  Exec.noPanic_bind (noPanic_validateEditCount _) fun _ _ => noPanic_validateReplacements _ _

theorem WriteRequest.noPanic_validate (r : WriteRequest) : r.validate.NoPanic := by
  unfold WriteRequest.validate
  split
  · exact Exec.noPanic_fail _
  · exact noPanic_validateFileSize _

theorem ReadRequest.noPanic_validate (r : ReadRequest) : r.validate.NoPanic := by
  unfold ReadRequest.validate; split_ifs
  · exact Exec.noPanic_fail _
  · exact Exec.noPanic_fail _
  · exact Exec.noPanic_fail _
  · exact Exec.noPanic_ok _

theorem noPanic_validateContextLimits (values : List UInt16) :
    (validateContextLimits values).NoPanic := by
  induction values with
  | nil => exact Exec.noPanic_ok _
  | cons value values ih =>
    rw [validateContextLimits]
    split_ifs
    · exact Exec.noPanic_fail _
    · exact ih

theorem GrepRequest.noPanic_validate (r : GrepRequest) : r.validate.NoPanic := by
  unfold GrepRequest.validate; split_ifs
  · exact Exec.noPanic_fail _
  · exact Exec.noPanic_bind (noPanic_validateContextLimits _) fun _ _ => Exec.noPanic_fail _
  · exact Exec.noPanic_bind (noPanic_validateContextLimits _) fun _ _ => Exec.noPanic_ok _

theorem GlobRequest.noPanic_validate (r : GlobRequest) : r.validate.NoPanic := by
  unfold GlobRequest.validate; split_ifs
  · exact Exec.noPanic_fail _
  · exact Exec.noPanic_ok _

end Hashline
