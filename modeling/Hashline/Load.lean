/-
  Loading a snapshot: one descriptor per attempt, stamps before and after the
  read, and a second read where stamps are no proof.
-/
import Hashline.System

namespace Hashline

open Machine

variable {h : Host} {ε : Type}

def readBufferBytes : ℕ := 64 * 1024
def maxReadAttempts : ℕ := 2

/-- The longest vector there can be: `isize::MAX` bytes. -/
def maxVecBytes : ℕ := i64Max

namespace IoError

def outOfMemory : IoError := ⟨.other, "memory allocation of a vector failed"⟩

end IoError

/-! ## Reading whole files -/

/-- `take(limit).read_to_end(..)`; every round reads one byte at least, so `limit` rounds do. An
    interrupted read is made again by the library, and by the loop below: it is no answer here. -/
def readToEnd (f limit : ℕ) : ℕ → Bytes → Op h ε (Except IoError Bytes)
  | 0, bytes => pure (.ok bytes)
  | rounds + 1, bytes =>
    if limit ≤ bytes.length then pure (.ok bytes)
    else do
      match ← Op.read f bytes.length (limit - bytes.length) with
      | .ok chunk => if chunk = [] then pure (.ok bytes) else readToEnd f limit rounds (bytes ++ chunk)
      | .error source => pure (.error source)

theorem readToEnd_all (f limit : ℕ) : ∀ (rounds : ℕ) (bytes : Bytes),
    (readToEnd f limit rounds bytes : Op h ε _).All fun c => ∃ offset most, c = .read f offset most
  | 0, bytes => Proc.all_pure _
  | rounds + 1, bytes => by
    rw [readToEnd]
    split_ifs
    · exact Proc.all_pure _
    · refine Proc.All.bind (Proc.all_ask ⟨bytes.length, limit - bytes.length, rfl⟩) fun a => ?_
      change Except IoError Bytes at a
      rcases a with e | chunk
      · exact Proc.all_pure _
      · show Proc.All _ (if chunk = [] then _ else _)
        split_ifs
        · exact Proc.all_pure _
        · exact readToEnd_all f limit rounds _

/-- A whole file into a vector that is first reserved for `size` bytes. -/
def readVec (f size : ℕ) : Op h ε (Except IoError Bytes) := do
  if ← Op.reserve size then
    match ← readToEnd f (maxVecBytes + 1) (maxVecBytes + 1) [] with
    | .ok bytes => if maxVecBytes < bytes.length then pure (.error .outOfMemory) else pure (.ok bytes)
    | .error source => pure (.error source)
  else pure (.error .outOfMemory)

/-- `std::fs::read`. -/
def fsRead (path : PathBuf) : Op h ε (Except IoError Bytes) := do
  match ← Op.openRead path with
  | .error source => pure (.error source)
  | .ok f => do
    match ← Op.fstat f with
    | .ok metadata => readVec f metadata.len
    | .error _ => readVec f 0

namespace Snapshot

def ioError (path : PathBuf) (operation : String) (source : IoError) : SnapshotError :=
  .io operation path.display source

/-- One round's bytes: within the size policy, and with room for them. -/
def growBy (capacity : ℕ) (bytes chunk : Bytes) : Op h SnapshotError ℕ := do
  let newLen := bytes.length + chunk.length
  Proc.ofExec ((validateFileSize newLen).mapErr .contract)
  if newLen > capacity then
    if ← Op.reserve (newLen - bytes.length) then pure newLen else Proc.fail (.allocation newLen)
  else pure capacity

/-- The read loop of `read_candidate`: every round but the last reads a byte, and no more than the
    size policy allows, so the rounds never run out. -/
def readLoop (path : PathBuf) (f : ℕ) : ℕ → ℕ → Bytes → Op h SnapshotError Bytes
  | 0, _, bytes => Proc.fail (.contract (.fileTooLarge bytes.length))
  | rounds + 1, capacity, bytes => do
    let chunk ← Proc.orElse (ioError path "read") (← Op.read f bytes.length readBufferBytes)
    if chunk = [] then pure bytes
    else do
      let capacity ← growBy capacity bytes chunk
      readLoop path f rounds capacity (bytes ++ chunk)

/-- The stamp at the path, if there is a file. -/
def pathStamp (path : PathBuf) : Op h SnapshotError (Option FileStamp) := do
  match ← Op.stat path with
  | .ok metadata => do
    let stamp ← Op.fromMetadata metadata
    pure (some stamp)
  | .error source =>
    if source.kind = .notFound then pure none
    else Proc.fail (ioError path "read path metadata for" source)

/-- Whether the bytes are proved: by the stamp, or where it is racy by reading them again. -/
def confirmed (path : PathBuf) (after : FileStamp) (bytes : Bytes) : Op h SnapshotError Bool :=
  if after.racy then do
    match ← fsRead path with
    | .ok reread => pure (reread = bytes)
    | .error source =>
      if source.kind = .notFound then pure false
      else Proc.fail (ioError path "verify racy read of" source)
  else pure true

/-- What `read_candidate` decides when all is read: the stamps agree, and the bytes are proved. -/
def judge (path : PathBuf) (before after : FileStamp) (bytes : Bytes) :
    Op h SnapshotError (Option (ValidatedText × FileStamp)) := do
  let pathStamp ← pathStamp path
  if before != after || pathStamp != some after || bytes.length ≠ after.len then pure none
  else if ← confirmed path after bytes then
    let text ← Proc.ofExec ((ValidatedText.tryFromBytes bytes).mapErr .contract)
    pure (some (text, after))
  else pure none

/-- `read_candidate` from the initial stamp on. -/
def readStamped (path : PathBuf) (f : ℕ) (before : FileStamp) :
    Op h SnapshotError (Option (ValidatedText × FileStamp)) := do
  Proc.ofExec ((validateFileSize before.len).mapErr .contract)
  if ← Op.reserve before.len then
    let bytes ← readLoop path f (maxFileBytes + 1) before.len []
    let afterMetadata ← Proc.orElse (ioError path "read final metadata for") (← Op.fstat f)
    let after ← Op.fromMetadata afterMetadata
    judge path before after bytes
  else Proc.fail (.allocation before.len)

def readCandidate (path : PathBuf) : Op h SnapshotError (Option (ValidatedText × FileStamp)) := do
  let f ← Proc.orElse (ioError path "open") (← Op.openRead path)
  let beforeMetadata ← Proc.orElse (ioError path "read initial metadata for") (← Op.fstat f)
  let before ← Op.fromMetadata beforeMetadata
  readStamped path f before

/-- The attempts that are left. -/
def loadAttempts (path : PathBuf) : ℕ → Op h SnapshotError (Snapshot h.contentId)
  | 0 => Proc.fail (.concurrentModification path.display)
  | attempts + 1 => do
    match ← readCandidate path with
    | some (text, stamp) => Proc.ofExec (fromValidatedWithStamp text (some stamp))
    | none => loadAttempts path attempts

def load (path : PathBuf) : Op h SnapshotError (Snapshot h.contentId) := do
  Op.rest
  loadAttempts path maxReadAttempts

end Snapshot

end Hashline
