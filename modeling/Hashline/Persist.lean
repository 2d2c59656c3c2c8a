/-
  Persisting: a temporary file beside the destination, a guard, and one rename
  or link, on Unix and where metadata may fail to decode.
-/
import Hashline.Load

namespace Hashline

open Machine

variable {h : Host} {ε : Type}

/-- How hard a successful persist promises the bytes are on disk. -/
inductive Durability where
  | full
  | barrier
  | none
  deriving DecidableEq, Repr

inductive PersistError where
  | io (operation path : String) (source : IoError)
  | destinationChanged (path : String)
  | destinationExists (path : String)
  deriving DecidableEq

/-- The base a guarded write must still find at the destination. -/
structure ExpectedDestination where
  stamp : FileStamp
  contentId : SnapshotId

/-- `io_err`. -/
def ioErr (path : PathBuf) (operation : String) (source : IoError) : PersistError :=
  .io operation path.display source

/-- `persist_protocol_error`. -/
def persistProtocolError : PersistError → ProtocolError
  | .destinationChanged path =>
    .new .snapshotConflict s!"destination changed before atomic rename: {path}"
  | .destinationExists path => .new .alreadyExists s!"destination already exists: {path}"
  | .io operation path source => .new .io s!"Failed to {operation} {path}: {source.text}"

/-- With the lock of `path_lock(path)`, which is given back in the end. -/
def withPathLock {α : Type} (path : PathBuf) (body : Op h ε α) : Op h ε α := do
  Op.lock path
  let result ← body.attempt
  Op.unlock path
  Proc.orElse id result

/-- `let _ = remove_file(temp)`. -/
def discard (tempPath : PathBuf) : Op h ε Unit := do
  let _ ← Op.removeFile tempPath
  pure ()

/-- Give up before the rename. -/
def refuse {α : Type} (tempPath : PathBuf) (error : PersistError) : Op h PersistError α := do
  discard tempPath
  Proc.fail error

/-! ## Decoding stamps -/

/-- Where a persist decodes metadata: of the temporary file, in the guard, and after the rename. -/
inductive Decoding where
  | temp
  | destination
  | confirmed
  deriving DecidableEq, Repr

/-- What a platform's `FileStamp::from_metadata` does at each: an error, or a stamp that knows the
    clock. -/
abbrev Decoder := Decoding → Except IoError (Metadata → ℤ → FileStamp)

/-- `FileStamp::from_metadata` where there is neither Unix nor Windows, and `modified` is what
    `metadata.modified()` answered. -/
def FileStamp.fromModified (modified : FileTime) (metadata : Metadata) (capturedAt : ℤ) :
    FileStamp where
  identity := ⟨0, 0⟩
  len := metadata.len
  modified := modified
  changed := none
  racy := withinRacyWindow capturedAt (some modified.nanos)

namespace Decoder

def unix : Decoder := fun _ => .ok FileStamp.fromMetadata

def other (modified : Decoding → Except IoError FileTime) : Decoder := fun stage =>
  (modified stage).map FileStamp.fromModified

/-- `FileStamp::from_metadata_public`; the clock is read once the metadata is. -/
def fromMetadata (decoder : Decoder) (stage : Decoding) (metadata : Metadata) :
    Op h ε (Except IoError FileStamp) :=
  match decoder stage with
  | .error source => pure (.error source)
  | .ok stamp => do
    let capturedAt ← Op.now
    pure (.ok (stamp metadata capturedAt))

end Decoder

section
variable (decoder : Decoder)

/-! ## The temporary file -/

def uniqueTempName : Op h ε String := do
  let now ← Op.now
  let discriminator ← Op.fetchAdd
  pure (tempName h.processId discriminator now.toNat)

/-- `write_all`; every round writes one byte at least. -/
def writeAll (f : ℕ) (bytes : Bytes) : ℕ → ℕ → Op h ε (Except IoError Unit)
  | 0, _ => pure (.ok ())
  | rounds + 1, offset =>
    if bytes.length ≤ offset then pure (.ok ())
    else do
      match ← Op.write f offset (bytes.drop offset) with
      | .ok n => writeAll f bytes rounds (offset + n)
      | .error source => pure (.error source)

/-- Flush as the durability asks. -/
def flush (path : PathBuf) (f : ℕ) : Durability → Op h PersistError Unit
  | .full => do Proc.orElse (ioErr path "fsync temp for") (← Op.sync f)
  | .barrier => do Proc.orElse (ioErr path "barrier-sync temp for") (← Op.sync f)
  | .none => pure ()

/-- The closure of `write_unique_temp`. -/
def Decoder.writeTemp (tempPath path : PathBuf) (bytes : Bytes) (durability : Durability) :
    Op h PersistError FileStamp := do
  let f ← Proc.orElse (ioErr path "create temp for") (← Op.createNew tempPath)
  Proc.orElse (ioErr path "write temp for") (← writeAll f bytes bytes.length 0)
  flush path f durability
  let metadata ← Proc.orElse (ioErr path "stat temp for") (← Op.fstat f)
  Proc.orElse (ioErr path "decode temp metadata for") (← decoder.fromMetadata .temp metadata)

def Decoder.writeUniqueTemp (parent path : PathBuf) (bytes : Bytes) (durability : Durability) :
    Op h PersistError (PathBuf × FileStamp) := do
  let name ← uniqueTempName
  let tempPath := parent.join name
  match ← (decoder.writeTemp tempPath path bytes durability).attempt with
  | .ok stamp => pure (tempPath, stamp)
  | .error error => refuse tempPath error

/-! ## Before and after the rename -/

/-- The parent directory, created where there is one to create. -/
def createParentOf (path : PathBuf) : Op h PersistError Unit :=
  match path.parent with
  | some parent => do Proc.orElse (ioErr path "create parent of") (← Op.createDirAll parent)
  | none => pure ()

/-- The tiebreak of a racy stamp: the destination's bytes, read no further than one byte past the
    expected length, have the expected identity. -/
def destinationUnchanged (path tempPath : PathBuf) (expected : ExpectedDestination) :
    Op h PersistError Bool := do
  match ← Op.openRead path with
  | .ok f => do
    let limit := saturatingAdd expected.stamp.len 1
    match ← readToEnd f limit limit [] with
    | .ok destination => pure (h.contentId destination = expected.contentId)
    | .error source => refuse tempPath (ioErr path "read destination for" source)
  | .error source =>
    if source.kind = .notFound then pure false
    else refuse tempPath (ioErr path "open destination for" source)

/-- The guard of `atomic_write`. Where the destination's stamp cannot be decoded, the error goes
    straight up. -/
def Decoder.checkDestination (path tempPath : PathBuf) (expected : ExpectedDestination) :
    Op h PersistError Unit := do
  Op.guard path expected.stamp expected.contentId
  match ← Op.stat path with
  | .ok metadata => do
    let current ← Proc.orElse (ioErr path "stat destination")
      (← decoder.fromMetadata .destination metadata)
    if current != expected.stamp then refuse tempPath (.destinationChanged path.display)
    else if expected.stamp.racy then
      if ← destinationUnchanged path tempPath expected then pure ()
      else refuse tempPath (.destinationChanged path.display)
    else pure ()
  | .error source =>
    if source.kind = .notFound then refuse tempPath (.destinationChanged path.display)
    else refuse tempPath (ioErr path "stat destination" source)

def fsyncParent (parent : PathBuf) : Op h ε Unit := do
  let _ ← Op.syncDir parent
  pure ()

/-- `confirm_stamp`: the stamp after the rename, if it is still that of the temporary file. -/
def Decoder.confirmStamp (path : PathBuf) (tempStamp : FileStamp) : Op h ε (Option FileStamp) := do
  match ← Op.stat path with
  | .ok metadata => do
    match ← decoder.fromMetadata .confirmed metadata with
    | .ok current => pure (tempStamp.confirmedAfterRename current)
    | .error _ => pure none
  | .error _ => pure none

/-- What follows the rename or the link. -/
def Decoder.afterInstall (path : PathBuf) (stamp : FileStamp) (durability : Durability) :
    Op h ε (Option FileStamp) := do
  if durability = .full then fsyncParent (h.parentOf path)
  decoder.confirmStamp path stamp

/-! ## The two ways to persist -/

/-- `atomic_write` with the lock held. -/
def Decoder.writeLocked (path : PathBuf) (bytes : Bytes) (expected : Option ExpectedDestination)
    (durability : Durability) : Op h PersistError (Option FileStamp) := do
  createParentOf path
  let (tempPath, stamp) ← decoder.writeUniqueTemp (h.parentOf path) path bytes durability
  match expected with
  | some expected => decoder.checkDestination path tempPath expected
  | none => pure ()
  match ← Op.rename tempPath path with
  | .ok () => decoder.afterInstall path stamp durability
  | .error source => refuse tempPath (ioErr path "rename into" source)

def Decoder.atomicWrite (path : PathBuf) (bytes : Bytes) (expected : Option ExpectedDestination)
    (durability : Durability) : Op h PersistError (Option FileStamp) :=
  withPathLock path (decoder.writeLocked path bytes expected durability)

/-- `atomic_create` with the lock held. -/
def Decoder.createLocked (path : PathBuf) (bytes : Bytes) (durability : Durability) :
    Op h PersistError (Option FileStamp) := do
  createParentOf path
  let (tempPath, stamp) ← decoder.writeUniqueTemp (h.parentOf path) path bytes durability
  let linked ← Op.hardLink tempPath path
  discard tempPath
  match linked with
  | .ok () => decoder.afterInstall path stamp durability
  | .error source =>
    if source.kind = .alreadyExists then Proc.fail (.destinationExists path.display)
    else Proc.fail (ioErr path "link into" source)

def Decoder.atomicCreate (path : PathBuf) (bytes : Bytes) (durability : Durability) :
    Op h PersistError (Option FileStamp) :=
  withPathLock path (decoder.createLocked path bytes durability)

end

/-! ## On Unix -/

/-- **Unix always decodes**, once the clock is read. -/
theorem Decoder.unix_bind {α : Type} (stage : Decoding) (metadata : Metadata)
    (k : Except IoError FileStamp → Op h ε α) :
    Decoder.unix.fromMetadata stage metadata >>= k =
      Op.fromMetadata metadata >>= fun stamp => k (.ok stamp) := rfl

abbrev writeTemp (tempPath path : PathBuf) (bytes : Bytes) (durability : Durability) :
    Op h PersistError FileStamp :=
  Decoder.unix.writeTemp tempPath path bytes durability

abbrev writeUniqueTemp (parent path : PathBuf) (bytes : Bytes) (durability : Durability) :
    Op h PersistError (PathBuf × FileStamp) :=
  Decoder.unix.writeUniqueTemp parent path bytes durability

abbrev checkDestination (path tempPath : PathBuf) (expected : ExpectedDestination) :
    Op h PersistError Unit :=
  Decoder.unix.checkDestination path tempPath expected

abbrev confirmStamp (path : PathBuf) (tempStamp : FileStamp) : Op h ε (Option FileStamp) :=
  Decoder.unix.confirmStamp path tempStamp

abbrev afterInstall (path : PathBuf) (stamp : FileStamp) (durability : Durability) :
    Op h ε (Option FileStamp) :=
  Decoder.unix.afterInstall path stamp durability

abbrev writeLocked (path : PathBuf) (bytes : Bytes) (expected : Option ExpectedDestination)
    (durability : Durability) : Op h PersistError (Option FileStamp) :=
  Decoder.unix.writeLocked path bytes expected durability

abbrev atomicWrite (path : PathBuf) (bytes : Bytes) (expected : Option ExpectedDestination)
    (durability : Durability) : Op h PersistError (Option FileStamp) :=
  Decoder.unix.atomicWrite path bytes expected durability

abbrev createLocked (path : PathBuf) (bytes : Bytes) (durability : Durability) :
    Op h PersistError (Option FileStamp) :=
  Decoder.unix.createLocked path bytes durability

abbrev atomicCreate (path : PathBuf) (bytes : Bytes) (durability : Durability) :
    Op h PersistError (Option FileStamp) :=
  Decoder.unix.atomicCreate path bytes durability

/-! ## What a write adds -/

/-- Bytes written at the end of what is there. -/
theorem overwrite_end {content chunk : Bytes} {offset : ℕ} (hc : content.length = offset) :
    overwrite content offset chunk = content ++ chunk := by
  subst hc
  rw [overwrite, Nat.sub_self, List.replicate_zero, List.append_nil, List.take_length,
    List.drop_of_length_le (Nat.le_add_right _ _), List.append_nil]

/-- One round of `write_all`: an error, or more of the bytes are in the file. -/
theorem act_write_next {who : ℕ} {x : Choice} {w w' : World h} {f offset : ℕ} {bytes : Bytes}
    {a : Except IoError ℕ} (hc : (w.files f).content = bytes.take offset)
    (hl : offset < bytes.length)
    (ha : act who x (.write f offset (bytes.drop offset)) w = some (a, w')) :
    (∃ e, a = .error e ∧ w' = w) ∨ ∃ n, a = .ok n ∧ 0 < n ∧ offset + n ≤ bytes.length ∧
      Fresh w.now x.ctime ∧
      w' = w.setFile f ⟨(w.files f).inode, bytes.take (offset + n), x.mtime, x.ctime,
        (w.files f).type⟩ := by
  rcases act_write ha with hw | ⟨hfresh, rfl, hw⟩
  · exact .inl hw
  · set n := x.moved (bytes.drop offset).length with hn
    have hpos : 0 < n ∧ n ≤ bytes.length - offset := by
      rw [hn, Choice.moved, List.length_drop]; omega
    have hlen : ((bytes.drop offset).take n).length = n := by
      rw [List.length_take, List.length_drop]; omega
    have hoff : (w.files f).content.length = offset := by rw [hc, List.length_take]; omega
    refine .inr ⟨n, by rw [hlen], hpos.1, by omega, hfresh, ?_⟩
    rw [hw, overwrite_end hoff, hc, ← List.take_add]

end Hashline
