/-
  The snapshot cache in use: `get_or_load` from the first `stat` to the cell of
  a load that others may join.
-/
import Hashline.Load

namespace Hashline

open Machine

variable {h : Host}

/-- `to_string` of a snapshot error. -/
def SnapshotError.display : SnapshotError → String
  | .io operation path source => s!"failed to {operation} {path}: {source.text}"
  | .contract error => error.message
  | .concurrentModification path => s!"file changed during both snapshot read attempts: {path}"
  | .allocation bytes => s!"could not reserve {bytes} bytes for snapshot text"
  | .lineCountOverflow => "snapshot logical line count overflowed"
  | .offsets error => error.display

namespace SnapshotCache

/-- `metadata(path).ok().and_then(|meta| FileStamp::from_metadata_public(&meta).ok())`. -/
def currentStamp (path : PathBuf) : Op h SnapshotError (Option FileStamp) := do
  match ← Op.stat path with
  | .ok metadata => do
    let stamp ← Op.fromMetadata metadata
    pure (some stamp)
  | .error _ => pure none

/-- Whether the file has `snapshot`'s bytes under the stamp of its entry, before the read and after. -/
def provedBy (snapshot : Snapshot h.contentId) (entryStamp : FileStamp) (f : ℕ) :
    Op h SnapshotError (Option FileStamp) := do
  match ← Op.fstat f with
  | .error _ => pure none
  | .ok metadata => do
    let before ← Op.fromMetadata metadata
    if before != entryStamp then pure none
    else do
      let limit := saturatingAdd entryStamp.len 1
      match ← readToEnd f limit limit [] with
      | .error _ => pure none
      | .ok bytes => do
        match ← Op.fstat f with
        | .error _ => pure none
        | .ok metadata => do
          let after ← Op.fromMetadata metadata
          pure (if after == entryStamp && bytes = snapshot.bytes then some after else none)

/-- Serve a racy resident entry once its bytes are proved, and refresh its stamp. -/
def verifyRacyResident (path : PathBuf) : Op h SnapshotError (Option (Snapshot h.contentId)) := do
  match ← Op.cacheRacyResident path with
  | none => pure none
  | some (snapshot, entryStamp) => do
    match ← Op.openRead path with
    | .error _ => pure none
    | .ok f => do
      match ← provedBy snapshot entryStamp f with
      | none => pure none
      | some after => do
        Op.cacheRefresh path entryStamp after
        pure (some snapshot)

/-- The hit of the first lines of `get_or_load`. -/
def freshResident (path : PathBuf) : Op h SnapshotError (Option (Snapshot h.contentId)) := do
  match ← currentStamp path with
  | some stamp => Op.cacheGet path (some stamp)
  | none => pure none

/-- What a call that joins a load receives. -/
def joined (path : PathBuf) :
    Except String (Snapshot h.contentId) → Exec SnapshotError (Snapshot h.contentId)
  | .ok snapshot => .ok snapshot
  | .error message => Exec.fail (.io "load cached" path.display ⟨.other, message⟩)

/-- The first call with the lock of a pending cell: it loads, publishes and settles. -/
def loadCell (path : PathBuf) (cell : ℕ) (loader : Op h SnapshotError (Snapshot h.contentId)) :
    Op h SnapshotError (Snapshot h.contentId) := do
  let loaded ← loader.attempt
  match loaded with
  | .ok snapshot => do
    Op.cacheInsert path snapshot
    Op.cellSet cell (.ready (.ok snapshot))
  | .error error => Op.cellSet cell (.ready (.error error.display))
  Op.cacheSettle path
  Op.cellUnlock cell
  Proc.orElse id loaded

/-- Outside the shard lock: load, or wait for the owner. -/
def loadOrWait (path : PathBuf) (cell : ℕ) (loader : Op h SnapshotError (Snapshot h.contentId)) :
    Op h SnapshotError (Snapshot h.contentId) := do
  match ← Op.cellLock cell with
  | .ready result => do
    Op.cellUnlock cell
    Proc.ofExec (joined path result)
  | .pending => loadCell path cell loader

/-- Claim or join the single flight of the path. -/
def claimOrJoin (path : PathBuf) (loader : Op h SnapshotError (Snapshot h.contentId)) :
    Op h SnapshotError (Snapshot h.contentId) := do
  let current ← currentStamp path
  match ← Op.cacheClaim path current with
  | .inl snapshot => pure snapshot
  | .inr cell => loadOrWait path cell loader

def getOrLoad (path : PathBuf) (loader : Op h SnapshotError (Snapshot h.contentId)) :
    Op h SnapshotError (Snapshot h.contentId) := do
  match ← freshResident path with
  | some hit => pure hit
  | none => do
    match ← verifyRacyResident path with
    | some hit => pure hit
    | none => claimOrJoin path loader

end SnapshotCache

end Hashline
