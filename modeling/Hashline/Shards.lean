/-
  The shards of the snapshot cache: what each of their critical sections does.
-/
import Hashline.Path
import Hashline.Snapshot

namespace Hashline

open Machine

abbrev shardCount : ℕ := 8

variable {contentId : Bytes → SnapshotId}

/-- A resident snapshot; `stamp` starts as its own and is refreshed by verified serves. -/
structure Entry (contentId : Bytes → SnapshotId) where
  snapshot : Snapshot contentId
  bytes : ℕ
  stamp : Option FileStamp

/-- What a load in flight has come to. -/
inductive InflightState (contentId : Bytes → SnapshotId) where
  | pending
  | ready (result : Except String (Snapshot contentId))

/-- An `Arc<Mutex<InflightState>>`: what is in it, and the thread that holds its lock. -/
structure Cell (contentId : Bytes → SnapshotId) where
  state : InflightState contentId
  holder : Option ℕ

/-- One shard; `map` and `inflight` have one pair for a path at most, and cells are known by their
    numbers. -/
structure Shard (contentId : Bytes → SnapshotId) where
  map : List (PathBuf × Entry contentId)
  used : ℕ
  inflight : List (PathBuf × ℕ)

namespace Shard

def empty : Shard contentId := ⟨[], 0, []⟩

def get (s : Shard contentId) (path : PathBuf) : Option (Entry contentId) := s.map.lookup path

/-- `map.remove`, and the bytes it gives back. -/
def remove (s : Shard contentId) (path : PathBuf) : Shard contentId :=
  match s.get path with
  | none => s
  | some old => { s with map := s.map.filter (·.1 ≠ path), used := s.used - old.bytes }

def put (s : Shard contentId) (path : PathBuf) (entry : Entry contentId) : Shard contentId :=
  { s with map := (path, entry) :: s.map.filter (·.1 ≠ path) }

/-- The eviction loop of `insert`, where the map's keys come in the order `pick` tells. -/
def evict (pick : ℕ → ℕ) (capacity bytes : ℕ) : ℕ → Shard contentId → Shard contentId
  | 0, s => s
  | rounds + 1, s =>
    if saturatingAdd s.used bytes > capacity then
      match s.map[pick rounds % s.map.length]? with
      | some (key, _) => evict pick capacity bytes rounds (s.remove key)
      | none => s
    else s

theorem mem_of_get {s : Shard contentId} {path : PathBuf} {entry : Entry contentId}
    (he : s.get path = some entry) : (path, entry) ∈ s.map := by
  obtain ⟨before, after, hmap, -⟩ := List.lookup_eq_some_iff.1 (show s.map.lookup path = _ from he)
  rw [hmap]
  exact List.mem_append_right _ List.mem_cons_self

theorem ne_of_get_eq_none {s : Shard contentId} {path : PathBuf} (hnone : s.get path = none) :
    ∀ e ∈ s.map, e.1 ≠ path := by
  rintro e he rfl
  simpa using List.lookup_eq_none_iff.1 hnone e he

theorem filter_others {map : List (PathBuf × Entry contentId)} {path : PathBuf}
    (hothers : ∀ e ∈ map, e.1 ≠ path) : map.filter (·.1 ≠ path) = map :=
  List.filter_eq_self.2 fun e he => decide_eq_true (hothers e he)

theorem remove_of_get_eq_none {s : Shard contentId} {path : PathBuf} (hnone : s.get path = none) :
    s.remove path = s := by
  rw [remove, hnone]

/-- Where there is room nothing is evicted. -/
theorem evict_of_room {s : Shard contentId} (pick : ℕ → ℕ) {capacity bytes : ℕ}
    (hroom : saturatingAdd s.used bytes ≤ capacity) (rounds : ℕ) :
    s.evict pick capacity bytes rounds = s := by
  cases rounds with
  | zero => rfl
  | succ rounds => rw [evict, if_neg (Nat.not_lt.2 hroom)]

end Shard

/-- The process-wide cache. -/
structure SnapshotCache (contentId : Bytes → SnapshotId) where
  capacity : ℕ
  shards : Fin shardCount → Shard contentId
  shardIndex : PathBuf → Fin shardCount

namespace SnapshotCache

def withCapacity (shardIndex : PathBuf → Fin shardCount) (capacity : ℕ) : SnapshotCache contentId :=
  ⟨max capacity 1, fun _ => .empty, shardIndex⟩

def shard (cache : SnapshotCache contentId) (path : PathBuf) : Shard contentId :=
  cache.shards (cache.shardIndex path)

def setShard (cache : SnapshotCache contentId) (path : PathBuf) (s : Shard contentId) :
    SnapshotCache contentId :=
  { cache with
    shards := fun i => if i = cache.shardIndex path then s else cache.shards i }

/-- The entry a path has. -/
def entry (cache : SnapshotCache contentId) (path : PathBuf) : Option (Entry contentId) :=
  (cache.shard path).get path

/-- A resident snapshot whose stamp, if one is asked for, is equal and not racy. -/
def get (cache : SnapshotCache contentId) (path : PathBuf) (stamp : Option FileStamp) :
    Option (Snapshot contentId) :=
  match cache.entry path, stamp with
  | none, _ => none
  | some entry, none => some entry.snapshot
  | some entry, some expected =>
    if entry.stamp != some expected then none
    else if entry.stamp.any (·.racy) then none
    else some entry.snapshot

/-- The first section of `verify_racy_resident`: a racy entry and its stamp. -/
def racyResident (cache : SnapshotCache contentId) (path : PathBuf) :
    Option (Snapshot contentId × FileStamp) :=
  match cache.entry path with
  | none => none
  | some entry => match entry.stamp with
    | none => none
    | some stamp => if stamp.racy then some (entry.snapshot, stamp) else none

/-- Its last section: the newer capture of equal metadata. -/
def refresh (cache : SnapshotCache contentId) (path : PathBuf) (entryStamp after : FileStamp) :
    SnapshotCache contentId :=
  match cache.entry path with
  | none => cache
  | some entry =>
    if entry.stamp == some entryStamp then
      cache.setShard path ((cache.shard path).put path { entry with stamp := some after })
    else cache

/-- Insert or replace, evicting others for room; what exceeds the capacity is not stored. -/
def insert (pick : ℕ → ℕ) (cache : SnapshotCache contentId) (path : PathBuf)
    (snapshot : Snapshot contentId) : SnapshotCache contentId :=
  let bytes := snapshot.byteLen
  if bytes > cache.capacity then cache
  else
    let removed := (cache.shard path).remove path
    let room := removed.evict pick cache.capacity bytes removed.map.length
    let filled := { room with used := saturatingAdd room.used bytes }
    cache.setShard path (filled.put path ⟨snapshot, bytes, snapshot.stamp⟩)

/-- Whether `get_or_load` may serve an entry under the lock. -/
def stampOk (current : Option FileStamp) (entry : Entry contentId) : Bool :=
  match current with
  | some stamp => entry.stamp == some stamp && !entry.stamp.any (·.racy)
  | none => entry.stamp.isNone

/-- The cell of the path: the one in flight, or the `fresh` one. -/
def join (s : Shard contentId) (path : PathBuf) (fresh : ℕ) : ℕ × Shard contentId :=
  match s.inflight.lookup path with
  | some cell => (cell, s)
  | none => (fresh, { s with inflight := (path, fresh) :: s.inflight })

/-- The section of `get_or_load` that serves a resident entry or joins a load: what it serves, or the
    cell. -/
def claim (cache : SnapshotCache contentId) (path : PathBuf) (current : Option FileStamp)
    (fresh : ℕ) : (Snapshot contentId ⊕ ℕ) × SnapshotCache contentId :=
  match cache.entry path with
  | some entry =>
    if stampOk current entry then (.inl entry.snapshot, cache)
    else
      let (cell, s) := join ((cache.shard path).remove path) path fresh
      (.inr cell, cache.setShard path s)
  | none =>
    let (cell, s) := join (cache.shard path) path fresh
    (.inr cell, cache.setShard path s)

/-- A cell is taken from the map. -/
def settle (cache : SnapshotCache contentId) (path : PathBuf) : SnapshotCache contentId :=
  cache.setShard path { cache.shard path with
    inflight := (cache.shard path).inflight.filter (·.1 ≠ path) }

end SnapshotCache

end Hashline
