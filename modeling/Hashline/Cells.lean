/-
  The loads that are in flight: what each call does to the cells and to the maps
  that lead to them.
-/
import Hashline.Lib.SingleFlight
import Hashline.Unchanged

namespace Hashline

open Machine

variable {h : Host} {ε : Type}

/-! ## The cell a path leads to -/

namespace SnapshotCache
variable {contentId : Bytes → SnapshotId} (cache : SnapshotCache contentId)

/-- The cell in flight of a path. -/
def flight (path : PathBuf) : Option ℕ := (cache.shard path).inflight.lookup path

/-- One path is led elsewhere. -/
theorem flight_setShard {path : PathBuf} {s : Shard contentId} {o : Option ℕ}
    (hs : ∀ q, s.inflight.lookup q = if q = path then o else (cache.shard path).inflight.lookup q) :
    (cache.setShard path s).flight = Function.update cache.flight path o := by
  funext q
  simp only [flight, shard, setShard]
  by_cases hq : q = path
  · subst hq
    rw [if_pos rfl, hs, if_pos rfl, Function.update_self]
  · rw [Function.update_of_ne hq]
    split_ifs with hi
    · rw [hs, if_neg hq, shard, ← hi]
      rfl
    · rfl

/-- A shard's entries change, and not what is in flight. -/
theorem flight_setShard_same {path : PathBuf} {s : Shard contentId}
    (hs : s.inflight = (cache.shard path).inflight) : (cache.setShard path s).flight = cache.flight := by
  rw [cache.flight_setShard (o := cache.flight path) fun q => ?_, Function.update_eq_self]
  rw [hs]
  split_ifs with hq
  · rw [hq]
    rfl
  · rfl

theorem lookup_filter {β : Type} (l : List (PathBuf × β)) (path q : PathBuf) :
    (l.filter (·.1 ≠ path)).lookup q = if q = path then none else l.lookup q := by
  induction l with
  | nil => simp
  | cons e l ih =>
    obtain ⟨key, b⟩ := e
    by_cases hkey : key = path
    · subst hkey
      rw [List.filter_cons_of_neg (by simp), ih]
      by_cases hq : q = key
      · rw [if_pos hq, if_pos hq]
      · rw [if_neg hq, if_neg hq, List.lookup_cons, beq_eq_false_iff_ne.2 hq]
    · rw [List.filter_cons_of_pos (by simpa using hkey), List.lookup_cons, ih]
      by_cases hq : q = key
      · subst hq
        simpa using hkey
      · rw [List.lookup_cons, beq_eq_false_iff_ne.2 hq]

theorem settle_flight (path : PathBuf) :
    (cache.settle path).flight = Function.update cache.flight path none :=
  cache.flight_setShard fun q => lookup_filter _ path q

theorem remove_inflight (s : Shard contentId) (path : PathBuf) :
    (s.remove path).inflight = s.inflight := by
  unfold Shard.remove
  split <;> rfl

theorem evict_inflight (pick : ℕ → ℕ) (capacity bytes : ℕ) : ∀ (rounds : ℕ) (s : Shard contentId),
    (s.evict pick capacity bytes rounds).inflight = s.inflight
  | 0, s => rfl
  | rounds + 1, s => by
    rw [Shard.evict]
    split_ifs
    · split
      · rw [evict_inflight pick capacity bytes rounds, remove_inflight]
      · rfl
    · rfl

theorem insert_flight (pick : ℕ → ℕ) (path : PathBuf) (snapshot : Snapshot contentId) :
    (cache.insert pick path snapshot).flight = cache.flight := by
  unfold insert
  dsimp only
  split_ifs
  · rfl
  · exact cache.flight_setShard_same ((evict_inflight _ _ _ _ _).trans (remove_inflight _ _))

theorem refresh_flight (path : PathBuf) (entryStamp after : FileStamp) :
    (cache.refresh path entryStamp after).flight = cache.flight := by
  unfold refresh
  split
  · rfl
  · split_ifs
    · exact cache.flight_setShard_same rfl
    · rfl

/-- A path is given the cell in flight, or a fresh one. -/
theorem join_flight {path : PathBuf} {s : Shard contentId} (fresh : ℕ)
    (hs : s.inflight = (cache.shard path).inflight) :
    (∃ cell, cache.flight path = some cell ∧ (join s path fresh).1 = cell ∧
        (cache.setShard path (join s path fresh).2).flight = cache.flight) ∨
      cache.flight path = none ∧ (join s path fresh).1 = fresh ∧
        (cache.setShard path (join s path fresh).2).flight =
          Function.update cache.flight path (some fresh) := by
  have hlookup : s.inflight.lookup path = cache.flight path := by rw [hs]; rfl
  unfold join
  rw [hlookup]
  rcases cache.flight path with _ | cell
  · refine .inr ⟨rfl, rfl, cache.flight_setShard fun q => ?_⟩
    rw [List.lookup_cons, hs]
    by_cases hq : q = path
    · subst hq
      simp
    · rw [beq_eq_false_iff_ne.2 hq, if_neg hq]
  · exact .inl ⟨cell, rfl, rfl, cache.flight_setShard_same hs⟩

/-- **What a claim does**: it serves an entry, joins the flight of the path, or begins one. -/
theorem claim_flight (path : PathBuf) (current : Option FileStamp) (fresh : ℕ) :
    (∃ snapshot, cache.claim path current fresh = (.inl snapshot, cache)) ∨
      (∃ cell, cache.flight path = some cell ∧ (cache.claim path current fresh).1 = .inr cell ∧
        (cache.claim path current fresh).2.flight = cache.flight) ∨
      cache.flight path = none ∧ (cache.claim path current fresh).1 = .inr fresh ∧
        (cache.claim path current fresh).2.flight =
          Function.update cache.flight path (some fresh) := by
  obtain ⟨snapshot, hserve⟩ | ⟨s, hs, hclaim⟩ :
      (∃ snapshot, cache.claim path current fresh = (.inl snapshot, cache)) ∨
        ∃ s : Shard contentId, s.inflight = (cache.shard path).inflight ∧
          cache.claim path current fresh = (.inr (join s path fresh).1,
            cache.setShard path (join s path fresh).2) := by
    rcases hentry : cache.entry path with _ | entry
    · exact .inr ⟨_, rfl, by simp only [claim, hentry]⟩
    · by_cases hstamp : stampOk current entry = true
      · exact .inl ⟨entry.snapshot, by simp only [claim, hentry, if_pos hstamp]⟩
      · exact .inr ⟨_, remove_inflight _ path, by
          simp only [claim, hentry]
          rw [if_neg hstamp]⟩
  · exact .inl ⟨snapshot, hserve⟩
  · rw [hclaim]
    rcases cache.join_flight fresh hs with ⟨cell, hflight, hcell, hsame⟩ | ⟨hflight, hcell, hnew⟩
    · exact .inr (.inl ⟨cell, hflight, congrArg Sum.inr hcell, hsame⟩)
    · exact .inr (.inr ⟨hflight, congrArg Sum.inr hcell, hnew⟩)

end SnapshotCache

/-! ## Calls that take no part -/

/-- Calls that change nothing of what is shared. -/
def Call.Unshared : Call h → Prop
  | .cacheRefresh .. | .cacheClaim .. | .cacheInsert .. | .cacheSettle _ | .cellLock _ | .cellSet ..
  | .cellUnlock _ => False
  | _ => True

theorem act_unshared {who : ℕ} {x : Choice} {c : Call h} {w w' : World h} {a : Answer c}
    (hc : c.Unshared) (ha : act who x c w = some (a, w')) :
    w'.cache = w.cache ∧ w'.cells = w.cells ∧ w'.nextCell = w.nextCell := by
  cases c with
  | createNew path => obtain ⟨-, -, rfl⟩ | ⟨-, -, -, rfl⟩ := act_createNew ha <;> exact ⟨rfl, rfl, rfl⟩
  | write f offset bytes => obtain ⟨-, -, rfl⟩ | ⟨-, -, rfl⟩ := act_write ha <;> exact ⟨rfl, rfl, rfl⟩
  | rename source target =>
    obtain ⟨-, -, rfl⟩ | ⟨-, -, -, ⟨-, rfl⟩ | ⟨-, -, rfl⟩⟩ := act_rename ha <;> exact ⟨rfl, rfl, rfl⟩
  | hardLink source target =>
    obtain ⟨-, -, rfl⟩ | ⟨-, -, -, -, -, rfl⟩ := act_hardLink ha <;> exact ⟨rfl, rfl, rfl⟩
  | removeFile path =>
    obtain ⟨-, -, rfl⟩ | ⟨-, -, -, -, rfl⟩ := act_removeFile ha <;> exact ⟨rfl, rfl, rfl⟩
  | lock path => rw [(act_lock ha).2]; exact ⟨rfl, rfl, rfl⟩
  | fetchAdd | unlock | guard => cases ha; exact ⟨rfl, rfl, rfl⟩
  | cacheRefresh | cacheClaim | cacheInsert | cacheSettle | cellLock | cellSet | cellUnlock =>
    exact hc.elim
  | _ =>
    rw [act_calm (by trivial) ha]
    exact ⟨rfl, rfl, rfl⟩

/-- Calls that take no part in a flight, and never wait. -/
def Call.Light : Call h → Prop
  | .cacheClaim .. | .cacheSettle _ | .cellLock _ | .cellSet .. | .cellUnlock _ | .lock _ => False
  | _ => True

/-- What callers can tell of the world: the flights and the cells. -/
structure World.Alike (w w' : World h) : Prop where
  flight : w'.cache.flight = w.cache.flight
  cells : w'.cells = w.cells
  next : w'.nextCell = w.nextCell

theorem act_light {who : ℕ} {x : Choice} {c : Call h} {w w' : World h} {a : Answer c}
    (hc : c.Light) (ha : act who x c w = some (a, w')) : w.Alike w' := by
  cases c with
  | cacheRefresh path entryStamp after =>
    cases ha
    exact ⟨SnapshotCache.refresh_flight .., rfl, rfl⟩
  | cacheInsert path snapshot =>
    cases ha
    exact ⟨SnapshotCache.insert_flight .., rfl, rfl⟩
  | cacheClaim | cacheSettle | cellLock | cellSet | cellUnlock | lock => exact hc.elim
  | _ =>
    obtain ⟨hcache, hcells, hnext⟩ := act_unshared (by trivial) ha
    exact ⟨by rw [hcache], hcells, hnext⟩

theorem Call.Calm.light {c : Call h} (hc : c.Calm) : c.Light := by
  cases c <;> first | exact trivial | exact hc.elim

section
variable {who : ℕ} {x : Choice} {w w' : World h} {cell : ℕ} {a : Unit}

theorem act_cellSet {state : InflightState h.contentId}
    (ha : act who x (.cellSet cell state) w = some (a, w')) :
    w' = w.setCell cell { w.cells cell with state } := by
  cases ha
  rfl

theorem act_cellUnlock (ha : act who x (.cellUnlock cell) w = some (a, w')) :
    w' = w.setCell cell { w.cells cell with holder := none } := by
  cases ha
  rfl

theorem act_cacheSettle {path : PathBuf} (ha : act who x (.cacheSettle path) w = some (a, w')) :
    w' = { w with cache := w.cache.settle path } := by
  cases ha
  rfl

end

theorem elapsed_alike {x : Choice} {w w' : World h} (hw : x.elapsed w = some w') : w.Alike w' := by
  obtain ⟨hcache, hcells, hnext⟩ := Choice.elapsed_cache_eq hw
  exact ⟨by rw [hcache], hcells, hnext⟩

/-! ## What a call does by itself -/

/-- Calls that a load of the path makes whatever its loader does. -/
def Call.Own (path : PathBuf) : Call h → Prop
  | .stat p | .openRead p => p = path
  | .cacheGet p _ | .cacheRacyResident p | .cacheRefresh p _ _ | .cacheClaim p _ | .cacheInsert p _
  | .cacheSettle p => p = path.components
  | .now | .fstat _ | .read .. | .cellLock _ | .cellSet .. | .cellUnlock _ => True
  | _ => False

/-- Those it makes before it has a cell. -/
def Call.Early (path : PathBuf) (c : Call h) : Prop := c.Light ∧ c.Own path

namespace SnapshotCache

theorem fromMetadata_early (path : PathBuf) (metadata : Metadata) :
    (Op.fromMetadata metadata : Op h ε _).All (Call.Early path) :=
  Proc.All.bind (Proc.all_ask ⟨trivial, trivial⟩) fun _ => Proc.all_pure _

theorem currentStamp_early (path : PathBuf) :
    (currentStamp path : Op h _ _).All (Call.Early path) := by
  refine Proc.All.bind (Proc.all_ask ⟨trivial, rfl⟩) fun a => ?_
  change Except IoError Metadata at a
  rcases a with e | metadata
  · exact Proc.all_pure _
  · exact Proc.All.bind (fromMetadata_early path metadata) fun _ => Proc.all_pure _

theorem freshResident_early (path : PathBuf) :
    (freshResident path : Op h _ _).All (Call.Early path) := by
  refine Proc.All.bind (currentStamp_early path) fun stamp => ?_
  rcases stamp with _ | stamp
  · exact Proc.all_pure _
  · exact Proc.all_ask ⟨trivial, rfl⟩

theorem provedBy_early (path : PathBuf) (snapshot : Snapshot h.contentId) (entryStamp : FileStamp)
    (f : ℕ) : (provedBy snapshot entryStamp f).All (Call.Early path) := by
  refine Proc.All.bind (Proc.all_ask ⟨trivial, trivial⟩) fun a => ?_
  change Except IoError Metadata at a
  rcases a with e | metadata
  · exact Proc.all_pure _
  refine Proc.All.bind (fromMetadata_early path metadata) fun before => ?_
  split_ifs
  · exact Proc.all_pure _
  · have hreads : (readToEnd f (saturatingAdd entryStamp.len 1) (saturatingAdd entryStamp.len 1) [] :
        Op h SnapshotError _).All (Call.Early path) := by
      refine Prog.All.mono ?_ (readToEnd_all f _ _ [])
      rintro _ ⟨_, _, rfl⟩
      exact ⟨trivial, trivial⟩
    refine Proc.All.bind hreads fun r => ?_
    rcases r with e | bytes
    · exact Proc.all_pure _
    refine Proc.All.bind (Proc.all_ask ⟨trivial, trivial⟩) fun a => ?_
    change Except IoError Metadata at a
    rcases a with e | metadata
    · exact Proc.all_pure _
    · exact Proc.All.bind (fromMetadata_early path metadata) fun _ => Proc.all_pure _

theorem verifyRacyResident_early (path : PathBuf) :
    (verifyRacyResident path : Op h _ _).All (Call.Early path) := by
  refine Proc.All.bind (Proc.all_ask ⟨trivial, rfl⟩) fun a => ?_
  change Option (Snapshot h.contentId × FileStamp) at a
  rcases a with _ | ⟨snapshot, entryStamp⟩
  · exact Proc.all_pure _
  refine Proc.All.bind (Proc.all_ask ⟨trivial, rfl⟩) fun a => ?_
  change Except IoError ℕ at a
  rcases a with e | f
  · exact Proc.all_pure _
  refine Proc.All.bind (provedBy_early path snapshot entryStamp f) fun r => ?_
  rcases r with _ | after
  · exact Proc.all_pure _
  · exact Proc.All.bind (Proc.all_ask ⟨trivial, rfl⟩) fun _ => Proc.all_pure _

/-- **A load whose loader makes no call makes none but its own.** -/
theorem getOrLoad_own (path : PathBuf) (r : Exec SnapshotError (Snapshot h.contentId)) :
    (getOrLoad path (Proc.ofExec r)).All (Call.Own path) := by
  have hearly : ∀ c : Call h, c.Early path → c.Own path := fun _ hc => hc.2
  refine Proc.All.bind ((freshResident_early path).mono hearly) fun hit => ?_
  rcases hit with _ | hit
  swap
  · exact Proc.all_pure _
  refine Proc.All.bind ((verifyRacyResident_early path).mono hearly) fun hit => ?_
  rcases hit with _ | hit
  swap
  · exact Proc.all_pure _
  refine Proc.All.bind ((currentStamp_early path).mono hearly) fun current => ?_
  refine Proc.All.bind (Proc.all_ask rfl) fun a => ?_
  change Snapshot h.contentId ⊕ ℕ at a
  rcases a with snapshot | cell
  · exact Proc.all_pure _
  refine (Proc.all_ask trivial).bind fun state => ?_
  change InflightState h.contentId at state
  rcases state with _ | result
  · refine Proc.All.bind ((Proc.all_ofExec r).attempt) fun loaded => ?_
    rcases loaded with error | snapshot
    · exact ⟨trivial, fun _ => ⟨rfl, fun _ => ⟨trivial, fun _ => trivial⟩⟩⟩
    · exact ⟨rfl, fun _ => ⟨trivial, fun _ => ⟨rfl, fun _ => ⟨trivial, fun _ => trivial⟩⟩⟩⟩
  · exact (Proc.all_ask trivial).bind fun _ => Proc.all_ofExec _

end SnapshotCache

end Hashline
