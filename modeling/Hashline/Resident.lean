/-
  The byte budget of the snapshot cache: what its critical sections do to the
  bytes that are resident, shard by shard and in all.
-/
import Hashline.System
import Mathlib.Algebra.BigOperators.Fin

namespace Hashline

open Machine

variable {contentId : Bytes → SnapshotId}

namespace SnapshotCache

/-- Remove a path from the cache. -/
def invalidate (cache : SnapshotCache contentId) (path : PathBuf) : SnapshotCache contentId :=
  let s := (cache.shard path).remove path
  cache.setShard path { s with inflight := s.inflight.filter (·.1 ≠ path) }

/-- Resident bytes, the sum across shards: an overflow panics. -/
def usedBytes {ε : Type} (cache : SnapshotCache contentId) : Exec ε ℕ :=
  (List.finRange shardCount).foldlM (fun total i =>
    Exec.expect (checkedAdd total (cache.shards i).used)) 0

end SnapshotCache

/-- What one call does to the cache under the lock of a shard: `get_or_load` makes up to four such
    steps, and other calls may run between them. -/
inductive CacheStep (contentId : Bytes → SnapshotId) where
  | get (path : PathBuf) (stamp : Option FileStamp)
  | racyResident (path : PathBuf)
  | refresh (path : PathBuf) (entryStamp after : FileStamp)
  | claim (path : PathBuf) (current : Option FileStamp) (fresh : ℕ)
  | insert (pick : ℕ → ℕ) (path : PathBuf) (snapshot : Snapshot contentId)
  | settle (path : PathBuf)
  | invalidate (path : PathBuf)

namespace CacheStep

def run (cache : SnapshotCache contentId) : CacheStep contentId → SnapshotCache contentId
  | get _ _ | racyResident _ => cache
  | refresh path entryStamp after => cache.refresh path entryStamp after
  | claim path current fresh => (cache.claim path current fresh).2
  | insert pick path snapshot => cache.insert pick path snapshot
  | settle path => cache.settle path
  | invalidate path => cache.invalidate path

/-- One step after the other. -/
def runs (cache : SnapshotCache contentId) (steps : List (CacheStep contentId)) :
    SnapshotCache contentId := steps.foldl run cache

end CacheStep

/-- **No call does anything else to the cache.** -/
theorem act_cache {h : Host} {who : ℕ} {x : Choice} {c : Call h} {w w' : World h} {a : Answer c}
    (ha : act who x c w = some (a, w')) : w'.cache = w.cache ∨
      ∃ step : CacheStep h.contentId, w'.cache = step.run w.cache := by
  cases c with
  | cacheRefresh path entryStamp after => cases ha; exact .inr ⟨.refresh path entryStamp after, rfl⟩
  | cacheClaim path current => cases ha; exact .inr ⟨.claim path current w.nextCell, rfl⟩
  | cacheInsert path snapshot => cases ha; exact .inr ⟨.insert x.pick path snapshot, rfl⟩
  | cacheSettle path => cases ha; exact .inr ⟨.settle path, rfl⟩
  | openRead path => rw [(act_openRead ha).1]; exact .inl rfl
  | read f offset most => rw [(act_read ha).1]; exact .inl rfl
  | stat path => rw [(act_stat ha).1]; exact .inl rfl
  | fileType path => rw [(act_fileType ha).1]; exact .inl rfl
  | fstat f => rw [(act_fstat ha).1]; exact .inl rfl
  | createNew path => obtain ⟨-, -, rfl⟩ | ⟨-, -, -, rfl⟩ := act_createNew ha <;> exact .inl rfl
  | write f offset bytes => obtain ⟨-, -, rfl⟩ | ⟨-, -, rfl⟩ := act_write ha <;> exact .inl rfl
  | rename source target =>
    obtain ⟨-, -, rfl⟩ | ⟨-, -, -, ⟨-, rfl⟩ | ⟨-, -, rfl⟩⟩ := act_rename ha <;> exact .inl rfl
  | hardLink source target =>
    obtain ⟨-, -, rfl⟩ | ⟨-, -, -, -, -, rfl⟩ := act_hardLink ha <;> exact .inl rfl
  | removeFile path => obtain ⟨-, -, rfl⟩ | ⟨-, -, -, -, rfl⟩ := act_removeFile ha <;> exact .inl rfl
  | lock path => rw [(act_lock ha).2]; exact .inl rfl
  | cellLock cell => rw [(act_cellLock ha).2.2]; exact .inl rfl
  | canonicalize | sync | createDirAll | syncDir =>
    rcases Choice.fallible_eq_some.1 ha with ⟨_, _, _, rfl⟩ | ⟨_, ha⟩
    · exact .inl rfl
    · cases ha; exact .inl rfl
  | _ => cases ha; exact .inl rfl

/-! ## One shard -/

namespace Shard

/-- What the entries hold in all. -/
def resident (map : List (PathBuf × Entry contentId)) : ℕ := (map.map (·.2.bytes)).sum

/-- **A shard in order**, where `mine` are the paths that may have an entry: none has two, each entry
    is of the size of a file, and what the shard counts is no more than they hold (sums saturate), and
    within the capacity. -/
structure Within (capacity : ℕ) (mine : PathBuf → Prop) (s : Shard contentId) : Prop where
  keys : (s.map.map (·.1)).Nodup
  mine : ∀ e ∈ s.map, mine e.1
  sizes : ∀ e ∈ s.map, e.2.bytes ≤ maxFileBytes
  used : s.used ≤ resident s.map
  fits : s.used ≤ capacity

variable {capacity : ℕ} {mine : PathBuf → Prop} {s : Shard contentId} {path : PathBuf}

theorem within_empty : (empty : Shard contentId).Within capacity mine :=
  ⟨List.nodup_nil, fun _ he => absurd he List.not_mem_nil, fun _ he => absurd he List.not_mem_nil,
    le_rfl, Nat.zero_le _⟩

/-- The entries but that of one path. -/
theorem resident_filter {map : List (PathBuf × Entry contentId)} (hk : (map.map (·.1)).Nodup)
    (path : PathBuf) :
    resident map = ((map.lookup path).map Entry.bytes).getD 0 + resident (map.filter (·.1 ≠ path)) := by
  induction map with
  | nil => rfl
  | cons e map ih =>
    obtain ⟨key, entry⟩ := e
    rw [List.map_cons, List.nodup_cons] at hk
    by_cases hkey : key = path
    · subst hkey
      have hothers : map.filter (fun e => decide (e.1 ≠ key)) = map :=
        filter_others fun e he heq => hk.1 (List.mem_map.2 ⟨e, he, heq⟩)
      rw [List.filter_cons_of_neg (by simp), hothers, List.lookup_cons_self]
      rfl
    · have hne : (path == key) = false := by simpa using fun heq : path = key => hkey heq.symm
      rw [List.filter_cons_of_pos (by simpa using hkey), List.lookup_cons, hne]
      have hrest := ih hk.2
      simp only [resident, List.map_cons, List.sum_cons] at hrest ⊢
      omega

theorem Within.remove (hs : s.Within capacity mine) (path : PathBuf) :
    (s.remove path).Within capacity mine := by
  unfold Shard.remove
  have hsum := resident_filter hs.keys path
  split
  · exact hs
  · rename_i old hold
    rw [show s.map.lookup path = some old from hold] at hsum
    simp only [Option.map_some, Option.getD_some] at hsum
    refine ⟨hs.keys.sublist (List.filter_sublist.map _), fun e he => hs.mine e (List.mem_filter.1 he).1,
      fun e he => hs.sizes e (List.mem_filter.1 he).1, ?_, (Nat.sub_le _ _).trans hs.fits⟩
    have hused := hs.used
    simp only
    omega

/-- A path that is removed has no entry. -/
theorem remove_map (s : Shard contentId) (path : PathBuf) : ∀ e ∈ (s.remove path).map, e.1 ≠ path := by
  intro e he heq
  unfold Shard.remove at he
  split at he
  · rename_i hnone
    have hnot := List.lookup_eq_none_iff.1 (show s.map.lookup path = none from hnone) e he
    simp [heq] at hnot
  · exact of_decide_eq_true (List.mem_filter.1 he).2 heq

theorem remove_length (s : Shard contentId) {e : PathBuf × Entry contentId} (he : e ∈ s.map) :
    (s.remove e.1).map.length < s.map.length := by
  unfold Shard.remove
  split
  · rename_i hnone
    have hnot := List.lookup_eq_none_iff.1 (show s.map.lookup e.1 = none from hnone) e he
    simp at hnot
  · refine List.length_filter_lt_length_iff_exists.2 ⟨e, he, by simp⟩

/-- **The eviction loop makes room**: in the end the new bytes fit, or nothing is left. -/
theorem evict_within (pick : ℕ → ℕ) (bytes : ℕ) : ∀ (rounds : ℕ) {s : Shard contentId},
    s.Within capacity mine → s.map.length ≤ rounds →
    (evict pick capacity bytes rounds s).Within capacity mine ∧
      (saturatingAdd (evict pick capacity bytes rounds s).used bytes ≤ capacity ∨
        (evict pick capacity bytes rounds s).map = []) ∧
      ∀ path, (∀ e ∈ s.map, e.1 ≠ path) → ∀ e ∈ (evict pick capacity bytes rounds s).map, e.1 ≠ path
  | 0, s, hs, hl => ⟨hs, .inr (List.length_eq_zero_iff.1 (Nat.le_zero.1 hl)), fun _ h => h⟩
  | rounds + 1, s, hs, hl => by
    rw [evict]
    split_ifs with hfull
    · split
      · rename_i key entry hpick
        have hmem := List.mem_of_getElem? hpick
        have hlen : (s.remove key).map.length < s.map.length := s.remove_length hmem
        obtain ⟨hw, hroom, hkeys⟩ := evict_within pick bytes rounds (hs.remove key) (by omega)
        refine ⟨hw, hroom, fun path hp => hkeys path fun e he => ?_⟩
        unfold Shard.remove at he
        split at he
        · exact hp e he
        · exact hp e (List.mem_filter.1 he).1
      · rename_i hpick
        have hempty : s.map = [] := by
          rw [List.getElem?_eq_none_iff] at hpick
          rcases Nat.eq_zero_or_pos s.map.length with hzero | hpos
          · exact List.length_eq_zero_iff.1 hzero
          · exact absurd (Nat.mod_lt _ hpos) (Nat.not_lt.2 hpick)
        exact ⟨hs, .inr hempty, fun _ h => h⟩
    · exact ⟨hs, .inl (Nat.not_lt.1 hfull), fun _ h => h⟩

/-- A path gets an entry that is counted. -/
theorem within_put {entry : Entry contentId} (hk : (s.map.map (·.1)).Nodup) (hpath : mine path)
    (hm : ∀ e ∈ s.map, mine e.1) (hentry : entry.bytes ≤ maxFileBytes)
    (hb : ∀ e ∈ s.map, e.2.bytes ≤ maxFileBytes)
    (hu : s.used ≤ entry.bytes + resident (s.map.filter (·.1 ≠ path))) (hf : s.used ≤ capacity) :
    (s.put path entry).Within capacity mine := by
  refine ⟨?_, List.forall_mem_cons.2 ⟨hpath, fun e he => hm e (List.mem_filter.1 he).1⟩,
    List.forall_mem_cons.2 ⟨hentry, fun e he => hb e (List.mem_filter.1 he).1⟩, hu, hf⟩
  show (((path, entry) :: s.map.filter (·.1 ≠ path)).map (·.1)).Nodup
  rw [List.map_cons, List.nodup_cons]
  refine ⟨fun hmem => ?_, hk.sublist (List.filter_sublist.map _)⟩
  obtain ⟨e, he, heq⟩ := List.mem_map.1 hmem
  exact of_decide_eq_true (List.mem_filter.1 he).2 heq

/-- One path at most has an entry: the shard counts no more than one file has. -/
theorem Within.used_le (hs : s.Within capacity mine) (hone : ∀ p q, mine p → mine q → p = q) :
    s.used ≤ maxFileBytes := by
  refine hs.used.trans ?_
  obtain ⟨hkeys, hmine, hsizes, -, -⟩ := hs
  match s.map, hkeys, hmine, hsizes with
  | [], _, _, _ => exact Nat.zero_le _
  | [e], _, _, hsizes => exact hsizes e List.mem_cons_self
  | e :: e' :: rest, hkeys, hmine, _ =>
    have hsame : e.1 = e'.1 := hone _ _ (hmine e List.mem_cons_self)
      (hmine e' (List.mem_cons_of_mem _ List.mem_cons_self))
    simp [hsame] at hkeys

/-- An entry changes its stamp. -/
theorem Within.refresh (hs : s.Within capacity mine) {entry : Entry contentId}
    (he : s.get path = some entry) (stamp : Option FileStamp) :
    (s.put path { entry with stamp }).Within capacity mine := by
  have hmem : (path, entry) ∈ s.map := mem_of_get he
  refine within_put hs.keys (hs.mine _ hmem) hs.mine (hs.sizes _ hmem) hs.sizes ?_ hs.fits
  have hused := hs.used
  rw [resident_filter hs.keys path, show s.map.lookup path = _ from he] at hused
  exact hused

end Shard

/-! ## The cache -/

namespace SnapshotCache
variable (cache : SnapshotCache contentId)

theorem setShard_self (path : PathBuf) : cache.setShard path (cache.shard path) = cache := by
  have hshards : (fun i => if i = cache.shardIndex path then cache.shard path else cache.shards i) =
      cache.shards := by
    funext i
    split_ifs with hi
    · rw [hi]; rfl
    · rfl
  rw [setShard, hshards]

/-- An insertion leaves the shard in order. -/
theorem insert_within (pick : ℕ → ℕ) {path : PathBuf} {snapshot : Snapshot contentId}
    {mine : PathBuf → Prop} (hs : (cache.shard path).Within cache.capacity mine) (hpath : mine path) :
    ∃ s, cache.insert pick path snapshot = cache.setShard path s ∧ s.Within cache.capacity mine := by
  by_cases hlarge : snapshot.byteLen > cache.capacity
  · exact ⟨_, (if_pos hlarge).trans (cache.setShard_self path).symm, hs⟩
  · refine ⟨_, if_neg hlarge, ?_⟩
    have hremoved := hs.remove path
    obtain ⟨hroom, hfits, hkeys⟩ := Shard.evict_within pick snapshot.byteLen
      _ hremoved le_rfl
    set room := ((cache.shard path).remove path).evict pick cache.capacity snapshot.byteLen
      ((cache.shard path).remove path).map.length
    have hothers : room.map.filter (·.1 ≠ path) = room.map :=
      Shard.filter_others (hkeys path (Shard.remove_map _ path))
    have hsum : saturatingAdd room.used snapshot.byteLen ≤ room.used + snapshot.byteLen :=
      Nat.min_le_left _ _
    have hused := hroom.used
    refine Shard.within_put hroom.keys hpath hroom.mine (snapshot.byteLen_eq.le.trans
      snapshot.text.isText.size) hroom.sizes ?_ ?_
    · rw [hothers]
      show saturatingAdd _ _ ≤ snapshot.byteLen + _
      omega
    · rcases hfits with hfits | hempty
      · exact hfits
      · -- nothing is left, and the new bytes are all there are
        rw [hempty] at hused
        have hzero : room.used = 0 := Nat.le_zero.1 hused
        exact hsum.trans (by omega)

end SnapshotCache

namespace CacheStep

/-- The path of a step. -/
def path : CacheStep contentId → PathBuf
  | get path _ | racyResident path | refresh path _ _ | claim path _ _ | insert _ path _ | settle path
  | invalidate path => path

/-- **A step changes one shard**, and leaves it in order. -/
theorem run_eq (step : CacheStep contentId) (cache : SnapshotCache contentId) {mine : PathBuf → Prop}
    (hs : (cache.shard step.path).Within cache.capacity mine) (hpath : mine step.path) :
    ∃ s, step.run cache = cache.setShard step.path s ∧ s.Within cache.capacity mine := by
  have hsame : ∃ s, cache = cache.setShard step.path s ∧ s.Within cache.capacity mine :=
    ⟨_, (cache.setShard_self _).symm, hs⟩
  cases step with
  | get path stamp => exact hsame
  | racyResident path => exact hsame
  | refresh path entryStamp after =>
    simp only [run, SnapshotCache.refresh]
    split
    · exact hsame
    · rename_i entry hentry
      split_ifs
      · exact ⟨_, rfl, hs.refresh hentry _⟩
      · exact hsame
  | claim path current fresh =>
    have hjoin : ∀ s : Shard contentId, s.Within cache.capacity mine →
        (SnapshotCache.join s path fresh).2.Within cache.capacity mine := by
      intro s hs
      unfold SnapshotCache.join
      split
      · exact hs
      · exact ⟨hs.keys, hs.mine, hs.sizes, hs.used, hs.fits⟩
    simp only [run, SnapshotCache.claim]
    split
    · split_ifs
      · exact hsame
      · exact ⟨_, rfl, hjoin _ (hs.remove path)⟩
    · exact ⟨_, rfl, hjoin _ hs⟩
  | insert pick path snapshot => exact cache.insert_within pick hs hpath
  | settle path => exact ⟨_, rfl, ⟨hs.keys, hs.mine, hs.sizes, hs.used, hs.fits⟩⟩
  | invalidate path =>
    have hremoved := hs.remove path
    exact ⟨_, rfl, ⟨hremoved.keys, hremoved.mine, hremoved.sizes, hremoved.used, hremoved.fits⟩⟩

end CacheStep

/-- **A cache in order**, where `paths` are in use: every shard is within the capacity of the whole
    cache, and has entries of those paths only that fall into it. -/
structure SnapshotCache.Bounded (paths : Set PathBuf) (cache : SnapshotCache contentId) : Prop where
  capacity : cache.capacity ≤ u64Max
  shards : ∀ i, (cache.shards i).Within cache.capacity fun path => path ∈ paths ∧ cache.shardIndex path = i

namespace SnapshotCache
variable {paths : Set PathBuf}

theorem bounded_withCapacity (paths : Set PathBuf) (shardIndex : PathBuf → Fin shardCount)
    (capacity : UInt64) :
    (withCapacity shardIndex capacity.toNat : SnapshotCache contentId).Bounded paths := by
  refine ⟨?_, fun _ => Shard.within_empty⟩
  have hlt := capacity.toNat_lt
  simp only [withCapacity, u64Max]
  omega

theorem Bounded.run {cache : SnapshotCache contentId} (hb : cache.Bounded paths)
    {step : CacheStep contentId} (hstep : step.path ∈ paths) : (step.run cache).Bounded paths ∧
      (step.run cache).capacity = cache.capacity ∧
      (step.run cache).shardIndex = cache.shardIndex := by
  obtain ⟨s, heq, hs⟩ := step.run_eq cache (hb.shards _) ⟨hstep, rfl⟩
  rw [heq]
  refine ⟨⟨hb.capacity, fun i => ?_⟩, rfl, rfl⟩
  simp only [setShard]
  split_ifs with hi
  · rw [hi]; exact hs
  · exact hb.shards i

/-- Every cache that is reached is in order. -/
theorem Bounded.runs : ∀ {steps : List (CacheStep contentId)} {cache : SnapshotCache contentId},
    cache.Bounded paths → (∀ step ∈ steps, step.path ∈ paths) →
      (CacheStep.runs cache steps).Bounded paths ∧
      (CacheStep.runs cache steps).capacity = cache.capacity ∧
      (CacheStep.runs cache steps).shardIndex = cache.shardIndex
  | [], _, hb, _ => ⟨hb, rfl, rfl⟩
  | step :: steps, cache, hb, hin => by
    rw [List.forall_mem_cons] at hin
    obtain ⟨hb₁, hc₁, hi₁⟩ := hb.run hin.1
    obtain ⟨hb₂, hc₂, hi₂⟩ := Bounded.runs hb₁ hin.2
    exact ⟨hb₂, hc₂.trans hc₁, hi₂.trans hi₁⟩

/-! ## What is resident in all -/

/-- The bytes of all shards. -/
def total (cache : SnapshotCache contentId) : ℕ :=
  ((List.finRange shardCount).map fun i => (cache.shards i).used).sum

theorem usedBytes_eq_ok {ε : Type} {cache : SnapshotCache contentId} {n : ℕ} :
    (cache.usedBytes : Exec ε ℕ) = .ok n ↔ n = cache.total ∧ n ≤ u64Max := by
  have hloop : ∀ (is : List (Fin shardCount)) (a : ℕ), a ≤ u64Max →
      ((is.foldlM (fun total i => Exec.expect (checkedAdd total (cache.shards i).used)) a :
        Exec ε ℕ) = .ok n ↔ n = a + (is.map fun i => (cache.shards i).used).sum ∧ n ≤ u64Max) := by
    intro is
    induction is with
    | nil =>
      intro a ha
      simp only [List.foldlM_nil, List.map_nil, List.sum_nil, Nat.add_zero]
      constructor
      · rintro ⟨⟩; exact ⟨rfl, ha⟩
      · rintro ⟨rfl, -⟩; rfl
    | cons i is ih =>
      intro a ha
      rw [List.foldlM_cons, Exec.bind_eq_ok, List.map_cons, List.sum_cons]
      simp only [Exec.expect_eq_ok, checkedAdd_eq_some]
      constructor
      · rintro ⟨b, ⟨rfl, hb⟩, hrest⟩
        obtain ⟨rfl, hn⟩ := (ih _ hb).1 hrest
        exact ⟨by omega, hn⟩
      · rintro ⟨rfl, hn⟩
        refine ⟨_, ⟨rfl, by omega⟩, (ih _ (by omega)).2 ⟨by omega, hn⟩⟩
  have hall := hloop (List.finRange shardCount) 0 (Nat.zero_le _)
  rw [Nat.zero_add] at hall
  exact hall

/-- **The cache respects its budget.** -/
def WithinBudget (cache : SnapshotCache contentId) : Prop :=
  ∃ n, (cache.usedBytes : Exec Empty ℕ) = .ok n ∧ n ≤ cache.capacity

theorem withinBudget_iff {cache : SnapshotCache contentId} (hc : cache.capacity ≤ u64Max) :
    cache.WithinBudget ↔ cache.total ≤ cache.capacity := by
  simp only [WithinBudget, usedBytes_eq_ok]
  constructor
  · rintro ⟨n, ⟨rfl, -⟩, hn⟩; exact hn
  · exact fun hn => ⟨_, ⟨rfl, hn.trans hc⟩, hn⟩

/-- A shard that no path in use falls into counts nothing. -/
theorem Bounded.idle {cache : SnapshotCache contentId} (hb : cache.Bounded paths) {i : Fin shardCount}
    (hi : ∀ path ∈ paths, cache.shardIndex path ≠ i) : (cache.shards i).used = 0 := by
  have hempty : (cache.shards i).map = [] := by
    rw [List.eq_nil_iff_forall_not_mem]
    intro e he
    obtain ⟨hin, hshard⟩ := (hb.shards i).mine e he
    exact hi _ hin hshard
  have hused := (hb.shards i).used
  rw [hempty] at hused
  exact Nat.le_zero.1 hused

/-- Where the paths in use fall into one shard, only that shard holds anything. -/
theorem Bounded.total_le {cache : SnapshotCache contentId} (hb : cache.Bounded paths)
    (hone : ∀ p ∈ paths, ∀ q ∈ paths, cache.shardIndex p = cache.shardIndex q) :
    cache.total ≤ cache.capacity := by
  rw [total, ← Fin.sum_univ_def]
  rcases paths.eq_empty_or_nonempty with hnone | ⟨p, hp⟩
  · rw [Finset.sum_eq_zero fun i _ => hb.idle fun path hpath => by simp [hnone] at hpath]
    exact Nat.zero_le _
  · rw [Finset.sum_eq_single (cache.shardIndex p)]
    · exact (hb.shards _).fits
    · exact fun i _ hi => hb.idle fun path hpath hshard => hi (hshard.symm.trans (hone path hpath p hp))
    · exact fun hnot => absurd (Finset.mem_univ _) hnot

/-- Two paths in use: two files are resident at most. -/
theorem Bounded.total_le_pair {cache : SnapshotCache contentId} (hb : cache.Bounded paths)
    {p q : PathBuf} (hpq : cache.shardIndex p ≠ cache.shardIndex q)
    (htwo : ∀ path ∈ paths, path = p ∨ path = q) : cache.total ≤ 2 * maxFileBytes := by
  have hshard : ∀ i, (cache.shards i).used ≤ maxFileBytes := by
    refine fun i => (hb.shards i).used_le ?_
    rintro a b ⟨ha, hai⟩ ⟨hb, hbi⟩
    rcases htwo a ha with rfl | rfl <;> rcases htwo b hb with rfl | rfl
    · rfl
    · exact absurd (hai.trans hbi.symm) hpq
    · exact absurd (hbi.trans hai.symm) hpq
    · rfl
  rw [total, ← Fin.sum_univ_def, ← Finset.sum_subset (Finset.subset_univ
    {cache.shardIndex p, cache.shardIndex q}), Finset.sum_pair hpq, Nat.two_mul]
  · exact Nat.add_le_add (hshard _) (hshard _)
  · intro i _ hi
    rw [Finset.mem_insert, Finset.mem_singleton, not_or] at hi
    refine hb.idle fun path hpath hin => ?_
    rcases htwo path hpath with rfl | rfl
    · exact hi.1 hin.symm
    · exact hi.2 hin.symm

/-- **An insertion that needs no room adds its bytes.** -/
theorem insert_roomy (cache : SnapshotCache contentId) (pick : ℕ → ℕ) (path : PathBuf)
    (snapshot : Snapshot contentId) (hnone : cache.entry path = none)
    (hfit : (cache.shard path).used + snapshot.byteLen ≤ cache.capacity)
    (hc : cache.capacity ≤ u64Max) :
    (∀ i, ((cache.insert pick path snapshot).shards i).used =
      (cache.shards i).used + if i = cache.shardIndex path then snapshot.byteLen else 0) ∧
    (∀ q, q ≠ path → (cache.insert pick path snapshot).entry q = cache.entry q) ∧
    (cache.insert pick path snapshot).capacity = cache.capacity ∧
    (cache.insert pick path snapshot).shardIndex = cache.shardIndex := by
  have hsum : saturatingAdd (cache.shard path).used snapshot.byteLen =
      (cache.shard path).used + snapshot.byteLen := saturatingAdd_of_le (hfit.trans hc)
  have hremove := Shard.remove_of_get_eq_none hnone
  have hevict := Shard.evict_of_room pick (hsum.trans_le hfit)
  have hinsert : cache.insert pick path snapshot = cache.setShard path
      (({ cache.shard path with used := (cache.shard path).used + snapshot.byteLen } :
        Shard contentId).put path ⟨snapshot, snapshot.byteLen, snapshot.stamp⟩) := by
    simp only [insert, hremove, hevict, hsum]
    exact if_neg (by omega)
  rw [hinsert]
  refine ⟨fun i => ?_, fun q hq => ?_, rfl, rfl⟩
  · simp only [setShard]
    split_ifs with hi
    · rw [hi]; rfl
    · rfl
  · have hothers := Shard.filter_others (Shard.ne_of_get_eq_none hnone)
    simp only [entry, shard, setShard]
    split_ifs with hi
    · have hne : (q == path) = false := by simpa using hq
      simp only [Shard.put, Shard.get, List.lookup_cons, hne, hi]
      exact congrArg (List.lookup q) hothers
    · rfl

end SnapshotCache

/-! ## Which assignments keep to it -/

/-- So many bytes of text. -/
def Snapshot.plain (n : ℕ) (hn : n ≤ maxFileBytes) : Snapshot contentId :=
  .ofText ⟨List.replicate n 97, by
    refine ⟨by rw [List.length_replicate]; exact hn, fun h0 => ?_, ?_⟩
    · exact absurd (List.eq_of_mem_replicate h0) (by decide)
    · clear hn
      induction n with
      | zero => exact Utf8.valid_nil
      | succ n ih => exact (show Utf8.Valid [97] by decide).append ih⟩ none

@[simp] theorem Snapshot.plain_byteLen {n : ℕ} (hn : n ≤ maxFileBytes) :
    (plain n hn : Snapshot contentId).byteLen = n := List.length_replicate

namespace SnapshotCache

/-- Three sizes of files, no two of which exceed the capacity where they share a shard: what is left of
    one byte more than the capacity, as far as files reach. -/
theorem exists_sizes {c : ℕ} (hpos : 1 ≤ c) (hc : c ≤ u64Max) : ∃ a b d, a ≤ maxFileBytes ∧
    b ≤ maxFileBytes ∧ d ≤ maxFileBytes ∧ a ≤ c ∧ b ≤ c ∧ a + d ≤ c ∧ b + d ≤ c ∧ c < a + b + d ∧
    (c < 2 * maxFileBytes → c < a + b) := by
  have hmax : u64Max + 1 = 2 * maxFileBytes + 2 := by decide
  have hlarge : 4 ≤ maxFileBytes := by decide
  refine ⟨min c maxFileBytes, min (c + 1 - min c maxFileBytes) maxFileBytes,
    c + 1 - min c maxFileBytes - min (c + 1 - min c maxFileBytes) maxFileBytes, ?_⟩
  omega

section
variable {shardIndex : PathBuf → Fin shardCount} {p q : PathBuf}

/-- What two insertions into two shards of an empty cache leave. -/
theorem insert_pair (contentId : Bytes → SnapshotId) (hpq : shardIndex p ≠ shardIndex q)
    (capacity : UInt64) {a b : ℕ} (ha : a ≤ maxFileBytes) (hb : b ≤ maxFileBytes)
    (hac : a ≤ max capacity.toNat 1) (hbc : b ≤ max capacity.toNat 1) :
    ∃ cache : SnapshotCache contentId,
      CacheStep.runs (withCapacity shardIndex capacity.toNat)
        [.insert id p (.plain a ha), .insert id q (.plain b hb)] = cache ∧
      (∀ i, (cache.shards i).used =
        (if i = shardIndex p then a else 0) + if i = shardIndex q then b else 0) ∧
      (∀ r, r ≠ p → r ≠ q → cache.entry r = none) ∧
      cache.capacity = max capacity.toNat 1 ∧ cache.shardIndex = shardIndex := by
  set cache : SnapshotCache contentId := withCapacity shardIndex capacity.toNat with hcache
  have hc : cache.capacity ≤ u64Max := (bounded_withCapacity Set.univ shardIndex capacity).capacity
  have hempty : ∀ i, (cache.shards i).used = 0 := fun _ => rfl
  have hqp : q ≠ p := fun he => hpq (he ▸ rfl)
  obtain ⟨hused₁, hentry₁, hcap₁, hindex₁⟩ := insert_roomy cache id p (.plain a ha) rfl
    (by rw [Snapshot.plain_byteLen, shard, hempty, Nat.zero_add]; exact hac) hc
  set cache₁ := cache.insert id p (.plain a ha)
  obtain ⟨hused₂, hentry₂, hcap₂, hindex₂⟩ := insert_roomy cache₁ id q (.plain b hb)
    (hentry₁ q hqp) (by
      have hother : cache₁.shardIndex q ≠ cache.shardIndex p := by rw [hindex₁]; exact Ne.symm hpq
      rw [Snapshot.plain_byteLen, shard, hused₁, hempty, if_neg hother, Nat.zero_add, hcap₁]
      exact hbc) (hcap₁ ▸ hc)
  refine ⟨cache₁.insert id q (.plain b hb), rfl, fun i => ?_,
    fun r hrp hrq => (hentry₂ r hrq).trans (hentry₁ r hrp), hcap₂.trans hcap₁, hindex₂.trans hindex₁⟩
  rw [hused₂, hused₁, hempty, hindex₁, Snapshot.plain_byteLen, Snapshot.plain_byteLen, Nat.zero_add]
  rfl

/-- **Two files in two shards overflow the capacity**, where it is less than two files can have. -/
theorem exists_overflow_pair (contentId : Bytes → SnapshotId) (hpq : shardIndex p ≠ shardIndex q)
    {capacity : UInt64} (hsmall : capacity.toNat < 2 * maxFileBytes) :
    ∃ steps : List (CacheStep contentId), (∀ step ∈ steps, step.path ∈ ({p, q} : Set PathBuf)) ∧
      ¬(CacheStep.runs (withCapacity shardIndex capacity.toNat) steps).WithinBudget := by
  have hc : max capacity.toNat 1 ≤ u64Max :=
    (@bounded_withCapacity contentId Set.univ shardIndex capacity).capacity
  obtain ⟨a, b, d, ha, hb, -, hac, hbc, -, -, -, hsum⟩ := exists_sizes (Nat.le_max_right _ _) hc
  obtain ⟨cache, hruns, hused, -, hcap, -⟩ := insert_pair contentId hpq capacity ha hb hac hbc
  refine ⟨[.insert id p (.plain a ha), .insert id q (.plain b hb)], ?_, fun hwithin => ?_⟩
  · exact List.forall_mem_cons.2 ⟨.inl rfl, List.forall_mem_cons.2 ⟨.inr rfl, List.forall_mem_nil _⟩⟩
  · have htotal : cache.total = a + b := by
      simp only [total, ← Fin.sum_univ_def, hused, Finset.sum_add_distrib, Finset.sum_ite_eq',
        Finset.mem_univ, if_true]
    have hlarge : 1 < 2 * maxFileBytes := by decide
    rw [hruns, withinBudget_iff (by rw [hcap]; exact hc), htotal, hcap] at hwithin
    have := hsum (by omega)
    omega

/-- **Three files overflow any capacity**, where two of them fall into two shards. -/
theorem exists_overflow (contentId : Bytes → SnapshotId) (hpq : shardIndex p ≠ shardIndex q)
    {r : PathBuf} (hrp : r ≠ p) (hrq : r ≠ q) (capacity : UInt64) :
    ∃ steps : List (CacheStep contentId), (∀ step ∈ steps, step.path ∈ ({p, q, r} : Set PathBuf)) ∧
      ¬(CacheStep.runs (withCapacity shardIndex capacity.toNat) steps).WithinBudget := by
  have hc : max capacity.toNat 1 ≤ u64Max :=
    (@bounded_withCapacity contentId Set.univ shardIndex capacity).capacity
  obtain ⟨a, b, d, ha, hb, hd, hac, hbc, hadc, hbdc, hsum, -⟩ :=
    exists_sizes (Nat.le_max_right _ _) hc
  obtain ⟨cache, hruns, hused, hentry, hcap, hindex⟩ := insert_pair contentId hpq capacity ha hb hac hbc
  have hroom : (cache.shard r).used + d ≤ max capacity.toNat 1 := by
    rw [shard, hused, hindex]
    split_ifs with hip hiq hiq
    · exact absurd (hip.symm.trans hiq) hpq
    · rw [Nat.add_zero]; exact hadc
    · rw [Nat.zero_add]; exact hbdc
    · omega
  obtain ⟨hused₃, -, hcap₃, -⟩ := insert_roomy cache id r (.plain d hd) (hentry r hrp hrq)
    (by rw [Snapshot.plain_byteLen, hcap]; exact hroom) (by rw [hcap]; exact hc)
  set cache₃ := cache.insert id r (.plain d hd)
  refine ⟨[.insert id p (.plain a ha), .insert id q (.plain b hb), .insert id r (.plain d hd)], ?_,
    fun hwithin => ?_⟩
  · exact List.forall_mem_cons.2 ⟨.inl rfl, List.forall_mem_cons.2 ⟨.inr (.inl rfl),
      List.forall_mem_cons.2 ⟨.inr (.inr rfl), List.forall_mem_nil _⟩⟩⟩
  · have hruns₃ : CacheStep.runs (withCapacity shardIndex capacity.toNat)
        [.insert id p (.plain a ha), .insert id q (.plain b hb), .insert id r (.plain d hd)] = cache₃ :=
      congrArg (SnapshotCache.insert id · r (.plain d hd)) hruns
    have htotal : cache₃.total = a + b + d := by
      simp only [total, ← Fin.sum_univ_def, hused₃, hused, Snapshot.plain_byteLen,
        Finset.sum_add_distrib, Finset.sum_ite_eq', Finset.mem_univ, if_true]
    rw [hruns₃, withinBudget_iff (by rw [hcap₃, hcap]; exact hc), htotal, hcap₃, hcap] at hwithin
    omega

end

/-- **The caches that can be reached keep to the budget exactly where the paths in use fall into one
    shard**, or are two and the capacity is that of two of the longest files: each shard evicts as if
    the whole capacity were its own. -/
theorem withinBudget_iff_one_shard (contentId : Bytes → SnapshotId)
    (shardIndex : PathBuf → Fin shardCount) (capacity : UInt64) (paths : Set PathBuf) :
    (∀ steps : List (CacheStep contentId), (∀ step ∈ steps, step.path ∈ paths) →
      (CacheStep.runs (withCapacity shardIndex capacity.toNat) steps).WithinBudget) ↔
      (∀ p ∈ paths, ∀ q ∈ paths, shardIndex p = shardIndex q) ∨
        2 * maxFileBytes ≤ capacity.toNat ∧
          ∀ p ∈ paths, ∀ q ∈ paths, ∀ r ∈ paths, p = q ∨ q = r ∨ r = p := by
  constructor
  · intro hall
    by_contra hnot
    push Not at hnot
    obtain ⟨⟨p, hp, q, hq, hpq⟩, hthree⟩ := hnot
    by_cases hsmall : capacity.toNat < 2 * maxFileBytes
    · obtain ⟨steps, hin, hover⟩ := exists_overflow_pair contentId hpq hsmall
      exact hover (hall steps fun step hstep => by
        rcases hin step hstep with he | he <;> rw [he] <;> assumption)
    · obtain ⟨x, hx, y, hy, z, hz, hxy, hyz, hzx⟩ := hthree (Nat.not_lt.1 hsmall)
      have hthird : ∃ r ∈ paths, r ≠ p ∧ r ≠ q := by
        by_contra hno
        push Not at hno
        have hx' := hno x hx
        have hy' := hno y hy
        have hz' := hno z hz
        by_cases hxp : x = p
        · exact hyz ((hy' fun he => hxy (hxp.trans he.symm)).trans
            (hz' fun he => hzx (he.trans hxp.symm)).symm)
        · by_cases hyp : y = p
          · exact hzx ((hz' fun he => hyz (hyp.trans he.symm)).trans (hx' hxp).symm)
          · exact hxy ((hx' hxp).trans (hy' hyp).symm)
      obtain ⟨r, hr, hrp, hrq⟩ := hthird
      obtain ⟨steps, hin, hover⟩ := exists_overflow contentId hpq hrp hrq capacity
      exact hover (hall steps fun step hstep => by
        rcases hin step hstep with he | he | he <;> rw [he] <;> assumption)
  · rintro hkeep steps hin
    obtain ⟨hb, hc, hi⟩ := (bounded_withCapacity paths shardIndex capacity).runs hin
    refine (withinBudget_iff hb.capacity).2 ?_
    by_cases hone : ∀ p ∈ paths, ∀ q ∈ paths, shardIndex p = shardIndex q
    · exact hb.total_le (by rw [hi]; exact hone)
    · obtain ⟨hlarge, hthree⟩ := hkeep.resolve_left hone
      push Not at hone
      obtain ⟨p, hp, q, hq, hpq⟩ := hone
      have htwo : ∀ path ∈ paths, path = p ∨ path = q := by
        intro path hpath
        rcases hthree p hp q hq path hpath with he | he | he
        · exact absurd (congrArg shardIndex he) hpq
        · exact .inr he.symm
        · exact .inl he
      refine (hb.total_le_pair (by rw [hi]; exact hpq) htwo).trans ?_
      rw [hc]
      exact hlarge.trans (Nat.le_max_left _ _)

/-- Two files of one byte in two shards of a cache of one byte. -/
theorem exists_over_budget : ∃ steps : List (CacheStep fun _ => ⟨0⟩),
    ¬(CacheStep.runs (withCapacity (fun path => if path = ["f"] then 0 else 1) 1) steps).WithinBudget := by
  refine ⟨[.insert id ["f"] (.plain 1 (by decide)), .insert id ["g"] (.plain 1 (by decide))], ?_⟩
  rintro ⟨n, hn, hle⟩
  rw [usedBytes_eq_ok] at hn
  obtain ⟨rfl, -⟩ := hn
  exact absurd hle (by decide)

end SnapshotCache

end Hashline
