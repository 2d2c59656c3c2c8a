/-
  The accounts of the snapshot cache: what a shard counts is what its entries
  hold, as long as no sum leaves the machine's integers.
-/
import Hashline.Resident
import Hashline.Unchanged

namespace Hashline

open Machine

variable {contentId : Bytes → SnapshotId}

/-! ## Arithmetic that does not clamp -/

namespace Shard

/-- `remove`, where the subtraction is exact. -/
def removeExact (s : Shard contentId) (path : PathBuf) : Option (Shard contentId) :=
  match s.get path with
  | none => some s
  | some old => (checkedSub s.used old.bytes).map fun used =>
      { s with map := s.map.filter (·.1 ≠ path), used }

/-- The eviction loop, where every sum and every subtraction is exact, and it ends with enough
    room. -/
def evictExact (pick : ℕ → ℕ) (capacity bytes : ℕ) : ℕ → Shard contentId → Option (Shard contentId)
  | 0, s => (checkedAdd s.used bytes).bind fun sum => if sum > capacity then none else some s
  | rounds + 1, s => (checkedAdd s.used bytes).bind fun sum =>
    if sum > capacity then
      match s.map[pick rounds % s.map.length]? with
      | some (key, _) => (s.removeExact key).bind (evictExact pick capacity bytes rounds)
      | none => none
    else some s

end Shard

/-- A step of the cache, where nothing clamps. -/
def CacheStep.exact (cache : SnapshotCache contentId) :
    CacheStep contentId → Option (SnapshotCache contentId)
  | .claim path current fresh =>
    match cache.entry path with
    | some entry =>
      if SnapshotCache.stampOk current entry then some cache
      else ((cache.shard path).removeExact path).map fun removed =>
        cache.setShard path (SnapshotCache.join removed path fresh).2
    | none => some (cache.setShard path (SnapshotCache.join (cache.shard path) path fresh).2)
  | .insert pick path snapshot =>
    if snapshot.byteLen > cache.capacity then some cache
    else do
      let removed ← (cache.shard path).removeExact path
      let room ← removed.evictExact pick cache.capacity snapshot.byteLen removed.map.length
      let used ← checkedAdd room.used snapshot.byteLen
      let filled := { room with used }
      some (cache.setShard path (filled.put path ⟨snapshot, snapshot.byteLen, snapshot.stamp⟩))
  | .invalidate path => ((cache.shard path).removeExact path).map fun s =>
      cache.setShard path { s with inflight := s.inflight.filter (·.1 ≠ path) }
  | step => some (step.run cache)

theorem CacheStep.exact_insert {cache : SnapshotCache contentId} {pick : ℕ → ℕ} {path : PathBuf}
    {snapshot : Snapshot contentId} (hfits : snapshot.byteLen ≤ cache.capacity) :
    exact cache (.insert pick path snapshot) =
      ((cache.shard path).removeExact path).bind fun removed =>
        (removed.evictExact pick cache.capacity snapshot.byteLen removed.map.length).bind fun room =>
          (checkedAdd room.used snapshot.byteLen).map fun used =>
            cache.setShard path (({ room with used } : Shard contentId).put path
              ⟨snapshot, snapshot.byteLen, snapshot.stamp⟩) := by
  refine (if_neg (Nat.not_lt.2 hfits)).trans ?_
  simp only [Option.bind_eq_bind, Option.map_eq_bind]
  rfl

/-! ## Accounts -/

/-- **A shard's accounts are right**: it counts what its entries hold, each entry its snapshot's
    length, and all is within the capacity. -/
structure Shard.Accounted (capacity : ℕ) (s : Shard contentId) : Prop where
  keys : (s.map.map (·.1)).Nodup
  used : s.used = resident s.map
  bytes : ∀ e ∈ s.map, e.2.bytes = e.2.snapshot.bytes.length ∧ e.2.bytes ≤ capacity
  fits : s.used ≤ capacity

structure SnapshotCache.Accounted (cache : SnapshotCache contentId) : Prop where
  capacity : cache.capacity ≤ u64Max
  shards : ∀ i, (cache.shards i).Accounted cache.capacity

namespace CacheStep

/-- A step clamps nothing, and what it inserts is resident if it fits. -/
structure Sound (cache : SnapshotCache contentId) (step : CacheStep contentId) : Prop where
  exact : step.exact cache = some (step.run cache)
  resident : ∀ pick path snapshot, step = insert pick path snapshot →
    snapshot.bytes.length ≤ cache.capacity →
    ∃ entry, (step.run cache).entry path = some entry ∧ entry.snapshot = snapshot

/-- With what others hold in the shard, an inserted snapshot's length is still a `u64`. -/
def Addable (cache : SnapshotCache contentId) : CacheStep contentId → Prop
  | insert _ path snapshot => snapshot.byteLen ≤ cache.capacity →
    Shard.resident ((cache.shard path).map.filter (·.1 ≠ path)) + snapshot.byteLen ≤ u64Max
  | _ => True

end CacheStep

/-! ## One shard -/

namespace Shard
variable {capacity : ℕ} {s : Shard contentId} {path : PathBuf}

theorem accounted_empty : (empty : Shard contentId).Accounted capacity :=
  ⟨List.nodup_nil, rfl, fun _ he => absurd he List.not_mem_nil, Nat.zero_le _⟩

/-- Removing gives back what the entry holds. -/
theorem Accounted.remove (hs : s.Accounted capacity) (path : PathBuf) :
    (s.remove path).Accounted capacity ∧ s.removeExact path = some (s.remove path) := by
  have hsum := resident_filter hs.keys path
  rw [show s.map.lookup path = s.get path from rfl] at hsum
  unfold Shard.remove removeExact
  rcases hold : s.get path with _ | old
  · exact ⟨hs, rfl⟩
  · rw [hold, Option.map_some, Option.getD_some] at hsum
    have hused := hs.used
    have hle : old.bytes ≤ s.used := by omega
    refine ⟨⟨hs.keys.sublist (List.filter_sublist.map _), ?_, fun e he => ?_, ?_⟩, ?_⟩
    · simp only
      omega
    · exact hs.bytes e (List.mem_filter.1 he).1
    · exact (Nat.sub_le _ _).trans hs.fits
    · simp only [show checkedSub s.used old.bytes = some (s.used - old.bytes) from if_pos hle]
      rfl

theorem remove_used_le (s : Shard contentId) (path : PathBuf) : (s.remove path).used ≤ s.used := by
  unfold Shard.remove
  split
  · exact le_rfl
  · exact Nat.sub_le _ _

/-- What is left without a path is what others hold. -/
theorem Accounted.remove_used (hs : s.Accounted capacity) (path : PathBuf) :
    (s.remove path).used = resident (s.map.filter (·.1 ≠ path)) := by
  rw [(hs.remove path).1.used]
  unfold Shard.remove
  split
  · rename_i hnone
    have hsum := resident_filter hs.keys path
    rw [show s.map.lookup path = none from hnone] at hsum
    simpa using hsum
  · rfl

/-- **The eviction loop ends with enough room**, and nothing clamps in it. -/
theorem Accounted.evict (pick : ℕ → ℕ) {bytes : ℕ} (hb : bytes ≤ capacity) : ∀ (rounds : ℕ)
    {s : Shard contentId}, s.Accounted capacity → s.map.length ≤ rounds → s.used + bytes ≤ u64Max →
    (evict pick capacity bytes rounds s).Accounted capacity ∧
      evictExact pick capacity bytes rounds s = some (evict pick capacity bytes rounds s) ∧
      (evict pick capacity bytes rounds s).used + bytes ≤ capacity
  | 0, s, hs, hl, hu => by
    have hused := hs.used
    rw [List.length_eq_zero_iff.1 (Nat.le_zero.1 hl)] at hused
    have hzero : s.used = 0 := hused
    have hroom : ¬s.used + bytes > capacity := by omega
    refine ⟨hs, ?_, Nat.not_lt.1 hroom⟩
    rw [evictExact, checkedAdd, if_pos hu, Option.bind_some, if_neg hroom]
    rfl
  | rounds + 1, s, hs, hl, hu => by
    rw [Shard.evict, evictExact, saturatingAdd_of_le hu, checkedAdd, if_pos hu, Option.bind_some]
    split_ifs with hfull
    · rcases hpick : s.map[pick rounds % s.map.length]? with _ | ⟨key, entry⟩
      · have hzero : s.used = 0 := by
          rw [List.getElem?_eq_none_iff] at hpick
          rcases Nat.eq_zero_or_pos s.map.length with hnil | hpos
          · rw [hs.used, List.length_eq_zero_iff.1 hnil]
            rfl
          · exact absurd (Nat.mod_lt _ hpos) (Nat.not_lt.2 hpick)
        omega
      · have hlen : (s.remove key).map.length < s.map.length :=
          s.remove_length (List.mem_of_getElem? hpick)
        have hle := s.remove_used_le key
        obtain ⟨hremoved, hexact⟩ := hs.remove key
        obtain ⟨ha, he, hroom⟩ := Accounted.evict pick hb rounds hremoved (by omega) (by omega)
        refine ⟨ha, ?_, hroom⟩
        simp only [hexact, Option.bind_some]
        exact he
    · exact ⟨hs, rfl, Nat.not_lt.1 hfull⟩

theorem Accounted.within (hs : s.Accounted capacity) : s.Within capacity fun _ => True :=
  ⟨hs.keys, fun _ _ => trivial, fun e he => (hs.bytes e he).1.le.trans e.2.snapshot.text.isText.size,
    hs.used.le, hs.fits⟩

/-- A path gets an entry that is counted. -/
theorem accounted_put {entry : Entry contentId} (hk : (s.map.map (·.1)).Nodup)
    (hu : s.used = entry.bytes + resident (s.map.filter (·.1 ≠ path)))
    (hothers : ∀ e ∈ s.map, e.2.bytes = e.2.snapshot.bytes.length ∧ e.2.bytes ≤ capacity)
    (hentry : entry.bytes = entry.snapshot.bytes.length ∧ entry.bytes ≤ capacity)
    (hf : s.used ≤ capacity) : (s.put path entry).Accounted capacity := by
  refine ⟨?_, hu, fun e he => ?_, hf⟩
  · show (((path, entry) :: s.map.filter (·.1 ≠ path)).map (·.1)).Nodup
    rw [List.map_cons, List.nodup_cons]
    refine ⟨fun hmem => ?_, hk.sublist (List.filter_sublist.map _)⟩
    obtain ⟨e, he, heq⟩ := List.mem_map.1 hmem
    exact of_decide_eq_true (List.mem_filter.1 he).2 heq
  · rcases List.mem_cons.1 he with rfl | he
    · exact hentry
    · exact hothers e (List.mem_filter.1 he).1

/-- An entry changes its stamp. -/
theorem Accounted.refresh (hs : s.Accounted capacity) {entry : Entry contentId}
    (he : s.get path = some entry) (stamp : Option FileStamp) :
    (s.put path { entry with stamp }).Accounted capacity := by
  have hused := hs.used
  rw [resident_filter hs.keys path, show s.map.lookup path = _ from he] at hused
  exact accounted_put hs.keys hused hs.bytes (hs.bytes _ (mem_of_get he)) hs.fits

theorem get_put_self (entry : Entry contentId) : (s.put path entry).get path = some entry := by
  rw [Shard.get, Shard.put, List.lookup_cons_self]

end Shard

/-! ## One step -/

namespace SnapshotCache
variable {cache : SnapshotCache contentId}

/-- **An insertion keeps the accounts**, where its sum is a `u64`. -/
theorem Accounted.insert (hc : cache.Accounted) (pick : ℕ → ℕ) {path : PathBuf}
    {snapshot : Snapshot contentId} (hfits : snapshot.byteLen ≤ cache.capacity)
    (hadd : Shard.resident ((cache.shard path).map.filter (·.1 ≠ path)) + snapshot.byteLen ≤ u64Max) :
    ∃ s : Shard contentId, cache.insert pick path snapshot =
        cache.setShard path (s.put path ⟨snapshot, snapshot.byteLen, snapshot.stamp⟩) ∧
      CacheStep.exact cache (.insert pick path snapshot) =
        some (cache.insert pick path snapshot) ∧
      (s.put path ⟨snapshot, snapshot.byteLen, snapshot.stamp⟩).Accounted cache.capacity := by
  have hs : (cache.shard path).Accounted cache.capacity := hc.shards _
  obtain ⟨hremoved, hexact⟩ := hs.remove path
  have hused : ((cache.shard path).remove path).used + snapshot.byteLen ≤ u64Max := by
    rw [hs.remove_used path]
    exact hadd
  obtain ⟨hroom, hevict, henough⟩ := hremoved.evict pick hfits _ le_rfl hused
  have hkeys := (Shard.evict_within pick snapshot.byteLen _ hremoved.within le_rfl).2.2 path
    (Shard.remove_map _ path)
  set room := ((cache.shard path).remove path).evict pick cache.capacity snapshot.byteLen
    ((cache.shard path).remove path).map.length
  have hothers : room.map.filter (·.1 ≠ path) = room.map := Shard.filter_others hkeys
  have hsum : room.used + snapshot.byteLen ≤ u64Max := henough.trans hc.capacity
  have hinsert : cache.insert pick path snapshot =
      cache.setShard path (({ room with used := room.used + snapshot.byteLen } : Shard contentId).put path
        ⟨snapshot, snapshot.byteLen, snapshot.stamp⟩) := by
    rw [SnapshotCache.insert, if_neg (Nat.not_lt.2 hfits)]
    simp only
    rw [saturatingAdd_of_le hsum]
  refine ⟨_, hinsert, ?_, Shard.accounted_put hroom.keys ?_ hroom.bytes ⟨snapshot.byteLen_eq, hfits⟩
    henough⟩
  · rw [hinsert, CacheStep.exact_insert hfits, hexact, Option.bind_some, hevict, Option.bind_some,
      checkedAdd, if_pos hsum, Option.map_some]
  · rw [hothers]
    show room.used + snapshot.byteLen = _
    rw [hroom.used]
    exact Nat.add_comm _ _

/-- One shard changes. -/
theorem Accounted.setShard (hc : cache.Accounted) {path : PathBuf} {s : Shard contentId}
    (hs : s.Accounted cache.capacity) : (cache.setShard path s).Accounted := by
  refine ⟨hc.capacity, fun i => ?_⟩
  simp only [SnapshotCache.setShard]
  split_ifs
  · exact hs
  · exact hc.shards i

end SnapshotCache

namespace CacheStep
variable {cache : SnapshotCache contentId}

/-- Looking for a path's load adds no entry. -/
theorem join_accounted {s : Shard contentId} {capacity : ℕ} (hs : s.Accounted capacity)
    (path : PathBuf) (fresh : ℕ) : (SnapshotCache.join s path fresh).2.Accounted capacity := by
  unfold SnapshotCache.join
  split
  · exact hs
  · exact ⟨hs.keys, hs.used, hs.bytes, hs.fits⟩

theorem sound_claim (hc : cache.Accounted) (path : PathBuf) (current : Option FileStamp) (fresh : ℕ) :
    (claim path current fresh).Sound cache ∧ ((claim path current fresh).run cache).Accounted := by
  have hshard : (cache.shard path).Accounted cache.capacity := hc.shards _
  obtain ⟨hremoved, hexact⟩ := hshard.remove path
  refine ⟨⟨?_, fun _ _ _ he => by cases he⟩, ?_⟩
  · simp only [exact, run, SnapshotCache.claim, hexact]
    rcases cache.entry path with _ | entry
    · rfl
    · dsimp only
      split_ifs <;> rfl
  · simp only [run, SnapshotCache.claim]
    split
    · split_ifs
      · exact hc
      · exact hc.setShard (join_accounted hremoved _ _)
    · exact hc.setShard (join_accounted hshard _ _)

theorem sound_insert (hc : cache.Accounted) {pick : ℕ → ℕ} {path : PathBuf}
    {snapshot : Snapshot contentId} (hadd : (insert pick path snapshot).Addable cache) :
    (insert pick path snapshot).Sound cache ∧ ((insert pick path snapshot).run cache).Accounted := by
  by_cases hfits : snapshot.byteLen ≤ cache.capacity
  · obtain ⟨s, hinsert, hexact, hs⟩ := hc.insert pick hfits (hadd hfits)
    refine ⟨⟨hexact, ?_⟩, ?_⟩
    · rintro _ _ _ ⟨⟩ -
      refine ⟨⟨snapshot, snapshot.byteLen, snapshot.stamp⟩, ?_, rfl⟩
      simp only [run, hinsert, SnapshotCache.entry, SnapshotCache.shard, SnapshotCache.setShard, if_true]
      exact Shard.get_put_self _
    · rw [run, hinsert]
      exact hc.setShard hs
  · have hover : snapshot.byteLen > cache.capacity := Nat.lt_of_not_le hfits
    have hrun : (insert pick path snapshot).run cache = cache := if_pos hover
    refine ⟨⟨?_, ?_⟩, ?_⟩
    · rw [exact, if_pos hover, hrun]
    · rintro _ _ _ ⟨⟩ hle
      exact absurd (snapshot.byteLen_eq.le.trans hle) hfits
    · rw [hrun]
      exact hc

/-- **A step keeps the accounts and clamps nothing**, where what it adds is a `u64`. -/
theorem Addable.sound {step : CacheStep contentId} (hadd : step.Addable cache)
    (hc : cache.Accounted) : step.Sound cache ∧ (step.run cache).Accounted := by
  have hshard : ∀ path, (cache.shard path).Accounted cache.capacity := fun _ => hc.shards _
  cases step with
  | get path stamp => exact ⟨⟨rfl, fun _ _ _ he => by cases he⟩, hc⟩
  | racyResident path => exact ⟨⟨rfl, fun _ _ _ he => by cases he⟩, hc⟩
  | refresh path entryStamp after =>
    refine ⟨⟨rfl, fun _ _ _ he => by cases he⟩, ?_⟩
    simp only [run, SnapshotCache.refresh]
    split
    · exact hc
    · rename_i entry hentry
      split_ifs
      · exact hc.setShard ((hshard path).refresh hentry _)
      · exact hc
  | claim path current fresh => exact sound_claim hc path current fresh
  | insert pick path snapshot => exact sound_insert hc hadd
  | settle path =>
    have hs := hshard path
    exact ⟨⟨rfl, fun _ _ _ he => by cases he⟩, hc.setShard ⟨hs.keys, hs.used, hs.bytes, hs.fits⟩⟩
  | invalidate path =>
    obtain ⟨hremoved, hexact⟩ := (hshard path).remove path
    refine ⟨⟨?_, fun _ _ _ he => by cases he⟩,
      hc.setShard ⟨hremoved.keys, hremoved.used, hremoved.bytes, hremoved.fits⟩⟩
    rw [exact, hexact]
    rfl

/-- Where nothing clamps, what is added is a `u64`. -/
theorem Sound.addable {step : CacheStep contentId} (hs : step.Sound cache) (hc : cache.Accounted) :
    step.Addable cache := by
  cases step with
  | insert pick path snapshot =>
    intro hfits
    have hshard : (cache.shard path).Accounted cache.capacity := hc.shards _
    rw [← hshard.remove_used path]
    by_contra hover
    -- the first comparison of the loop is made in any case
    have hevict : ∀ rounds, ((cache.shard path).remove path).evictExact pick cache.capacity
        snapshot.byteLen rounds = none := by
      intro rounds
      cases rounds <;> simp only [Shard.evictExact, checkedAdd, if_neg hover, Option.bind_none]
    have hexact := hs.exact
    rw [exact_insert hfits, (hshard.remove path).2, Option.bind_some, hevict] at hexact
    cases hexact
  | _ => trivial

/-- Files are so short that a cache of up to half the integers never overflows. -/
theorem addable_of_small (step : CacheStep contentId) (hc : cache.Accounted)
    (hsmall : cache.capacity ≤ maxFileBytes + 1) : step.Addable cache := by
  cases step with
  | insert pick path snapshot =>
    intro hfits
    have hshard : (cache.shard path).Accounted cache.capacity := hc.shards _
    rw [← hshard.remove_used path]
    have hused := (hshard.remove path).1.fits
    have hsize := snapshot.text.isText.size
    rw [← snapshot.byteLen_eq] at hsize
    have hmax : u64Max + 1 = 2 * maxFileBytes + 2 := by decide
    omega
  | _ => trivial

end CacheStep

/-! ## Every run -/

/-- In a run of `steps` from `cache`, `step` is taken at `now`. -/
def CacheStep.Taken (cache : SnapshotCache contentId) (steps : List (CacheStep contentId))
    (now : SnapshotCache contentId) (step : CacheStep contentId) : Prop :=
  ∃ before after, steps = before ++ step :: after ∧ now = CacheStep.runs cache before

theorem CacheStep.runs_append (cache : SnapshotCache contentId) (steps steps' : List (CacheStep contentId)) :
    CacheStep.runs cache (steps ++ steps') = CacheStep.runs (CacheStep.runs cache steps) steps' :=
  List.foldl_append

/-- **A call of the server is a sequence of such steps**, whatever it loads and whoever comes between. -/
theorem runs_cache {h : Host} {α : Type} {rules : Rules h} {who : ℕ} : ∀ {xs : List Choice}
    {p p' : Prog (Call h) Answer α} {s s' : State h},
    Prog.runs (step rules who) xs (p, s) = some (p', s') →
    ∃ steps : List (CacheStep h.contentId), s'.world.cache = CacheStep.runs s.world.cache steps
  | [], p, p', s, s', hrun => by
    rw [Prog.runs, Option.some.injEq, Prod.mk.injEq] at hrun
    exact ⟨[], by rw [hrun.2]; rfl⟩
  | x :: xs, p, p', s, s', hrun => by
    rw [Prog.runs, Option.bind_eq_some_iff] at hrun
    obtain ⟨⟨p₁, s₁⟩, hstep, hrun⟩ := hrun
    obtain ⟨steps, hsteps⟩ := runs_cache hrun
    have hcache : ∃ before : List (CacheStep h.contentId),
        s₁.world.cache = CacheStep.runs s.world.cache before := by
      cases p with
      | ret a => cases hstep
      | call c k =>
        rw [Prog.advance, Option.map_eq_some_iff] at hstep
        obtain ⟨⟨a, s₂⟩, hst, heq⟩ := hstep
        cases heq
        obtain ⟨-, w, hw, ha, -⟩ := step_eq_some.1 hst
        have hwas := (Choice.elapsed_cache_eq hw).1
        rcases act_cache ha with hsame | ⟨step, hstep⟩
        · exact ⟨[], hsame.trans hwas⟩
        · exact ⟨[step], by rw [hstep, hwas]; rfl⟩
    obtain ⟨before, hbefore⟩ := hcache
    exact ⟨before ++ steps, by rw [hsteps, hbefore, CacheStep.runs_append]⟩

namespace SnapshotCache

theorem accounted_withCapacity (shardIndex : PathBuf → Fin shardCount) (capacity : UInt64) :
    (withCapacity shardIndex capacity.toNat : SnapshotCache contentId).Accounted :=
  ⟨(bounded_withCapacity Set.univ shardIndex capacity).capacity, fun _ => Shard.accounted_empty⟩

theorem Accounted.runs {cache : SnapshotCache contentId} (hc : cache.Accounted) :
    ∀ {steps : List (CacheStep contentId)},
    (∀ now step, CacheStep.Taken cache steps now step → step.Addable now) →
      (CacheStep.runs cache steps).Accounted := by
  intro steps
  induction steps using List.reverseRecOn with
  | nil => exact fun _ => hc
  | append_singleton steps step ih =>
    intro hadd
    have hbefore := ih fun now step' ⟨before, after, hsteps, hnow⟩ =>
      hadd now step' ⟨before, after ++ [step], by rw [hsteps]; simp, hnow⟩
    rw [CacheStep.runs_append]
    exact ((hadd _ step ⟨steps, [], rfl, rfl⟩).sound hbefore).2

/-- **The accounts of a cache never drift, exactly as long as sums are `u64`s**: for every capacity
    and every sequence of what calls do to it, in every state it passes through. -/
theorem accounts_iff_addable (contentId : Bytes → SnapshotId) (shardIndex : PathBuf → Fin shardCount)
    (capacity : UInt64) (steps : List (CacheStep contentId)) :
    ((∀ before, before <+: steps →
        (CacheStep.runs (withCapacity shardIndex capacity.toNat) before).Accounted) ∧
      ∀ now step, CacheStep.Taken (withCapacity shardIndex capacity.toNat) steps now step →
        step.Sound now) ↔
      ∀ now step, CacheStep.Taken (withCapacity shardIndex capacity.toNat) steps now step →
        step.Addable now := by
  constructor
  · rintro ⟨haccounted, hsound⟩ now step ⟨before, after, rfl, rfl⟩
    exact (hsound _ step ⟨before, after, rfl, rfl⟩).addable
      (haccounted before (List.prefix_append _ _))
  · intro hadd
    have haccounted : ∀ before, before <+: steps →
        (CacheStep.runs (withCapacity shardIndex capacity.toNat) before).Accounted := by
      rintro before ⟨rest, rfl⟩
      refine (accounted_withCapacity shardIndex capacity).runs fun now step htaken => ?_
      obtain ⟨b, a, rfl, hnow⟩ := htaken
      exact hadd now step ⟨b, a ++ rest, by simp, hnow⟩
    refine ⟨haccounted, fun now step htaken => ?_⟩
    obtain ⟨before, after, rfl, rfl⟩ := htaken
    exact ((hadd _ step ⟨before, after, rfl, rfl⟩).sound (haccounted before
      (List.prefix_append _ _))).1

/-! ## One snapshot at many paths -/

/-- One snapshot inserted at so many paths, which are told apart by their numbers. -/
def copies (n : ℕ) (snapshot : Snapshot contentId) : List (CacheStep contentId) :=
  (List.range n).map fun i => .insert id [toString i] snapshot

/-- **Without a limit nothing is evicted**: a new path's entry comes to the others. -/
theorem insert_unlimited (cache : SnapshotCache contentId) (hcapacity : cache.capacity = u64Max)
    (pick : ℕ → ℕ) {path : PathBuf} (hnone : cache.entry path = none) (snapshot : Snapshot contentId) :
    ∃ used, cache.insert pick path snapshot = cache.setShard path { cache.shard path with
      map := (path, ⟨snapshot, snapshot.byteLen, snapshot.stamp⟩) :: (cache.shard path).map, used } := by
  have hmax : maxFileBytes ≤ u64Max := by decide
  have hsize : snapshot.byteLen ≤ cache.capacity := by
    rw [hcapacity]
    exact (snapshot.byteLen_eq.le.trans snapshot.text.isText.size).trans hmax
  have hroom : saturatingAdd (cache.shard path).used snapshot.byteLen ≤ cache.capacity := by
    rw [hcapacity]
    exact Nat.min_le_right _ _
  have hremove := Shard.remove_of_get_eq_none hnone
  have hevict := Shard.evict_of_room pick hroom
  have hothers := Shard.filter_others (Shard.ne_of_get_eq_none hnone)
  refine ⟨saturatingAdd (cache.shard path).used snapshot.byteLen, ?_⟩
  rw [insert, if_neg (Nat.not_lt.2 hsize)]
  simp only [hremove, hevict, Shard.put, hothers]

theorem toString_nat_inj {i n : ℕ} (h : toString i = toString n) : i = n := by
  have hdigits : ∀ m : ℕ, toString m = String.ofList (Nat.toDigits 10 m) := fun _ => rfl
  rw [hdigits, hdigits, String.ofList_inj] at h
  rw [← @Nat.ofDigitChars_ten_toDigits i, h, Nat.ofDigitChars_ten_toDigits]

/-- So many copies in one shard of a cache without a limit: each has its entry. -/
theorem copies_resident (snapshot : Snapshot contentId) (n : ℕ) : ∃ cache,
    CacheStep.runs (withCapacity (fun _ => 0) u64Max) (copies n snapshot) = cache ∧
    cache.capacity = u64Max ∧ (∀ path, cache.shardIndex path = 0) ∧
    Shard.resident (cache.shards 0).map = n * snapshot.byteLen ∧
    ∀ e ∈ (cache.shards 0).map, ∃ i < n, e.1 = [toString i] := by
  induction n with
  | zero =>
    exact ⟨_, rfl, Nat.max_eq_left (by decide), fun _ => rfl, (Nat.zero_mul _).symm,
      fun e he => absurd he List.not_mem_nil⟩
  | succ n ih =>
    obtain ⟨cache, hruns, hcapacity, hindex, hresident, hpaths⟩ := ih
    have hsteps : copies (n + 1) snapshot = copies n snapshot ++ [.insert id [toString n] snapshot] := by
      rw [copies, List.range_succ, List.map_append]
      rfl
    have hnone : cache.entry [toString n] = none := by
      rw [entry, Shard.get, shard, hindex, List.lookup_eq_none_iff]
      intro e he
      obtain ⟨i, hi, heq⟩ := hpaths e he
      have hne : toString n ≠ toString i := fun h => hi.ne (toString_nat_inj h).symm
      simpa [heq] using hne
    obtain ⟨used, hinsert⟩ := insert_unlimited cache hcapacity id hnone snapshot
    have hshard : ∀ s, (cache.setShard [toString n] s).shards 0 = s := fun s => if_pos (hindex _).symm
    have hrun : CacheStep.runs (withCapacity (fun _ => 0) u64Max) (copies (n + 1) snapshot) =
        cache.insert id [toString n] snapshot := by
      rw [hsteps, CacheStep.runs_append, hruns]
      rfl
    refine ⟨_, hrun.trans hinsert, hcapacity, hindex, ?_, ?_⟩
    · rw [hshard, shard, hindex, Shard.resident, List.map_cons, List.sum_cons, ← Shard.resident,
        hresident, Nat.succ_mul, Nat.add_comm]
    · rw [hshard, shard, hindex]
      refine List.forall_mem_cons.2 ⟨⟨n, Nat.lt_succ_self n, rfl⟩, fun e he => ?_⟩
      obtain ⟨i, hi, heq⟩ := hpaths e he
      exact ⟨i, Nat.lt_succ_of_lt hi, heq⟩

/-- One snapshot of 2^36 bytes at 2^28 + 1 paths of one shard, in a cache without a limit: no `u64`
    counts what the entries hold. -/
theorem accounts_drift : ¬(CacheStep.runs (withCapacity (fun _ => 0) u64Max)
    (copies (2 ^ 28 + 1) (.plain (2 ^ 36) (by decide) : Snapshot fun _ => ⟨0⟩))).Accounted := by
  obtain ⟨cache, hruns, hcapacity, -, hresident, -⟩ :=
    copies_resident (.plain (2 ^ 36) (by decide) : Snapshot fun _ => ⟨0⟩) (2 ^ 28 + 1)
  rw [hruns]
  intro hc
  have hfits := (hc.shards 0).fits
  rw [(hc.shards 0).used, hresident, Snapshot.plain_byteLen, hcapacity] at hfits
  exact absurd hfits (by decide)

end SnapshotCache

end Hashline
