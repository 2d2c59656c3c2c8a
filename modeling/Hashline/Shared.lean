/-
  The memory that the threads of a server share: what is resident was inserted,
  and what a cell tells was told by a thread that was led to it.
-/
import Hashline.Flight

namespace Hashline

open Machine

variable {h : Host}

/-! ## What stays in a shard -/

namespace Shard
variable {contentId : Bytes → SnapshotId} {s : Shard contentId} {r : PathBuf × Entry contentId}

theorem mem_of_remove {path : PathBuf} (hr : r ∈ (s.remove path).map) : r ∈ s.map := by
  unfold Shard.remove at hr
  split at hr
  · exact hr
  · exact (List.mem_filter.1 hr).1

theorem mem_of_evict {pick : ℕ → ℕ} {capacity bytes : ℕ} : ∀ (rounds : ℕ) {s : Shard contentId},
    r ∈ (s.evict pick capacity bytes rounds).map → r ∈ s.map
  | 0, s, hr => hr
  | rounds + 1, s, hr => by
    rw [Shard.evict] at hr
    split_ifs at hr
    · split at hr
      · exact mem_of_remove (mem_of_evict rounds hr)
      · exact hr
    · exact hr

theorem mem_of_put {path : PathBuf} {entry : Entry contentId} (hr : r ∈ (s.put path entry).map) :
    r = (path, entry) ∨ r ∈ s.map :=
  (List.mem_cons.1 hr).imp id fun hr => (List.mem_filter.1 hr).1

end Shard

namespace SnapshotCache
variable {contentId : Bytes → SnapshotId} (cache : SnapshotCache contentId)

/-- The path has the entry. -/
def Resident (r : PathBuf × Entry contentId) : Prop := ∃ k, r ∈ (cache.shards k).map

variable {cache} {r : PathBuf × Entry contentId} {path : PathBuf}

theorem resident_of_entry {entry : Entry contentId} (he : cache.entry path = some entry) :
    cache.Resident (path, entry) := ⟨_, Shard.mem_of_get he⟩

theorem resident_of_setShard {s : Shard contentId} (hr : (cache.setShard path s).Resident r) :
    r ∈ s.map ∨ cache.Resident r := by
  obtain ⟨k, hr⟩ := hr
  simp only [setShard] at hr
  split_ifs at hr
  · exact .inl hr
  · exact .inr ⟨k, hr⟩

theorem resident_of_refresh {entryStamp after : FileStamp}
    (hr : (cache.refresh path entryStamp after).Resident r) :
    (∃ entry, cache.entry path = some entry ∧ (entry.stamp == some entryStamp) = true ∧
      r = (path, { entry with stamp := some after })) ∨ cache.Resident r := by
  unfold refresh at hr
  split at hr
  · exact .inr hr
  · rename_i entry he
    split_ifs at hr with hst
    · rcases resident_of_setShard hr with hr | hr
      · rcases Shard.mem_of_put hr with rfl | hr
        · exact .inl ⟨entry, he, hst, rfl⟩
        · exact .inr ⟨_, hr⟩
      · exact .inr hr
    · exact .inr hr

theorem resident_of_insert {pick : ℕ → ℕ} {snapshot : Snapshot contentId}
    (hr : (cache.insert pick path snapshot).Resident r) :
    r = (path, ⟨snapshot, snapshot.byteLen, snapshot.stamp⟩) ∨ cache.Resident r := by
  unfold insert at hr
  dsimp only at hr
  split_ifs at hr
  · exact .inr hr
  · refine (resident_of_setShard hr).elim (fun hr => ?_) .inr
    exact (Shard.mem_of_put hr).imp id fun hr =>
      ⟨_, Shard.mem_of_remove (Shard.mem_of_evict _ hr)⟩

theorem resident_of_claim {current : Option FileStamp} {fresh : ℕ}
    (hr : (cache.claim path current fresh).2.Resident r) : cache.Resident r := by
  have hjoin : ∀ s : Shard contentId, (join s path fresh).2.map = s.map := fun s => by
    unfold join
    split <;> rfl
  unfold claim at hr
  split at hr
  · split_ifs at hr
    · exact hr
    · refine (resident_of_setShard hr).elim (fun hr => ?_) id
      rw [hjoin] at hr
      exact ⟨_, Shard.mem_of_remove hr⟩
  · refine (resident_of_setShard hr).elim (fun hr => ?_) id
    rw [hjoin] at hr
    exact ⟨_, hr⟩

theorem resident_of_settle (hr : (cache.settle path).Resident r) : cache.Resident r :=
  (resident_of_setShard hr).elim (fun hr => ⟨_, hr⟩) id

/-- A hit by stamp is an entry with an equal stamp, which is not racy. -/
theorem get_some {stamp : FileStamp} {snapshot : Snapshot contentId}
    (hg : cache.get path (some stamp) = some snapshot) :
    ∃ entry, cache.Resident (path, entry) ∧ entry.snapshot = snapshot ∧
      (entry.stamp == some stamp) = true ∧ entry.stamp.any (·.racy) = false := by
  unfold get at hg
  split at hg
  · cases hg
  · rename_i he hst
    cases hst
  · rename_i entry expected he hst
    cases hst
    split_ifs at hg with hne hracy
    cases hg
    refine ⟨entry, resident_of_entry he, rfl, ?_, Bool.eq_false_iff.2 hracy⟩
    by_contra hno
    exact hne (by rw [bne, Bool.eq_false_iff.2 hno]; rfl)

theorem racyResident_some {snapshot : Snapshot contentId} {stamp : FileStamp}
    (hg : cache.racyResident path = some (snapshot, stamp)) :
    ∃ entry, cache.entry path = some entry ∧ entry.snapshot = snapshot ∧ entry.stamp = some stamp := by
  unfold racyResident at hg
  split at hg
  · cases hg
  · rename_i entry he
    split at hg
    · cases hg
    · rename_i stamp' hst
      split_ifs at hg
      cases hg
      exact ⟨entry, he, rfl, hst⟩

/-- What a claim serves is an entry whose stamp is the current one. -/
theorem claim_inl {current : Option FileStamp} {fresh : ℕ} {snapshot : Snapshot contentId}
    (hc : (cache.claim path current fresh).1 = .inl snapshot) :
    ∃ entry, cache.Resident (path, entry) ∧ entry.snapshot = snapshot ∧ stampOk current entry = true := by
  unfold claim at hc
  split at hc
  · rename_i entry he
    split_ifs at hc with hok
    cases hc
    exact ⟨entry, resident_of_entry he, rfl, hok⟩
  · cases hc

end SnapshotCache

/-! ## What is shared -/

/-- The inode a stamp is of. -/
def FileStamp.inode (stamp : FileStamp) : ℕ := stamp.identity.inode

theorem FileStamp.inode_of_beq {a b : FileStamp} (hab : (a == b) = true) : a.inode = b.inode :=
  congrArg FileIdentity.inode (eq_iff.1 hab).1

theorem stamp_inode_of_beq {o : Option FileStamp} {stamp : FileStamp} (ho : (o == some stamp) = true) :
    o.map FileStamp.inode = some stamp.inode := by
  rcases o with _ | a
  · cases ho
  · exact congrArg some (FileStamp.inode_of_beq ho)

/-- The call was led to the cell for the path. -/
def Did.leads (d : Did h) (path : PathBuf) (cell : ℕ) : Prop :=
  match d.call, d.answer with
  | .cacheClaim p _, .inr c => path = p ∧ cell = c
  | _, _ => False

/-- Some call was led to the cell for the path. -/
def State.Led (s : State h) (path : PathBuf) (cell : ℕ) : Prop := ∃ d ∈ s.trace, d.leads path cell

/-- An entry is refreshed with the stamp of the same file only. -/
def Call.Faithful : Call h → Prop
  | .cacheRefresh _ entryStamp after => after.inode = entryStamp.inode
  | _ => True

/-- Nothing is resident or in flight. -/
structure World.Blank (w : World h) : Prop where
  resident : ∀ r, ¬w.cache.Resident r
  flight : ∀ path, w.cache.flight path = none
  cells : ∀ cell, (w.cells cell).state = .pending

/-- **What the threads share**: entries that were inserted, with a stamp of the file they were of, cells
    for one path each, and snapshots that were told to those who wait. -/
structure State.Shared (s : State h) : Prop where
  inserted : ∀ r, s.world.cache.Resident r → ∃ d ∈ s.trace, d.call = .cacheInsert r.1 r.2.snapshot ∧
    r.2.stamp.map FileStamp.inode = r.2.snapshot.stamp.map FileStamp.inode
  flying : ∀ path cell, s.world.cache.flight path = some cell → s.Led path cell
  led : ∀ path cell, s.Led path cell → cell < s.world.nextCell
  one : ∀ path path' cell, s.Led path cell → s.Led path' cell → path = path'
  told : ∀ cell snapshot, (s.world.cells cell).state = .ready (.ok snapshot) →
    ∃ d ∈ s.trace, d.call = .cellSet cell (.ready (.ok snapshot))

theorem World.Blank.shared {w : World h} (hb : w.Blank) : (⟨w, []⟩ : State h).Shared := by
  refine ⟨fun r hr => absurd hr (hb.resident r), fun path cell hf => ?_, ?_, ?_, fun cell snapshot hc => ?_⟩
  · rw [hb.flight] at hf
    cases hf
  · rintro path cell ⟨d, hd, -⟩
    cases hd
  · rintro path path' cell ⟨d, hd, -⟩
    cases hd
  · rw [hb.cells] at hc
    cases hc

theorem Call.Unshared.faithful {c : Call h} (hc : c.Unshared) : c.Faithful := by
  cases c with
  | cacheRefresh => exact hc.elim
  | _ => trivial

theorem act_cacheGet {who : ℕ} {x : Choice} {path : PathBuf} {stamp : Option FileStamp} {w w' : World h}
    {a : Option (Snapshot h.contentId)} (ha : act who x (.cacheGet path stamp) w = some (a, w')) :
    a = w.cache.get path stamp := by
  cases ha
  rfl

theorem act_cacheRacyResident {who : ℕ} {x : Choice} {path : PathBuf} {w w' : World h}
    {a : Option (Snapshot h.contentId × FileStamp)}
    (ha : act who x (.cacheRacyResident path) w = some (a, w')) : a = w.cache.racyResident path := by
  cases ha
  rfl

theorem act_cacheRefresh {who : ℕ} {x : Choice} {path : PathBuf} {entryStamp after : FileStamp}
    {w w' : World h} {a : Unit} (ha : act who x (.cacheRefresh path entryStamp after) w = some (a, w')) :
    w' = { w with cache := w.cache.refresh path entryStamp after } := by
  cases ha
  rfl

theorem act_cacheInsert {who : ℕ} {x : Choice} {path : PathBuf} {snapshot : Snapshot h.contentId}
    {w w' : World h} {a : Unit} (ha : act who x (.cacheInsert path snapshot) w = some (a, w')) :
    w' = { w with cache := w.cache.insert x.pick path snapshot } := by
  cases ha
  rfl

namespace State
variable {s s' : State h} {d : Did h}

theorem led_cons (ht : s'.trace = d :: s.trace) (path : PathBuf) (cell : ℕ) :
    s'.Led path cell ↔ d.leads path cell ∨ s.Led path cell := by
  simp only [Led, ht, List.mem_cons, exists_eq_or_imp]

/-- A call that leads nobody anywhere, and leaves the flights or takes from them. -/
theorem Shared.keep (hs : s.Shared) (ht : s'.trace = d :: s.trace)
    (hleads : ∀ path cell, ¬d.leads path cell)
    (hres : ∀ r, s'.world.cache.Resident r → s.world.cache.Resident r ∨
      d.call = .cacheInsert r.1 r.2.snapshot ∧
        r.2.stamp.map FileStamp.inode = r.2.snapshot.stamp.map FileStamp.inode ∨
      ∃ entry, s.world.cache.Resident (r.1, entry) ∧ entry.snapshot = r.2.snapshot ∧
        entry.stamp.map FileStamp.inode = r.2.stamp.map FileStamp.inode)
    (hfl : ∀ path cell, s'.world.cache.flight path = some cell → s.world.cache.flight path = some cell)
    (hnext : s.world.nextCell = s'.world.nextCell)
    (hcells : ∀ cell, (s'.world.cells cell).state = (s.world.cells cell).state ∨
      d.call = .cellSet cell (s'.world.cells cell).state) : s'.Shared := by
  have hled : ∀ path cell, s'.Led path cell ↔ s.Led path cell := fun path cell =>
    (led_cons ht path cell).trans (or_iff_right (hleads path cell))
  refine ⟨fun r hr => ?_, fun path cell hf => (hled path cell).2 (hs.flying path cell (hfl path cell hf)),
    fun path cell hl => ?_, fun path path' cell hl hl' => ?_, fun cell snapshot hc => ?_⟩
  · rw [ht]
    rcases hres r hr with hr | hr | ⟨entry, hr, hsnap, hst⟩
    · obtain ⟨e, he, hcall⟩ := hs.inserted r hr
      exact ⟨e, List.mem_cons_of_mem _ he, hcall⟩
    · exact ⟨d, List.mem_cons_self, hr⟩
    · obtain ⟨e, he, hcall, hin⟩ := hs.inserted _ hr
      exact ⟨e, List.mem_cons_of_mem _ he, by rw [← hsnap]; exact hcall, by rw [← hst, ← hsnap]; exact hin⟩
  · rw [← hnext]
    exact hs.led path cell ((hled path cell).1 hl)
  · exact hs.one path path' cell ((hled path cell).1 hl) ((hled path' cell).1 hl')
  · rw [ht]
    rcases hcells cell with hsame | hset
    · obtain ⟨e, he, hcall⟩ := hs.told cell snapshot (hsame ▸ hc)
      exact ⟨e, List.mem_cons_of_mem _ he, hcall⟩
    · exact ⟨d, List.mem_cons_self, by rw [← hc]; exact hset⟩

/-- Only the lock of a cell changes, or what the call sets it to. -/
theorem Shared.keep_cell (hs : s.Shared) (ht : s'.trace = d :: s.trace) {cell : ℕ} {k : Cell h.contentId}
    (hw : s'.world = d.before.setCell cell k) (hcache : d.before.cache = s.world.cache)
    (hcells : d.before.cells = s.world.cells) (hnext : d.before.nextCell = s.world.nextCell)
    (hleads : ∀ path cell, ¬d.leads path cell)
    (hk : k.state = (d.before.cells cell).state ∨ d.call = .cellSet cell k.state) : s'.Shared := by
  refine hs.keep ht hleads (fun r hr => .inl ?_) (fun p c hfl => ?_) ?_ fun c => ?_
  · rw [hw] at hr
    exact hcache ▸ hr
  · rw [hw] at hfl
    exact hcache ▸ hfl
  · rw [hw]
    exact hnext.symm
  · by_cases hc : c = cell
    · subst hc
      rw [← hcells, hw, World.setCell]
      simpa using hk
    · refine .inl ?_
      rw [← hcells, hw, World.setCell]
      simp [hc]

/-- A claim leads to the cell in flight, or to a fresh one. -/
theorem Shared.claim (hs : s.Shared) (ht : s'.trace = d :: s.trace) {path : PathBuf}
    {current : Option FileStamp}
    (hw : s'.world = { d.before with
      cache := (s.world.cache.claim path current s.world.nextCell).2, nextCell := s.world.nextCell + 1 })
    (hcells : d.before.cells = s.world.cells)
    (hleads : ∀ p cell, d.leads p cell ↔ p = path ∧
      (s.world.cache.claim path current s.world.nextCell).1 = .inr cell) : s'.Shared := by
  have hled := led_cons ht
  have hold : ∀ p cell, s.Led p cell → s'.Led p cell := fun p cell hl => (hled p cell).2 (.inr hl)
  -- a cell led to now is in flight already, or has a number of its own
  have hnew : ∀ p cell, d.leads p cell → s.Led p cell ∨ cell = s.world.nextCell ∧ p = path := by
    intro p cell hl
    obtain ⟨rfl, hc⟩ := (hleads p cell).1 hl
    rcases s.world.cache.claim_flight p current s.world.nextCell with
      ⟨snapshot, he⟩ | ⟨cell', hfl, he, -⟩ | ⟨-, he, -⟩
    · rw [he] at hc
      cases hc
    · rw [he] at hc
      cases hc
      exact .inl (hs.flying p _ hfl)
    · rw [he] at hc
      cases hc
      exact .inr ⟨rfl, rfl⟩
  have hcase : ∀ p cell, s'.Led p cell → s.Led p cell ∨ cell = s.world.nextCell ∧ p = path :=
    fun p cell hl => ((hled p cell).1 hl).elim (hnew p cell) .inl
  refine ⟨fun r hr => ?_, fun p cell hf => ?_, fun p cell hl => ?_, fun p p' cell hl hl' => ?_,
    fun cell snapshot hc => ?_⟩
  · rw [hw] at hr
    obtain ⟨e, he, hcall⟩ := hs.inserted r (SnapshotCache.resident_of_claim hr)
    exact ⟨e, ht ▸ List.mem_cons_of_mem _ he, hcall⟩
  · rw [hw] at hf
    rcases s.world.cache.claim_flight path current s.world.nextCell with
      ⟨snapshot, he⟩ | ⟨cell', -, -, hsame⟩ | ⟨-, he, hupdate⟩
    · simp only [he] at hf
      exact hold p cell (hs.flying p cell hf)
    · simp only [hsame] at hf
      exact hold p cell (hs.flying p cell hf)
    · simp only [hupdate, Function.update_apply] at hf
      split_ifs at hf with hp
      · cases hf
        exact (hled p _).2 (.inl ((hleads p _).2 ⟨hp, he⟩))
      · exact hold p cell (hs.flying p cell hf)
  · rw [hw]
    rcases hcase p cell hl with hl | ⟨rfl, -⟩
    · exact (hs.led p cell hl).trans (Nat.lt_succ_self _)
    · exact Nat.lt_succ_self _
  · rcases hcase p cell hl with hl | ⟨rfl, rfl⟩ <;> rcases hcase p' _ hl' with hl' | ⟨hc, rfl⟩
    · exact hs.one p p' cell hl hl'
    · subst hc
      exact absurd (hs.led p _ hl) (lt_irrefl _)
    · exact absurd (hs.led p' _ hl') (lt_irrefl _)
    · rfl
  · rw [hw] at hc
    obtain ⟨e, he, hcall⟩ := hs.told cell snapshot (hcells ▸ hc)
    exact ⟨e, ht ▸ List.mem_cons_of_mem _ he, hcall⟩

/-- **Whatever a thread does**, what is shared stays in order. -/
theorem Shared.act {who : ℕ} {x : Choice} {c : Call h} {a : Answer c} {w : World h} (hs : s.Shared)
    (hf : c.Faithful) (hcache : w.cache = s.world.cache) (hcells : w.cells = s.world.cells)
    (hnext : w.nextCell = s.world.nextCell) (ha : Hashline.act who x c w = some (a, s'.world))
    (ht : s'.trace = ⟨who, x, c, a, s.world, w, s'.world⟩ :: s.trace) : s'.Shared := by
  have hsame : ∀ cell, (w.cells cell).state = (s.world.cells cell).state := fun cell => by rw [hcells]
  cases c with
  | cacheRefresh path entryStamp after =>
    have hw := act_cacheRefresh ha
    refine hs.keep ht (fun _ _ => id) (fun r hr => ?_) (fun p cell hfl => ?_) (by rw [hw]; exact hnext.symm)
      fun cell => .inl (by rw [hw]; exact hsame cell)
    · rw [hw] at hr
      rcases SnapshotCache.resident_of_refresh hr with ⟨entry, he, hst, rfl⟩ | hr
      · refine .inr (.inr ⟨entry, hcache ▸ SnapshotCache.resident_of_entry he, rfl, ?_⟩)
        rw [stamp_inode_of_beq hst]
        exact congrArg some hf.symm
      · exact .inl (hcache ▸ hr)
    · simpa only [hw, SnapshotCache.refresh_flight, hcache] using hfl
  | cacheInsert path snapshot =>
    have hw := act_cacheInsert ha
    refine hs.keep ht (fun _ _ => id) (fun r hr => ?_) (fun p cell hfl => ?_) (by rw [hw]; exact hnext.symm)
      fun cell => .inl (by rw [hw]; exact hsame cell)
    · rw [hw] at hr
      rcases SnapshotCache.resident_of_insert hr with rfl | hr
      · exact .inr (.inl ⟨rfl, rfl⟩)
      · exact .inl (hcache ▸ hr)
    · simpa only [hw, SnapshotCache.insert_flight, hcache] using hfl
  | cacheSettle path =>
    have hw := act_cacheSettle ha
    refine hs.keep ht (fun _ _ => id) (fun r hr => .inl ?_) (fun p cell hfl => ?_)
      (by rw [hw]; exact hnext.symm) fun cell => .inl (by rw [hw]; exact hsame cell)
    · rw [hw] at hr
      exact hcache ▸ SnapshotCache.resident_of_settle hr
    · simp only [hw, SnapshotCache.settle_flight, hcache, Function.update_apply] at hfl
      split_ifs at hfl
      exact hfl
  | cellLock cell =>
    obtain ⟨-, rfl, hw⟩ := act_cellLock ha
    exact hs.keep_cell ht hw hcache hcells hnext (fun _ _ => id) (.inl rfl)
  | cellSet cell state =>
    exact hs.keep_cell ht (act_cellSet ha) hcache hcells hnext (fun _ _ => id) (.inr rfl)
  | cellUnlock cell =>
    exact hs.keep_cell ht (act_cellUnlock ha) hcache hcells hnext (fun _ _ => id) (.inl rfl)
  | cacheClaim path current =>
    obtain ⟨ha, hw⟩ := act_cacheClaim ha
    rw [hcache, hnext] at hw ha
    refine hs.claim ht hw hcells fun p cell => ?_
    rw [← ha]
    change Snapshot h.contentId ⊕ ℕ at a
    rcases a with snapshot | c
    · exact ⟨False.elim, nofun⟩
    · exact and_congr_right fun _ => ⟨fun hc => congrArg Sum.inr hc.symm, fun hc => (Sum.inr.inj hc).symm⟩
  | _ =>
    obtain ⟨hca, hce, hne⟩ := act_unshared (by trivial) ha
    refine hs.keep ht (fun _ _ => id) (fun r hr => .inl ?_) (fun path cell hfl => ?_)
      (by rw [hne, hnext]) fun cell => .inl (by rw [hce, hcells])
    · rwa [hca, hcache] at hr
    · rwa [hca, hcache] at hfl

end State

end Hashline
