/-
  One load of a path at a time, an outcome for all that join it, and somebody
  who can go on: what holds at any moment of any calls of the cache.
-/
import Hashline.Callers
import Hashline.Readers

namespace Hashline

open Machine

variable {h : Host} {n : ℕ}

/-! ## Who can go on -/

/-- Calls that never wait. -/
def Call.Ready : Call h → Prop
  | .lock _ | .cellLock _ => False
  | _ => True

theorem Call.Light.ready {c : Call h} (hc : c.Light) : c.Ready := by
  cases c <;> trivial

theorem SnapshotCache.ready_of_lockOf {cache : SnapshotCache h.contentId} {c : Call h}
    (hc : cache.lockOf c ≠ none) : c.Ready := by
  cases c <;> trivial

/-- Whatever can fail fails. -/
def Choice.refusing : Choice := { fault := some ⟨.other, "refused"⟩ }

theorem act_ready {c : Call h} (hc : c.Ready) (who : ℕ) (w : World h) :
    (act who Choice.refusing c w).isSome := by
  cases c <;> first | rfl | exact hc.elim

theorem step_answers {c : Call h} {who : ℕ} {s : State h}
    (ha : (act who Choice.refusing c (s.world.wait 0)).isSome) :
    ∃ x, (step Rules.all who x c s).isSome := by
  obtain ⟨r, hr⟩ := Option.isSome_iff_exists.1 ha
  refine ⟨Choice.refusing, ?_⟩
  have helapsed : Choice.refusing.elapsed s.world = some (s.world.wait 0) := rfl
  have hrule : Rules.all s c Choice.refusing = true := rfl
  rw [step, if_pos hrule, helapsed, Option.bind_some, hr]
  rfl

section
variable {jobs : Fin n → Job h} {threads : Fin n → Left h} {s : State h}
  {F : Flights (Fin n) PathBuf (Outcome h)} {i : Fin n} {job : Job h} {stage : Stage (Outcome h)}

/-- A call waits only for the lock of its cell. -/
theorem Job.Stands.ready {c : Call h} {k : Answer c → Left h} (hs : job.Stands stage (.call c k))
    (hstage : ∀ cell, stage ≠ .waiting cell) : c.Ready := by
  rcases job with ⟨path, loader⟩ | ⟨path, snapshot⟩
  · have hturn : Turn path loader stage c k := Stands.turn hs
    cases hturn with
    | light hc => exact hc.ready
    | look cell => exact absurd rfl (hstage cell)
    | claim | resolve | settle | leave | part => trivial
  · exact hs.light.1.1.ready

/-- **A call that is not its own is its loader's**, and is made only where it loads. -/
theorem Job.Stands.loading {c : Call h} {k : Answer c → Left h} (hs : job.Stands stage (.call c k))
    (hc : ¬c.Own job.path) : ∃ cell, stage = .loading cell := by
  rcases job with ⟨path, loader⟩ | ⟨path, snapshot⟩
  · have hturn : Turn path loader stage c k := Stands.turn hs
    cases hturn with
    | light _ hown => exact hown.resolve_right hc
    | claim | settle => exact absurd rfl hc
    | look | resolve | leave | part => exact absurd trivial hc
  · exact absurd hs.light.1.2 hc

/-- Who has the lock of a cell has not returned. -/
theorem Job.Stands.unfinished {p : Left h} (hs : job.Stands stage p) {cell : ℕ}
    (hcell : stage.holds = some cell) : ∃ c k, p = .call c k := by
  rcases job with ⟨path, loader⟩ | ⟨path, snapshot⟩
  · cases stage with
    | outside | waiting | owned | joined => cases hcell
    | loading cell =>
      cases hs with
      | call hc _ => exact ⟨_, _, rfl⟩
      | done h =>
        obtain ⟨loaded, -, rfl⟩ := h
        exact ⟨_, _, rfl⟩
    | settling cell outcome | leaving cell outcome =>
      obtain ⟨loaded, -, -, rfl⟩ := hs
      exact ⟨_, _, rfl⟩
    | reading cell outcome =>
      obtain rfl : p = SnapshotCache.parting path cell outcome := hs
      exact ⟨_, _, rfl⟩
  · cases stage with
    | outside => cases hcell
    | _ => exact hs.elim

/-- **Where a call has not returned, one is about to make a call that can be answered**: who waits for
    a cell waits for one that never waits. -/
theorem Flies.answered (hf : Flies jobs threads s F) {c : Call h} {k : Answer c → Left h}
    (hprog : threads i = .call c k) :
    ∃ j c k, threads j = .call c k ∧ ∃ x, (Hashline.step Rules.all j.val x c s).isSome := by
  have hready : ∀ {j c k}, threads j = .call c k → (∀ cell, F.stage j ≠ .waiting cell) →
      ∃ j c k, threads j = .call c k ∧ ∃ x, (Hashline.step Rules.all j.val x c s).isSome := by
    intro j c k hprog hstage
    refine ⟨j, c, k, hprog, step_answers (act_ready ?_ _ _)⟩
    have hstands := hf.stands j
    rw [hprog] at hstands
    exact hstands.ready hstage
  by_cases hwait : ∃ cell, F.stage i = .waiting cell
  · obtain ⟨cell, hi⟩ := hwait
    rcases hholder : F.holder cell with _ | j
    · -- the lock is free
      refine ⟨i, c, k, hprog, step_answers ?_⟩
      have hstands := hf.stands i
      rw [hprog, hi] at hstands
      have hfree : (s.world.cells cell).holder = none := by
        rw [hf.shows.holder, hholder]
        rfl
      rcases hjob : jobs i with ⟨path, loader⟩ | ⟨path, snapshot⟩ <;> rw [hjob] at hstands
      · have hp : Prog.call c k = .call (.cellLock cell)
          (SnapshotCache.looking path loader cell) := hstands.trans SnapshotCache.loadOrWait_eq
        cases hp
        simp only [act, World.wait, hfree, Option.isSome_some]
      · exact hstands.elim
    · -- its holder never waits
      have hheld := (hf.inv.held cell j).1 hholder
      obtain ⟨c', k', hprog'⟩ := (hf.stands j).unfinished hheld
      refine hready hprog' fun cell' hj => ?_
      rw [hj] at hheld
      cases hheld
  · exact hready hprog fun cell hi => hwait ⟨cell, hi⟩

end

/-! ## Every run -/

/-- Calls that run together. -/
abbrev Callers (h : Host) (n : ℕ) := Crowd (Fin n) (Fin shardCount) (Call h) Answer
  (Exec SnapshotError (Snapshot h.contentId)) (State h)

/-- What a cell holds, if a load has ended. -/
def InflightState.outcome : InflightState h.contentId → Option (Outcome h)
  | .pending => none
  | .ready outcome => some outcome

theorem InflightState.outcome_elim (state : InflightState h.contentId) :
    state.outcome.elim .pending .ready = state := by
  cases state <;> rfl

/-- The flights of a world where nobody has begun. -/
def World.flights (w : World h) (n : ℕ) : Flights (Fin n) PathBuf (Outcome h) where
  flight _ := none
  value cell := (w.cells cell).state.outcome
  holder _ := none
  next := w.nextCell
  made _ := none
  owner _ := none
  stage _ := .outside

/-- One step of the call `m.1`, on a cache with the shards of `cache`. -/
def goOn (cache : SnapshotCache h.contentId) (m : Fin n × Choice) (P : Callers h n) :
    Option (Callers h n) := P.advance (fun i => step Rules.all i.val) cache.lockOf m

/-- As many steps as `ms` tells. -/
def goesOn (cache : SnapshotCache h.contentId) (ms : List (Fin n × Choice)) (P : Callers h n) :
    Option (Callers h n) := P.runs (fun i => step Rules.all i.val) cache.lockOf ms

/-- **Single flight**: a loader makes its calls only while its call has found a cell pending and has
    not resolved it, which no two calls of one path have at once; no cell is resolved twice, whoever
    joins a load receives what the call returns whose load it is, and while a call has not returned,
    one can go on. -/
structure SingleFlight (jobs : Fin n → Job h) (cache : SnapshotCache h.contentId) (P : Callers h n) :
    Prop where
  inside : ∀ (i : Fin n) c k, P.threads i = .call c k → ¬c.Own (jobs i).path → P.state.Loading i
  one : ∀ i j : Fin n, P.state.Loading i → P.state.Loading j → (jobs i).key = (jobs j).key → i = j
  once : P.state.resolved.Nodup
  joined : ∀ (i : Fin n) cell outcome, (i.val, .joined cell outcome) ∈ P.state.notes →
    ∃ (j : Fin n) (path : _) (loader : _) (loaded : _), jobs j = .load path loader ∧
      path.components = (jobs i).key ∧ Could loader loaded ∧ P.threads j = .ret (loaded.mapError Fault.err) ∧
      outcome = publish loaded ∧ (j.val, .resolved cell outcome) ∈ P.state.notes ∧
      ∀ r, P.threads i = .ret r → r = SnapshotCache.joined (jobs i).path outcome
  progress : (∃ i c k, P.threads i = .call c k) → ∃ m P', goOn cache m P = some P'

section
variable {jobs : Fin n → Job h} {w : World h} {threads : Fin n → Left h} {s : State h}
  {F : Flights (Fin n) PathBuf (Outcome h)} {i j : Fin n} {cell : ℕ} {outcome : Outcome h}

theorem flies_crowd (hw : w.Unclaimed) : Flies jobs (crowd jobs w).threads ⟨w, []⟩ (w.flights n) := by
  have hinv : (w.flights n).Inv fun i => (jobs i).key := by
    refine Flights.inv_initial (fun _ => rfl) (fun _ => rfl) (fun _ => rfl) (fun cell hcell => ?_)
      (fun _ => rfl) fun _ => rfl
    show (w.cells cell).state.outcome = none
    rw [hw.fresh cell hcell]
    rfl
  refine ⟨hinv, ⟨?_, fun cell => ?_, hw.free, rfl⟩, ⟨fun i note => ?_, List.nodup_nil, ?_⟩,
    fun i => (jobs i).stands_run⟩
  · funext path
    rw [SnapshotCache.flight, SnapshotCache.shard, hw.inflight]
    rfl
  · exact (InflightState.outcome_elim _).symm
  · exact ⟨fun hmem => absurd hmem List.not_mem_nil, fun hmem => absurd hmem List.not_mem_nil⟩
  · exact fun cell hcell => absurd hcell List.not_mem_nil

theorem eq_loading_of_notes {stage : Stage (Outcome h)} (hfound : .found cell ∈ notesAt stage)
    (hnot : ∀ outcome, .resolved cell outcome ∉ notesAt stage) : stage = .loading cell := by
  cases stage with
  | outside | waiting => cases hfound
  | loading c =>
    cases List.mem_singleton.1 hfound
    rfl
  | settling c o | leaving c o | owned c o =>
    rcases List.mem_cons.1 hfound with he | he
    · cases he
    · cases List.mem_singleton.1 he
      exact absurd List.mem_cons_self (hnot o)
  | reading c o | joined c o => cases List.mem_singleton.1 hfound

theorem eq_joined_of_notes {stage : Stage (Outcome h)} (hi : .joined cell outcome ∈ notesAt stage) :
    stage = .reading cell outcome ∨ stage = .joined cell outcome := by
  cases stage with
  | outside | waiting => cases hi
  | loading c => cases List.mem_singleton.1 hi
  | settling c o | leaving c o | owned c o =>
    rcases List.mem_cons.1 hi with he | he
    · cases he
    · cases List.mem_singleton.1 he
  | reading c o =>
    cases List.mem_singleton.1 hi
    exact .inl rfl
  | joined c o =>
    cases List.mem_singleton.1 hi
    exact .inr rfl

theorem Flies.loading (hf : Flies jobs threads s F) (hi : s.Loading i) :
    ∃ cell, F.stage i = .loading cell := by
  obtain ⟨cell, hfound, hnot⟩ := hi
  exact ⟨cell, eq_loading_of_notes ((hf.tally.notes i _).1 hfound) fun outcome hmem =>
    hnot outcome ((hf.tally.notes i _).2 hmem)⟩

theorem Flies.inside (hf : Flies jobs threads s F) {c : Call h} {k : Answer c → Left h}
    (hprog : threads i = .call c k) (hc : ¬c.Own (jobs i).path) : s.Loading i := by
  have hstands := hf.stands i
  rw [hprog] at hstands
  obtain ⟨cell, hcell⟩ := hstands.loading hc
  refine ⟨cell, (hf.tally.notes i _).2 (by rw [hcell]; exact List.mem_singleton_self _),
    fun outcome hmem => ?_⟩
  have hnote := (hf.tally.notes i _).1 hmem
  rw [hcell] at hnote
  cases List.mem_singleton.1 hnote

/-- What a call has found in a cell is what another's load came to, which has returned. -/
theorem Flies.owner (hf : Flies jobs threads s F)
    (hi : (i.val, .joined cell outcome) ∈ s.notes) : ∃ j, F.stage j = .owned cell outcome ∧
      (jobs i).key = (jobs j).key ∧
      ∀ r, threads i = .ret r → r = SnapshotCache.joined (jobs i).path outcome := by
  have hstage := eq_joined_of_notes ((hf.tally.notes i _).1 hi)
  have hcell : (F.stage i).cell = some cell := by
    rcases hstage with hstage | hstage <;> rw [hstage] <;> rfl
  obtain ⟨j, hj⟩ : ∃ j, F.stage j = .owned cell outcome := by
    rcases hstage with hstage | hstage
    · exact hf.inv.owned_of_reading hstage
    · exact hf.inv.joined i cell outcome hstage
  refine ⟨j, hj, hf.inv.key_eq hcell (by rw [hj]; rfl), fun r hr => ?_⟩
  have hstands := hf.stands i
  rw [hr] at hstands
  rcases hjob : jobs i with ⟨path, loader⟩ | ⟨path, snapshot⟩ <;> rw [hjob] at hstands
  · rcases hstage with hstage | hstage <;> rw [hstage] at hstands
    · cases hstands
    · cases hstands
      rfl
  · rcases hstage with hstage | hstage <;> rw [hstage] at hstands <;> exact hstands.elim

end

namespace SnapshotCache

/-- **Any calls of the cache are a single flight at any moment**, whatever they load and insert, and
    in whatever order they go on. -/
theorem single_flight {jobs : Fin n → Job h} (hret : ∀ i, (jobs i).Returning) {w : World h}
    (hw : w.Unclaimed) {ms : List (Fin n × Choice)} {P : Callers h n}
    (hrun : goesOn w.cache ms (crowd jobs w) = some P) : SingleFlight jobs w.cache P := by
  obtain ⟨F, hf⟩ : ∃ F, Flies jobs P.threads P.state F := by
    refine Crowd.runs_keep (J := fun threads s => ∃ F, Flies jobs threads s F)
      (fun i x c k threads s a s' hj hprog hst => ?_) ⟨_, flies_crowd hw⟩ hrun
    obtain ⟨F, hf⟩ := hj
    obtain ⟨F', -, hf'⟩ := hf.step hret hprog hst
    exact ⟨F', hf'⟩
  refine ⟨fun i c k hprog hc => hf.inside hprog hc, fun i j hi hj hpath => ?_, hf.tally.once,
    fun i cell outcome hi => ?_, ?_⟩
  · obtain ⟨c, hc⟩ := hf.loading hi
    obtain ⟨c', hc'⟩ := hf.loading hj
    exact hf.inv.loading_unique hc hc' hpath
  · obtain ⟨j, hj, hpath, hr⟩ := hf.owner hi
    have hstands := hf.stands j
    rcases hjob : jobs j with ⟨path, loader⟩ | ⟨path, snapshot⟩ <;> rw [hjob, hj] at hstands
    · obtain ⟨loaded, hcould, hpub, hthread⟩ := hstands
      refine ⟨j, path, loader, loaded, hjob, ?_, hcould, ?_, hpub.symm, ?_, hr⟩
      · rw [hpath, hjob]
        rfl
      · rw [hthread]
        rcases loaded with error | snapshot <;> rfl
      · rw [hf.tally.notes, hj]
        exact List.mem_cons_self
    · exact hstands.elim
  · rintro ⟨i, c, k, hprog⟩
    have horderly : P.Orderly w.cache.lockOf :=
      Crowd.Orderly.runs (fun _ _ hl => by cases hl) hrun
    obtain ⟨j, c, k, hprog, hanswer⟩ := hf.answered hprog
    exact horderly.progress (fun _ _ hc => step_answers (act_ready (ready_of_lockOf hc) _ _)) hprog
      hanswer

/-- The loader of the server returns. -/
theorem returning_load (path : PathBuf) :
    (Job.load path (Snapshot.load path) : Job h).Returning :=
  ⟨(Snapshot.load_calm path).mono fun _ hc => hc.light, Snapshot.meets_load path⟩

/-- One goes on until it has a cell, then the other, and each then to its end. -/
def twoTurns : List (Fin 2) :=
  List.replicate 6 ⟨0, Nat.zero_lt_two⟩ ++ List.replicate 6 ⟨1, Nat.one_lt_two⟩ ++
    List.replicate 7 ⟨0, Nat.zero_lt_two⟩ ++ List.replicate 2 ⟨1, Nat.one_lt_two⟩

/-- Two loads of a file that is not there: the second joins the first, and receives its error. -/
theorem single_flight_twoTurns : ∃ (P : Callers Host.sample 2) (message : String),
    goesOn (World.sample ["w", "f"] none).cache (twoTurns.map fun i => (i, {}))
      (crowd (fun _ => .load ["w", "f"] (Snapshot.load ["w", "f"]))
        (World.sample ["w", "f"] none)) = some P ∧
    (1, .joined 0 (.error message)) ∈ P.state.notes ∧
    SingleFlight (fun _ => .load ["w", "f"] (Snapshot.load ["w", "f"]))
      (World.sample ["w", "f"] none).cache P := by
  obtain ⟨P, message, hrun, hjoined⟩ : ∃ (P : Callers Host.sample 2) (message : String),
      goesOn (World.sample ["w", "f"] none).cache (twoTurns.map fun i => (i, {}))
        (crowd (fun _ => .load ["w", "f"] (Snapshot.load ["w", "f"]))
          (World.sample ["w", "f"] none)) = some P ∧
      (1, .joined 0 (.error message)) ∈ P.state.notes := ⟨_, _, rfl, List.mem_cons_self⟩
  exact ⟨P, message, hrun, hjoined, single_flight (fun _ => returning_load _)
    ⟨fun _ => rfl, fun _ => rfl, fun _ _ => rfl⟩ hrun⟩

end SnapshotCache

end Hashline
