/-
  Any number of calls of the cache at once, on any paths, each free to run
  between any two steps of another: which step of a single flight each of their
  steps is.
-/
import Hashline.Cells
import Hashline.Lib.Mutex

namespace Hashline

open Machine

variable {h : Host} {n : ℕ}

/-! ## Calls of the cache -/

/-- A call of the cache: a load, or an insertion. -/
inductive Job (h : Host) where
  | load (path : PathBuf) (loader : Op h SnapshotError (Snapshot h.contentId))
  | insert (path : PathBuf) (snapshot : Snapshot h.contentId)

namespace Job

def path : Job h → PathBuf
  | load path _ | insert path _ => path

/-- What the cache knows it by. -/
def key (job : Job h) : PathBuf := job.path.components

/-- What it does; an insertion returns nothing, here what it has inserted. -/
def run : Job h → Op h SnapshotError (Snapshot h.contentId)
  | load path loader => SnapshotCache.getOrLoad path loader
  | insert path snapshot => do
    Op.cacheInsert path snapshot
    pure snapshot

/-- Its loader returns: it takes no part in a flight, waits for no lock, and does not panic. -/
def Returning : Job h → Prop
  | load _ loader => loader.All Call.Light ∧ loader.Meets Anything Anything
  | insert .. => True

end Job

/-- The shard whose lock a call is made under: an insertion looks first whether the snapshot fits. -/
def SnapshotCache.lockOf (cache : SnapshotCache h.contentId) : Call h → Option (Fin shardCount)
  | .cacheGet path _ | .cacheRacyResident path | .cacheRefresh path _ _ | .cacheClaim path _
  | .cacheSettle path => some (cache.shardIndex path)
  | .cacheInsert path snapshot =>
    if snapshot.byteLen > cache.capacity then none else some (cache.shardIndex path)
  | _ => none

/-- The machine may do at any call what it can. -/
def Rules.all : Rules h := fun _ _ _ => true

/-- All begin, and no lock is held. -/
def crowd (jobs : Fin n → Job h) (w : World h) : Crowd (Fin n) (Fin shardCount) (Call h) Answer
    (Exec SnapshotError (Snapshot h.contentId)) (State h) :=
  ⟨fun i => (jobs i).run, fun _ => none, ⟨w, []⟩⟩

/-- No load is in flight. -/
structure World.Unclaimed (w : World h) : Prop where
  inflight : ∀ i, (w.cache.shards i).inflight = []
  free : ∀ cell, (w.cells cell).holder = none
  fresh : ∀ cell, w.nextCell ≤ cell → (w.cells cell).state = .pending

/-! ## What calls tell -/

/-- What a cell holds of a load. -/
abbrev Outcome (h : Host) := Except String (Snapshot h.contentId)

/-- What the owner of a cell puts into it. -/
def publish : Except SnapshotError (Snapshot h.contentId) → Outcome h
  | .ok snapshot => .ok snapshot
  | .error error => .error error.display

/-- A caller finds its cell pending, or with an outcome, or puts one into it. -/
inductive Note (h : Host) where
  | found (cell : ℕ)
  | joined (cell : ℕ) (outcome : Outcome h)
  | resolved (cell : ℕ) (outcome : Outcome h)

def Call.note : (c : Call h) → Answer c → Option (Note h)
  | .cellLock cell, .pending => some (.found cell)
  | .cellLock cell, .ready outcome => some (.joined cell outcome)
  | .cellSet cell (.ready outcome), _ => some (.resolved cell outcome)
  | _, _ => none

/-- The cell that is resolved. -/
def Note.cell : Note h → Option ℕ
  | resolved cell _ => some cell
  | found _ | joined .. => none

def Did.note (d : Did h) : Option (ℕ × Note h) := (d.call.note d.answer).map (d.who, ·)

/-- What callers have told, the latest first. -/
def State.notes (s : State h) : List (ℕ × Note h) := s.trace.filterMap Did.note

/-- The cells that have been resolved, once for each time. -/
def State.resolved (s : State h) : List ℕ := s.notes.filterMap (·.2.cell)

/-- A caller runs its loader: it has found its cell pending, and has not resolved it. -/
def State.Loading (s : State h) (who : ℕ) : Prop :=
  ∃ cell, (who, .found cell) ∈ s.notes ∧ ∀ outcome, (who, .resolved cell outcome) ∉ s.notes

/-! ## Where a call stands -/

/-- What is left of a call. -/
abbrev Left (h : Host) := Prog (Call h) Answer (Exec SnapshotError (Snapshot h.contentId))

namespace SnapshotCache
variable (path : PathBuf) (loader : Op h SnapshotError (Snapshot h.contentId)) (cell : ℕ)
  (loaded : Except SnapshotError (Snapshot h.contentId))

/-- `get_or_load` where it has settled, and has its cell's lock. -/
def leaving : Op h SnapshotError (Snapshot h.contentId) := do
  Op.cellUnlock cell
  Proc.orElse id loaded

/-- Where it has resolved its cell. -/
def settling : Op h SnapshotError (Snapshot h.contentId) := do
  Op.cacheSettle path
  leaving cell loaded

/-- Where its loader has returned, and the snapshot is inserted. -/
def resolving : Op h SnapshotError (Snapshot h.contentId) := do
  Op.cellSet cell (.ready (publish loaded))
  settling path cell loaded

/-- Where its loader has returned. -/
def finishing : Except SnapshotError (Snapshot h.contentId) → Op h SnapshotError (Snapshot h.contentId)
  | .ok snapshot => do
    Op.cacheInsert path snapshot
    resolving path cell (.ok snapshot)
  | .error error => resolving path cell (.error error)

/-- Where it has joined a load that has ended. -/
def parting (outcome : Outcome h) : Op h SnapshotError (Snapshot h.contentId) := do
  Op.cellUnlock cell
  Proc.ofExec (joined path outcome)

/-- Where it has looked into its cell. -/
def looking : InflightState h.contentId → Op h SnapshotError (Snapshot h.contentId)
  | .pending => loadCell path cell loader
  | .ready outcome => parting path cell outcome

/-- Where it has been served, or given a cell. -/
def claimed : Snapshot h.contentId ⊕ ℕ → Op h SnapshotError (Snapshot h.contentId)
  | .inl snapshot => pure snapshot
  | .inr cell => loadOrWait path cell loader

/-- Where it claims or joins. -/
def claiming (current : Option FileStamp) : Op h SnapshotError (Snapshot h.contentId) := do
  claimed path loader (← Op.cacheClaim path current)

variable {path loader cell}

theorem loadOrWait_eq : loadOrWait path cell loader = Op.cellLock cell >>= looking path loader cell := by
  refine congrArg (Op.cellLock cell >>= ·) (funext fun state => ?_)
  rcases state with _ | outcome <;> rfl

theorem loadCell_eq : loadCell path cell loader = loader.attempt >>= finishing path cell := by
  refine congrArg (loader.attempt >>= ·) (funext fun loaded => ?_)
  rcases loaded with error | snapshot <;> rfl

end SnapshotCache

/-- What the loader of a call can return. -/
def Could (loader : Op h SnapshotError (Snapshot h.contentId))
    (loaded : Except SnapshotError (Snapshot h.contentId)) : Prop :=
  Prog.Returns (loaded.mapError Fault.err) loader

open SnapshotCache in
/-- What is left of a load, where it stands. -/
def Stands (path : PathBuf) (loader : Op h SnapshotError (Snapshot h.contentId)) :
    Stage (Outcome h) → Left h → Prop
  | .outside, p => Prog.Until (Call.Early path)
      (fun p => (∃ r, p = .ret r) ∨ ∃ current, p = claiming path loader current) p
  | .waiting cell, p => p = loadOrWait path cell loader
  | .loading cell, p => Prog.Until Call.Light
      (fun p => ∃ loaded, Could loader loaded ∧ p = resolving path cell loaded) p
  | .settling cell outcome, p =>
    ∃ loaded, Could loader loaded ∧ publish loaded = outcome ∧ p = settling path cell loaded
  | .leaving cell outcome, p =>
    ∃ loaded, Could loader loaded ∧ publish loaded = outcome ∧ p = leaving cell loaded
  | .owned _ outcome, p =>
    ∃ loaded, Could loader loaded ∧ publish loaded = outcome ∧ p = Proc.orElse id loaded
  | .reading cell outcome, p => p = parting path cell outcome
  | .joined _ outcome, p => p = Proc.ofExec (joined path outcome)

def Job.Stands : Job h → Stage (Outcome h) → Left h → Prop
  | load path loader, stage, p => Hashline.Stands path loader stage p
  | insert path _, .outside, p => Prog.Until (Call.Early path) (fun p => ∃ r, p = .ret r) p
  | insert .., _, _ => False

open SnapshotCache in
/-- The calls of a load, where it stands, and what is then left of it: those of its loader are made
    only where it loads. -/
inductive Turn (path : PathBuf) (loader : Op h SnapshotError (Snapshot h.contentId)) :
    Stage (Outcome h) → (c : Call h) → (Answer c → Left h) → Prop
  | light {stage : Stage (Outcome h)} {c : Call h} {k : Answer c → Left h} (hc : c.Light)
      (hown : (∃ cell, stage = .loading cell) ∨ c.Own path)
      (hk : ∀ a, Stands path loader stage (k a)) : Turn path loader stage c k
  | claim (current : Option FileStamp) :
      Turn path loader .outside (.cacheClaim path.components current) (claimed path loader)
  | look (cell : ℕ) : Turn path loader (.waiting cell) (.cellLock cell) (looking path loader cell)
  | resolve {cell : ℕ} {loaded : Except SnapshotError (Snapshot h.contentId)}
      (hl : Could loader loaded) : Turn path loader (.loading cell)
        (.cellSet cell (.ready (publish loaded))) fun _ => settling path cell loaded
  | settle {cell : ℕ} {loaded : Except SnapshotError (Snapshot h.contentId)}
      (hl : Could loader loaded) : Turn path loader (.settling cell (publish loaded))
        (.cacheSettle path.components) fun _ => leaving cell loaded
  | leave {cell : ℕ} {loaded : Except SnapshotError (Snapshot h.contentId)}
      (hl : Could loader loaded) : Turn path loader (.leaving cell (publish loaded))
        (.cellUnlock cell) fun _ => Proc.orElse id loaded
  | part (cell : ℕ) (outcome : Outcome h) : Turn path loader (.reading cell outcome)
      (.cellUnlock cell) fun _ => Proc.ofExec (joined path outcome)

/-- **What a load can do next.** -/
theorem Stands.turn {path : PathBuf} {loader : Op h SnapshotError (Snapshot h.contentId)}
    {stage : Stage (Outcome h)} {c : Call h} {k : Answer c → Left h}
    (hs : Stands path loader stage (.call c k)) : Turn path loader stage c k := by
  have hp : ∀ {c' : Call h} {k' : Answer c' → Left h}, (Prog.call c k : Left h) = .call c' k' →
      Turn path loader stage c' k' → Turn path loader stage c k := by
    rintro _ _ ⟨⟩ hturn
    exact hturn
  cases stage with
  | outside =>
    cases hs with
    | call hc hk => exact .light hc.1 (.inr hc.2) hk
    | done h =>
      obtain ⟨r, h⟩ | ⟨current, h⟩ := h
      · cases h
      · exact hp h (.claim current)
  | waiting cell => exact hp (hs.trans SnapshotCache.loadOrWait_eq) (.look cell)
  | loading cell =>
    cases hs with
    | call hc hk => exact .light hc (.inl ⟨cell, rfl⟩) hk
    | done h =>
      obtain ⟨loaded, hl, h⟩ := h
      exact hp h (.resolve hl)
  | settling cell outcome =>
    obtain ⟨loaded, hl, rfl, h⟩ := hs
    exact hp h (.settle hl)
  | leaving cell outcome =>
    obtain ⟨loaded, hl, rfl, h⟩ := hs
    exact hp h (.leave hl)
  | owned cell outcome => obtain ⟨error | loaded, -, -, h⟩ := hs <;> cases h
  | reading cell outcome => exact hp hs (.part cell outcome)
  | joined cell outcome => cases hs

/-- An insertion makes no call but its own. -/
theorem Job.Stands.light {path : PathBuf} {snapshot : Snapshot h.contentId}
    {stage : Stage (Outcome h)} {c : Call h} {k : Answer c → Left h}
    (hs : (Job.insert path snapshot).Stands stage (.call c k)) :
    c.Early path ∧ ∀ a, (Job.insert path snapshot).Stands stage (k a) := by
  cases stage with
  | outside =>
    cases hs with
    | call hc hk => exact ⟨hc, hk⟩
    | done h =>
      obtain ⟨r, h⟩ := h
      cases h
  | _ => exact hs.elim

/-- What a call has told, where it stands. -/
def notesAt : Stage (Outcome h) → List (Note h)
  | .outside | .waiting _ => []
  | .loading cell => [.found cell]
  | .settling cell outcome | .leaving cell outcome | .owned cell outcome =>
    [.resolved cell outcome, .found cell]
  | .reading cell outcome | .joined cell outcome => [.joined cell outcome]

/-- The flights are those of the world. -/
structure Shows (F : Flights (Fin n) PathBuf (Outcome h)) (w : World h) : Prop where
  flight : w.cache.flight = F.flight
  state : ∀ cell, (w.cells cell).state = (F.value cell).elim .pending .ready
  holder : ∀ cell, (w.cells cell).holder = (F.holder cell).map Fin.val
  next : w.nextCell = F.next

/-- The notes are those of callers that stand so. -/
structure Tally (F : Flights (Fin n) PathBuf (Outcome h)) (s : State h) : Prop where
  notes : ∀ i : Fin n, ∀ note, (i.val, note) ∈ s.notes ↔ note ∈ notesAt (F.stage i)
  once : s.resolved.Nodup
  done : ∀ cell ∈ s.resolved, F.value cell ≠ none

/-- **The calls are a single flight**: each stands where its caller does. -/
structure Flies (jobs : Fin n → Job h) (threads : Fin n → Left h) (s : State h)
    (F : Flights (Fin n) PathBuf (Outcome h)) : Prop where
  inv : F.Inv fun i => (jobs i).key
  shows : Shows F s.world
  tally : Tally F s
  stands : ∀ i, (jobs i).Stands (F.stage i) (threads i)

/-! ## How a call begins -/

theorem until_bind {α β ε : Type} {K : Call h → Prop} {P : Prog (Call h) Answer (Exec ε β) → Prop}
    {x : Op h ε α} {f : α → Op h ε β} (hx : x.All K) (hf : ∀ a, Prog.Until K P (f a))
    (he : ∀ e, P (.ret (.error e))) : Prog.Until K P (x >>= f : Op h ε β) := by
  refine Prog.until_bind hx (Prog.ends_returns x) fun r _ => ?_
  rcases r with e | a
  · exact .done (he e)
  · exact hf a

theorem Job.stands_run (job : Job h) : job.Stands .outside job.run := by
  cases job with
  | insert path snapshot => exact .call ⟨trivial, rfl⟩ fun _ => .done ⟨_, rfl⟩
  | load path loader =>
    let P : Left h → Prop := fun p =>
      (∃ r, p = .ret r) ∨ ∃ current, p = SnapshotCache.claiming path loader current
    have hret : ∀ r, P (.ret r) := fun r => .inl ⟨r, rfl⟩
    have hrun : Prog.Until (Call.Early path) P (SnapshotCache.getOrLoad path loader) := by
      refine until_bind (SnapshotCache.freshResident_early path) (fun hit => ?_) fun e => hret _
      rcases hit with _ | hit
      · refine until_bind (SnapshotCache.verifyRacyResident_early path) (fun hit => ?_) fun e => hret _
        rcases hit with _ | hit
        · refine until_bind (SnapshotCache.currentStamp_early path) (fun current => ?_) fun e => hret _
          exact .done (.inr ⟨current, rfl⟩)
        · exact .done (hret _)
      · exact .done (hret _)
    exact hrun

/-- A loader that returns leads to where its outcome is put into the cell. -/
theorem stands_loading {path : PathBuf} {loader : Op h SnapshotError (Snapshot h.contentId)}
    (hl : (Job.load path loader).Returning) (cell : ℕ) :
    Stands path loader (.loading cell) (SnapshotCache.loadCell path cell loader) := by
  obtain ⟨hlight, hmeets⟩ := hl
  have hends : Prog.Ends (fun r => ∃ loaded, r = .ok loaded ∧ Could loader loaded)
      (loader.attempt : Op h SnapshotError _) := by
    refine Prog.Ends.bind (Prog.Ends.and hmeets (Prog.ends_returns loader)) fun r hr => ?_
    rcases r with (error | _) | snapshot
    · exact ⟨.error error, rfl, hr.2⟩
    · exact hr.1.elim
    · exact ⟨.ok snapshot, rfl, hr.2⟩
  rw [SnapshotCache.loadCell_eq]
  refine Prog.until_bind (Proc.All.attempt hlight) hends ?_
  rintro _ ⟨error | snapshot, rfl, hcould⟩
  · exact .done ⟨_, hcould, rfl⟩
  · exact .call trivial fun _ => .done ⟨_, hcould, rfl⟩

/-! ## One step -/

section
variable {jobs : Fin n → Job h} {threads : Fin n → Left h} {s s' : State h} {w w' : World h}
  {F F' : Flights (Fin n) PathBuf (Outcome h)} {i : Fin n}
  {b : Stage (Outcome h)} {p : Left h}

theorem Shows.alike (hs : Shows F w) (ha : w.Alike w') : Shows F w' where
  flight := ha.flight.trans hs.flight
  state cell := by rw [ha.cells, hs.state]
  holder cell := by rw [ha.cells, hs.holder]
  next := ha.next.trans hs.next

/-- A caller goes on, and tells a note or none. -/
theorem Tally.moved (ht : Tally F s) (new : Option (Note h))
    (hnotes : s'.notes = (new.map (i.val, ·)).toList ++ s.notes)
    (hstage : F'.stage = Function.update F.stage i b)
    (hb : notesAt b = new.toList ++ notesAt (F.stage i))
    (hvalue : ∀ cell, F.value cell ≠ none → F'.value cell ≠ none)
    (hnew : ∀ cell, new.bind Note.cell = some cell → F.value cell = none ∧ F'.value cell ≠ none) :
    Tally F' s' := by
  have hresolved : s'.resolved = (new.bind Note.cell).toList ++ s.resolved := by
    rw [State.resolved, hnotes, List.filterMap_append]
    congr 1
    rcases new with _ | note
    · rfl
    · simp only [Option.map_some, Option.toList_some, Option.bind_some]
      rcases hcell : note.cell with _ | cell <;> simp [hcell]
  refine ⟨fun j note => ?_, ?_, fun cell hcell => ?_⟩
  · rw [hnotes, List.mem_append, ht.notes, hstage]
    by_cases hj : j = i
    · subst hj
      rw [Function.update_self, hb, List.mem_append]
      refine or_congr_left ?_
      simp
    · rw [Function.update_of_ne hj, or_iff_right]
      intro hmem
      rcases new with _ | note'
      · cases hmem
      · simp only [Option.map_some, Option.toList_some, List.mem_singleton, Prod.mk.injEq] at hmem
        exact hj (Fin.ext hmem.1)
  · rw [hresolved]
    rcases hcell : new.bind Note.cell with _ | cell
    · exact ht.once
    · rw [Option.toList_some, List.singleton_append, List.nodup_cons]
      exact ⟨fun hmem => ht.done cell hmem (hnew cell hcell).1, ht.once⟩
  · rw [hresolved, List.mem_append] at hcell
    rcases hcell with hcell | hcell
    · exact (hnew cell (Option.mem_toList.1 hcell)).2
    · exact hvalue cell (ht.done cell hcell)

theorem notes_cons {d : Did h} (ht : s'.trace = d :: s.trace) :
    s'.notes = ((d.call.note d.answer).map (d.who, ·)).toList ++ s.notes := by
  rw [State.notes, ht, List.filterMap_cons, Did.note]
  rcases (d.call.note d.answer).map (d.who, ·) with _ | note <;> rfl

theorem Call.Light.note {c : Call h} (hc : c.Light) (a : Answer c) : c.note a = none := by
  cases c <;> first | rfl | exact hc.elim

/-- The programs of the others stay, and one stands where its caller does. -/
theorem stands_update (hs : ∀ j, (jobs j).Stands (F.stage j) (threads j))
    (hp : (jobs i).Stands b p) (j : Fin n) :
    (jobs j).Stands (Function.update F.stage i b j) (Function.update threads i p j) := by
  by_cases hj : j = i
  · subst hj
    rw [Function.update_self, Function.update_self]
    exact hp
  · rw [Function.update_of_ne hj, Function.update_of_ne hj]
    exact hs j

/-- A caller's step is one of the flight. -/
theorem Flies.moved (hf : Flies jobs threads s F)
    (hstep : Flights.Step (fun i => (jobs i).key) F F')
    (hstage : F'.stage = Function.update F.stage i b) (hshows : Shows F' s'.world)
    (htally : Tally F' s') (hp : (jobs i).Stands b p) :
    Flies jobs (Function.update threads i p) s' F' := by
  refine ⟨hf.inv.step hstep, hshows, htally, fun j => ?_⟩
  rw [hstage]
  exact stands_update hf.stands hp j

/-- A cell changes as the flights say. -/
theorem Shows.setCell (hs : Shows F w) {cell : ℕ} {c : Cell h.contentId}
    (hflight : F'.flight = F.flight) (hnext : F'.next = F.next)
    (hstate : c.state = (F'.value cell).elim .pending .ready)
    (hholder : c.holder = (F'.holder cell).map Fin.val)
    (hothers : ∀ d, d ≠ cell → F'.value d = F.value d ∧ F'.holder d = F.holder d) :
    Shows F' (w.setCell cell c) := by
  refine ⟨hs.flight.trans hflight.symm, fun d => ?_, fun d => ?_, hs.next.trans hnext.symm⟩
  all_goals
    simp only [World.setCell]
    split_ifs with hd
  · rw [hd, hstate]
  · rw [hs.state, (hothers d hd).1]
  · rw [hd, hholder]
  · rw [hs.holder, (hothers d hd).2]

/-- What is known of a step of the world. -/
structure Steps (i : Fin n) (x : Choice) (c : Call h) (a : Answer c) (w : World h) (s s' : State h) :
    Prop where
  act : Hashline.act i.val x c w = some (a, s'.world)
  notes : s'.notes = ((c.note a).map (i.val, ·)).toList ++ s.notes

variable {x : Choice} {path : PathBuf} {loader : Op h SnapshotError (Snapshot h.contentId)} {cell : ℕ}
  {loaded : Except SnapshotError (Snapshot h.contentId)} {outcome : Outcome h}

/-- A call that takes no part. -/
theorem Flies.light (hf : Flies jobs threads s F) (hw : Shows F w) {c : Call h} {a : Answer c}
    (hc : c.Light) (hst : Steps i x c a w s s') (hp : (jobs i).Stands (F.stage i) p) :
    Flies jobs (Function.update threads i p) s' F := by
  have hstage : F.stage = Function.update F.stage i (F.stage i) := (Function.update_eq_self _ _).symm
  have hnotes := hst.notes
  rw [hc.note] at hnotes
  refine ⟨hf.inv, hw.alike (act_light hc hst.act), ?_, fun j => ?_⟩
  · refine hf.tally.moved none hnotes hstage rfl (fun _ hv => hv) fun _ hcell => ?_
    cases hcell
  · rw [hstage]
    exact stands_update hf.stands hp j

variable (hjob : jobs i = .load path loader)
include hjob

/-- It is served, joins a flight, or begins one. -/
theorem Flies.claimed (hf : Flies jobs threads s F) (hw : Shows F w) (hi : F.stage i = .outside)
    {current : Option FileStamp} {a : Snapshot h.contentId ⊕ ℕ}
    (hst : Steps i x (.cacheClaim path.components current) a w s s') :
    ∃ F', Flights.Step (fun i => (jobs i).key) F F' ∧
      Flies jobs (Function.update threads i (SnapshotCache.claimed path loader a)) s' F' := by
  have hpath : (jobs i).key = path.components := by rw [hjob]; rfl
  have htally : ∀ {F' : Flights (Fin n) PathBuf (Outcome h)} {b : Stage (Outcome h)},
      F'.stage = Function.update F.stage i b → F'.value = F.value → notesAt b = [] → Tally F' s' := by
    intro F' b hstage hvalue hb
    refine hf.tally.moved none hst.notes hstage (by rw [hb, hi]; rfl) ?_ fun _ hcell => by cases hcell
    rw [hvalue]
    exact fun _ hv => hv
  obtain ⟨ha, hworld⟩ := act_cacheClaim hst.act
  rcases w.cache.claim_flight path.components current w.nextCell with
    ⟨snapshot, hserve⟩ | ⟨cell, hcell, hanswer, hflight⟩ | ⟨hcell, hanswer, hflight⟩
  · rw [hserve] at ha hworld
    subst ha
    refine ⟨_, .skip (F.next + 1) (Nat.le_succ _), ?_⟩
    refine hf.moved (.skip (F.next + 1) (Nat.le_succ _)) (Function.update_eq_self i F.stage).symm
      ?_ ?_ ?_
    · rw [hworld]
      exact ⟨hw.flight, hw.state, hw.holder, congrArg (· + 1) hw.next⟩
    · exact htally (Function.update_eq_self i F.stage).symm rfl (by rw [hi]; rfl)
    · rw [hjob, hi]
      exact .done (.inl ⟨_, rfl⟩)
  · rw [hanswer] at ha
    subst ha
    rw [hw.flight] at hcell
    have hstep : Flights.Step (fun i => (jobs i).key) F _ :=
      .join (F.next + 1) (Nat.le_succ _) hi (hpath.symm ▸ hcell)
    refine ⟨_, hstep, hf.moved hstep rfl ?_ (htally rfl rfl rfl) (by rw [hjob]; exact rfl)⟩
    rw [hworld]
    exact ⟨hflight.trans hw.flight, hw.state, hw.holder, congrArg (· + 1) hw.next⟩
  · rw [hanswer] at ha
    subst ha
    rw [hw.flight] at hcell
    have hstep : Flights.Step (fun i => (jobs i).key) F _ := .claim hi (hpath.symm ▸ hcell)
    refine ⟨_, hstep, hf.moved hstep rfl ?_ (htally rfl rfl rfl) ?_⟩
    · rw [hworld]
      refine ⟨?_, hw.state, hw.holder, congrArg (· + 1) hw.next⟩
      rw [hflight, hw.flight, hw.next, ← hpath]
    · rw [hjob, hw.next]
      exact rfl

/-- With the lock of its cell it loads, or finds what another's load came to. -/
theorem Flies.looked (hf : Flies jobs threads s F) (hret : (Job.load path loader).Returning)
    (hw : Shows F w) (hi : F.stage i = .waiting cell) {a : InflightState h.contentId}
    (hst : Steps i x (.cellLock cell) a w s s') :
    ∃ F', Flights.Step (fun i => (jobs i).key) F F' ∧
      Flies jobs (Function.update threads i (SnapshotCache.looking path loader cell a)) s' F' := by
  obtain ⟨hfree, ha, hworld⟩ := act_cellLock hst.act
  rw [hw.holder, Option.map_eq_none_iff] at hfree
  rw [hw.state] at ha
  rcases hvalue : F.value cell with _ | outcome
  · rw [hvalue] at ha
    subst ha
    have hstep : Flights.Step (fun i => (jobs i).key) F _ := .take hi hfree hvalue
    refine ⟨_, hstep, hf.moved hstep rfl ?_ ?_ (by rw [hjob]; exact stands_loading hret cell)⟩
    · rw [hworld]
      refine hw.setCell rfl rfl (hw.state cell) ?_ fun d hd => ⟨rfl, Function.update_of_ne hd _ _⟩
      simp
    · refine hf.tally.moved (some (.found cell)) hst.notes rfl (by rw [hi]; rfl) (fun _ hv => hv)
        fun _ hcell => ?_
      cases hcell
  · rw [hvalue] at ha
    subst ha
    have hstep : Flights.Step (fun i => (jobs i).key) F _ := .find hi hfree hvalue
    refine ⟨_, hstep, hf.moved hstep rfl ?_ ?_ (by rw [hjob]; exact rfl)⟩
    · rw [hworld]
      refine hw.setCell rfl rfl (hw.state cell) ?_ fun d hd => ⟨rfl, Function.update_of_ne hd _ _⟩
      simp
    · refine hf.tally.moved (some (.joined cell outcome)) hst.notes rfl (by rw [hi]; rfl)
        (fun _ hv => hv) fun _ hcell => ?_
      cases hcell

/-- It puts into its cell what its loader has returned. -/
theorem Flies.resolved (hf : Flies jobs threads s F) (hw : Shows F w)
    (hi : F.stage i = .loading cell) (hcould : Could loader loaded) {a : Unit}
    (hst : Steps i x (.cellSet cell (.ready (publish loaded))) a w s s') :
    ∃ F', Flights.Step (fun i => (jobs i).key) F F' ∧
      Flies jobs (Function.update threads i (SnapshotCache.settling path cell loaded)) s' F' := by
  have hstep : Flights.Step (fun i => (jobs i).key) F _ := .resolve (publish loaded) hi
  have hpending : F.value cell = none := hf.inv.value_of_loading hi
  refine ⟨_, hstep, hf.moved hstep rfl ?_ ?_ (by rw [hjob]; exact ⟨loaded, hcould, rfl, rfl⟩)⟩
  · rw [act_cellSet hst.act]
    refine hw.setCell rfl rfl ?_ (hw.holder cell) fun d hd => ⟨Function.update_of_ne hd _ _, rfl⟩
    simp
  · refine hf.tally.moved (some (.resolved cell (publish loaded))) hst.notes rfl (by rw [hi]; rfl)
      (fun d hv => ?_) fun d hd => ?_
    · by_cases hd : d = cell
      · subst hd
        exact absurd hpending hv
      · dsimp only
        rwa [Function.update_of_ne hd]
    · cases hd
      refine ⟨hpending, ?_⟩
      dsimp only
      rw [Function.update_self]
      exact Option.some_ne_none _

/-- It takes its cell from the map. -/
theorem Flies.settled (hf : Flies jobs threads s F) (hw : Shows F w)
    (hi : F.stage i = .settling cell outcome) (hcould : Could loader loaded)
    (hp : publish loaded = outcome) {a : Unit} (hst : Steps i x (.cacheSettle path.components) a w s s') :
    ∃ F', Flights.Step (fun i => (jobs i).key) F F' ∧
      Flies jobs (Function.update threads i (SnapshotCache.leaving cell loaded)) s' F' := by
  have hstep : Flights.Step (fun i => (jobs i).key) F _ := .settle hi
  refine ⟨_, hstep, hf.moved hstep rfl ?_ ?_ (by rw [hjob]; exact ⟨loaded, hcould, hp, rfl⟩)⟩
  · rw [act_cacheSettle hst.act, hjob]
    exact ⟨(w.cache.settle_flight path.components).trans (by rw [hw.flight]; rfl), hw.state, hw.holder, hw.next⟩
  · refine hf.tally.moved none hst.notes rfl (by rw [hi]; rfl) (fun _ hv => hv) fun _ hcell => ?_
    cases hcell

/-- It leaves its cell's lock, and returns. -/
theorem Flies.left (hf : Flies jobs threads s F) (hw : Shows F w)
    (hi : F.stage i = .leaving cell outcome) (hcould : Could loader loaded)
    (hp : publish loaded = outcome) {a : Unit} (hst : Steps i x (.cellUnlock cell) a w s s') :
    ∃ F', Flights.Step (fun i => (jobs i).key) F F' ∧
      Flies jobs (Function.update threads i (Proc.orElse id loaded)) s' F' := by
  have hstep : Flights.Step (fun i => (jobs i).key) F _ := .leave hi
  refine ⟨_, hstep, hf.moved hstep rfl ?_ ?_ (by rw [hjob]; exact ⟨loaded, hcould, hp, rfl⟩)⟩
  · rw [act_cellUnlock hst.act]
    refine hw.setCell rfl rfl (hw.state cell) ?_ fun d hd => ⟨rfl, Function.update_of_ne hd _ _⟩
    simp
  · refine hf.tally.moved none hst.notes rfl (by rw [hi]; rfl) (fun _ hv => hv) fun _ hcell => ?_
    cases hcell

/-- So it does where it has joined another's load. -/
theorem Flies.parted (hf : Flies jobs threads s F) (hw : Shows F w)
    (hi : F.stage i = .reading cell outcome) {a : Unit}
    (hst : Steps i x (.cellUnlock cell) a w s s') :
    ∃ F', Flights.Step (fun i => (jobs i).key) F F' ∧ Flies jobs
      (Function.update threads i (Proc.ofExec (SnapshotCache.joined path outcome))) s' F' := by
  have hstep : Flights.Step (fun i => (jobs i).key) F _ := .part hi
  refine ⟨_, hstep, hf.moved hstep rfl ?_ ?_ (by rw [hjob]; exact rfl)⟩
  · rw [act_cellUnlock hst.act]
    refine hw.setCell rfl rfl (hw.state cell) ?_ fun d hd => ⟨rfl, Function.update_of_ne hd _ _⟩
    simp
  · refine hf.tally.moved none hst.notes rfl (by rw [hi]; rfl) (fun _ hv => hv) fun _ hcell => ?_
    cases hcell

omit hjob

/-- **Each step of a call is a step of the flight, or none.** -/
theorem Flies.step (hf : Flies jobs threads s F) (hret : ∀ i, (jobs i).Returning) {c : Call h}
    {k : Answer c → Left h} {a : Answer c} (hprog : threads i = .call c k)
    (hst : Hashline.step Rules.all i.val x c s = some (a, s')) :
    ∃ F', (F' = F ∨ Flights.Step (fun i => (jobs i).key) F F') ∧
      Flies jobs (Function.update threads i (k a)) s' F' := by
  obtain ⟨-, w, hw, hact, htrace⟩ := step_eq_some.1 hst
  have hshows := hf.shows.alike (elapsed_alike hw)
  have hsteps : Steps i x c a w s s' := ⟨hact, notes_cons htrace⟩
  have hflight : (∃ F', Flights.Step (fun i => (jobs i).key) F F' ∧
      Flies jobs (Function.update threads i (k a)) s' F') →
      ∃ F', (F' = F ∨ Flights.Step (fun i => (jobs i).key) F F') ∧
        Flies jobs (Function.update threads i (k a)) s' F' := by
    rintro ⟨F', hstep, hf'⟩
    exact ⟨F', .inr hstep, hf'⟩
  have hstands := hf.stands i
  rw [hprog] at hstands
  rcases hjob : jobs i with ⟨path, loader⟩ | ⟨path, snapshot⟩
  · rw [hjob] at hstands
    have hturn : Turn path loader (F.stage i) c k := Stands.turn hstands
    generalize hi : F.stage i = stage at hturn
    cases hturn with
    | light hc _ hk => exact ⟨F, .inl rfl, hf.light hshows hc hsteps (by rw [hjob, hi]; exact hk a)⟩
    | claim current => exact hflight (hf.claimed hjob hshows hi hsteps)
    | look cell => exact hflight (hf.looked hjob (hjob ▸ hret i) hshows hi hsteps)
    | resolve hl => exact hflight (hf.resolved hjob hshows hi hl hsteps)
    | settle hl => exact hflight (hf.settled hjob hshows hi hl rfl hsteps)
    | leave hl => exact hflight (hf.left hjob hshows hi hl rfl hsteps)
    | part cell outcome => exact hflight (hf.parted hjob hshows hi hsteps)
  · rw [hjob] at hstands
    obtain ⟨hc, hk⟩ := hstands.light
    exact ⟨F, .inl rfl, hf.light hshows hc.1 hsteps (by rw [hjob]; exact hk a)⟩

end

end Hashline
