/-
  Loads in flight: many calls of `get_or_load` on one path, each free to run
  between any two calls of another, where no load can succeed.
-/
import Hashline.Cells

namespace Hashline

open Machine

variable {h : Host} {ε α : Type}

/-- One call of a thread among others. -/
theorem safe_call {rules : Rules h} {who : ℕ} {pause : Call h → Bool} {κ : Contract (State h)}
    {Q : Exec ε α → State h → Prop} {s : State h} {c : Call h} {k : Answer c → Op h ε α}
    (hk : ∀ s₁ x w a s₂, (if pause c then κ.rely s s₁ else s₁ = s) → κ.inv s₁ →
      rules s₁ c x = true → x.elapsed s₁.world = some w → act who x c w = some (a, s₂.world) →
      s₂.trace = ⟨who, x, c, a, s₁.world, w, s₂.world⟩ :: s₁.trace →
      κ.inv s₂ ∧ κ.guar s₁ s₂ ∧ (k a).Safe (step rules who) pause κ Q s₂) :
    (Proc.ask c >>= k).Safe (step rules who) pause κ Q s := by
  refine Proc.safe_bind.2 (Proc.safe_ask.2 fun s₁ hs₁ hi x a s₂ hst => ?_)
  obtain ⟨hr, w, hw, ha, ht⟩ := step_eq_some.1 hst
  exact hk s₁ x w a s₂ hs₁ hi hr hw ha ht

/-! ## Who joins -/

/-- The call found a load that had ended. -/
def Did.joins (d : Did h) : Prop :=
  match d.call, d.answer with
  | .cellLock _, .ready _ => True
  | _, _ => False

/-- Thread `who` has joined a load that had ended. -/
def State.Joined (s : State h) (who : ℕ) : Prop := ∃ d ∈ s.trace, d.who = who ∧ d.joins

/-- Only others have made calls. -/
def Others (who : ℕ) (s s' : State h) : Prop :=
  ∃ ds, s'.trace = ds ++ s.trace ∧ ∀ d ∈ ds, d.who ≠ who

/-- Only `who` has made calls. -/
def Alone (who : ℕ) (s s' : State h) : Prop :=
  ∃ ds, s'.trace = ds ++ s.trace ∧ ∀ d ∈ ds, d.who = who

theorem Others.refl (who : ℕ) (s : State h) : Others who s s := ⟨[], rfl, by simp⟩

theorem Others.trans {who : ℕ} {s s' s'' : State h} (h₁ : Others who s s') (h₂ : Others who s' s'') :
    Others who s s'' := by
  obtain ⟨ds, ht, hd⟩ := h₁
  obtain ⟨ds', ht', hd'⟩ := h₂
  refine ⟨ds' ++ ds, by rw [ht', ht, List.append_assoc], fun d hm => ?_⟩
  rcases List.mem_append.1 hm with hm | hm
  · exact hd' d hm
  · exact hd d hm

theorem Alone.others {who who' : ℕ} (hne : who ≠ who') {s s' : State h} (ha : Alone who s s') :
    Others who' s s' := by
  obtain ⟨ds, ht, hd⟩ := ha
  exact ⟨ds, ht, fun d hm => by rw [hd d hm]; exact hne⟩

theorem Others.joined_iff {who : ℕ} {s s' : State h} (ho : Others who s s') :
    s'.Joined who ↔ s.Joined who := by
  obtain ⟨ds, ht, hd⟩ := ho
  simp only [State.Joined, ht, List.mem_append]
  constructor
  · rintro ⟨d, hm | hm, hw, hj⟩
    · exact absurd hw (hd d hm)
    · exact ⟨d, hm, hw, hj⟩
  · rintro ⟨d, hm, hj⟩
    exact ⟨d, .inr hm, hj⟩

namespace SnapshotCache
variable {contentId : Bytes → SnapshotId} (cache : SnapshotCache contentId) (path : PathBuf)

@[simp] theorem setShard_shard (s : Shard contentId) : (cache.setShard path s).shard path = s := by
  simp [setShard, shard]

/-- Where there is no entry, a claim answers the cell of the path, and makes none. -/
theorem claim_none (current : Option FileStamp) (fresh : ℕ) (hn : cache.entry path = none) :
    (cache.claim path current fresh).1 = .inr ((cache.flight path).getD fresh) ∧
      (cache.claim path current fresh).2.entry path = none := by
  have hget : (cache.shard path).get path = none := hn
  rw [claim, hn, flight]
  unfold join
  rcases (cache.shard path).inflight.lookup path with _ | cell
  · exact ⟨rfl, by rw [entry, setShard_shard]; exact hget⟩
  · exact ⟨rfl, by rw [entry, setShard_shard]; exact hget⟩

theorem settle_entry : (cache.settle path).entry path = cache.entry path := by
  rw [entry, settle, setShard_shard]
  rfl

end SnapshotCache

/-- The server knows nothing of the path. -/
structure World.Idle (w : World h) (path : PathBuf) : Prop where
  entry : w.cache.entry path.components = none
  inflight : w.cache.flight path.components = none
  cell : w.cells w.nextCell = ⟨.pending, none⟩

namespace Object
variable {object : Object} {path : PathBuf} {w₀ : World h} {rules : Rules h} {who n₀ : ℕ}
  {s : State h}

/-! ## Cells of loads that fail -/

/-- The object is as it was, no snapshot of it is resident, and the cells of the path, numbered from
    `n₀` on, hold no snapshot. -/
structure Flying (path : PathBuf) (w₀ : World h) (n₀ : ℕ) (w : World h) : Prop where
  still : Still path w₀ w
  cells : ∀ cell, n₀ ≤ cell → (w.cells cell).state = .pending ∨
    ∃ message, (w.cells cell).state = .ready (.error message)
  next : n₀ ≤ w.nextCell
  inflight : ∀ cell, w.cache.flight path.components = some cell → n₀ ≤ cell

/-- What threads do that load the path in vain. -/
def Vain (path : PathBuf) : Call h → Prop
  | .cacheClaim p _ | .cacheSettle p => p = path.components
  | .cellLock _ | .cellUnlock _ | .cellSet _ (.ready (.error _)) => True
  | c => c.Calm

/-- So it is where nothing is known of the path. -/
theorem Flying.start {w : World h} (hidle : w.Idle path)
    (hcells : ∀ cell, w.nextCell ≤ cell → (w.cells cell).state = .pending) :
    Flying path w w.nextCell w := by
  refine ⟨⟨World.Keeps.refl _ _, hidle.entry⟩, fun cell hc => .inl (hcells cell hc), le_rfl,
    fun cell hc => ?_⟩
  rw [hidle.inflight] at hc
  cases hc

theorem Flying.elapsed (hstays : object.Stays path rules) {c : Call h} {x : Choice} {w : World h}
    (hf : Flying path w₀ n₀ s.world) (hr : rules s c x = true) (hw : x.elapsed s.world = some w) :
    Flying path w₀ n₀ w := by
  obtain ⟨hcache, hcells, hnext⟩ := Choice.elapsed_cache_eq hw
  refine ⟨⟨hf.still.keeps.trans (hstays.keeps hr hw), ?_⟩, ?_, ?_, ?_⟩
  · rw [hcache]; exact hf.still.entry
  · rw [hcells]; exact hf.cells
  · rw [hnext]; exact hf.next
  · rw [hcache]; exact hf.inflight

/-- A cell changes, and still holds no snapshot. -/
theorem Flying.setCell {w : World h} (hf : Flying path w₀ n₀ w) {cell : ℕ} {c : Cell h.contentId}
    (hc : c.state = (w.cells cell).state ∨ ∃ message, c.state = .ready (.error message)) :
    Flying path w₀ n₀ (w.setCell cell c) := by
  refine ⟨⟨⟨hf.still.keeps.entries, hf.still.keeps.file⟩, hf.still.entry⟩, fun i hi => ?_, hf.next,
    hf.inflight⟩
  simp only [World.setCell]
  split_ifs with he
  · subst he
    rcases hc with hc | hc
    · rw [hc]; exact hf.cells i hi
    · exact .inr hc
  · exact hf.cells i hi

/-- **What a thread does keeps it so.** -/
theorem Flying.act {x : Choice} {c : Call h} {w w' : World h} {a : Answer c} (hc : Vain path c)
    (hf : Flying path w₀ n₀ w) (ha : Hashline.act who x c w = some (a, w')) :
    Flying path w₀ n₀ w' := by
  cases c with
  | cacheClaim p current =>
    obtain rfl : p = path.components := hc
    obtain ⟨-, rfl⟩ := act_cacheClaim ha
    obtain ⟨-, hnone⟩ := w.cache.claim_none path.components current w.nextCell hf.still.entry
    refine ⟨⟨⟨hf.still.keeps.entries, hf.still.keeps.file⟩, hnone⟩, hf.cells,
      Nat.le_succ_of_le hf.next, fun cell hcell => ?_⟩
    rcases w.cache.claim_flight path.components current w.nextCell with ⟨_, hserve⟩ | ⟨_, _, _, hsame⟩ | ⟨-, -, hnew⟩
    · rw [hserve] at hcell
      exact hf.inflight cell hcell
    · rw [hsame] at hcell
      exact hf.inflight cell hcell
    · rw [hnew, Function.update_self] at hcell
      rw [← Option.some.inj hcell]
      exact hf.next
  | cacheSettle p =>
    obtain rfl : p = path.components := hc
    cases ha
    refine ⟨⟨⟨hf.still.keeps.entries, hf.still.keeps.file⟩, ?_⟩, hf.cells, hf.next,
      fun cell hcell => ?_⟩
    · rw [SnapshotCache.settle_entry]
      exact hf.still.entry
    · rw [SnapshotCache.settle_flight, Function.update_self] at hcell
      cases hcell
  | cellLock cell =>
    obtain ⟨-, -, rfl⟩ := act_cellLock ha
    exact hf.setCell (.inl rfl)
  | cellUnlock cell => cases ha; exact hf.setCell (.inl rfl)
  | cellSet cell state =>
    cases ha
    rcases state with _ | (message | snapshot)
    · exact hc.elim
    · exact hf.setCell (.inr ⟨message, rfl⟩)
    · exact hc.elim
  | _ =>
    have hw : w' = w := by
      refine act_calm ?_ ha
      exact hc
    rw [hw]; exact hf

/-! ## One call of `get_or_load` among others -/

/-- Others may run before every call. -/
def everywhere : Call h → Bool := fun _ => true

/-- What a thread that loads the path in vain lives by. -/
def vain (path : PathBuf) (w₀ : World h) (n₀ who : ℕ) : Contract (State h) where
  rely := Others who
  guar := Alone who
  inv s := Flying path w₀ n₀ s.world

/-- What a thread ends with that others leave to it. -/
theorem vain_fits {Q : ℕ → α → State h → Prop}
    (hQ : ∀ i r (s s' : State h), Others i s s' → Q i r s → Q i r s') :
    Pool.Fits (vain path w₀ n₀) (fun s : State h => Flying path w₀ n₀ s.world) Q :=
  ⟨fun _ => rfl, Others.refl, fun _ _ _ _ => Others.trans, fun _ _ _ _ hne ha => Alone.others hne ha,
    fun i r s s' ho _ hr => hQ i r s s' ho hr⟩

theorem alone_one {d : Did h} {s s' : State h} (ht : s'.trace = d :: s.trace) :
    Alone d.who s s' := ⟨[d], ht, by simp⟩

theorem joined_one {d : Did h} {s s' : State h} (ht : s'.trace = d :: s.trace) :
    s'.Joined d.who ↔ d.joins ∨ s.Joined d.who := by
  simp [State.Joined, ht]

/-- What a call receives: the error of its own load, or where it has joined one that ended, an error
    of the code `io`. -/
def Received (object : Object) (who : ℕ) (r : Exec SnapshotError α) (s : State h) : Prop :=
  ∃ e, r = .error (.err e) ∧ (¬s.Joined who → object.FailsAs e) ∧
    (s.Joined who → ∀ operation p, (snapshotProtocolError operation p e).code = .io)

theorem received_own {e : Fault SnapshotError} {V : α → Prop} {β : Type}
    (hr : Exec.Meets V object.FailsAs (.error e)) (hs : ¬s.Joined who) :
    Received object who (.error e : Exec SnapshotError β) s := by
  rcases e with e | _
  · exact ⟨e, rfl, fun _ => hr, fun hj => absurd hj hs⟩
  · exact hr.elim

section
variable (hstays : object.Stays path rules)
include hstays

/-- A call of the thread, and what follows it. -/
theorem Stays.safe_call {Q : Exec ε α → State h → Prop} {c : Call h} {k : Answer c → Op h ε α}
    (hc : Vain path c) (hk : ∀ s₁ x w a s₂, Others who s s₁ → Flying path w₀ n₀ w →
      Hashline.act who x c w = some (a, s₂.world) → Flying path w₀ n₀ s₂.world →
      s₂.trace = ⟨who, x, c, a, s₁.world, w, s₂.world⟩ :: s₁.trace →
      (k a).Safe (step rules who) everywhere (vain path w₀ n₀ who) Q s₂) :
    (Proc.ask c >>= k).Safe (step rules who) everywhere (vain path w₀ n₀ who) Q s := by
  refine Hashline.safe_call fun s₁ x w a s₂ hs₁ hi hr hw ha ht => ?_
  have hfw := hi.elapsed hstays hr hw
  have hfs := hfw.act hc ha
  exact ⟨hfs, alone_one ht, hk s₁ x w a s₂ hs₁ hfw ha hfs ht⟩

/-- A call after which the thread is as it was. -/
theorem Stays.safe_skip {Q : Exec ε α → State h → Prop} {c : Call h} {k : Answer c → Op h ε α}
    (hc : Vain path c) (hjoins : ∀ x a w w₁ w₂, ¬(⟨who, x, c, a, w, w₁, w₂⟩ : Did h).joins)
    (hk : ∀ a s', (s'.Joined who ↔ s.Joined who) →
      (k a).Safe (step rules who) everywhere (vain path w₀ n₀ who) Q s') :
    (Proc.ask c >>= k).Safe (step rules who) everywhere (vain path w₀ n₀ who) Q s := by
  refine hstays.safe_call hc fun s₁ x w a s₂ ho _ _ _ ht => hk a s₂ ?_
  rw [← ho.joined_iff]
  have hone := joined_one ht
  exact hone.trans (or_iff_right (hjoins x a s₁.world w s₂.world))

variable (hat : object.At w₀ path)
include hat

/-- What keeps within the limits runs so among others, and joins no load. -/
theorem Stays.safe {V : α → Prop} {E : ε → Prop} {x : Op h ε α}
    (hx : x.Within (object.dialogue path w₀) V E) (hs : ¬s.Joined who) :
    x.Safe (step rules who) everywhere (vain path w₀ n₀ who)
      (fun r s' => r.Meets V E ∧ ¬s'.Joined who) s := by
  refine Proc.Within.safe (I := fun s : State h => ¬s.Joined who) hx (fun s s' hs ho _ => ?_)
    (fun x c s a s' hc hs hi hst => ?_) hs
  · exact fun hj => hs (Others.joined_iff ho |>.1 hj)
  · obtain ⟨hr, w, hw, ha, ht⟩ := step_eq_some.1 hst
    obtain ⟨hsaid, -⟩ := hstays.answers hat hi.still hst hc
    have hvain : Vain path c := by cases c <;> first | exact hc | exact hc.elim
    refine ⟨(hi.elapsed hstays hr hw).act hvain ha, alone_one ht, hsaid, fun hj => ?_⟩
    rcases (joined_one ht).1 hj with hj | hj
    · cases c <;> first | exact hj | exact hc
    · exact hs hj

variable (hu : object.Unloadable)
include hu

/-- The owner of the cell receives the error of its load. -/
theorem loadCell_safe {cell : ℕ} (hs : ¬s.Joined who) :
    (SnapshotCache.loadCell path cell (Snapshot.load path)).Safe (step rules who) everywhere
      (vain path w₀ n₀ who) (Received object who) s := by
  refine Proc.safe_attempt_bind.2 (Proc.safe_mono (hstays.safe hat (load_within hu hat) hs)
    fun r s₁ hr => ?_)
  obtain ⟨hr, hs₁⟩ := hr
  rcases r with (e | _) | _
  · refine hstays.safe_skip (c := .cellSet cell (.ready (.error e.display))) trivial
      (fun _ _ _ _ _ hj => hj) fun _ s₂ h₂ => ?_
    refine hstays.safe_skip (c := .cacheSettle path.components) rfl (fun _ _ _ _ _ hj => hj) fun _ s₃ h₃ => ?_
    refine hstays.safe_skip (c := .cellUnlock cell) trivial (fun _ _ _ _ _ hj => hj)
      fun _ s₄ h₄ => ?_
    have hs₄ : ¬s₄.Joined who := by rw [h₄, h₃, h₂]; exact hs₁
    exact ⟨e, rfl, fun _ => hr, fun hj => absurd hj hs₄⟩
  · exact hr.elim
  · exact hr.elim

/-- **`get_or_load` receives the error of its load, or joins one that failed.** -/
theorem getOrLoad_safe (hs : ¬s.Joined who) :
    (SnapshotCache.getOrLoad path (Snapshot.load path)).Safe (step rules who) everywhere
      (vain path w₀ n₀ who) (Received object who) s := by
  refine Proc.safe_bind_of (hstays.safe hat freshResident_within hs) (fun hit s₁ hr => ?_)
    fun e s₁ hr => received_own hr.1 hr.2
  obtain ⟨rfl, hs₁⟩ := hr
  refine Proc.safe_bind_of (hstays.safe hat verifyRacyResident_within hs₁) (fun hit s₂ hr => ?_)
    fun e s₂ hr => received_own hr.1 hr.2
  obtain ⟨rfl, hs₂⟩ := hr
  refine Proc.safe_bind_of (hstays.safe hat currentStamp_within hs₂) (fun current s₃ hr => ?_)
    fun e s₃ hr => received_own hr.1 hr.2
  obtain ⟨-, hs₃⟩ := hr
  refine hstays.safe_call (c := .cacheClaim path.components current) rfl fun s₄ x w a s₅ ho hfw ha hfs ht => ?_
  have hs₅ : ¬s₅.Joined who := by
    rw [show s₅.Joined who ↔ s₄.Joined who from (joined_one ht).trans (or_iff_right id),
      ho.joined_iff]
    exact hs₃
  obtain ⟨ha, -⟩ := act_cacheClaim ha
  rw [(w.cache.claim_none path.components current w.nextCell hfw.still.entry).1] at ha
  subst ha
  have hcell : n₀ ≤ (w.cache.flight path.components).getD w.nextCell := by
    rcases hl : w.cache.flight path.components with _ | cell
    · exact hfw.next
    · exact hfw.inflight cell hl
  set cell := (w.cache.flight path.components).getD w.nextCell
  refine hstays.safe_call (c := .cellLock cell) trivial fun s₆ x w' state s₇ ho' hfw' ha' _ ht' => ?_
  obtain ⟨-, hstate, -⟩ := act_cellLock ha'
  rcases hfw'.cells cell hcell with hp | ⟨message, hp⟩
  · rw [hp] at hstate
    subst hstate
    refine loadCell_safe hstays hat hu ?_
    rw [show s₇.Joined who ↔ s₆.Joined who from (joined_one ht').trans (or_iff_right id),
      ho'.joined_iff]
    exact hs₅
  · rw [hp] at hstate
    subst hstate
    refine hstays.safe_skip (c := .cellUnlock cell) trivial (fun _ _ _ _ _ hj => hj)
      fun _ s₈ h₈ => ?_
    have hj : s₈.Joined who := h₈.2 ((joined_one ht').2 (.inl trivial))
    exact ⟨_, rfl, fun hn => absurd hj hn, fun _ _ _ => rfl⟩

end

/-! ## Any number of calls -/

/-- Every thread calls `get_or_load` on the path. -/
def callers (path : PathBuf) (w : World h) :
    Pool ℕ (Call h) Answer (Exec SnapshotError (Snapshot h.contentId)) (State h) where
  threads _ := SnapshotCache.getOrLoad path (Snapshot.load path)
  current := none
  state := ⟨w, []⟩

/-- A load of the object that stays can end in the error. -/
def LoadFails (object : Object) (path : PathBuf) (rules : Rules h) (e : SnapshotError) : Prop :=
  ∃ who xs s s', object.At s.world path ∧ s.world.cache.entry path.components = none ∧
    Prog.runs (step rules who) xs (Snapshot.load path, s) = some (.ret (.error (.err e)), s')

/-- Two errors are reported with one code and one retryable flag. -/
def SameReport (e e' : SnapshotError) : Prop :=
  ∀ operation p, (snapshotProtocolError operation p e).code =
      (snapshotProtocolError operation p e').code ∧
    (snapshotProtocolError operation p e).retryable =
      (snapshotProtocolError operation p e').retryable

theorem sameReport_iff {e e' : SnapshotError} : SameReport e e' ↔
    ∀ operation p, (snapshotProtocolError operation p e).code =
      (snapshotProtocolError operation p e').code := by
  refine forall_congr' fun operation => forall_congr' fun p => and_iff_left_of_imp fun hcode => ?_
  have h₁ := (snapshotProtocolError_consistent operation p e).retryable
  have h₂ := (snapshotProtocolError_consistent operation p e').retryable
  rw [h₁, h₂, hcode]

theorem LoadFails.failsAs (hstays : object.Stays path rules) (hu : object.Unloadable)
    {e : SnapshotError} (he : object.LoadFails path rules e) : object.FailsAs e := by
  obtain ⟨who, xs, s, s', hat, hnone, hrun⟩ := he
  have hwp : (Snapshot.load path : Op h _ _).wp (step rules who) (fun r s' =>
      r.Meets (fun _ => False) object.FailsAs ∧ Still path s.world s'.world) s :=
    Proc.Within.wp (I := fun s' : State h => Still path s.world s'.world) (load_within hu hat)
      (fun _ _ _ _ _ hc hs hst => hstays.answers hat hs hst hc) ⟨World.Keeps.refl _ _, hnone⟩
  exact (Proc.wp_runs hwp hrun).1

/-- **Callers agree on the failure exactly where they join no load that failed, or it failed with
    `io`**: in every state that any schedule reaches, what a call has received is reported as the
    error of the loads themselves is, or it is not. -/
theorem callers_agree (hstays : object.Stays path rules) (hu : object.Unloadable) {w : World h}
    (hat : object.At w path) (hidle : w.Idle path)
    (hcells : ∀ cell, w.nextCell ≤ cell → (w.cells cell).state = .pending)
    {e₀ : SnapshotError} (hload : object.LoadFails path rules e₀)
    (ms : List (ℕ × Choice)) {P : Pool ℕ (Call h) Answer _ (State h)}
    (hruns : (callers path w).runs (step rules) everywhere ms = some P) {i : ℕ}
    {r : Exec SnapshotError (Snapshot h.contentId)} (hend : P.threads i = .ret r) :
    (∃ e, r = .error (.err e) ∧ SameReport e e₀) ↔
      object.loadCode = .io ∨ ¬P.state.Joined i := by
  have hown := hload.failsAs hstays hu
  have hfits : Pool.Fits (vain path w w.nextCell)
      (fun s : State h => Flying path w w.nextCell s.world)
      (fun i (r : Exec SnapshotError (Snapshot h.contentId)) s => Received object i r s) := by
    refine vain_fits fun i r s s' ho hr => ?_
    obtain ⟨e, he, hr⟩ := hr
    rw [← ho.joined_iff] at hr
    exact ⟨e, he, hr⟩
  have hsound : Pool.Sound (step rules) everywhere (vain path w w.nextCell)
      (fun s => Flying path w w.nextCell s.world) (fun i r s => Received object i r s)
      (callers path w) := by
    refine ⟨.start hidle hcells, fun i => getOrLoad_safe hstays hat hu ?_, fun i _ => rfl⟩
    rintro ⟨d, hd, -⟩
    cases hd
  have hsafe := (Pool.Sound.runs hfits hsound hruns).safe i
  rw [hend] at hsafe
  obtain ⟨e, rfl, hnot, hjoined⟩ := hsafe
  simp only [Except.error.injEq, Fault.err.injEq, exists_eq_left', sameReport_iff]
  by_cases hj : P.state.Joined i
  · have hcode := hjoined hj
    simp only [hcode, hown _ _, hj, not_true, or_false]
    exact ⟨fun hall => (hall "" "").symm, fun hio _ _ => hio.symm⟩
  · have hcode := hnot hj
    simp [hcode _ _, hown _ _, hj]

/-! ## A machine on which only opening fails -/

/-- Nobody else takes a step, and only opening fails, or nothing does. -/
def refusing (fault : Option IoError) : Rules h := fun _ c x =>
  x.events.isEmpty && x.flag && decide (x.fault = match c with | .openRead _ => fault | _ => none)

theorem refusing_stays {fault : Option IoError}
    (hk : ∀ e, fault = some e → object.openKind = some e.kind)
    (hmust : object = special ∨ object = denied → fault ≠ none) (hhidden : object ≠ hidden) :
    object.Stays path (refusing fault : Rules h) where
  keeps {s c x w} hr hw := by
    simp only [refusing, Bool.and_eq_true, List.isEmpty_iff] at hr
    rw [Choice.elapsed, hr.1.1] at hw
    cases hw
    exact ⟨rfl, fun _ _ => rfl⟩
  allows {s c x} hr := by
    simp only [refusing, Bool.and_eq_true, decide_eq_true_eq] at hr
    obtain ⟨⟨-, hflag⟩, hfault⟩ := hr
    cases c with
    | openRead p =>
      have hfault : x.fault = fault := hfault
      rw [Allows, hfault]
      exact fun _ => ⟨hk, fun ho => hmust (ho.resolve_left hhidden)⟩
    | stat p | fileType p =>
      exact fun _ => ⟨fun e he => by simp [hfault] at he, fun ho => absurd ho hhidden⟩
    | fstat f => exact hfault
    | read f offset most => exact hfault
    | reserve n => exact hflag
    | _ => trivial

/-! ## Two callers -/

/-- Thread `who` makes `n` calls, and the machine has no choice to make. -/
def turns (who n : ℕ) : List (ℕ × Choice) := List.replicate n (who, {})

/-- A file of a type, at the path `f` of the workspace `w`. -/
def holding (type : FileType) : World Host.sample :=
  { World.sample ["w", "f"] (some []) with files := fun _ => ⟨1, [], ⟨0, 0⟩, ⟨0, 0⟩, type⟩ }

/-- The error of a load of the path `f` of the workspace `w`, where there is a directory. -/
def notRead : SnapshotError := Snapshot.ioError ["w", "f"] "read" .isADirectory

theorem notRead_fails :
    directory.LoadFails ["w", "f"] (refusing none : Rules Host.sample) notRead :=
  ⟨0, List.replicate 6 {}, ⟨holding .directory, []⟩, _, ⟨rfl, by decide⟩, rfl, rfl⟩

/-- Where there is a directory, the first call loads and the second joins, and both receive `io`. -/
theorem callers_agree_joining : ∃ P r r',
    (callers ["w", "f"] (holding .directory)).runs (step (refusing none)) everywhere
      (turns 0 8 ++ turns 1 7 ++ turns 0 9 ++ turns 1 2) = some P ∧
    P.threads 0 = .ret r ∧ P.threads 1 = .ret r' ∧ P.state.Joined 1 ∧
    ((∃ e, r = .error (.err e) ∧ SameReport e notRead) ↔
      directory.loadCode = .io ∨ ¬P.state.Joined 0) ∧
    ((∃ e, r' = .error (.err e) ∧ SameReport e notRead) ↔
      directory.loadCode = .io ∨ ¬P.state.Joined 1) := by
  have hstays : directory.Stays ["w", "f"] (refusing none : Rules Host.sample) :=
    refusing_stays (by simp) (by simp) (by simp)
  refine ⟨_, _, _, rfl, rfl, rfl, ⟨_, .tail _ (.head _), rfl, trivial⟩, ?_, ?_⟩
  · exact callers_agree hstays trivial (w := holding .directory) ⟨rfl, by decide⟩ ⟨rfl, rfl, rfl⟩
      (fun _ _ => rfl) notRead_fails (turns 0 8 ++ turns 1 7 ++ turns 0 9 ++ turns 1 2) rfl rfl
  · exact callers_agree hstays trivial (w := holding .directory) ⟨rfl, by decide⟩ ⟨rfl, rfl, rfl⟩
      (fun _ _ => rfl) notRead_fails (turns 0 8 ++ turns 1 7 ++ turns 0 9 ++ turns 1 2) rfl rfl

/-- The first call loads, the second joins: it receives `io`, and not `not_found`. -/
theorem exists_disagreement : ∃ P e e',
    (callers ["w", "f"] (World.sample ["w", "f"] none)).runs (step (refusing none)) everywhere
      (turns 0 5 ++ turns 1 4 ++ turns 0 5 ++ turns 1 2) = some P ∧
    P.threads 0 = .ret (.error (.err e)) ∧ P.threads 1 = .ret (.error (.err e')) ∧
    ¬SameReport e' e := by
  refine ⟨_, _, _, rfl, rfl, rfl, fun hsame => ?_⟩
  exact absurd (hsame "read" "").1 (by decide)

end Object

end Hashline
