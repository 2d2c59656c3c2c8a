/-
  The locks of the server: every tool holds one at a time, and so whatever the
  tools have done so far, all of them can go on to their ends.
-/
import Hashline.Lib.Locks
import Hashline.Recovery
import Hashline.Serial

namespace Hashline

open Machine Object

variable {h : Host} {n : ℕ} {ε α β : Type}

/-! ## Locks -/

/-- The lock of a path, or of a cell. -/
abbrev Lock := PathBuf ⊕ ℕ

/-- The lock a call waits for, and takes. -/
def Call.takes : Call h → Option Lock
  | .lock path => some (.inl path)
  | .cellLock cell => some (.inr cell)
  | _ => none

/-- The lock a call leaves. -/
def Call.leaves : Call h → Option Lock
  | .unlock path => some (.inl path)
  | .cellUnlock cell => some (.inr cell)
  | _ => none

/-- It has to do with no lock. -/
def Call.Apart (c : Call h) : Prop := c.takes = none ∧ c.leaves = none

theorem Call.Calm.apart {c : Call h} (hc : c.Calm) : c.Apart := by
  cases c <;> first | exact ⟨rfl, rfl⟩ | exact hc.elim

theorem Call.Persists.apart {c : Call h} (hc : c.Persists) : c.Apart := by
  cases c <;> first | exact ⟨rfl, rfl⟩ | exact hc.elim

/-- Who holds each lock. -/
def World.holder (w : World h) : Lock → Option ℕ
  | .inl path => w.locks path
  | .inr cell => (w.cells cell).holder

namespace World
variable {w w' : World h}

theorem holder_congr (hl : w'.locks = w.locks) (hc : w'.cells = w.cells) : w'.holder = w.holder := by
  funext l
  cases l with
  | inl path => exact congrFun hl path
  | inr cell => exact congrArg Cell.holder (congrFun hc cell)

theorem holder_setLock (path : PathBuf) (o : Option ℕ) :
    World.holder { w with locks := fun p => if p = path then o else w.locks p } =
      Function.update w.holder (.inl path) o := by
  funext l
  cases l with
  | inl p =>
    by_cases hp : p = path
    · subst hp
      rw [Function.update_self]
      exact if_pos rfl
    · rw [Function.update_of_ne fun he => hp (Sum.inl.inj he)]
      exact if_neg hp
  | inr cell => exact (Function.update_of_ne Sum.inr_ne_inl o w.holder).symm

theorem holder_setCell (cell : ℕ) (state : InflightState h.contentId) (o : Option ℕ) :
    (w.setCell cell ⟨state, o⟩).holder = Function.update w.holder (.inr cell) o := by
  funext l
  cases l with
  | inl path => exact (Function.update_of_ne Sum.inl_ne_inr o w.holder).symm
  | inr i =>
    by_cases hi : i = cell
    · subst hi
      rw [Function.update_self]
      exact congrArg Cell.holder (if_pos rfl)
    · rw [Function.update_of_ne fun he => hi (Sum.inr.inj he)]
      exact congrArg Cell.holder (if_neg hi)

end World

theorem Event.locks_eq {w w' : World h} {e : Event} (he : e.apply w = some w') : w'.locks = w.locks := by
  cases e with
  | rewrite loc content mtime ctime =>
    rw [Event.apply, Option.bind_eq_bind, Option.bind_eq_some_iff] at he
    obtain ⟨f, -, he⟩ := he
    split_ifs at he
    cases he
    rfl
  | replace loc file =>
    rw [Event.apply] at he
    split_ifs at he
    cases he
    rfl
  | remove loc =>
    cases he
    rfl

theorem elapse_locks_eq : ∀ (events : List (ℕ × Event)) {w w' : World h},
    elapse events w = some w' → w'.locks = w.locks
  | [], w, w', he => by cases he; rfl
  | (tick, e) :: rest, w, w', he => by
    rw [elapse, Option.bind_eq_bind, Option.bind_eq_some_iff] at he
    obtain ⟨w₁, h₁, he⟩ := he
    have hwas := Event.locks_eq h₁
    exact (elapse_locks_eq rest he).trans hwas

/-- Others do not touch the locks. -/
theorem Choice.elapsed_holder {x : Choice} {w w' : World h} (he : x.elapsed w = some w') :
    w'.holder = w.holder := by
  refine World.holder_congr ?_ (Choice.elapsed_cache_eq he).2.1
  rw [Choice.elapsed, Option.map_eq_some_iff] at he
  obtain ⟨w₁, h₁, rfl⟩ := he
  have hwas := elapse_locks_eq _ h₁
  exact hwas

/-! ## What the calls do to them -/

section
variable {who : ℕ} {x : Choice} {c : Call h} {w w' : World h} {a : Answer c}

theorem act_takes {l : Lock} (ht : c.takes = some l) (ha : act who x c w = some (a, w')) :
    w.holder l = none ∧ w'.holder = Function.update w.holder l (some who) := by
  cases c with
  | lock path =>
    cases ht
    obtain ⟨hfree, rfl⟩ := act_lock ha
    exact ⟨hfree, World.holder_setLock path _⟩
  | cellLock cell =>
    cases ht
    obtain ⟨hfree, -, rfl⟩ := act_cellLock ha
    exact ⟨hfree, World.holder_setCell cell _ _⟩
  | _ => cases ht

theorem act_leaves {l : Lock} (hl : c.leaves = some l) (ha : act who x c w = some (a, w')) :
    w'.holder = Function.update w.holder l none := by
  cases c with
  | unlock path =>
    cases hl
    rw [act_unlock ha]
    exact World.holder_setLock path _
  | cellUnlock cell =>
    cases hl
    rw [act_cellUnlock ha]
    exact World.holder_setCell cell _ _
  | _ => cases hl

theorem act_apart (hc : c.Apart) (ha : act who x c w = some (a, w')) : w'.holder = w.holder := by
  cases c with
  | lock | cellLock => cases hc.1
  | unlock | cellUnlock => cases hc.2
  | cellSet cell state =>
    rw [act_cellSet ha]
    refine (World.holder_setCell cell state (w.cells cell).holder).trans ?_
    exact Function.update_eq_self (Sum.inr cell : Lock) w.holder
  | cacheGet | cacheRacyResident | cacheRefresh | cacheClaim | cacheInsert | cacheSettle | fetchAdd
  | guard =>
    cases ha
    rfl
  | createNew path => obtain ⟨-, -, rfl⟩ | ⟨-, -, -, rfl⟩ := act_createNew ha <;> rfl
  | write f offset bytes => obtain ⟨-, -, rfl⟩ | ⟨-, -, rfl⟩ := act_write ha <;> rfl
  | rename source target =>
    obtain ⟨-, -, rfl⟩ | ⟨-, -, -, ⟨-, rfl⟩ | ⟨-, -, rfl⟩⟩ := act_rename ha <;> rfl
  | hardLink source target => obtain ⟨-, -, rfl⟩ | ⟨-, -, -, -, -, rfl⟩ := act_hardLink ha <;> rfl
  | removeFile path => obtain ⟨-, -, rfl⟩ | ⟨-, -, -, -, rfl⟩ := act_removeFile ha <;> rfl
  | _ => rw [act_calm (by trivial) ha]

end

theorem step_latched (rules : Rules h) :
    Latched (fun i : Fin n => step rules i) (fun s => s.world.holder) Fin.val Call.takes Call.leaves := by
  refine ⟨Fin.val_injective, fun hst ht => ?_, fun hst _ hl => ?_, fun hst ht hl => ?_⟩ <;>
    obtain ⟨-, w, hw, ha, -⟩ := step_eq_some.1 hst <;> have hwas := Choice.elapsed_holder hw
  · obtain ⟨hfree, hs⟩ := act_takes ht ha
    exact ⟨by rw [← hwas]; exact hfree, by rw [hs, hwas]⟩
  · rw [act_leaves hl ha, hwas]
  · rw [act_apart ⟨ht, hl⟩ ha, hwas]

/-! ## A machine that answers -/

/-- The moment, as files have it. -/
def FileTime.at (now : ℤ) : FileTime := ⟨now / nanosPerSecond, now % nanosPerSecond⟩

theorem fresh_at (now : ℤ) : Fresh now (.at now) := by
  have hnanos : (FileTime.at now).nanos = now := Int.ediv_mul_add_emod now nanosPerSecond
  have hpos := Int.emod_nonneg now (show nanosPerSecond ≠ 0 by decide)
  have hlt := Int.emod_lt_of_pos now (show 0 < nanosPerSecond by decide)
  refine ⟨hpos, Int.le_sub_one_of_lt hlt, ?_, hnanos.le⟩
  rw [hnanos]
  exact sub_lt_self now (by decide)

/-- Nothing fails, and time stands still. -/
def Choice.plain (now : ℤ) (inode : ℕ) : Choice := { mtime := .at now, ctime := .at now, inode := inode }

theorem act_plain {c : Call h} {who : ℕ} {w : World h} (inode : ℕ)
    (hready : ∀ l, c.takes = some l → w.holder l = none) :
    (act who (.plain w.now inode) c w).isSome := by
  have hfresh := fresh_at w.now
  cases c with
  | lock path =>
    have hfree : w.locks path = none := hready (.inl path) rfl
    simp [act, hfree]
  | cellLock cell =>
    have hfree : (w.cells cell).holder = none := hready (.inr cell) rfl
    simp [act, hfree]
  | openRead | createNew | read | write | stat | fileType | rename | hardLink | removeFile =>
    simp only [act, Choice.fallible, Choice.plain]
    repeat' split
    all_goals first | rfl | exact congrArg Option.isSome (if_pos hfresh)
  | _ => rfl

theorem sole_answers : Answering (fun i : Fin n => step (Rules.sole : Rules h) i)
    (fun s => s.world.holder) Call.takes := by
  intro i c s hready
  obtain ⟨inode, hnew⟩ :=
    Infinite.exists_notMem_finset ((Finset.range s.world.next).image fun f => (s.world.files f).inode)
  have hinode : ∀ f, f < s.world.next → (s.world.files f).inode ≠ inode := fun f hf he =>
    hnew (Finset.mem_image.2 ⟨f, Finset.mem_range.2 hf, he⟩)
  have hrule : Rules.sole s c (.plain s.world.now inode) = true := by
    cases c with
    | createNew path =>
      exact List.all_eq_true.2 fun f hf => decide_eq_true (hinode f (List.mem_range.1 hf))
    | _ => rfl
  have hact : (act i (.plain s.world.now inode) c (s.world.wait 0)).isSome := by
    have hnow : (s.world.wait 0).now = s.world.now := add_zero _
    have ha : (act i (.plain (s.world.wait 0).now inode) c (s.world.wait 0)).isSome :=
      act_plain inode hready
    rwa [hnow] at ha
  obtain ⟨r, hr⟩ := Option.isSome_iff_exists.1 hact
  refine ⟨.plain s.world.now inode, ?_⟩
  have helapsed : (Choice.plain s.world.now inode).elapsed s.world = some (s.world.wait 0) := rfl
  show (step Rules.sole i.val _ c s).isSome
  rw [step, if_pos hrule, helapsed, Option.bind_some, hr]
  rfl

/-! ## Persisting, with the lock of a path -/

/-- Calls that have to do with no lock, answered in any way. -/
def apart : Dialogue (Call h) Answer := ⟨Call.Apart, fun _ _ => True⟩

theorem apart_ask {c : Call h} (hc : c.Apart) : (Proc.ask c : Op h ε _).Within apart Anything Anything :=
  ⟨hc, fun _ _ => trivial⟩

/-- A call that is answered with a result, and what follows where it succeeds. -/
theorem apart_bind {x : Op h ε α} {f : α → Op h ε β} (hx : x.Within apart Anything Anything)
    (hf : ∀ a, (f a).Within apart Anything Anything) : (x >>= f).Within apart Anything Anything :=
  hx.bind fun a _ => hf a

/-- The result itself, to look at. -/
theorem apart_attempt {ε' : Type} {x : Op h ε α} (hx : x.Within apart Anything Anything) :
    (x.attempt : Op h ε' _).Within apart Anything fun _ => False := by
  refine Prog.Within.bind hx fun r hr => ?_
  rcases r with (e | _) | a
  · trivial
  · exact hr.elim
  · trivial

theorem apart_refuse (tempPath : PathBuf) (error : PersistError) :
    (refuse tempPath error : Op h _ α).Within apart Anything Anything :=
  apart_bind (apart_bind (apart_ask ⟨rfl, rfl⟩) fun _ => trivial) fun _ => trivial

/-- What persists a file has to do with no lock, however it ends. -/
theorem apart_of_persists {E : PersistError → Prop} {x : Op h PersistError α}
    (hx : x.All Call.Persists) (hm : x.Meets Anything E) : x.Within apart Anything Anything :=
  (hm.mono (fun _ _ => trivial) fun _ _ => trivial).within (hx.mono fun _ hc => hc.apart)

theorem apart_fromMetadata (metadata : Metadata) :
    (Op.fromMetadata metadata : Op h ε _).Within apart Anything Anything :=
  apart_bind (apart_ask ⟨rfl, rfl⟩) fun _ => trivial

theorem apart_checkDestination (path tempPath : PathBuf) (expected : ExpectedDestination) :
    (checkDestination path tempPath expected : Op h _ _).Within apart Anything Anything := by
  have hunchanged : (destinationUnchanged path tempPath expected : Op h _ _).Within apart Anything
      Anything := by
    refine apart_bind (apart_ask ⟨rfl, rfl⟩) fun a => ?_
    change Except IoError ℕ at a
    rcases a with e | f
    · dsimp only
      split_ifs
      · trivial
      · exact apart_refuse _ _
    · refine apart_bind ((meets_readToEnd _ _).within
        (Prog.All.mono (fun _ hc => hc.apart) (readToEnd_calm _ _ _ _))) fun r => ?_
      rcases r with e | destination
      · exact apart_refuse _ _
      · trivial
  refine apart_bind (apart_ask ⟨rfl, rfl⟩) fun _ => apart_bind (apart_ask ⟨rfl, rfl⟩) fun a => ?_
  change Except IoError Metadata at a
  rcases a with e | metadata
  · dsimp only
    split_ifs <;> exact apart_refuse _ _
  · show Proc.Within _ _ _ (Decoder.unix.fromMetadata .destination metadata >>= _)
    rw [Decoder.unix_bind]
    refine apart_bind (apart_fromMetadata metadata) fun current => ?_
    show Proc.Within _ _ _ (if _ then _ else if _ then _ else _)
    split_ifs
    · exact apart_refuse _ _
    · refine apart_bind hunchanged fun same => ?_
      split_ifs
      · trivial
      · exact apart_refuse _ _
    · trivial

theorem apart_writeLocked (path : PathBuf) (bytes : Bytes) (expected : Option ExpectedDestination)
    (durability : Durability) :
    (writeLocked path bytes expected durability : Op h _ _).Within apart Anything Anything := by
  refine apart_bind (apart_of_persists (createParentOf_persists path) (meets_createParentOf path))
    fun _ => apart_bind (apart_of_persists (writeUniqueTemp_persists _ path bytes durability)
      (meets_writeUniqueTemp _ path bytes durability)) fun written => ?_
  obtain ⟨tempPath, stamp⟩ := written
  rcases expected with _ | expected
  swap
  refine apart_bind (apart_checkDestination path tempPath expected) fun _ => ?_
  -- checked or not, it is renamed
  all_goals
    refine apart_bind (apart_ask ⟨rfl, rfl⟩) fun a => ?_
    change Except IoError Unit at a
    rcases a with e | _
    · exact apart_refuse _ _
    · exact apart_of_persists (afterInstall_persists path _ durability)
        (meets_afterInstall (E := Anything) path _ durability)

theorem apart_createLocked (path : PathBuf) (bytes : Bytes) (durability : Durability) :
    (createLocked path bytes durability : Op h _ _).Within apart Anything Anything :=
  apart_of_persists (createLocked_persists path bytes durability)
    (meets_createLocked path bytes durability)

/-! ## One lock at a time -/

/-- It begins and ends with no lock, and never waits while it holds one. -/
def Courteous (x : Op h ε α) : Prop :=
  Prog.Polite Call.takes Call.leaves none (fun _ held => held = none) x

theorem polite_of_apart {P : α → Prop} {x : Prog (Call h) Answer α} {held : Option Lock}
    (hx : x.Within apart P) :
    x.Polite Call.takes Call.leaves held fun a held' => P a ∧ held' = held :=
  Prog.polite_of_within (fun _ hc => hc) (fun _ _ => trivial) hx

theorem courteous_of_all {x : Op h ε α} (hx : x.All Call.Apart) : Courteous x :=
  (polite_of_apart (Prog.Ends.within (Prog.ends_returns x) hx)).mono fun _ _ h => h.2

theorem courteous_of_calm {x : Op h ε α} (hx : x.All Call.Calm) : Courteous x :=
  courteous_of_all (Prog.All.mono (fun _ hc => hc.apart) hx)

theorem Courteous.bind {x : Op h ε α} {f : α → Op h ε β} (hx : Courteous x) (hf : ∀ a, Courteous (f a)) :
    Courteous (x >>= f) := by
  refine Prog.Polite.bind hx fun r held hr => ?_
  rcases r with e | a
  · exact hr
  · rw [hr]
    exact hf a

theorem Courteous.mapErr {ε' : Type} {x : Op h ε α} (hx : Courteous x) (f : ε → ε') : Courteous (x.mapErr f) :=
  Prog.Polite.bind hx fun _ _ hr => hr

theorem Courteous.attempt {ε' : Type} {x : Op h ε α} (hx : Courteous x) :
    Courteous (x.attempt : Op h ε' _) := by
  refine Prog.Polite.bind hx fun r held hr => ?_
  rcases r with (e | _) | a <;> exact hr

theorem Courteous.spawnBlocking {x : Op h ProtocolError α} (hx : Courteous x) (operation : String)
    (path : PathBuf) : Courteous (spawnBlocking operation path x) := by
  refine Prog.Polite.bind hx fun r held hr => ?_
  rcases r with (e | _) | a <;> exact hr

/-- The lock of a path is given back, for the body does not panic. -/
theorem courteous_withPathLock {path : PathBuf} {body : Op h ε α}
    (hbody : body.Within apart Anything Anything) : Courteous (withPathLock path body) := by
  refine ⟨rfl, fun _ => ?_⟩
  show Prog.Polite _ _ _ _ (body.attempt >>= fun result => Op.unlock path >>= fun _ =>
    Proc.orElse id result : Op h ε α)
  refine Prog.Polite.bind (polite_of_apart (apart_attempt hbody)) fun r held hr => ?_
  obtain ⟨hmeets, rfl⟩ := hr
  rcases r with (e | _) | r
  · exact hmeets.elim
  · exact hmeets.elim
  · refine ⟨rfl, fun _ => ?_⟩
    rcases r with e | a <;> rfl

namespace SnapshotCache

/-- The lock of a cell is given back, for the loader does not panic. -/
theorem courteous_getOrLoad {path : PathBuf} {loader : Op h SnapshotError (Snapshot h.contentId)}
    (hl : loader.Within apart Anything Anything) : Courteous (getOrLoad path loader) := by
  have hload : ∀ cell, Prog.Polite Call.takes Call.leaves (some (.inr cell)) (fun _ held => held = none)
      (loadCell path cell loader) := fun cell => by
    refine Prog.Polite.bind (polite_of_apart (apart_attempt hl)) fun r held hr => ?_
    obtain ⟨hmeets, rfl⟩ := hr
    rcases r with (e | _) | loaded
    · exact hmeets.elim
    · exact hmeets.elim
    · rcases loaded with error | snapshot
      · exact fun _ _ => ⟨rfl, fun _ => rfl⟩
      · exact fun _ _ _ => ⟨rfl, fun _ => rfl⟩
  refine Courteous.bind (courteous_of_calm (freshResident_calm path)) fun hit => ?_
  rcases hit with _ | hit
  swap
  · exact rfl
  refine Courteous.bind (courteous_of_all (verifyRacyResident_all (fun _ hc => hc.apart) fun _ _ =>
    ⟨rfl, rfl⟩)) fun hit => ?_
  rcases hit with _ | hit
  swap
  · exact rfl
  refine Courteous.bind (courteous_of_calm (currentStamp_calm path)) fun current => fun a => ?_
  change Snapshot h.contentId ⊕ ℕ at a
  rcases a with snapshot | cell
  · exact rfl
  refine ⟨rfl, fun state => ?_⟩
  change InflightState h.contentId at state
  cases state with
  | pending => exact hload cell
  | ready result => exact ⟨rfl, fun _ => rfl⟩

end SnapshotCache

/-! ## The tools -/

theorem courteous_load (path : PathBuf) : Courteous (Snapshot.load path : Op h _ _) :=
  courteous_of_calm (Snapshot.load_calm path)

theorem courteous_atomicWrite (path : PathBuf) (bytes : Bytes) (expected : Option ExpectedDestination)
    (durability : Durability) : Courteous (atomicWrite path bytes expected durability : Op h _ _) :=
  courteous_withPathLock (apart_writeLocked path bytes expected durability)

theorem courteous_atomicCreate (path : PathBuf) (bytes : Bytes) (durability : Durability) :
    Courteous (atomicCreate path bytes durability : Op h _ _) :=
  courteous_withPathLock (apart_createLocked path bytes durability)

theorem courteous_cachePersisted (path : PathBuf) (snapshot : Snapshot h.contentId)
    (stamp : Option FileStamp) : Courteous (cachePersisted path snapshot stamp : Op h ε Unit) := by
  rcases stamp with _ | stamp
  · exact rfl
  · exact courteous_of_all (Proc.all_ask ⟨rfl, rfl⟩)

theorem courteous_publish (path : PathBuf) (input : EditRequest) (previous : SnapshotId) (applied : Bytes)
    (expected : Option FileStamp) (durability : Durability) :
    Courteous (Edit.publish path input previous applied expected durability : Op h _ _) := by
  refine ((courteous_atomicWrite path applied _ durability).mapErr _).bind fun stamp => ?_
  refine Courteous.bind (x := Proc.ofExec _) rfl fun snapshot => ?_
  exact (courteous_cachePersisted path snapshot stamp).bind fun _ => rfl

theorem courteous_edit (path : PathBuf) (input : EditRequest) (durability : Durability) :
    Courteous (Edit.runBlocking path input durability : Op h _ _) := by
  refine (courteous_load path).attempt.bind fun loaded => ?_
  rcases loaded with error | snapshot
  · dsimp only
    split_ifs
    · refine Courteous.bind (x := Proc.ofExec _) rfl fun empty => ?_
      split_ifs
      · exact Courteous.bind (x := Proc.ofExec _) rfl fun _ => rfl
      · refine Courteous.bind (x := Proc.ofExec _) rfl fun applied => ?_
        split
        · refine Courteous.bind (courteous_of_all (Proc.all_ask ⟨rfl, rfl⟩)) fun a => ?_
          exact Courteous.bind (x := Proc.orElse _ a) (courteous_of_all (Proc.all_orElse _ _)) fun _ =>
            courteous_publish path input _ _ _ durability
        · exact courteous_publish path input _ _ _ durability
    · exact rfl
  · refine Courteous.bind (courteous_of_all (Proc.all_ask ⟨rfl, rfl⟩)) fun granted => ?_
    exact Courteous.bind (x := Proc.ofExec _) rfl fun applied =>
      courteous_publish path input _ _ _ durability

theorem courteous_write (path : PathBuf) (input : WriteRequest) (durability : Durability) :
    Courteous (Write.runBlocking path input durability : Op h _ _) := by
  have hcurrent : Courteous (Write.loadCurrent path : Op h _ _) := by
    refine (courteous_load path).attempt.bind fun loaded => ?_
    rcases loaded with error | snapshot
    · dsimp only
      split_ifs <;> exact rfl
    · exact rfl
  have hlose : Courteous (Write.loseCreateRace path input : Op h _ _) := by
    refine (courteous_load path).attempt.bind fun loaded => ?_
    rcases loaded with error | snapshot
    · dsimp only
      split_ifs <;> exact rfl
    · dsimp only
      split <;> exact rfl
  have hpersist : ∀ current created, Courteous
      (Write.persist path input.content.bytes current created durability : Op h _ _) := by
    intro current created
    unfold Write.persist
    split_ifs
    · exact courteous_atomicCreate path _ durability
    · exact courteous_atomicWrite path _ _ durability
  refine hcurrent.bind fun current => Courteous.bind (x := Proc.ofExec _) rfl fun created => ?_
  refine (hpersist current created).attempt.bind fun persisted => ?_
  rcases persisted with (_ | _ | _) | stamp
  · exact rfl
  · exact rfl
  · exact hlose.bind fun _ => rfl
  · refine Courteous.bind (x := Proc.ofExec _) rfl fun snapshot => ?_
    exact (courteous_cachePersisted path snapshot stamp).bind fun _ => rfl

theorem courteous_read (quote : String → String) (workspace : Workspace) (input : ReadRequest) :
    Courteous (Read.run quote workspace input : Op h _ _) := by
  have hblocking : ∀ {α : Type} {blocking : Bool} {path : PathBuf} {x : Op h ProtocolError α},
      Courteous x → Courteous (Read.maybeBlocking blocking path x) := by
    intro α blocking path x hx
    unfold Read.maybeBlocking
    split_ifs
    · exact hx.spawnBlocking _ _
    · exact hx
  have hload : ∀ path, (Snapshot.load path : Op h _ _).Within apart Anything Anything := fun path =>
    (Snapshot.meets_load path).within (Prog.All.mono (fun _ hc => hc.apart) (Snapshot.load_calm path))
  refine Courteous.bind (x := Proc.ofExec _) rfl fun _ => ?_
  refine Courteous.bind (courteous_of_calm (resolvePath_calm _ _)) fun path => ?_
  refine Courteous.bind (Courteous.bind (courteous_of_all (Proc.all_ask ⟨rfl, rfl⟩)) fun metadata =>
    hblocking ((SnapshotCache.courteous_getOrLoad (hload path)).mapErr _)) fun snapshot => ?_
  refine Courteous.bind (courteous_of_all (Proc.all_ask ⟨rfl, rfl⟩)) fun granted => ?_
  refine Courteous.bind (x := Proc.ofExec _) rfl fun startLine => ?_
  split_ifs
  · split
    · exact rfl
    · exact Courteous.bind (x := Proc.ofExec _) rfl fun _ => rfl
  · exact hblocking (x := Proc.ofExec _) rfl

section
variable {Overrides : Type} {crates : Crates Overrides} {walker : Walker h Overrides crates}
  {workspace : Workspace}

/-- **Every tool holds one lock at a time**, and none when it returns. -/
theorem courteous_run (task : Task) : Courteous (task.run crates walker workspace) := by
  have hmutation : ∀ {β : Type} (operation name : String) (valid : Exec ContractError Unit)
      (x : PathBuf → Op h ProtocolError β) (f : β → Op h ProtocolError Response),
      (∀ path, Courteous (x path)) → (∀ b, Courteous (f b)) → Courteous ((do
        Proc.ofExec (valid.mapErr .ofContract)
        let path ← workspace.resolvePath name
        spawnBlocking operation path (x path)) >>= f) := by
    intro β operation name valid x f hx hf
    refine Courteous.bind (Courteous.bind (x := Proc.ofExec _) rfl fun _ => ?_) hf
    exact (courteous_of_calm (resolvePath_calm workspace name)).bind fun path => (hx path).spawnBlocking _ _
  rcases task with (input | input) | input | input | input
  · refine Courteous.bind (hmutation "edit" input.filePath input.validate
      (fun path => Edit.runBlocking path input workspace.durability) _
      (fun path => courteous_edit path input _) fun _ => rfl) fun _ => rfl
  · refine Courteous.bind (hmutation "write" input.filePath input.validate
      (fun path => Write.runBlocking path input workspace.durability) _
      (fun path => courteous_write path input _) fun _ => rfl) fun _ => rfl
  · exact (courteous_read _ _ _).bind fun _ => rfl
  · exact (courteous_of_calm (Grep.run_calm _ _ _ _)).bind fun _ => rfl
  · exact (courteous_of_calm (Glob.run_calm _ _ _ _)).bind fun _ => rfl

end

/-! ## Any number of tools -/

/-- **No schedule is stuck**: from whatever state the tools of a server have reached, in whatever
    circumstances, the server alone can go on until every one of them has returned, and then no lock is
    held. -/
theorem tasks_can_end {Overrides : Type} {crates : Crates Overrides} {walker : Walker h Overrides crates}
    {rules : Rules h} {workspace : Workspace} {tasks : Fin n → Task} {w : World h}
    (hlocks : ∀ path, w.locks path = none) (hcells : ∀ cell, (w.cells cell).holder = none)
    {ms : List (Fin n × Choice)} {P : Pool (Fin n) (Call h) Answer _ (State h)}
    (hruns : (taskPool crates walker workspace tasks w).runs (fun i : Fin n => step rules i) everywhere ms =
      some P) :
    ∃ ms' P', P.runs (fun i : Fin n => step Rules.sole i) everywhere ms' = some P' ∧
      (∀ i, ∃ r, P'.threads i = .ret r) ∧ (∀ path, P'.state.world.locks path = none) ∧
      ∀ cell, (P'.state.world.cells cell).holder = none := by
  have hfree : ∀ l, w.holder l = none := fun l => by
    cases l with
    | inl path => exact hlocks path
    | inr cell => exact hcells cell
  have hpolite : (taskPool crates walker workspace tasks w).Politely (fun s => s.world.holder) Fin.val
      Call.takes Call.leaves fun _ => none := by
    refine ⟨rfl, fun i => courteous_run (tasks i), nofun, fun l v hv => ?_⟩
    exact absurd (hv.symm.trans (hfree l)) nofun
  obtain ⟨held, hp⟩ := hpolite.runs (step_latched rules) hruns
  obtain ⟨P', ⟨ms', hms'⟩, hret, hend⟩ := hp.ends (step_latched Rules.sole) sole_answers
  exact ⟨ms', P', hms', hret, fun path => hend (.inl path), fun cell => hend (.inr cell)⟩

/-- The write has the lock, and the edit is loading. -/
theorem tasks_can_end_locked : ∃ P,
    (taskPool Crates.sample Walker.sample ⟨["w"], false, .full⟩ sampleTasks
      (World.sample ["w", "f"] (some [97]))).runs (fun i : Fin 2 => step Rules.sole i) everywhere
        ([(0, 20, 2), (1, 10, 3)].flatMap fun (m : Fin 2 × ℕ × ℕ) =>
          List.replicate m.2.1 (m.1, { amount := 9, inode := m.2.2 })) = some P ∧
    P.state.world.locks ["w", "f"] = some 0 ∧
    ∃ ms' P', P.runs (fun i : Fin 2 => step Rules.sole i) everywhere ms' = some P' ∧
      (∀ i, ∃ r, P'.threads i = .ret r) ∧ (∀ path, P'.state.world.locks path = none) ∧
      ∀ cell, (P'.state.world.cells cell).holder = none := by
  have hlocked : ((taskPool Crates.sample Walker.sample ⟨["w"], false, .full⟩ sampleTasks
      (World.sample ["w", "f"] (some [97]))).runs (fun i : Fin 2 => step Rules.sole i) everywhere
        ([(0, 20, 2), (1, 10, 3)].flatMap fun (m : Fin 2 × ℕ × ℕ) =>
          List.replicate m.2.1 (m.1, { amount := 9, inode := m.2.2 }))).any
      (fun P => decide (P.state.world.locks ["w", "f"] = some 0)) = true := by decide +kernel
  rw [Option.any_eq_true] at hlocked
  obtain ⟨P, hruns, hlocked⟩ := hlocked
  exact ⟨P, hruns, of_decide_eq_true hlocked, tasks_can_end (fun _ => rfl) (fun _ => rfl) hruns⟩

end Hashline
