/-
  A cache whose hits by metadata are truthful: every entry is sealed, through
  loads, publications and whatever others rewrite in place.
-/
import Hashline.Atomic
import Hashline.Sealed

namespace Hashline

open Machine

variable {h : Host} {ε ε' α β : Type}

/-! ## What all keep -/

/-- Every entry is sealed. -/
structure Truthful (s : State h) : Prop where
  sane : s.world.Sane
  sealed : ∀ path entry stamp, s.world.cache.Resident (path, entry) → entry.stamp = some stamp →
    Sealed stamp entry.snapshot.bytes (h.locate path) s.world

/-- A server that does one thing after another. -/
def oneByOne : Contract (State h) := ⟨fun _ _ => True, fun _ _ => True, Truthful⟩

/-- A procedure that keeps every entry sealed; what it returns is in `K`. -/
def Keeping (who : ℕ) (x : Op h ε α) (K : α → State h → Prop) (s : State h) : Prop :=
  x.Safe (step timely who) (fun _ => false) oneByOne
    (fun r s => Truthful s ∧ ∀ a, r = .ok a → K a s) s

/-- Calls that make no entry and change none. -/
def Call.Spares : Call h → Prop
  | .cacheInsert .. | .cacheRefresh .. => False
  | _ => True

section
variable {path tempPath : PathBuf} {f who : ℕ} {s s' : State h} {c : Call h} {x : Choice}
  {K : α → State h → Prop} {L : β → State h → Prop}

theorem act_spares {a : Answer c} {w w' : World h} (hc : c.Spares) (ha : act who x c w = some (a, w')) :
    ∀ r, w'.cache.Resident r → w.cache.Resident r := by
  cases c with
  | cacheInsert | cacheRefresh => exact hc.elim
  | cacheClaim path current =>
    intro r hr
    rw [(act_cacheClaim ha).2] at hr
    exact SnapshotCache.resident_of_claim hr
  | cacheSettle path =>
    intro r hr
    rw [act_cacheSettle ha] at hr
    exact SnapshotCache.resident_of_settle hr
  | cellLock cell =>
    rw [(act_cellLock ha).2.2]
    exact fun _ hr => hr
  | cellSet cell state =>
    rw [act_cellSet ha]
    exact fun _ hr => hr
  | cellUnlock cell =>
    rw [act_cellUnlock ha]
    exact fun _ hr => hr
  | _ =>
    rw [(act_unshared (by trivial) ha).1]
    exact fun _ hr => hr

/-- **A step that spares the entries** keeps them sealed. -/
theorem Truthful.step {rules : Rules h} {a : Answer c} (hs : Truthful s) (hc : c.Spares)
    (hst : step rules who x c s = some (a, s')) : Truthful s' := by
  obtain ⟨-, w, hw, ha, -⟩ := step_eq_some.1 hst
  have hlw := Choice.elapsed_later hs.sane hw
  have hlater := hlw.trans (act_later hlw.sane ha)
  refine ⟨hlater.sane, fun path entry stamp hr hstamp => ?_⟩
  have hr₁ := act_spares hc ha _ hr
  rw [(Choice.elapsed_cache_eq hw).1] at hr₁
  exact (hs.sealed path entry stamp hr₁ hstamp).later hlater

theorem Call.Calm.spares {c : Call h} (hc : c.Calm) : c.Spares := by
  cases c with
  | cacheInsert | cacheRefresh => exact hc.elim
  | _ => trivial

/-! ### Rules -/

theorem keeping_pure {a : α} (hs : Truthful s) (hK : K a s) :
    Keeping who (pure a : Op h ε α) K s := ⟨hs, fun _ he => by cases he; exact hK⟩

theorem keeping_fail {e : ε} (hs : Truthful s) : Keeping who (Proc.fail e : Op h ε α) K s :=
  ⟨hs, fun _ he => by cases he⟩

theorem keeping_ofExec {r : Exec ε α} (hs : Truthful s) (hK : ∀ a, r = .ok a → K a s) :
    Keeping who (Proc.ofExec r : Op h ε α) K s := ⟨hs, hK⟩

theorem keeping_orElse {e : ε → ε'} {r : Except ε α} (hs : Truthful s) (hK : ∀ a, r = .ok a → K a s) :
    Keeping who (Proc.orElse e r : Op h ε' α) K s := by
  rcases r with _ | a
  · exact keeping_fail hs
  · exact keeping_pure hs (hK a rfl)

theorem Keeping.bind {p : Op h ε α} {k : α → Op h ε β} (hp : Keeping who p K s)
    (hk : ∀ a s', Truthful s' → K a s' → Keeping who (k a) L s') : Keeping who (p >>= k) L s :=
  Proc.safe_bind_of hp (fun a s' hr => hk a s' hr.1 (hr.2 a rfl))
    fun _ _ hr => ⟨hr.1, fun _ he => by cases he⟩

/-- After a computation, whatever it comes to. -/
theorem keeping_ofExec_bind {r : Exec ε α} {k : α → Op h ε β} (hs : Truthful s)
    (hk : ∀ a, Keeping who (k a) L s) : Keeping who (Proc.ofExec r >>= k) L s := by
  rcases r with e | a
  · exact ⟨hs, fun _ he => by cases he⟩
  · exact hk a

/-- After a procedure whose result is looked at. -/
theorem Keeping.attempt {p : Op h ε α} {k : Except ε α → Op h ε' β} (hp : Keeping who p K s)
    (hok : ∀ a s', Truthful s' → K a s' → Keeping who (k (.ok a)) L s')
    (herr : ∀ e s', Truthful s' → Keeping who (k (.error e)) L s') :
    Keeping who (p.attempt >>= k) L s := by
  refine Proc.safe_attempt_bind.2 (Proc.safe_mono hp fun r s' hr => ?_)
  rcases r with (e | _) | a
  · exact herr e s' hr.1
  · exact ⟨hr.1, fun _ he => by cases he⟩
  · exact hok a s' hr.1 (hr.2 a rfl)

theorem Keeping.mapErr {p : Op h ε α} {e : ε → ε'} (hp : Keeping who p K s) :
    Keeping who (p.mapErr e) K s := by
  refine Prog.safe_bind.2 (Prog.safe_mono hp fun r s' hr => ⟨hr.1, fun a he => ?_⟩)
  rcases r with (_ | _) | b
  · cases he
  · cases he
  · cases he
    exact hr.2 a rfl

theorem Keeping.onPanic {p : Op h ε α} {e : ε} (hp : Keeping who p K s) :
    Keeping who (p.onPanic (Exec.fail e)) K s :=
  Proc.safe_onPanic_of hp (fun _ _ hr => hr) fun _ hr => ⟨hr.1, fun _ he => by cases he⟩

/-- A procedure of calls that spare the entries. -/
theorem keeping_of_all {p : Op h ε α} (hp : p.All Call.Spares) (hs : Truthful s)
    (hw : p.wp (Hashline.step timely who) (fun r s' => ∀ a, r = .ok a → K a s') s) :
    Keeping who p K s :=
  Prog.safe_of_all hp (fun _ _ _ _ _ hc hi hst => ⟨Truthful.step hi hc hst, trivial⟩) hs hw

/-- One of calls that change nothing. -/
theorem keeping_of_calm {p : Op h ε α} (hp : p.All Call.Calm) (hs : Truthful s) :
    Keeping who p (fun _ s' => Ahead s s') s :=
  keeping_of_all (hp.mono fun _ hc => hc.spares) hs <|
    Proc.wp_mono (wp_ahead_all hp hs.sane Proc.wp_true) fun _ _ hr _ _ => hr.2

/-- One call. -/
theorem keeping_step {k : Answer c → Op h ε α}
    (hk : ∀ x w a s', timely s c x = true → x.elapsed s.world = some w →
      act who x c w = some (a, s'.world) →
      s'.trace = ⟨who, x, c, a, s.world, w, s'.world⟩ :: s.trace →
      Truthful s' ∧ Keeping who (k a) K s') :
    Keeping who (Proc.ask c >>= k) K s := by
  refine Proc.safe_bind.2 (Proc.safe_ask.2 fun s₁ hs₁ _ x a s' hst => ?_)
  cases hs₁
  obtain ⟨hr, w, hw, ha, ht⟩ := step_eq_some.1 hst
  obtain ⟨hi', hk'⟩ := hk x w a s' hr hw ha ht
  exact ⟨hi', trivial, hk'⟩

/-- One call that spares the entries. -/
theorem keeping_call {k : Answer c → Op h ε α} (hs : Truthful s) (hc : c.Spares)
    (hk : ∀ x w a s', Truthful s' → timely s c x = true → x.elapsed s.world = some w →
      act who x c w = some (a, s'.world) →
      s'.trace = ⟨who, x, c, a, s.world, w, s'.world⟩ :: s.trace → Keeping who (k a) K s') :
    Keeping who (Proc.ask c >>= k) K s :=
  keeping_step fun x w a s' hr hw ha ht =>
    have hs' := hs.step hc (step_eq_some.2 ⟨hr, w, hw, ha, ht⟩)
    ⟨hs', hk x w a s' hs' hr hw ha ht⟩

/-- One call that changes nothing. -/
theorem keeping_calm {k : Answer c → Op h ε α} (hs : Truthful s) (hc : c.Calm)
    (hk : ∀ x a s', Truthful s' → Ahead s s' → act who x c s'.world = some (a, s'.world) →
      Keeping who (k a) K s') : Keeping who (Proc.ask c >>= k) K s :=
  keeping_call hs hc.spares fun x w a s' hs' hr hw ha _ => by
    have heq := act_calm hc ha
    rw [← heq] at ha hw
    exact hk x a s' hs' ⟨Choice.elapsed_later hs.sane hw, (outside_elapsed (timely_outside hr) hw).1,
      (Choice.elapsed_cache_eq hw).1⟩ ha

/-- **What is inserted is sealed.** -/
theorem keeping_insert {snapshot : Snapshot h.contentId} {k : Unit → Op h ε α} (hs : Truthful s)
    (hsealed : snapshot.Sealed (h.locate path) s.world)
    (hk : ∀ s', Truthful s' → Keeping who (k ()) K s') :
    Keeping who (Op.cacheInsert path snapshot >>= k) K s := by
  refine keeping_step fun x w a s' hr hw ha ht => ?_
  have hlw := Choice.elapsed_later hs.sane hw
  have hlater := hlw.trans (act_later hlw.sane ha)
  have hs' : Truthful s' := by
    refine ⟨hlater.sane, fun q entry stamp hres hstamp => ?_⟩
    rw [act_cacheInsert ha] at hres
    rcases SnapshotCache.resident_of_insert hres with he | hres
    · cases he
      rw [Host.locate_components]
      exact (hsealed stamp hstamp).later hlater
    · change w.cache.Resident _ at hres
      rw [(Choice.elapsed_cache_eq hw).1] at hres
      exact (hs.sealed q entry stamp hres hstamp).later hlater
  exact ⟨hs', hk s' hs'⟩

/-- **What a refreshed entry gets is sealed** with the bytes the entry has. -/
theorem keeping_refresh {entryStamp after : FileStamp} {bytes : Bytes} {k : Unit → Op h ε α}
    (hs : Truthful s) (hentry : ∀ entry, s.world.cache.entry path.components = some entry →
      entry.snapshot.bytes = bytes)
    (hsealed : Sealed after bytes (h.locate path) s.world)
    (hk : ∀ s', Truthful s' → Keeping who (k ()) K s') :
    Keeping who (Op.cacheRefresh path entryStamp after >>= k) K s := by
  refine keeping_step fun x w a s' hr hw ha ht => ?_
  have hlw := Choice.elapsed_later hs.sane hw
  have hlater := hlw.trans (act_later hlw.sane ha)
  have hs' : Truthful s' := by
    refine ⟨hlater.sane, fun q entry stamp hres hstamp => ?_⟩
    rw [act_cacheRefresh ha] at hres
    change (w.cache.refresh _ _ _).Resident _ at hres
    rw [(Choice.elapsed_cache_eq hw).1] at hres
    rcases SnapshotCache.resident_of_refresh hres with ⟨old, he, -, heq⟩ | hres
    · cases heq
      cases hstamp
      rw [Host.locate_components]
      have hbytes : old.snapshot.bytes = bytes := hentry old he
      show Sealed after old.snapshot.bytes _ _
      rw [hbytes]
      exact hsealed.later hlater
    · exact (hs.sealed q entry stamp hres hstamp).later hlater
  exact ⟨hs', hk s' hs'⟩

/-! ## `get_or_load` -/

theorem keeping_load (hs : Truthful s) : Keeping who (Snapshot.load path)
    (fun snapshot s' => snapshot.Sealed (h.locate path) s'.world) s :=
  keeping_of_all ((Snapshot.load_calm path).mono fun _ hc => hc.spares) hs <|
    Proc.wp_mono (load_sealed hs.sane) fun _ _ hr => hr.1

namespace SnapshotCache

theorem keeping_verifyRacyResident (hs : Truthful s) :
    Keeping who (verifyRacyResident path) (fun _ _ => True) s := by
  refine keeping_calm (c := .cacheRacyResident path.components) hs trivial fun x a s₁ hs₁ _ ha => ?_
  obtain rfl := act_cacheRacyResident ha
  rcases hres : s₁.world.cache.racyResident path.components with _ | ⟨snapshot, entryStamp⟩
  · exact keeping_pure hs₁ trivial
  obtain ⟨entry, he, rfl, -⟩ := racyResident_some hres
  refine keeping_calm (c := .openRead path) hs₁ trivial fun x a s₂ hs₂ hahead ha => ?_
  obtain ⟨-, ⟨e, -, rfl⟩ | ⟨f, hf, rfl⟩ | ⟨-, rfl⟩⟩ := act_openRead ha
  · exact keeping_pure hs₂ trivial
  swap
  · exact keeping_pure hs₂ trivial
  have hproved : Keeping who (provedBy entry.snapshot entryStamp f) (fun o s' => Ahead s₂ s' ∧
      ∀ after, o = some after → Sealed after entry.snapshot.bytes (h.locate path) s'.world) s₂ :=
    keeping_of_all ((provedBy_calm _ _ f).mono fun _ hc => hc.spares) hs₂ <|
      Proc.wp_mono (wp_ahead_all (provedBy_calm _ _ f) hs₂.sane (provedBy_sealed hs₂.sane hf))
        fun r s' hr a ha => by
          subst ha
          exact ⟨hr.2, fun after he => hr.1 after (by rw [he])⟩
  refine hproved.bind fun o s₃ hs₃ ho => ?_
  rcases o with _ | after
  · exact keeping_pure hs₃ trivial
  refine keeping_refresh hs₃ (fun old hold => ?_) (ho.2 after rfl) fun s₄ hs₄ => keeping_pure hs₄ trivial
  rw [(hahead.trans ho.1).cache, he] at hold
  cases hold
  rfl

theorem keeping_loadCell {cell : ℕ} (hs : Truthful s) :
    Keeping who (loadCell path cell (Snapshot.load path)) (fun _ _ => True) s := by
  have hsettle : ∀ {r : Except SnapshotError (Snapshot h.contentId)} {state s'}, Truthful s' →
      Keeping who (do
        Op.cellSet cell state
        Op.cacheSettle path
        Op.cellUnlock cell
        Proc.orElse id r : Op h SnapshotError _) (fun _ _ => True) s' := fun hs' =>
    keeping_call hs' trivial fun _ _ _ _ hs₁ _ _ _ _ => keeping_call hs₁ trivial fun _ _ _ _ hs₂ _ _ _ _ =>
      keeping_call hs₂ trivial fun _ _ _ _ hs₃ _ _ _ _ => keeping_orElse hs₃ fun _ _ => trivial
  refine (keeping_load hs).attempt (fun snapshot s₁ hs₁ hsealed => ?_) fun e s₁ hs₁ => hsettle hs₁
  exact keeping_insert hs₁ hsealed fun s₂ hs₂ => hsettle hs₂

theorem keeping_claimOrJoin (hs : Truthful s) :
    Keeping who (claimOrJoin path (Snapshot.load path)) (fun _ _ => True) s := by
  refine (keeping_of_calm (currentStamp_calm path) hs).bind fun current s₁ hs₁ _ => ?_
  refine keeping_call hs₁ trivial fun _ _ a s₂ hs₂ _ _ _ _ => ?_
  change Snapshot h.contentId ⊕ ℕ at a
  rcases a with snapshot | cell
  · exact keeping_pure hs₂ trivial
  refine keeping_call hs₂ trivial fun _ _ a s₃ hs₃ _ _ _ _ => ?_
  change InflightState h.contentId at a
  rcases a with _ | result
  · exact keeping_loadCell hs₃
  · exact keeping_call hs₃ trivial fun _ _ _ s₄ hs₄ _ _ _ _ => keeping_ofExec hs₄ fun _ _ => trivial

/-- **`get_or_load` keeps every entry sealed.** -/
theorem keeping_getOrLoad (hs : Truthful s) :
    Keeping who (getOrLoad path (Snapshot.load path)) (fun _ _ => True) s := by
  refine (keeping_of_calm (freshResident_calm path) hs).bind fun hit s₁ hs₁ _ => ?_
  rcases hit with _ | hit
  swap
  · exact keeping_pure hs₁ trivial
  refine (keeping_verifyRacyResident hs₁).bind fun hit s₂ hs₂ _ => ?_
  rcases hit with _ | hit
  · exact keeping_claimOrJoin hs₂
  · exact keeping_pure hs₂ trivial

end SnapshotCache

end

end Hashline
