/-
  Recovery payloads are where they belong, exactly while the check before the
  rename finds the destination it expects.
-/
import Hashline.Classify
import Hashline.Readers
import Hashline.Recovery

namespace Hashline

open Machine

variable {h : Host} {ε ε' α β : Type}

/-! ## What the check before a rename finds -/

/-- What the check has come to: none is under way; what it expects, and the bytes it has read; or
    something else was found. -/
inductive Check where
  | idle
  | pending (stamp : FileStamp) (contentId : SnapshotId) (bytes : Bytes)
  | refuted

namespace Check

/-- A `stat` of the destination: there is one, and it has the stamp. -/
def stat (stamp : FileStamp) (contentId : SnapshotId) : Except IoError Metadata → Check
  | .ok metadata =>
    if FileStamp.fromMetadata metadata 0 == stamp then pending stamp contentId [] else refuted
  | .error e => if e.kind = .notFound then refuted else idle

/-- The destination is opened, unless it is gone. -/
def opened (stamp : FileStamp) (contentId : SnapshotId) (bytes : Bytes) : Except IoError ℕ → Check
  | .ok _ => pending stamp contentId bytes
  | .error e => if e.kind = .notFound then refuted else idle

/-- More of the destination is read; at its end, or past the expected length, its bytes have the
    identity. -/
def read (identity : Bytes → SnapshotId) (stamp : FileStamp) (contentId : SnapshotId)
    (bytes : Bytes) : Except IoError Bytes → Check
  | .ok chunk =>
    if chunk = [] ∨ saturatingAdd stamp.len 1 ≤ (bytes ++ chunk).length then
      if identity (bytes ++ chunk) = contentId then idle else refuted
    else pending stamp contentId (bytes ++ chunk)
  | .error _ => idle

/-- What a call and its answer make of it; the check is made of `stat`, the clock, and the reads. -/
def next : Check → (c : Call h) → Answer c → Check
  | refuted, _, _ => refuted
  | _, .guard _ stamp contentId, _ => pending stamp contentId []
  | pending stamp contentId _, .stat _, a => stat stamp contentId a
  | pending stamp contentId bytes, .now, _ => pending stamp contentId bytes
  | pending stamp contentId bytes, .openRead _, a => opened stamp contentId bytes a
  | pending stamp contentId bytes, .read .., a => read h.contentId stamp contentId bytes a
  | _, _, _ => idle

/-- What the calls so far make of it. -/
def of : List (Did h) → Check
  | [] => idle
  | d :: ds => (of ds).next d.call d.answer

end Check

/-- No check is under way, and none has found something else. -/
def State.Idle (s : State h) : Prop := Check.of s.trace = .idle

/-- **A look of the check before a rename found something else** than the destination it expects. -/
def State.Refuted (s : State h) : Prop := Check.of s.trace = .refuted

/-- A call that begins no check. -/
def Call.Unguarded : Call h → Prop
  | .guard .. => False
  | _ => True

theorem Call.Calm.unguarded {c : Call h} (hc : c.Calm) : c.Unguarded := by
  cases c with
  | guard => exact hc.elim
  | _ => trivial

theorem Call.Persists.unguarded {c : Call h} (hc : c.Persists) : c.Unguarded := by
  cases c with
  | guard => exact hc.elim
  | _ => trivial

theorem State.Idle.not_refuted {s : State h} (hs : s.Idle) : ¬s.Refuted := fun hr => by
  rw [State.Refuted, hs] at hr
  cases hr

section
variable {rules : Rules h} {who : ℕ} {s s' : State h} {path tempPath : PathBuf}
  {expected : ExpectedDestination}

/-- A step goes on with the check. -/
theorem check_cons {x : Choice} {c : Call h} {a : Answer c} {w : World h}
    (ht : s'.trace = ⟨who, x, c, a, s.world, w, s'.world⟩ :: s.trace) :
    Check.of s'.trace = (Check.of s.trace).next c a := by
  rw [ht]
  rfl

/-- Where no check is under way, none is after a call that begins none. -/
theorem idle_step {x : Choice} {c : Call h} {a : Answer c} {w : World h}
    (hs : s.Idle) (ht : s'.trace = ⟨who, x, c, a, s.world, w, s'.world⟩ :: s.trace)
    (hc : c.Unguarded) : s'.Idle := by
  rw [State.Idle, check_cons ht, hs]
  cases c with
  | guard => exact hc.elim
  | _ => rfl

theorem refuted_step {x : Choice} {c : Call h} {a : Answer c} (hs : s.Refuted)
    (hst : step rules who x c s = some (a, s')) : s'.Refuted := by
  obtain ⟨-, w, -, -, ht⟩ := step_eq_some.1 hst
  rw [State.Refuted, check_cons ht, hs]
  rfl

/-! ## Errors, judged by what the check found -/

/-- **Ends that are judged by what the check found**: an error is `good` where no check found something
    else, and `bad` where one did. -/
def Judged (K : α → State h → Prop) (good bad : ε → Prop) : Exec ε α → State h → Prop
  | .ok a, s => K a s
  | .error (.err e), s => s.Idle ∧ good e ∨ s.Refuted ∧ bad e
  | .error .panic, s => s.Idle

/-- A value, and no check. -/
def Unchecked (_ : α) (s : State h) : Prop := s.Idle

variable {good bad : ε → Prop} {K : α → State h → Prop}

theorem judged_fail {e : ε} (hs : s.Idle) (he : good e) :
    (Proc.fail e : Op h ε α).wp (step rules who) (Judged K good bad) s := .inl ⟨hs, he⟩

theorem judged_ofExec {V : α → Prop} {r : Exec ε α} (hs : s.Idle) (hr : r.Meets V good) :
    (Proc.ofExec r : Op h ε α).wp (step rules who) (Judged (fun a s => s.Idle ∧ V a) good bad) s := by
  rcases r with (e | _) | a
  · exact .inl ⟨hs, hr⟩
  · exact hr.elim
  · exact ⟨hs, hr⟩

/-- A result that is seen as another error. -/
theorem judged_mapped {r : Exec ε' α} {f : ε' → ε} (hs : s.Idle) (hf : ∀ e, good (f e)) :
    (Proc.ofExec (r.mapErr f) : Op h ε α).wp (step rules who) (Judged Unchecked good bad) s := by
  rcases r with (e | _) | a
  · exact .inl ⟨hs, hf e⟩
  · exact hs
  · exact hs

/-- What begins no check is judged by its errors alone. -/
theorem judged_of_all {x : Op h ε α} (hx : x.All Call.Unguarded) (hgood : x.Meets Anything good)
    (hs : s.Idle) : x.wp (step rules who) (Judged Unchecked good bad) s := by
  have hkeep : ∀ y (c : Call h) s a s', c.Unguarded → s.Idle → step rules who y c s = some (a, s') →
      s'.Idle := by
    intro y c s a s' hc hi hst
    obtain ⟨-, w, -, -, ht⟩ := step_eq_some.1 hst
    exact idle_step hi ht hc
  refine Proc.wp_mono (Proc.wp_of_all hx hkeep hs (hgood.wp s)) fun r s' ⟨hr, hi⟩ => ?_
  rcases r with (e | _) | a
  · exact .inl ⟨hi, hr⟩
  · exact hi
  · exact hi

/-- What follows a value. -/
theorem judged_bind {L : β → State h → Prop} {x : Op h ε α} {f : α → Op h ε β}
    (hx : x.wp (step rules who) (Judged K good bad) s)
    (hf : ∀ a s', K a s' → (f a).wp (step rules who) (Judged L good bad) s') :
    (x >>= f).wp (step rules who) (Judged L good bad) s := by
  refine Proc.wp_bind_of hx hf fun e s' h => ?_
  rcases e with e | _ <;> exact h

theorem judged_mapErr {good' bad' : ε' → Prop} {x : Op h ε α} {f : ε → ε'}
    (hx : x.wp (step rules who) (Judged K good bad) s) (hgood : ∀ e, good e → good' (f e))
    (hbad : ∀ e, bad e → bad' (f e)) : (x.mapErr f).wp (step rules who) (Judged K good' bad') s := by
  refine Proc.wp_mapErr.2 (Proc.wp_mono hx fun r s' hr => ?_)
  rcases r with (e | _) | a
  · exact hr.imp (fun h => ⟨h.1, hgood e h.2⟩) fun h => ⟨h.1, hbad e h.2⟩
  · exact hr
  · exact hr

/-- A result that is looked at. -/
theorem judged_attempt {L : β → State h → Prop} {good' bad' : ε' → Prop} {x : Op h ε α}
    {f : Except ε α → Op h ε' β} (hx : x.wp (step rules who) (Judged K good bad) s)
    (hok : ∀ a s', K a s' → (f (.ok a)).wp (step rules who) (Judged L good' bad') s')
    (hgood : ∀ e s', s'.Idle → good e → (f (.error e)).wp (step rules who) (Judged L good' bad') s')
    (hbad : ∀ e s', s'.Refuted → bad e → (f (.error e)).wp (step rules who) (Judged L good' bad') s') :
    (x.attempt >>= f).wp (step rules who) (Judged L good' bad') s := by
  refine Proc.wp_attempt_bind.2 (Proc.wp_mono hx fun r s' hr => ?_)
  rcases r with (e | _) | a
  · exact hr.elim (fun h => hgood e s' h.1 h.2) fun h => hbad e s' h.1 h.2
  · exact hr
  · exact hok a s' hr

/-! ## The check -/

theorem readToEnd_full (f limit rounds : ℕ) {bytes : Bytes} (hb : limit ≤ bytes.length) :
    (readToEnd f limit rounds bytes : Op h ε _) = pure (.ok bytes) := by
  cases rounds with
  | zero => rfl
  | succ rounds => rw [readToEnd, if_pos hb]

/-- All bytes are read, and judged; or a read has failed. -/
def Check.Ended (contentId : SnapshotId) : Except IoError Bytes → State h → Prop
  | .ok bytes, s => Check.of s.trace = if h.contentId bytes = contentId then .idle else .refuted
  | .error _, s => s.Idle

/-- The reads of the check: they end with the bytes that are judged, or one fails. -/
theorem readToEnd_judged {f : ℕ} {stamp : FileStamp} {contentId : SnapshotId} : ∀ (rounds : ℕ)
    {bytes : Bytes} {s : State h}, Check.of s.trace = .pending stamp contentId bytes →
    bytes.length < saturatingAdd stamp.len 1 → saturatingAdd stamp.len 1 ≤ bytes.length + rounds →
    (readToEnd f (saturatingAdd stamp.len 1) rounds bytes : Op h ε _).wp (step rules who)
      (Judged (Check.Ended contentId) good bad) s
  | 0, bytes, s, _, hl, hr => absurd hl (by omega)
  | rounds + 1, bytes, s, hs, hl, hr => by
    rw [readToEnd, if_neg (by omega)]
    refine wp_call fun x w a s₁ _ _ _ ht => ?_
    have hnext := check_cons ht
    rw [hs] at hnext
    change Except IoError Bytes at a
    rcases a with e | chunk
    · exact hnext
    change Check.of s₁.trace = if chunk = [] ∨ saturatingAdd stamp.len 1 ≤ (bytes ++ chunk).length then
      _ else _ at hnext
    show Proc.wp _ (if chunk = [] then _ else _) _ _
    split_ifs with hnil
    · rw [if_pos (.inl hnil), hnil, List.append_nil] at hnext
      exact hnext
    · have hpos := List.length_pos_of_ne_nil hnil
      by_cases hfull : saturatingAdd stamp.len 1 ≤ (bytes ++ chunk).length
      · rw [if_pos (.inr hfull)] at hnext
        rw [readToEnd_full _ _ _ hfull]
        exact hnext
      · rw [if_neg (not_or.2 ⟨hnil, hfull⟩)] at hnext
        refine readToEnd_judged rounds hnext (Nat.lt_of_not_le hfull) ?_
        rw [List.length_append]
        omega

/-- The destination is refused, for it is not the expected one. -/
def PersistError.IsChanged (e : PersistError) : Prop := ∃ path, e = .destinationChanged path

/-- A refusal for a failed call. -/
theorem refuse_io (hs : s.Idle) (source : IoError) (operation : String) :
    (refuse tempPath (ioErr path operation source) : Op h PersistError α).wp (step rules who)
      (Judged K PersistError.IsIo PersistError.IsChanged) s :=
  wp_call fun _ _ _ _ _ _ _ ht => .inl ⟨idle_step hs ht trivial, _, _, _, rfl⟩

/-- A refusal for a destination that is not the expected one. -/
theorem refuse_changed (hs : s.Refuted) (name : String) :
    (refuse tempPath (.destinationChanged name) : Op h PersistError α).wp (step rules who)
      (Judged K PersistError.IsIo PersistError.IsChanged) s :=
  wp_call fun _ _ _ _ hx hw ha ht =>
    .inr ⟨refuted_step hs (step_eq_some.2 ⟨hx, _, hw, ha, ht⟩), name, rfl⟩

theorem destinationUnchanged_judged
    (hs : Check.of s.trace = .pending expected.stamp expected.contentId []) :
    (destinationUnchanged path tempPath expected).wp (step rules who)
      (Judged (fun same s' => if same then s'.Idle else s'.Refuted) PersistError.IsIo
        PersistError.IsChanged) s := by
  refine wp_call fun x w a s₁ _ _ _ ht => ?_
  have hnext := check_cons ht
  rw [hs] at hnext
  change Except IoError ℕ at a
  rcases a with e | f
  · change Check.of s₁.trace = if e.kind = .notFound then _ else _ at hnext
    show Proc.wp _ (if e.kind = .notFound then _ else _) _ _
    split_ifs at hnext ⊢
    · exact hnext
    · exact refuse_io hnext e _
  · have hlimit : 0 < saturatingAdd expected.stamp.len 1 := by
      unfold saturatingAdd
      have : 0 < u64Max := by decide
      omega
    refine judged_bind (readToEnd_judged _ hnext hlimit (by rw [List.length_nil]; omega))
      fun r s₂ hr => ?_
    rcases r with e | destination
    · exact refuse_io hr e _
    · change Check.of s₂.trace = if h.contentId destination = expected.contentId then _ else _ at hr
      show if decide (h.contentId destination = expected.contentId) = true then s₂.Idle else s₂.Refuted
      by_cases hid : h.contentId destination = expected.contentId
      · rw [if_pos hid] at hr
        rwa [if_pos (decide_eq_true hid)]
      · rw [if_neg hid] at hr
        rwa [if_neg (by simpa using hid)]

/-- **A check passes where it found what it expects**, and refuses the destination where it did not. -/
theorem checkDestination_judged (hs : s.Idle) :
    (checkDestination path tempPath expected).wp (step rules who)
      (Judged (fun _ s' => ¬s'.Refuted) PersistError.IsIo PersistError.IsChanged) s := by
  refine wp_call fun x₁ w₁ _ s₁ _ _ _ ht₁ => ?_
  have hs₁ := check_cons ht₁
  rw [hs] at hs₁
  refine wp_call fun x₂ w₂ a s₂ _ _ _ ht₂ => ?_
  have hs₂ := check_cons ht₂
  rw [hs₁] at hs₂
  change Except IoError Metadata at a
  rcases a with e | metadata
  · change Check.of s₂.trace = if e.kind = .notFound then _ else _ at hs₂
    show Proc.wp _ (if e.kind = .notFound then _ else _) _ _
    split_ifs at hs₂ ⊢
    · exact refuse_changed hs₂ _
    · exact refuse_io hs₂ e _
  change Check.of s₂.trace = if (FileStamp.fromMetadata metadata 0 == expected.stamp) = true then _ else _
    at hs₂
  refine Proc.wp_bind.2 (wp_call fun x₃ w₃ now s₃ hx₃ hw₃ ha₃ ht₃ => ?_)
  have hsame : (FileStamp.fromMetadata metadata now == expected.stamp) =
      (FileStamp.fromMetadata metadata 0 == expected.stamp) := rfl
  show Proc.wp _ (if (FileStamp.fromMetadata metadata now != expected.stamp) = true then _ else _) _ _
  rw [bne, hsame]
  cases hstamp : FileStamp.fromMetadata metadata 0 == expected.stamp with
  | false =>
    rw [hstamp, if_neg (by decide)] at hs₂
    rw [if_pos (by decide)]
    exact refuse_changed (refuted_step hs₂ (step_eq_some.2 ⟨hx₃, _, hw₃, ha₃, ht₃⟩)) _
  | true =>
    have hs₃ := check_cons ht₃
    rw [hs₂, hstamp, if_pos rfl] at hs₃
    rw [if_neg (by decide)]
    split_ifs
    · refine judged_bind (destinationUnchanged_judged hs₃) fun same s₄ hsame => ?_
      cases same with
      | false => exact refuse_changed hsame _
      | true => exact State.Idle.not_refuted hsame
    · intro hr
      rw [State.Refuted, hs₃] at hr
      cases hr

/-! ## Persisting -/

/-- The rename, after a check that has passed or none. -/
theorem install_judged (hs : ¬s.Refuted) (stamp : FileStamp) (durability : Durability) :
    (do
      match ← Op.rename tempPath path with
      | .ok () => afterInstall path stamp durability
      | .error source => refuse tempPath (ioErr path "rename into" source) :
        Op h PersistError (Option FileStamp)).wp (step rules who)
      (Judged Unchecked PersistError.IsIo PersistError.IsChanged) s := by
  refine wp_call fun x w a s₁ _ _ _ ht => ?_
  have hs₁ : s₁.Idle := by
    rw [State.Idle, check_cons ht]
    rw [State.Refuted] at hs
    rcases hcheck : Check.of s.trace with _ | _ | _
    · rfl
    · rfl
    · exact absurd hcheck hs
  change Except IoError Unit at a
  rcases a with e | _
  · exact refuse_io hs₁ e _
  · exact judged_of_all ((afterInstall_persists path stamp durability).mono fun _ hc => hc.unguarded)
      (meets_afterInstall path stamp durability) hs₁

/-- The lock is given back whatever the check found. -/
theorem withPathLock_judged {body : Op h ε α} (hs : s.Idle)
    (hbody : ∀ s, s.Idle → body.wp (step rules who) (Judged Unchecked good bad) s) :
    (withPathLock path body).wp (step rules who) (Judged Unchecked good bad) s := by
  refine wp_call fun _ _ _ s₁ _ _ _ ht => judged_attempt (hbody s₁ (idle_step hs ht trivial))
    (fun a s₂ hs₂ => ?_) (fun e s₂ hs₂ he => ?_) fun e s₂ hs₂ he => ?_
  · exact wp_call fun _ _ _ _ _ _ _ ht => idle_step hs₂ ht trivial
  · exact wp_call fun _ _ _ _ _ _ _ ht => .inl ⟨idle_step hs₂ ht trivial, he⟩
  · exact wp_call fun _ _ _ _ hx hw ha ht =>
      .inr ⟨refuted_step hs₂ (step_eq_some.2 ⟨hx, _, hw, ha, ht⟩), he⟩

/-- **A replacement** fails where the machine does, or the check was refuted. -/
theorem atomicWrite_judged (bytes : Bytes) (expected : Option ExpectedDestination)
    (durability : Durability) (hs : s.Idle) :
    (atomicWrite path bytes expected durability).wp (step rules who)
      (Judged Unchecked PersistError.IsIo PersistError.IsChanged) s := by
  refine withPathLock_judged hs fun s hs => ?_
  refine judged_bind (judged_of_all ((createParentOf_persists path).mono fun _ hc => hc.unguarded)
    (meets_createParentOf path) hs) fun _ s₁ hs₁ => ?_
  refine judged_bind (judged_of_all ((writeUniqueTemp_persists _ path bytes durability).mono
    fun _ hc => hc.unguarded) (meets_writeUniqueTemp _ path bytes durability) hs₁) fun written s₂ hs₂ => ?_
  obtain ⟨tempPath, stamp⟩ := written
  rcases expected with _ | expected
  · exact install_judged (State.Idle.not_refuted hs₂) stamp durability
  · exact judged_bind (checkDestination_judged hs₂) fun _ s₃ hs₃ => install_judged hs₃ stamp durability

/-! ## The pipelines -/

/-- The error of a pipeline. -/
abbrev JudgedError (r : Exec ProtocolError α) (s : State h) : Prop :=
  Judged Unchecked ProtocolError.Consistent (fun e => ¬e.Consistent) r s

theorem PersistError.IsIo.consistent {e : PersistError} (he : e.IsIo) :
    (persistProtocolError e).Consistent := he.bare.consistent

/-- **The conflict of a destination that has changed has no payload.** -/
theorem PersistError.IsChanged.inconsistent {e : PersistError} (he : e.IsChanged) :
    ¬(persistProtocolError e).Consistent := by
  obtain ⟨p, rfl⟩ := he
  intro hc
  cases hc.conflict.1 rfl

theorem consistent_io (message : String) : (ProtocolError.new .io message).Consistent :=
  ProtocolError.consistent_new plain_io message

/-- A load that is looked at. -/
theorem judged_load {L : β → State h → Prop} {good' bad' : ε → Prop} (hs : s.Idle)
    {f : Except SnapshotError (Snapshot h.contentId) → Op h ε β}
    (hf : ∀ r s', s'.Idle → (f r).wp (step rules who) (Judged L good' bad') s') :
    ((Snapshot.load path).attempt >>= f).wp (step rules who) (Judged L good' bad') s :=
  have hload : (Snapshot.load path : Op h _ _).wp (step rules who)
      (Judged Unchecked Anything fun _ => False) s :=
    judged_of_all ((Snapshot.load_calm path).mono fun _ hc => hc.unguarded) (Snapshot.meets_load path) hs
  judged_attempt hload (fun _ s' hs' => hf _ s' hs') (fun _ s' hs' _ => hf _ s' hs')
    fun _ _ _ he => he.elim

theorem judged_spawnBlocking {operation : String} {x : Op h ProtocolError α}
    (hx : x.wp (step rules who) JudgedError s) :
    (spawnBlocking operation path x).wp (step rules who) JudgedError s :=
  Proc.wp_onPanic_of hx (fun _ _ hr => hr) fun _ hs => .inl ⟨hs, consistent_io _⟩

/-- A snapshot that is made of what is persisted, and kept. -/
theorem judged_published {name operation : String} {bytes : Bytes} {response : Snapshot h.contentId → α}
    (stamp : Option FileStamp) (hs : s.Idle) :
    (do
      let snapshot : Snapshot h.contentId ← Proc.ofExec
        ((Snapshot.fromValidatedBytes bytes).mapErr (snapshotProtocolError operation name))
      cachePersisted path snapshot stamp
      pure (response snapshot) : Op h ProtocolError α).wp (step rules who) JudgedError s := by
  refine judged_bind (judged_mapped hs fun e => snapshotProtocolError_consistent _ _ e)
    fun snapshot s₁ hs₁ => ?_
  rcases stamp with _ | stamp
  · exact hs₁
  · exact wp_call fun _ _ _ _ _ _ _ ht => idle_step hs₁ ht trivial

/-! ### Edit -/

theorem judged_publish (input : EditRequest) (previous : SnapshotId) (applied : Bytes)
    (expected : Option FileStamp) (durability : Durability) (hs : s.Idle) :
    (Edit.publish path input previous applied expected durability).wp (step rules who) JudgedError s :=
  judged_bind (judged_mapErr (atomicWrite_judged _ _ _ hs) (fun _ he => he.consistent)
    fun _ he => he.inconsistent) fun stamp _ hs₁ => judged_published stamp hs₁

/-- A file that is missing. -/
theorem judged_createNewFile (input : EditRequest) (durability : Durability) (hs : s.Idle) :
    (Edit.createNewFile path input durability).wp (step rules who) JudgedError s := by
  have hempty : (Snapshot.fromBytes [] : Exec SnapshotError (Snapshot h.contentId)) = _ :=
    Snapshot.fromBytes_eq isText_nil
  unfold Edit.createNewFile
  rw [hempty]
  refine judged_bind (K := fun empty s => s.Idle ∧ empty.id = h.contentId []) ⟨hs, rfl⟩
    fun empty s₁ ⟨hs₁, hid⟩ => ?_
  split_ifs
  · refine judged_bind (judged_ofExec hs₁ ((meets_missingConflict input hid).mono (fun _ he => he)
      fun _ he => he.consistent)) fun error s₂ ⟨hs₂, he⟩ => ?_
    exact judged_fail hs₂ he.1
  · rw [hid]
    refine judged_bind (judged_ofExec hs₁ ((meets_applyVersionedReferenceEdits input).mono
      (fun _ ht => ht) fun _ he => he.1)) fun applied s₂ ⟨hs₂, _⟩ => ?_
    split
    · refine judged_bind (K := Unchecked) ?_ fun a s₃ hs₃ => judged_bind (K := Unchecked) ?_
        fun _ s₄ hs₄ => judged_publish input _ applied none durability hs₄
      · exact fun x a s₃ hst => by
          obtain ⟨-, w, -, -, ht⟩ := step_eq_some.1 hst
          exact idle_step hs₂ ht trivial
      · rcases a with e | _
        · exact judged_fail hs₃ (consistent_io _)
        · exact hs₃
    · exact judged_publish input _ applied none durability hs₂

theorem judged_editBlocking (input : EditRequest) (durability : Durability) (hs : s.Idle) :
    (Edit.runBlocking path input durability).wp (step rules who) JudgedError s := by
  refine judged_load hs fun r s₁ hs₁ => ?_
  rcases r with e | snapshot
  · show Proc.wp _ (if e.isNotFound = true then _ else _) _ _
    split_ifs
    · exact judged_createNewFile input durability hs₁
    · exact judged_fail hs₁ (snapshotProtocolError_consistent _ _ e)
  · refine wp_call fun _ _ granted s₂ _ _ _ ht => ?_
    change Bool at granted
    exact judged_bind (judged_ofExec (idle_step hs₁ ht trivial) ((meets_applyEditsFast granted snapshot
      input).mono (fun _ _ => trivial) fun _ he => he.1)) fun applied _ ⟨hs₃, _⟩ =>
        judged_publish input _ applied _ durability hs₃

/-- Validation and the path come first, and the rest is on a blocking thread. -/
theorem judged_pipeline {operation : String} {v : Exec ContractError Unit} (workspace : Workspace)
    (name : String) {blocking : PathBuf → Op h ProtocolError α} (hs : s.Idle)
    (hblocking : ∀ path s, s.Idle → (blocking path).wp (step rules who) JudgedError s) :
    (do
      Proc.ofExec (v.mapErr .ofContract)
      let path ← workspace.resolvePath name
      spawnBlocking operation path (blocking path) : Op h ProtocolError α).wp
      (step rules who) JudgedError s := by
  refine judged_bind (judged_mapped hs fun e => ProtocolError.consistent_new e.plain_code _)
    fun _ s₁ hs₁ => ?_
  refine judged_bind (judged_of_all ((resolvePath_calm workspace name).mono fun _ hc => hc.unguarded)
    ((meets_resolvePath workspace name fun reason =>
      ProtocolError.consistent_new ⟨by decide, by decide⟩ reason).mono (fun _ _ => trivial)
      fun _ he => he) hs₁) fun path s₂ hs₂ => ?_
  exact judged_spawnBlocking (hblocking path s₂ hs₂)

/-! ### Write -/

/-- The error of a create that lost the race. -/
theorem judged_loseCreateRace (input : WriteRequest) (hs : s.Idle) :
    (do
      let error ← Write.loseCreateRace path input
      Proc.fail error : Op h ProtocolError α).wp (step rules who) JudgedError s := by
  refine judged_bind (K := fun error s => s.Idle ∧ error.Consistent) ?_
    fun error s₁ ⟨hs₁, he⟩ => judged_fail hs₁ he
  refine judged_load hs fun r s₁ hs₁ => ?_
  rcases r with e | snapshot
  · show Proc.wp _ (if e.isNotFound = true then _ else _) _ _
    split_ifs
    · exact ⟨hs₁, consistent_io _⟩
    · exact ⟨hs₁, snapshotProtocolError_consistent _ _ e⟩
  · have hwrite := meets_writeOver snapshot input
    dsimp only
    split
    · exact ⟨hs₁, consistent_io _⟩
    · rename_i error he
      rw [he] at hwrite
      exact ⟨hs₁, hwrite.1⟩
    · exact hs₁

/-- What is persisted, or refused; a create may find that the destination exists. -/
theorem judged_persist (bytes : Bytes) (current : Option (Snapshot h.contentId)) (created : Bool)
    (durability : Durability) (hs : s.Idle) :
    (Write.persist path bytes current created durability).wp (step rules who)
      (Judged Unchecked (fun e => e.IsIo ∨ e = .destinationExists path.display)
        PersistError.IsChanged) s := by
  unfold Write.persist
  split_ifs
  · refine withPathLock_judged hs fun s hs => judged_of_all ((createLocked_persists path bytes
      durability).mono fun _ hc => hc.unguarded) ?_ hs
    exact meets_createLocked path bytes durability
  · refine Proc.wp_mono (atomicWrite_judged bytes _ durability hs) fun r s' hr => ?_
    rcases r with (e | _) | a
    · exact hr.imp_left fun h => ⟨h.1, .inl h.2⟩
    · exact hr
    · exact hr

theorem judged_carryOut (input : WriteRequest) (current : Option (Snapshot h.contentId)) (created : Bool)
    (durability : Durability) (hs : s.Idle) :
    (Write.carryOut path input current created durability).wp (step rules who) JudgedError s := by
  refine judged_attempt (judged_persist input.content.bytes current created durability hs)
    (fun stamp s₁ hs₁ => judged_published stamp hs₁) (fun e s₁ hs₁ he => ?_) fun e s₁ hs₁ he => ?_
  · obtain ⟨operation, p, source, rfl⟩ | rfl := he
    · exact judged_fail hs₁ (consistent_io _)
    · exact judged_loseCreateRace input hs₁
  · have hbad := he.inconsistent
    obtain ⟨p, rfl⟩ := he
    exact .inr ⟨hs₁, hbad⟩

theorem judged_writeBlocking (input : WriteRequest) (durability : Durability) (hs : s.Idle) :
    (Write.runBlocking path input durability).wp (step rules who) JudgedError s := by
  refine judged_bind (K := Unchecked) (judged_load hs fun r s₁ hs₁ => ?_) fun current s₁ hs₁ => ?_
  · rcases r with e | snapshot
    · show Proc.wp _ (if e.isNotFound = true then _ else _) _ _
      split_ifs
      · exact hs₁
      · exact judged_fail hs₁ (snapshotProtocolError_consistent _ _ e)
    · exact hs₁
  have hwrite : (validateReferenceWrite (current.map fun snapshot => (snapshot.bytes, snapshot.id))
      input).Meets Anything ProtocolError.Consistent := by
    rcases current with _ | snapshot
    · exact (meets_validateReferenceWrite_none input).mono (fun _ _ => trivial) fun _ he => he.consistent
    · exact (meets_writeOver snapshot input).mono (fun _ _ => trivial) fun _ he => he.1
  exact judged_bind (judged_ofExec hs₁ hwrite) fun created _ ⟨hs₂, _⟩ =>
    judged_carryOut input current created durability hs₂

/-! ## The tools -/

theorem getOrLoad_unguarded {loader : Op h SnapshotError (Snapshot h.contentId)}
    (hl : loader.All Call.Unguarded) :
    (SnapshotCache.getOrLoad path loader).All Call.Unguarded := by
  refine Proc.All.bind ((SnapshotCache.freshResident_calm path).mono fun _ hc => hc.unguarded)
    fun hit => ?_
  rcases hit with _ | hit
  swap
  · exact Proc.all_pure _
  refine Proc.All.bind (SnapshotCache.verifyRacyResident_all (fun _ hc => hc.unguarded) fun _ _ => trivial)
    fun hit => ?_
  rcases hit with _ | hit
  swap
  · exact Proc.all_pure _
  refine Proc.All.bind ((SnapshotCache.currentStamp_calm path).mono fun _ hc => hc.unguarded)
    fun current => (Proc.all_ask trivial).bind fun a => ?_
  change Snapshot h.contentId ⊕ ℕ at a
  rcases a with snapshot | cell
  · exact Proc.all_pure _
  refine (Proc.all_ask trivial).bind fun state => ?_
  change InflightState h.contentId at state
  rcases state with _ | result
  · refine hl.attempt.bind fun loaded => ?_
    rcases loaded with error | snapshot
    · exact ⟨trivial, fun _ => ⟨trivial, fun _ => ⟨trivial, fun _ => trivial⟩⟩⟩
    · exact ⟨trivial, fun _ => ⟨trivial, fun _ => ⟨trivial, fun _ => ⟨trivial, fun _ => trivial⟩⟩⟩⟩
  · exact (Proc.all_ask trivial).bind fun _ => Proc.all_ofExec _

theorem Read.run_unguarded (quote : String → String) (workspace : Workspace) (input : ReadRequest) :
    (Read.run quote workspace input : Op h _ _).All Call.Unguarded := by
  have hblocking : ∀ {β : Type} {blocking : Bool} {path : PathBuf} {x : Op h ProtocolError β},
      x.All Call.Unguarded → (maybeBlocking blocking path x).All Call.Unguarded := by
    intro β blocking path x hx
    unfold maybeBlocking
    split_ifs
    · exact spawnBlocking_all hx
    · exact hx
  refine Proc.All.bind (Proc.all_ofExec _) fun _ => ?_
  refine Proc.All.bind ((resolvePath_calm workspace _).mono fun _ hc => hc.unguarded) fun path => ?_
  refine Proc.All.bind ((Proc.all_ask trivial).bind fun metadata => hblocking
    ((getOrLoad_unguarded ((Snapshot.load_calm path).mono fun _ hc => hc.unguarded)).mapErr _))
    fun snapshot => (Proc.all_ask trivial).bind fun granted => (Proc.all_ofExec _).bind fun startLine => ?_
  split_ifs
  · split
    · exact Proc.all_fail _
    · exact (Proc.all_ofExec _).bind fun _ => Proc.all_pure _
  · exact hblocking (Proc.all_ofExec _)

/-- **Recovery payloads are where they belong, exactly while no check refutes the destination**: what
    an error of a read, edit, write or search carries is of its code, five lines at most, and with the
    flag of its code, unless a look of the check before the rename found something else than what it
    expects. -/
theorem errors_consistent {Overrides : Type} (crates : Crates Overrides)
    (walker : Walker h Overrides crates) (workspace : Workspace) (access : Access) (w : World h)
    {xs : List Choice} {e : ProtocolError}
    (hrun : Prog.runs (step rules who) xs (access.run crates walker workspace, ⟨w, []⟩) =
      some (.ret (.error (.err e)), s')) : e.Consistent ↔ ¬s'.Refuted := by
  have hstart : (⟨w, []⟩ : State h).Idle := rfl
  have hspec : (access.run crates walker workspace).wp (step rules who) JudgedError ⟨w, []⟩ := by
    cases access with
    | read request =>
      refine judged_of_all ?_ ?_ hstart
      · exact Proc.All.bind (Read.run_unguarded crates.quote workspace request) fun _ => Proc.all_pure _
      · exact (Read.meets_run crates.quote workspace request).bind fun _ _ => trivial
    | edit request =>
      refine judged_bind (judged_pipeline workspace _ hstart fun path s hs =>
        judged_editBlocking request workspace.durability hs) fun _ _ hs => hs
    | write request =>
      refine judged_bind (judged_pipeline workspace _ hstart fun path s hs =>
        judged_writeBlocking request workspace.durability hs) fun _ _ hs => hs
    | grep request =>
      refine judged_of_all ?_ ?_ hstart
      · exact Proc.All.bind ((Grep.run_calm crates walker workspace request).mono
          fun _ hc => hc.unguarded) fun _ => Proc.all_pure _
      · exact (Grep.meets_run workspace request).bind fun _ _ => trivial
  obtain ⟨hs, he⟩ | ⟨hs, he⟩ := Proc.wp_runs hspec hrun
  · exact iff_of_true he hs.not_refuted
  · exact iff_of_false he (not_not.2 hs)

end

/-- Write `b` to the path `f`. -/
def writeB (expect : WriteExpect) : Access := .write ⟨"f", ⟨[98], by decide⟩, expect⟩

/-- One step after the other of a write of `b` over `a` in the workspace `w`. -/
def runOnA (xs : List Choice) :=
  Prog.runs (step (fun _ _ _ => true) 0) xs ((writeB (.snapshot (Host.sample.contentId [97]))).run
    Crates.sample Walker.sample ⟨["w"], false, .none⟩, ⟨World.sample ["w", "f"] (some [97]), []⟩)

/-- Nothing happens to the file until the check has read it and passed; then the rename fails. -/
def renameFails : List Choice :=
  List.replicate 30 ({} : Choice) ++
    { fault := some ⟨.other, "Input/output error (os error 5)"⟩ } :: List.replicate 2 ({} : Choice)

/-- A write whose check passes, and whose rename fails. -/
theorem errors_consistent_renamed : ∃ xs e s', runOnA xs = some (.ret (.error (.err e)), s') ∧
    (∃ d ∈ s'.trace, ∃ source target, d.call = .rename source target) ∧ e.code = .io ∧
    e.Consistent := by
  have hruns : ∃ xs e s', runOnA xs = some (.ret (.error (.err e)), s') ∧
      (∃ d ∈ s'.trace, ∃ source target, d.call = .rename source target) ∧ e.code = .io ∧ s'.Idle :=
    ⟨renameFails, _, _, rfl, ⟨_, List.mem_cons_of_mem _ (List.mem_cons_of_mem _ List.mem_cons_self),
      _, _, rfl⟩, rfl, rfl⟩
  obtain ⟨xs, e, s', hrun, hrename, hcode, hidle⟩ := hruns
  exact ⟨xs, e, s', hrun, hrename, hcode, (errors_consistent Crates.sample Walker.sample
    ⟨["w"], false, .none⟩ (writeB (.snapshot (Host.sample.contentId [97]))) _ hrun).2 hidle.not_refuted⟩

/-- Others rewrite the file before the check that precedes the rename. -/
def rewrittenBeforeCheck : List Choice :=
  List.replicate 24 ({} : Choice) ++
    { events := [(0, .rewrite (Host.sample.locate ["w", "f"]) [99, 99] ⟨0, 0⟩ ⟨0, 0⟩)] } ::
    List.replicate 4 ({} : Choice)

/-- Others rewrite the file once its text `a` is loaded: the check before the rename refuses it with
    a conflict that has no payload. -/
theorem exists_inconsistent : ∃ xs e s', runOnA xs = some (.ret (.error (.err e)), s') ∧
    ¬e.Consistent := by
  refine ⟨rewrittenBeforeCheck, _, _, rfl, fun he => ?_⟩
  exact absurd (he.conflict.1 rfl) (by decide)

end Hashline
