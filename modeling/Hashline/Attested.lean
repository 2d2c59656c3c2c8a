/-
  What the errors of a read, an edit or a write tell of the destination: bytes
  that it had while the call was made.
-/
import Hashline.Found
import Hashline.Reads

namespace Hashline

open Machine

variable {h : Host} {ε α β : Type}

/-! ## Errors with grounds -/

/-- The error has no payload, nor a code that comes with one, or it tells of a text that the file at
    the path had. -/
def Grounded (path : PathBuf) (s : State h) (error : ProtocolError) : Prop :=
  error.Bare ∨ ∃ bytes, IsText bytes ∧ s.Had (h.locate path) bytes ∧ error.Tells h.contentId bytes

/-- An error that was answered has grounds. -/
def Attested (path : PathBuf) (r : Exec ProtocolError α) (s : State h) : Prop :=
  ∀ error, r = .error (.err error) → Grounded path s error

section
variable {path : PathBuf} {who : ℕ} {s s' : State h} {rules : Rules h} {bytes : Bytes}

theorem Grounded.grown {error : ProtocolError} (he : Grounded path s error) (ht : s.trace <:+ s'.trace) :
    Grounded path s' error :=
  he.imp_right fun ⟨bytes, htext, hhad, htells⟩ => ⟨bytes, htext, hhad.grown ht, htells⟩

theorem grounded_decided {snapshot : Snapshot h.contentId} {error : ProtocolError}
    (hhad : s.Had (h.locate path) snapshot.bytes) (he : error.Decided h.contentId snapshot.bytes) :
    Grounded path s error := .inr ⟨_, snapshot.text.isText, hhad, he.2⟩

/-- Whatever a persist fails with, over a text. -/
theorem grounded_persist {snapshot : Snapshot h.contentId} (hhad : s.Had (h.locate path) snapshot.bytes)
    (error : PersistError) : Grounded path s (persistProtocolError error) := by
  refine .inr ⟨_, snapshot.text.isText, hhad, ?_⟩
  cases error <;> exact ProtocolError.tells_new _ _

theorem attested_ok {a : α} : Attested path (.ok a) s := fun _ he => by cases he

theorem attested_panic : Attested path (.error .panic : Exec ProtocolError α) s := fun _ he => by cases he

theorem attested_err {error : ProtocolError} (he : Grounded path s error) :
    Attested path (.error (.err error) : Exec ProtocolError α) s := fun _ h => by cases h; exact he

/-- The same failure. -/
theorem Attested.error {e : Fault ProtocolError} (he : Attested path (.error e : Exec ProtocolError α) s) :
    Attested path (.error e : Exec ProtocolError β) s := fun error h => he error (by cases h; rfl)

theorem attested_of_meets {r : Exec ProtocolError α} {V : α → Prop} {E : ProtocolError → Prop}
    (hr : r.Meets V E) (hE : ∀ e, E e → Grounded path s e) : Attested path r s := by
  rintro error rfl
  exact hE error hr

/-- A procedure whose errors have grounds from its beginning. -/
theorem wp_attested {p : Op h ProtocolError α} {V : α → Prop} {E : ProtocolError → Prop} (hp : p.Meets V E)
    (hE : ∀ e, E e → Grounded path s e) :
    p.wp (step rules who) (fun r s' =>
      Attested path r s' ∧ s.trace <:+ s'.trace ∧ ∀ a, r = .ok a → V a) s :=
  Proc.wp_mono (wp_grown (hp.wp s)) fun r s' hr => ⟨attested_of_meets hr.1 fun e he => (hE e he).grown hr.2,
    hr.2, fun a ha => by subst ha; exact hr.1⟩

theorem attested_bind {p : Op h ProtocolError α} {k : α → Op h ProtocolError β}
    {P : Exec ProtocolError α → State h → Prop} (hp : p.wp (step rules who) P s)
    (herr : ∀ e s', P (.error e) s' → Attested path (.error e : Exec ProtocolError α) s')
    (hk : ∀ a s', P (.ok a) s' → (k a).wp (step rules who) (Attested path) s') :
    (p >>= k).wp (step rules who) (Attested path) s :=
  Proc.wp_bind_of hp hk fun e s' hr => (herr e s' hr).error

/-! ## What is persisted -/

theorem meets_withPathLock {E : ε → Prop} {V : α → Prop} {body : Op h ε α} (hb : body.Meets V E) :
    (withPathLock path body).Meets V E := by
  refine Proc.meets_call fun _ => hb.attempt_bind (fun a ha => ?_) fun e he => ?_
  · exact Proc.meets_call fun _ => ha
  · exact Proc.meets_call fun _ => he

/-- A write that names no destination fails where the machine does. -/
theorem meets_atomicWrite_none (path : PathBuf) (bytes : Bytes) (durability : Durability) :
    (atomicWrite path bytes none durability : Op h _ _).Meets Anything PersistError.IsIo := by
  refine meets_withPathLock ((meets_createParentOf path).bind fun _ _ => ?_)
  refine (meets_writeUniqueTemp _ path bytes durability).bind fun written _ => ?_
  refine Proc.meets_call fun renamed => ?_
  change Except IoError Unit at renamed
  rcases renamed with e | _
  · exact meets_refuse _ ⟨_, _, _, rfl⟩
  · exact meets_afterInstall path _ durability

/-- The errors of a persist have grounds. -/
def PersistGrounded (path : PathBuf) (r : Exec PersistError α) (s : State h) : Prop :=
  ∀ e, r = .error (.err e) → Grounded path s (persistProtocolError e)

/-- Over a text all of them do. -/
theorem persistGrounded_over {snapshot : Snapshot h.contentId} {p : Op h PersistError α}
    (hhad : s.Had (h.locate path) snapshot.bytes) : p.wp (step rules who) (PersistGrounded path) s :=
  Proc.wp_mono (wp_grown Proc.wp_true) fun _ _ hr e _ => (grounded_persist hhad e).grown hr.2

theorem persistGrounded_none {durability : Durability} :
    (atomicWrite path bytes none durability : Op h _ _).wp (step rules who) (PersistGrounded path) s :=
  Proc.wp_mono ((meets_atomicWrite_none path bytes durability).wp s) fun r s' hr e he => by
    subst he
    exact .inl (PersistError.IsIo.bare hr)

/-- What is persisted over nothing. -/
theorem meets_persist_none (path : PathBuf) (bytes : Bytes) (created : Bool) (durability : Durability) :
    (Write.persist path bytes none created durability : Op h _ _).Meets Anything fun e =>
      e.IsIo ∨ ∃ p, e = .destinationExists p := by
  unfold Write.persist
  split_ifs
  · exact (meets_withPathLock (meets_createLocked path bytes durability)).mono (fun _ h => h) fun _ he =>
      he.imp_right fun he => ⟨_, he⟩
  · exact (meets_atomicWrite_none path bytes durability).mono (fun _ h => h) fun _ => .inl

/-- What follows a persist. -/
theorem published_attested {operation name : String} {o : Option FileStamp}
    {response : Snapshot h.contentId → α} : (do
      let snapshot : Snapshot h.contentId ← Proc.ofExec
        ((Snapshot.fromValidatedBytes bytes).mapErr (snapshotProtocolError operation name))
      cachePersisted path snapshot o
      pure (response snapshot) : Op h ProtocolError α).wp (step rules who) (Attested path) s := by
  rcases (Snapshot.fromValidatedBytes bytes : Exec SnapshotError (Snapshot h.contentId))
    with (e | _) | snapshot
  · exact attested_err (.inl (snapshotProtocolError_bare _ _ e))
  · exact attested_panic
  · rcases o with _ | stamp
    · exact attested_ok
    · exact wp_call fun _ _ _ _ _ _ _ _ => attested_ok

/-! ## Edit -/

theorem publish_attested {input : EditRequest} {previous : SnapshotId} {expected : Option FileStamp}
    {durability : Durability} (hp : (atomicWrite path bytes (expected.map fun stamp => ⟨stamp, previous⟩)
      durability : Op h _ _).wp (step rules who) (PersistGrounded path) s) :
    (Edit.publish path input previous bytes expected durability).wp (step rules who) (Attested path) s := by
  refine attested_bind (P := Attested path) (Proc.wp_mapErr.2 (Proc.wp_mono hp fun r s' hr => ?_))
    (fun _ _ he => he) fun _ _ _ => published_attested
  rintro error he
  rcases r with (e | _) | a <;> cases he
  exact hr e rfl

/-- Named rightly, the text has no conflict. -/
theorem meets_applyVersioned_named {input : EditRequest} {source : Bytes} {id : SnapshotId}
    (hid : input.snapshot = id) :
    (applyVersionedReferenceEdits source id input).Meets Anything ProtocolError.Bare := by
  refine (input.noPanic_validate.meets.mapErr fun e _ => e.bare).bind fun _ _ => ?_
  refine ((meets_referenceHeader _ _ _).mapErr fun e _ => e.bare).bind fun _ _ => ?_
  rw [if_neg (not_not.2 hid)]
  refine Exec.Meets.mapErr (E := fun _ => True) ?_ fun e _ => e.bare
  rcases hr : applyReferenceEdits source input.edits with (e | _) | out
  · trivial
  · exact noPanic_applyReferenceEdits _ _ hr
  · trivial

/-- A new file, where the request names the empty text. -/
theorem createNewFile_attested {input : EditRequest} {durability : Durability}
    (hid : input.snapshot = h.contentId []) :
    (Edit.createNewFile path input durability).wp (step rules who) (Attested path) s := by
  have hempty : (Snapshot.fromBytes [] : Exec SnapshotError (Snapshot h.contentId)) = _ :=
    Snapshot.fromBytes_eq isText_nil
  unfold Edit.createNewFile
  rw [hempty]
  show Proc.wp _ (if input.snapshot ≠ h.contentId [] then _ else _) _ _
  rw [if_neg (not_not.2 hid)]
  refine attested_bind (wp_attested (meets_applyVersioned_named hid) fun _ he => .inl he)
    (fun _ _ he => he.1) fun applied s₁ _ => ?_
  rcases path.parent with _ | parent
  · exact publish_attested persistGrounded_none
  · refine wp_call (c := .createDirAll parent) fun x w a s₂ _ _ _ _ => ?_
    change Except IoError Unit at a
    rcases a with e | _
    · exact attested_err (.inl (ProtocolError.bare_new plain_io _))
    · exact publish_attested persistGrounded_none

variable (hR : ∀ s c x, rules s c x = true → untorn (h.locate path) s c x = true)
include hR

/-- **An edit**: where it does not name the empty text, the file is found. -/
theorem editBlocking_attested {input : EditRequest} {durability : Durability}
    (hF : input.snapshot ≠ h.contentId [] → ∀ s c x, rules s c x = true → found s c x = true) :
    (Edit.runBlocking path input durability).wp (step rules who) (Attested path) s := by
  have hfound : (Snapshot.load path : Op h _ _).wp (step rules who) (fun r _ =>
      input.snapshot ≠ h.contentId [] → r.Meets Anything Snapshot.NotMissing) s := by
    by_cases hid : input.snapshot = h.contentId []
    · exact Proc.wp_mono Proc.wp_true fun _ _ _ hne => absurd hid hne
    · exact Proc.wp_mono (Snapshot.load_found (hF hid)) fun _ _ hr _ => hr
  refine Proc.wp_attempt_of (Proc.wp_and (load_had hR) (Proc.wp_and ((Snapshot.meets_load path).wp s) hfound))
    (fun snapshot s₁ hr => ?_) (fun e s₁ hr => ?_) fun s₁ hr => hr.2.1
  · have hhad := hr.1 snapshot rfl
    refine wp_call fun _ _ granted s₂ _ _ _ ht => ?_
    have hhad₂ := hhad.grown (ht ▸ List.suffix_cons _ _)
    refine attested_bind (wp_attested (meets_applyEditsFast granted snapshot input) fun _ he =>
      grounded_decided hhad₂ he) (fun _ _ he => he.1) fun applied s₃ hr₃ => ?_
    exact publish_attested (persistGrounded_over (hhad₂.grown hr₃.2.1))
  · show Proc.wp _ (if e.isNotFound = true then _ else _) _ _
    split_ifs with hnf
    · refine createNewFile_attested ?_
      by_contra hid
      exact absurd (hnf.symm.trans (hr.2.2 hid)) nofun
    · exact attested_err (.inl (snapshotProtocolError_bare _ _ e))

/-! ## Write -/

/-- What is there after a create that lost: its error is of what was loaded. -/
theorem loseCreateRace_attested {input : WriteRequest} :
    (Write.loseCreateRace path input).wp (step rules who) (fun r s' => Attested path r s' ∧
      ∀ error, r = .ok error → Grounded path s' error) s := by
  refine Proc.wp_attempt_of (Proc.wp_and (load_had hR) ((Snapshot.meets_load path).wp s))
    (fun snapshot s₁ hr => ?_) (fun e s₁ hr => ?_) fun s₁ hr => hr.2
  · have hmeets := meets_writeOver snapshot input
    dsimp only
    rcases hv : validateReferenceWrite (some (snapshot.bytes, snapshot.id)) input with (e | _) | created
    · rw [hv] at hmeets
      exact ⟨attested_ok, fun error he => by cases he; exact grounded_decided (hr.1 snapshot rfl) hmeets⟩
    · exact ⟨attested_panic, fun error he => by cases he⟩
    · exact ⟨attested_ok, fun error he => by cases he; exact .inl (ProtocolError.bare_new plain_io _)⟩
  · show Proc.wp _ (if e.isNotFound = true then _ else _) _ _
    split_ifs
    · exact ⟨attested_ok, fun error he => by cases he; exact .inl (ProtocolError.bare_new plain_io _)⟩
    · exact ⟨attested_ok, fun error he => by cases he; exact .inl (snapshotProtocolError_bare _ _ e)⟩

theorem carryOut_attested {input : WriteRequest} {current : Option (Snapshot h.contentId)} {created : Bool}
    {durability : Durability}
    (hcurrent : ∀ snapshot, current = some snapshot → s.Had (h.locate path) snapshot.bytes) :
    (Write.carryOut path input current created durability).wp (step rules who) (Attested path) s := by
  have hpersist : (Write.persist path input.content.bytes current created durability : Op h _ _).wp
      (step rules who) (fun r s' => ∀ e, r = .error (.err e) → (∃ p, e = .destinationExists p) ∨
        Grounded path s' (persistProtocolError e)) s := by
    rcases current with _ | snapshot
    · refine Proc.wp_mono ((meets_persist_none path _ created durability).wp s) fun r s' hr e he => ?_
      subst he
      exact hr.symm.imp_right fun hio => .inl (PersistError.IsIo.bare hio)
    · exact Proc.wp_mono (persistGrounded_over (hcurrent snapshot rfl)) fun _ _ hr e he => .inr (hr e he)
  refine Proc.wp_attempt_bind.2 (Proc.wp_mono hpersist fun r s₁ hr => ?_)
  rcases r with (e | _) | o
  · rcases hr e rfl with ⟨p, rfl⟩ | hgrounded
    · exact attested_bind (loseCreateRace_attested hR) (fun _ _ he => he.1) fun error s₂ he =>
        attested_err (he.2 error rfl)
    · rcases e with ⟨operation, p, source⟩ | p | p
      · exact attested_err hgrounded
      · exact attested_err hgrounded
      · exact attested_bind (loseCreateRace_attested hR) (fun _ _ he => he.1) fun error s₂ he =>
          attested_err (he.2 error rfl)
  · exact attested_panic
  · exact published_attested

/-- **A write.** -/
theorem writeBlocking_attested {input : WriteRequest} {durability : Durability} :
    (Write.runBlocking path input durability).wp (step rules who) (Attested path) s := by
  have hcurrent : (Write.loadCurrent path : Op h _ _).wp (step rules who) (fun r s' => Attested path r s' ∧
      ∀ snapshot, r = .ok (some snapshot) → s'.Had (h.locate path) snapshot.bytes) s := by
    refine Proc.wp_attempt_of (Proc.wp_and (load_had hR) ((Snapshot.meets_load path).wp s))
      (fun snapshot s₁ hr => ?_) (fun e s₁ hr => ?_) fun s₁ hr => hr.2
    · exact ⟨attested_ok, fun _ he => by cases he; exact hr.1 _ rfl⟩
    · show Proc.wp _ (if e.isNotFound = true then _ else _) _ _
      split_ifs
      · exact ⟨attested_ok, fun _ he => by cases he⟩
      · exact ⟨attested_err (.inl (snapshotProtocolError_bare _ _ e)), fun _ he => by cases he⟩
  refine attested_bind hcurrent (fun _ _ he => he.1) fun current s₁ hr => ?_
  have hvalidated : (validateReferenceWrite (current.map fun snapshot => (snapshot.bytes, snapshot.id))
      input).Meets (fun _ => True) (Grounded path s₁) := by
    rcases current with _ | snapshot
    · exact (meets_validateReferenceWrite_none input).mono (fun _ h => h) fun _ => .inl
    · exact (meets_writeOver snapshot input).mono (fun _ h => h) fun _ he =>
        grounded_decided (hr.2 snapshot rfl) he
  refine attested_bind (wp_attested hvalidated fun _ he => he) (fun _ _ he => he.1) fun created s₂ hr₂ => ?_
  refine carryOut_attested hR fun snapshot he => ?_
  subst he
  exact (hr.2 snapshot rfl).grown hr₂.2.1

/-! ## Read -/

/-- **A read**, where what is resident is sealed and no load is in flight. -/
theorem load_attested (hs : s.world.Ready path) : (Read.load path).wp (step rules who)
    (fun r s' => Attested path r s' ∧ ∀ snapshot, r = .ok snapshot → s'.Had (h.locate path) snapshot.bytes)
    s := by
  refine wp_call (c := .stat path) fun x w a s₁ _ hw ha _ => ?_
  have hs₁ : s₁.world.Ready path := by
    rw [act_calm (by trivial) ha]
    exact hs.elapsed hw
  have hload : ((SnapshotCache.getOrLoad path (Snapshot.load path)).mapErr
      (snapshotProtocolError "read" path.display) : Op h _ _).wp (step rules who) (fun r s' =>
        Attested path r s' ∧ ∀ snapshot, r = .ok snapshot → s'.Had (h.locate path) snapshot.bytes) s₁ := by
    refine Proc.wp_mapErr.2 (Proc.wp_mono (getOrLoad_had hR hs₁) fun r s' hr => ?_)
    rcases r with (e | _) | snapshot
    · exact ⟨attested_err (.inl (snapshotProtocolError_bare _ _ e)), fun _ he => by cases he⟩
    · exact ⟨attested_panic, fun _ he => by cases he⟩
    · exact ⟨attested_ok, fun _ he => by cases he; exact hr _ rfl⟩
  show Proc.wp _ (Read.maybeBlocking _ path _) _ _
  unfold Read.maybeBlocking
  split_ifs
  · exact Proc.wp_onPanic_of hload (fun _ _ hr => hr) fun _ _ =>
      ⟨attested_err (.inl (ProtocolError.bare_new plain_io _)), fun _ he => by cases he⟩
  · exact hload

end

/-! ## The requests -/

/-- The path that a task reads, edits or writes. -/
def Task.place (workspace : Workspace) : Task → Option PathBuf
  | .mutate request => some (workspace.pathOf request)
  | .read input => some (resolvePath workspace.root input.path)
  | _ => none

/-- An edit that names another snapshot than that of the empty text. -/
def Task.presumes (contentId : Bytes → SnapshotId) : Task → Bool
  | .mutate (.edit request) => request.snapshot != contentId []
  | _ => false

/-- No reading that counts is torn, and an edit of what it presumes finds the file. -/
def attesting (task : Task) (path : PathBuf) : Rules h := fun s c x =>
  untorn (h.locate path) s c x && (!task.presumes h.contentId || found s c x)

section
variable {Overrides : Type} {crates : Crates Overrides} {walker : Walker h Overrides crates}
  {workspace : Workspace} {task : Task} {path : PathBuf} {who : ℕ} {s s' : State h} {rules : Rules h}

/-- A tool: the request is checked and the path resolved before it is worked on. -/
theorem attested_tool {operation name : String} {r : Exec ProtocolError β}
    {body : PathBuf → Op h ProtocolError α}
    (hr : r.Meets Anything ProtocolError.Bare)
    (hbody : ∀ s, (body (resolvePath workspace.root name)).wp (step rules who)
      (Attested (resolvePath workspace.root name)) s) :
    (do
      let _ ← Proc.ofExec r
      let path ← workspace.resolvePath name
      spawnBlocking operation path (body path) : Op h ProtocolError α).wp (step rules who)
        (Attested (resolvePath workspace.root name)) s := by
  refine attested_bind (wp_attested (Proc.meets_ofExec.2 hr) fun _ he => .inl he) (fun _ _ he => he.1)
    fun _ s₁ _ => ?_
  refine attested_bind (wp_attested (meets_resolvePath workspace name fun reason =>
    ProtocolError.bare_new ⟨by decide, by decide⟩ reason) fun _ he => .inl he) (fun _ _ he => he.1)
    fun path s₂ hr₂ => ?_
  obtain rfl := hr₂.2.2 path rfl
  exact Proc.wp_onPanic_of (hbody s₂) (fun _ _ he => he) fun _ _ =>
    attested_err (.inl (ProtocolError.bare_new plain_io _))

theorem read_attested {quote : String → String} {input : ReadRequest}
    (hR : ∀ s c x, rules s c x = true → untorn (h.locate (resolvePath workspace.root input.path)) s c x = true)
    (hs : s.world.Ready (resolvePath workspace.root input.path)) :
    (Read.run quote workspace input).wp (step rules who) (Attested (resolvePath workspace.root input.path))
      s := by
  refine attested_bind (P := fun r s' => Attested (resolvePath workspace.root input.path) r s' ∧ s' = s)
    ⟨attested_of_meets (input.noPanic_validate.meets.mapErr fun e _ => e.bare) fun _ he => .inl he, rfl⟩
    (fun _ _ he => he.1) fun _ s₁ hr => ?_
  obtain ⟨-, rfl⟩ := hr
  refine attested_bind (wp_ready (resolvePath_calm workspace _) hs (wp_attested (meets_resolvePath workspace _
    fun reason => ProtocolError.bare_new ⟨by decide, by decide⟩ reason) fun _ he => .inl he))
    (fun _ _ he => he.1.1) fun path s₂ hr => ?_
  obtain ⟨⟨-, -, hpath⟩, hs₂⟩ := hr
  obtain rfl := hpath path rfl
  refine attested_bind (load_attested hR hs₂) (fun _ _ he => he.1) fun snapshot s₃ hr => ?_
  exact Proc.wp_mono (wp_attested (Read.meets_answer quote _ input snapshot) fun _ he =>
    grounded_decided (hr.2 snapshot rfl) he) fun _ _ hr => hr.1

/-- A tool's answer, as a reply. -/
theorem attested_reply {p : Op h ProtocolError α} {reply : α → β}
    (hp : p.wp (step rules who) (Attested path) s) :
    (do
      let a ← p
      pure (reply a) : Op h ProtocolError β).wp (step rules who) (Attested path) s :=
  attested_bind hp (fun _ _ he => he) fun _ _ _ => attested_ok

end

/-! ### A page that is asked for again, and an edit of nothing -/

/-- The snapshot that a call was told of with a conflict. -/
def conflictId : Prog (Call h) Answer (Exec ProtocolError Reply) → Option SnapshotId
  | .ret (.error (.err error)) => error.conflict.map (·.currentHeader.snapshot)
  | _ => none

theorem exists_conflict {p : Prog (Call h) Answer (Exec ProtocolError Reply)} {id : SnapshotId}
    (hp : conflictId p = some id) :
    ∃ error, p = .ret (.error (.err error)) ∧ error.conflict.isSome = true := by
  unfold conflictId at hp
  split at hp
  · rename_i error
    obtain ⟨c, hc, -⟩ := Option.map_eq_some_iff.1 hp
    exact ⟨error, rfl, by rw [hc]; rfl⟩
  · cases hp

/-- The next page of `aa`. -/
def sampleNextPage : Task :=
  .read ⟨"f", 2000, some ⟨Host.sample.contentId [97, 97], sampleStart⟩, none⟩

/-- Others write `bbb` over `aa` once both its bytes were read: the reading is torn and found out, and
    the next one is whole. -/
def nextPageChoices : List Choice :=
  List.replicate 16 ({} : Choice) ++ { events := [(0, .rewrite (Host.sample.locate ["w", "f"]) [98, 98, 98]
    ⟨0, 0⟩ ⟨0, 0⟩)] } :: List.replicate 30 ({} : Choice)

/-- An edit of `a`, where there is no file. -/
def sampleStrayEdit : Task :=
  .mutate (.edit ⟨"f", Host.sample.contentId [97], [.replace sampleStart sampleStart sampleC]⟩)

end Hashline
