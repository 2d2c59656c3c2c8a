/-
  Publications and loads in turn: what is persisted is sealed, and a hit by
  metadata serves the file's bytes.
-/
import Hashline.Truthful

namespace Hashline

open Machine

variable {h : Host} {ε α : Type}

section
variable {path tempPath : PathBuf} {f who : ℕ} {bytes : Bytes} {durability : Durability}
  {s s' : State h} {K : α → State h → Prop}

/-! ## The temporary file -/

theorem made_cons {d : Did h} (ht : s'.trace = d :: s.trace) {l : Loc} (hm : s.made l = true) :
    s'.made l = true := by
  rw [State.made, ht, List.any_cons]
  exact Bool.or_eq_true_iff.2 (.inr hm)

/-- A file that is the server's own: temporary names alone lead to it. -/
structure OwnTemp (tempPath : PathBuf) (f : ℕ) (bytes : Bytes) (s : State h) : Prop where
  entry : s.world.entries (h.locate tempPath) = some f
  content : (s.world.files f).content = bytes
  only : ∀ l, s.world.entries l = some f → s.made l = true

/-- Nobody else rewrites it. -/
theorem OwnTemp.elapsed {c : Call h} {x : Choice} {w : World h} (hm : OwnTemp tempPath f bytes s)
    (hr : timely s c x = true) (hw : x.elapsed s.world = some w) :
    w.entries = s.world.entries ∧ (w.files f).content = bytes := by
  obtain ⟨hen, hfiles⟩ := outside_elapsed (timely_outside hr) hw
  exact ⟨hen, by rw [hfiles f hm.only, hm.content]⟩

theorem OwnTemp.of_entries {d : Did h} {chunk : Bytes} (hm : OwnTemp tempPath f bytes s)
    (ht : s'.trace = d :: s.trace) (he : s'.world.entries = s.world.entries)
    (hc : (s'.world.files f).content = chunk) : OwnTemp tempPath f chunk s' :=
  ⟨by rw [he, hm.entry], hc, fun l hl => made_cons ht (hm.only l (by rw [← he, hl]))⟩

/-- One call that leaves the files. -/
theorem keeping_made {c : Call h} {k : Answer c → Op h ε α} (hs : Truthful s)
    (hm : OwnTemp tempPath f bytes s) (hc : c.Inert) (hspares : c.Spares)
    (hk : ∀ x a s', Truthful s' → OwnTemp tempPath f bytes s' → act who x c s'.world = some (a, s'.world) →
      Keeping who (k a) K s') : Keeping who (Proc.ask c >>= k) K s :=
  keeping_call hs hspares fun x w a s' hs' hr hw ha ht => by
    obtain ⟨hen, hcontent⟩ := hm.elapsed hr hw
    have heq := act_inert hc ha
    rw [← heq] at ha hen hcontent
    exact hk x a s' hs' (hm.of_entries ht hen hcontent) ha

/-- **`write_all` leaves the bytes in it**, or an error. -/
theorem keeping_writeAll : ∀ (rounds : ℕ) {offset : ℕ} {s : State h}, Truthful s →
    OwnTemp tempPath f (bytes.take offset) s → offset ≤ bytes.length → bytes.length ≤ offset + rounds →
    Keeping who (writeAll f bytes rounds offset : Op h ε _)
      (fun r s' => r = .ok () → OwnTemp tempPath f bytes s') s
  | 0, offset, s, hs, hm, hl, hrest => by
    rw [List.take_of_length_le (by omega)] at hm
    exact keeping_pure hs fun _ => hm
  | rounds + 1, offset, s, hs, hm, hl, hrest => by
    rw [writeAll]
    split_ifs with hend
    · rw [List.take_of_length_le hend] at hm
      exact keeping_pure hs fun _ => hm
    · refine keeping_call (c := .write f offset (bytes.drop offset)) hs trivial
        fun x w a s₁ hs₁ hr hw ha ht => ?_
      obtain ⟨hen, hcontent⟩ := hm.elapsed hr hw
      rcases act_write_next hcontent (by omega) ha with ⟨e, rfl, -⟩ | ⟨n, rfl, hn, hle, -, hw₁⟩
      · exact keeping_pure hs₁ fun he => by cases he
      · refine keeping_writeAll rounds hs₁ (hm.of_entries ht ?_ ?_) hle (by omega)
        · rw [hw₁]
          exact hen
        · rw [hw₁, World.setFile_self]

theorem keeping_flush (hs : Truthful s) (hm : OwnTemp tempPath f bytes s) :
    Keeping who (flush path f durability) (fun _ s' => OwnTemp tempPath f bytes s') s := by
  have hsync : ∀ operation, Keeping who (Op.sync f >>= fun r => Proc.orElse (ioErr path operation) r)
      (fun _ s' => OwnTemp tempPath f bytes s') s := fun operation =>
    keeping_made (c := .sync f) hs hm trivial trivial fun _ _ s₁ hs₁ hm₁ _ =>
      keeping_orElse hs₁ fun _ _ => hm₁
  cases durability with
  | full => exact hsync _
  | barrier => exact hsync _
  | none => exact keeping_pure hs hm

/-- A new file has no other name. -/
theorem made_createNew {x : Choice} {w : World h} (hs : Truthful s)
    (hw : x.elapsed s.world = some w) {g : ℕ}
    (ha : act who x (.createNew tempPath) w = some ((.ok g : Except IoError ℕ), s'.world))
    (ht : s'.trace = ⟨who, x, .createNew tempPath, (.ok g : Except IoError ℕ), s.world, w, s'.world⟩ ::
      s.trace) : OwnTemp tempPath g [] s' := by
  rcases act_createNew ha with ⟨_, he, -⟩ | ⟨-, -, he, hw₁⟩
  · cases he
  cases he
  refine ⟨by rw [hw₁, World.addFile_entries], by rw [hw₁, World.addFile_self], fun l hl => ?_⟩
  by_cases heq : l = h.locate tempPath
  · rw [State.made, ht, List.any_cons, Bool.or_eq_true]
    exact .inl (decide_eq_true heq.symm)
  · rw [hw₁, World.addFile_entries_ne _ heq] at hl
    have := (Choice.elapsed_later hs.sane hw).sane l _ hl
    exact absurd this (lt_irrefl _)

theorem keeping_writeTemp (hs : Truthful s) : Keeping who (writeTemp tempPath path bytes durability)
    (fun _ s' => ∃ g, OwnTemp tempPath g bytes s') s := by
  refine keeping_call (c := .createNew tempPath) hs trivial fun x w a s₁ hs₁ hr hw ha ht => ?_
  change Except IoError ℕ at a
  rcases a with e | g
  · exact keeping_fail hs₁
  have hnew : OwnTemp tempPath g (bytes.take 0) s₁ := made_createNew hs hw ha ht
  refine (keeping_writeAll bytes.length hs₁ hnew (Nat.zero_le _) (by omega)).bind fun r s₂ hs₂ hm => ?_
  rcases r with e | ⟨⟨⟩⟩
  · exact keeping_fail hs₂
  refine (keeping_flush hs₂ (hm rfl)).bind fun _ s₃ hs₃ hm₃ => ?_
  refine keeping_made (c := .fstat g) hs₃ hm₃ trivial trivial fun _ a s₄ hs₄ hm₄ _ => ?_
  change Except IoError Metadata at a
  rcases a with e | metadata
  · exact keeping_fail hs₄
  exact keeping_made (c := .now) hs₄ hm₄ trivial trivial fun _ _ s₅ hs₅ hm₅ _ =>
    keeping_pure hs₅ ⟨g, hm₅⟩

theorem keeping_discard (hs : Truthful s) :
    Keeping who (discard tempPath : Op h ε Unit) (fun _ _ => True) s :=
  keeping_call (c := .removeFile tempPath) hs trivial fun _ _ _ _ hs₁ _ _ _ _ => keeping_pure hs₁ trivial

theorem keeping_refuse {error : PersistError} (hs : Truthful s) :
    Keeping who (refuse tempPath error) K s :=
  (keeping_discard hs).bind fun _ _ hs₁ _ => keeping_fail hs₁

theorem keeping_writeUniqueTemp {parent : PathBuf} (hs : Truthful s) :
    Keeping who (writeUniqueTemp parent path bytes durability)
      (fun p s' => ∃ g, OwnTemp p.1 g bytes s') s := by
  refine Keeping.bind (K := fun _ _ => True) ?_ fun name s₁ hs₁ _ => ?_
  · exact keeping_call (c := .now) hs trivial fun _ _ _ _ hs₁ _ _ _ _ =>
      keeping_call (c := .fetchAdd) hs₁ trivial fun _ _ _ _ hs₂ _ _ _ _ => keeping_pure hs₂ trivial
  · exact (keeping_writeTemp hs₁).attempt (fun stamp s₂ hs₂ hm => keeping_pure hs₂ hm)
      fun e s₂ hs₂ => keeping_refuse hs₂

/-! ## The guard -/

theorem keeping_readToEnd {limit : ℕ} : ∀ (rounds : ℕ) {chunk : Bytes} {s : State h}, Truthful s →
    OwnTemp tempPath f bytes s → ∀ g, Keeping who (readToEnd g limit rounds chunk : Op h ε _)
      (fun _ s' => OwnTemp tempPath f bytes s') s
  | 0, _, _, hs, hm, _ => keeping_pure hs hm
  | rounds + 1, chunk, s, hs, hm, g => by
    rw [readToEnd]
    split_ifs
    · exact keeping_pure hs hm
    · refine keeping_made (c := .read g chunk.length (limit - chunk.length)) hs hm trivial trivial
        fun _ a s₁ hs₁ hm₁ _ => ?_
      change Except IoError Bytes at a
      rcases a with e | more
      · exact keeping_pure hs₁ hm₁
      · show Keeping who (if more = [] then _ else _) _ _
        split_ifs
        · exact keeping_pure hs₁ hm₁
        · exact keeping_readToEnd rounds hs₁ hm₁ g

theorem keeping_destinationUnchanged {expected : ExpectedDestination} (hs : Truthful s)
    (hm : OwnTemp tempPath f bytes s) : Keeping who (destinationUnchanged path tempPath expected)
      (fun _ s' => OwnTemp tempPath f bytes s') s := by
  refine keeping_made (c := .openRead path) hs hm trivial trivial fun _ a s₁ hs₁ hm₁ _ => ?_
  change Except IoError ℕ at a
  rcases a with e | g
  · show Keeping who (if e.kind = .notFound then _ else _) _ _
    split_ifs
    · exact keeping_pure hs₁ hm₁
    · exact keeping_refuse hs₁
  · refine (keeping_readToEnd _ hs₁ hm₁ g).bind fun r s₂ hs₂ hm₂ => ?_
    rcases r with e | destination
    · exact keeping_refuse hs₂
    · exact keeping_pure hs₂ hm₂

theorem keeping_checkDestination {expected : ExpectedDestination} (hs : Truthful s)
    (hm : OwnTemp tempPath f bytes s) : Keeping who (checkDestination path tempPath expected)
      (fun _ s' => OwnTemp tempPath f bytes s') s := by
  refine keeping_made (c := .guard path expected.stamp expected.contentId) hs hm trivial trivial
    fun _ _ s₁ hs₁ hm₁ _ => ?_
  refine keeping_made (c := .stat path) hs₁ hm₁ trivial trivial fun _ a s₂ hs₂ hm₂ _ => ?_
  change Except IoError Metadata at a
  rcases a with e | metadata
  · show Keeping who (if e.kind = .notFound then _ else _) _ _
    split_ifs <;> exact keeping_refuse hs₂
  refine keeping_made (c := .now) hs₂ hm₂ trivial trivial fun _ _ s₃ hs₃ hm₃ _ => ?_
  show Keeping who (if _ then _ else if _ then _ else _) _ _
  split_ifs
  · exact keeping_refuse hs₃
  · refine (keeping_destinationUnchanged hs₃ hm₃).bind fun same s₄ hs₄ hm₄ => ?_
    cases same with
    | true => exact keeping_pure hs₄ hm₄
    | false => exact keeping_refuse hs₄
  · exact keeping_pure hs₃ hm₃

/-! ## The stamp that is confirmed -/

/-- What the last rename or link put at the path. -/
def Put (path : PathBuf) (bytes : Bytes) (s : State h) : Prop :=
  installed path s.trace = some (some bytes)

/-- **The stamp that is confirmed after a rename or a link** is sealed with what was put there. -/
theorem sealed_confirmed {m : Metadata} {x y : Choice} {w₁ w₂ w₃ : World h} {earlier : List (Did h)}
    (ht : s.trace = ⟨who, y, .stat path, (.ok m : Except IoError Metadata), w₁, w₂, w₃⟩ :: earlier)
    (hput : installed path earlier = some (some bytes)) (hr : timely s .now x = true)
    (hw : x.elapsed s.world = some s'.world) :
    Sealed (.fromMetadata m s'.world.now) bytes (h.locate path) s'.world := by
  intro hracy
  refine ⟨m, _, rfl, le_rfl, fun g hg hm => ?_⟩
  have hrule := (Bool.and_eq_true_iff.1 hr).2
  simp only [ht, hw, hput, hg, Option.all_some, Bool.or_eq_true, bne_iff_ne, beq_iff_eq,
    Option.some.injEq] at hrule
  rcases hrule with (hne | hsame) | hrecent
  · exact absurd hm.symm hne
  · exact hsame.symm
  · rw [← hm, recent_racy hrecent] at hracy
    cases hracy

/-- A stamp that is returned is sealed with the bytes. -/
def Confirms (path : PathBuf) (bytes : Bytes) (o : Option FileStamp) (s : State h) : Prop :=
  ∀ stamp, o = some stamp → Sealed stamp bytes (h.locate path) s.world

theorem keeping_confirmStamp {stamp : FileStamp} (hs : Truthful s) (hput : Put path bytes s) :
    Keeping who (confirmStamp path stamp : Op h ε _) (Confirms path bytes) s := by
  refine keeping_call (c := .stat path) hs trivial fun y w a s₁ hs₁ _ _ _ ht => ?_
  change Except IoError Metadata at a
  rcases a with e | m
  · exact keeping_pure hs₁ fun _ he => by cases he
  refine keeping_call (c := .now) hs₁ trivial fun x w a s₂ hs₂ hr hw ha _ => ?_
  obtain ⟨rfl, rfl⟩ := Prod.mk.inj (Option.some.inj ha)
  refine keeping_pure hs₂ fun current he => ?_
  simp only [FileStamp.confirmedAfterRename] at he
  split_ifs at he
  cases he
  exact sealed_confirmed ht hput hr hw

theorem keeping_afterInstall {stamp : FileStamp} (hs : Truthful s) (hput : Put path bytes s) :
    Keeping who (afterInstall path stamp durability : Op h ε _) (Confirms path bytes) s := by
  unfold afterInstall Decoder.afterInstall
  split_ifs
  · refine Keeping.bind (K := fun _ s' => Put path bytes s') ?_ fun _ s₁ hs₁ hput₁ =>
      keeping_confirmStamp hs₁ hput₁
    refine keeping_call (c := .syncDir (h.parentOf path)) hs trivial fun _ _ _ s₁ hs₁ _ _ _ ht =>
      keeping_pure hs₁ ?_
    rw [Put, ht]
    exact hput
  · exact keeping_confirmStamp hs hput

/-- The rename of `atomic_write`, and what follows it. -/
theorem keeping_renameInto {stamp : FileStamp} (hs : Truthful s) (hm : OwnTemp tempPath f bytes s) :
    Keeping who (Op.rename tempPath path >>= fun r => match r with
      | .ok () => afterInstall path stamp durability
      | .error source => refuse tempPath (ioErr path "rename into" source)) (Confirms path bytes) s := by
  refine keeping_call (c := .rename tempPath path) hs trivial fun x w a s₁ hs₁ hr hw ha ht => ?_
  change Except IoError Unit at a
  rcases a with e | ⟨⟨⟩⟩
  · exact keeping_refuse hs₁
  · refine keeping_afterInstall hs₁ ?_
    obtain ⟨hen, hcontent⟩ := hm.elapsed hr hw
    have hput := renamed_content ⟨f, by rw [hen, hm.entry], hcontent⟩ ha
    rw [Put, ht]
    show (if path = path then some (s₁.world.contentAt _) else none) = _
    rw [if_pos rfl, hput]

theorem keeping_createParentOf (hs : Truthful s) :
    Keeping who (createParentOf path) (fun _ _ => True) s := by
  unfold createParentOf
  split
  · exact keeping_call hs trivial fun _ _ _ s₁ hs₁ _ _ _ _ => keeping_orElse hs₁ fun _ _ => trivial
  · exact keeping_pure hs trivial

theorem keeping_writeLocked {expected : Option ExpectedDestination} (hs : Truthful s) :
    Keeping who (writeLocked path bytes expected durability) (Confirms path bytes) s := by
  refine (keeping_createParentOf hs).bind fun _ s₁ hs₁ _ => ?_
  refine (keeping_writeUniqueTemp hs₁).bind fun p s₂ hs₂ hmade => ?_
  obtain ⟨g, hm⟩ := hmade
  rcases expected with _ | expected
  · exact keeping_renameInto hs₂ hm
  · exact (keeping_checkDestination hs₂ hm).bind fun _ s₃ hs₃ hm₃ => keeping_renameInto hs₃ hm₃

theorem keeping_createLocked (hs : Truthful s) :
    Keeping who (createLocked path bytes durability) (Confirms path bytes) s := by
  refine (keeping_createParentOf hs).bind fun _ s₁ hs₁ _ => ?_
  refine (keeping_writeUniqueTemp hs₁).bind fun p s₂ hs₂ hmade => ?_
  obtain ⟨g, hm⟩ := hmade
  refine keeping_call (c := .hardLink p.1 path) hs₂ trivial fun x w a s₃ hs₃ hr hw ha ht => ?_
  change Except IoError Unit at a
  refine Keeping.bind (K := fun _ s' => ∀ u : Unit, a = .ok u → Put path bytes s') ?_
    fun _ s₄ hs₄ hput => ?_
  · refine keeping_call (c := .removeFile p.1) hs₃ trivial fun _ _ _ s₄ hs₄ _ _ _ ht₄ =>
      keeping_pure hs₄ ?_
    rintro ⟨⟩ rfl
    obtain ⟨hen, hcontent⟩ := hm.elapsed hr hw
    have hput := linked_content ⟨g, by rw [hen, hm.entry], hcontent⟩ ha
    rw [Put, ht₄]
    show installed path s₃.trace = _
    rw [ht]
    show (if path = path then some (s₃.world.contentAt _) else none) = _
    rw [if_pos rfl, hput]
  · rcases a with e | ⟨⟨⟩⟩
    · show Keeping who (if e.kind = .alreadyExists then _ else _) _ _
      split_ifs <;> exact keeping_fail hs₄
    · exact keeping_afterInstall hs₄ (hput () rfl)

theorem Confirms.later {o : Option FileStamp} (hc : Confirms path bytes o s)
    (hl : Later s.world s'.world) : Confirms path bytes o s' := fun stamp he => (hc stamp he).later hl

/-- The lock is given back, whatever came of what it guarded. -/
theorem keeping_withPathLock {body : Op h PersistError (Option FileStamp)} (hs : Truthful s)
    (hbody : ∀ s : State h, Truthful s → Keeping who body (Confirms path bytes) s) :
    Keeping who (withPathLock path body) (Confirms path bytes) s := by
  refine keeping_call (c := .lock path.components) hs trivial fun _ _ _ s₁ hs₁ _ _ _ _ => ?_
  have hunlock : ∀ (r : Except PersistError (Option FileStamp)) s₂, Truthful s₂ →
      (∀ o, r = .ok o → Confirms path bytes o s₂) →
      Keeping who (Op.unlock path >>= fun _ => Proc.orElse id r : Op h PersistError _)
        (Confirms path bytes) s₂ := fun r s₂ hs₂ hr =>
    keeping_call (c := .unlock path.components) hs₂ trivial fun x w a s₃ hs₃ _ hw ha _ =>
      have hlw := Choice.elapsed_later hs₂.sane hw
      keeping_orElse hs₃ fun o he => (hr o he).later (hlw.trans (act_later hlw.sane ha))
  refine (hbody s₁ hs₁).attempt (fun o s₂ hs₂ ho => hunlock (.ok o) s₂ hs₂ ?_) fun e s₂ hs₂ =>
    hunlock (.error e) s₂ hs₂ fun _ he => by cases he
  rintro _ ⟨⟩
  exact ho

theorem keeping_atomicWrite {expected : Option ExpectedDestination} (hs : Truthful s) :
    Keeping who (atomicWrite path bytes expected durability) (Confirms path bytes) s :=
  keeping_withPathLock hs fun _ hs => keeping_writeLocked hs

theorem keeping_atomicCreate (hs : Truthful s) :
    Keeping who (atomicCreate path bytes durability) (Confirms path bytes) s :=
  keeping_withPathLock hs fun _ hs => keeping_createLocked hs

/-! ## Publication -/

theorem Snapshot.bytes_of_validated {bytes : Bytes} {snapshot : Snapshot h.contentId}
    (hsnapshot : fromValidatedBytes bytes = .ok snapshot) : snapshot.bytes = bytes := by
  by_cases ht : IsText bytes
  · rw [fromValidatedBytes_eq ht] at hsnapshot
    cases hsnapshot
    rfl
  · exfalso
    rw [fromValidatedBytes, ValidatedText.fromBytesUnchecked, dif_neg ht] at hsnapshot
    rcases hsize : (validateFileSize bytes.length : Exec ContractError Unit) with (_ | _) | _ <;>
      rw [hsize] at hsnapshot <;> cases hsnapshot

/-- **What is published is sealed**: the bytes that were persisted, with the stamp that was
    confirmed. -/
theorem keeping_published {operation name : String} {o : Option FileStamp}
    {response : Snapshot h.contentId → α} (hs : Truthful s) (ho : Confirms path bytes o s) :
    Keeping who (do
      let snapshot : Snapshot h.contentId ← Proc.ofExec
        ((Snapshot.fromValidatedBytes bytes).mapErr (snapshotProtocolError operation name))
      cachePersisted path snapshot o
      pure (response snapshot) : Op h ProtocolError α) (fun _ _ => True) s := by
  rcases hsnapshot : (Snapshot.fromValidatedBytes bytes : Exec SnapshotError (Snapshot h.contentId))
    with (e | _) | snapshot
  · exact keeping_fail hs
  · exact ⟨hs, fun _ he => by cases he⟩
  rcases o with _ | stamp
  · exact keeping_pure hs trivial
  refine keeping_insert hs (fun stamp' he => ?_) fun s₁ hs₁ => keeping_pure hs₁ trivial
  cases he
  show Sealed stamp snapshot.bytes _ _
  rw [Snapshot.bytes_of_validated hsnapshot]
  exact ho stamp rfl

theorem keeping_publish {input : EditRequest} {previous : SnapshotId} {expected : Option FileStamp}
    (hs : Truthful s) : Keeping who (Edit.publish path input previous bytes expected durability)
      (fun _ _ => True) s :=
  (keeping_atomicWrite hs).mapErr.bind fun _ _ hs₁ ho => keeping_published hs₁ ho

theorem keeping_createNewFile {input : EditRequest} (hs : Truthful s) :
    Keeping who (Edit.createNewFile path input durability) (fun _ _ => True) s := by
  refine keeping_ofExec_bind hs fun empty => ?_
  show Keeping who (if _ then _ else _) _ _
  split_ifs
  · exact keeping_ofExec_bind hs fun _ => keeping_fail hs
  · refine keeping_ofExec_bind hs fun applied => ?_
    rcases path.parent with _ | parent
    · exact keeping_publish hs
    · refine keeping_call (c := .createDirAll parent) hs trivial fun _ _ a s₁ hs₁ _ _ _ _ => ?_
      change Except IoError Unit at a
      rcases a with e | _
      · exact keeping_fail hs₁
      · exact keeping_publish hs₁

theorem keeping_editBlocking {input : EditRequest} (hs : Truthful s) :
    Keeping who (Edit.runBlocking path input durability) (fun _ _ => True) s := by
  refine (keeping_load hs).attempt (fun snapshot s₁ hs₁ _ => ?_) fun e s₁ hs₁ => ?_
  · exact keeping_call (c := .reserve _) hs₁ trivial fun _ _ _ s₂ hs₂ _ _ _ _ =>
      keeping_ofExec_bind hs₂ fun _ => keeping_publish hs₂
  · show Keeping who (if e.isNotFound = true then _ else _) _ _
    split_ifs
    · exact keeping_createNewFile hs₁
    · exact keeping_fail hs₁

theorem keeping_loseCreateRace {input : WriteRequest} (hs : Truthful s) :
    Keeping who (Write.loseCreateRace path input) (fun _ _ => True) s := by
  refine (keeping_load hs).attempt (fun snapshot s₁ hs₁ _ => ?_) fun e s₁ hs₁ => ?_
  · dsimp only
    split
    · exact keeping_pure hs₁ trivial
    · exact keeping_pure hs₁ trivial
    · exact keeping_ofExec hs₁ fun _ _ => trivial
  · show Keeping who (if e.isNotFound = true then _ else _) _ _
    split_ifs <;> exact keeping_pure hs₁ trivial

theorem keeping_persist {current : Option (Snapshot h.contentId)} {created : Bool} (hs : Truthful s) :
    Keeping who (Write.persist path bytes current created durability) (Confirms path bytes) s := by
  unfold Write.persist
  split_ifs
  · exact keeping_atomicCreate hs
  · exact keeping_atomicWrite hs

theorem keeping_carryOut {input : WriteRequest} {current : Option (Snapshot h.contentId)} {created : Bool}
    (hs : Truthful s) : Keeping who (Write.carryOut path input current created durability)
      (fun _ _ => True) s := by
  refine (keeping_persist hs).attempt (fun o s₁ hs₁ ho => keeping_published hs₁ ho) fun e s₁ hs₁ => ?_
  rcases e with ⟨operation, p, source⟩ | p | p
  · exact keeping_fail hs₁
  · exact keeping_fail hs₁
  · exact (keeping_loseCreateRace hs₁).bind fun _ _ hs₂ _ => keeping_fail hs₂

theorem keeping_writeBlocking {input : WriteRequest} (hs : Truthful s) :
    Keeping who (Write.runBlocking path input durability) (fun _ _ => True) s := by
  refine Keeping.bind (K := fun _ _ => True) ?_ fun current s₁ hs₁ _ => ?_
  · refine (keeping_load hs).attempt (fun _ _ hs₁ _ => keeping_pure hs₁ trivial) fun e s₁ hs₁ => ?_
    show Keeping who (if e.isNotFound = true then _ else _) _ _
    split_ifs
    · exact keeping_pure hs₁ trivial
    · exact keeping_fail hs₁
  · exact keeping_ofExec_bind hs₁ fun _ => keeping_carryOut hs₁

/-- A tool of the server: the request is checked and the path resolved before it is worked on. -/
theorem keeping_tool {operation name : String} {β : Type} {workspace : Workspace} {r : Exec ProtocolError β}
    {body : PathBuf → Op h ProtocolError α} (hs : Truthful s)
    (hbody : ∀ path s, Truthful s → Keeping who (body path) (fun _ _ => True) s) :
    Keeping who (do
      let _ ← Proc.ofExec r
      let path ← workspace.resolvePath name
      spawnBlocking operation path (body path)) (fun _ _ => True) s :=
  keeping_ofExec_bind hs fun _ =>
    (keeping_of_calm (resolvePath_calm workspace name) hs).bind fun path s₁ hs₁ _ =>
      (hbody path s₁ hs₁).onPanic

/-- **A mutation keeps every entry sealed.** -/
theorem keeping_serve {workspace : Workspace} {request : Request} (hs : Truthful s) :
    Keeping who (serve workspace request) (fun _ _ => True) s := by
  cases request with
  | edit request =>
    have hrun : Keeping who (Edit.run workspace request) (fun _ _ => True) s :=
      keeping_tool hs fun _ _ hs => keeping_editBlocking hs
    exact hrun.bind fun _ _ hs₁ _ => keeping_pure hs₁ trivial
  | write request =>
    have hrun : Keeping who (Write.run workspace request) (fun _ _ => True) s :=
      keeping_tool hs fun _ _ hs => keeping_writeBlocking hs
    exact hrun.bind fun _ _ hs₁ _ => keeping_pure hs₁ trivial

/-! ## One errand after another -/

/-- What a server is given to do: to load a file, or to serve a mutation. -/
inductive Errand where
  | load (path : PathBuf)
  | mutate (workspace : Workspace) (request : Request)

/-- One after another, whatever comes of them. -/
def Errand.inTurn : List Errand → Op h ProtocolError Unit
  | [] => pure ()
  | .load path :: errands => do
    let _ ← (SnapshotCache.getOrLoad path (Snapshot.load path)).attempt
    Errand.inTurn errands
  | .mutate workspace request :: errands => do
    let _ ← (serve workspace request).attempt
    Errand.inTurn errands

theorem keeping_inTurn : ∀ (errands : List Errand) {s : State h}, Truthful s →
    Keeping who (Errand.inTurn errands) (fun _ _ => True) s
  | [], _, hs => keeping_pure hs trivial
  | .load _ :: errands, _, hs => (SnapshotCache.keeping_getOrLoad hs).attempt
      (fun _ _ hs₁ _ => keeping_inTurn errands hs₁) fun _ _ hs₁ => keeping_inTurn errands hs₁
  | .mutate _ _ :: errands, _, hs => (keeping_serve hs).attempt
      (fun _ _ hs₁ _ => keeping_inTurn errands hs₁) fun _ _ hs₁ => keeping_inTurn errands hs₁

/-- **Hits by metadata are truthful**: an entry whose stamp is not racy and is the file's has the
    file's bytes, and nothing else is served for that stamp. -/
structure World.HitsTruthful (w : World h) : Prop where
  entry : ∀ path entry stamp f t, w.cache.Resident (path, entry) → entry.stamp = some stamp →
    stamp.racy = false → w.entries (h.locate path) = some f →
    (stamp == .fromMetadata (w.metadata f) t) = true → entry.snapshot.bytes = (w.files f).content
  get : ∀ path snapshot f t, w.entries (h.locate path) = some f →
    w.cache.get path.components (some (.fromMetadata (w.metadata f) t)) = some snapshot →
    snapshot.bytes = (w.files f).content

theorem Truthful.entry_bytes (hs : Truthful s) {path : PathBuf} {entry : Entry h.contentId} {stamp : FileStamp}
    {f : ℕ} {t : ℤ} (hr : s.world.cache.Resident (path, entry)) (hstamp : entry.stamp = some stamp)
    (hracy : stamp.racy = false) (hf : s.world.entries (h.locate path) = some f)
    (heq : (stamp == .fromMetadata (s.world.metadata f) t) = true) :
    entry.snapshot.bytes = (s.world.files f).content := by
  obtain ⟨m, t', rfl, -, hbytes⟩ := hs.sealed path entry stamp hr hstamp hracy
  exact (hbytes f hf (FileStamp.fromMetadata_eq_iff.1 heq).symm).symm

theorem Truthful.hits (hs : Truthful s) : s.world.HitsTruthful := by
  refine ⟨fun _ _ _ _ _ => hs.entry_bytes, fun path snapshot f t hf hg => ?_⟩
  obtain ⟨entry, hr, rfl, heq, hracy⟩ := SnapshotCache.get_some hg
  rcases hstamp : entry.stamp with _ | stamp
  · rw [hstamp] at heq
    cases heq
  · rw [hstamp] at heq hracy
    exact hs.entry_bytes hr hstamp hracy (by rw [Host.locate_components, hf]) heq

end

/-! ## Runs -/

/-- A load, a hit after which others write `b`, a load, a `write` of `c` over it, and a load of what is
    resident, whose stamp is racy no longer: the stamps are of every kind. -/
def hitErrands : List Errand :=
  [.load ["w", "f"], .load ["w", "f"], .load ["w", "f"],
    .mutate ⟨["w"], false, .full⟩
      (.write ⟨"f", ⟨[99], by decide⟩, .snapshot (Host.sample.contentId [98])⟩),
    .load ["w", "f"]]

def hitChoices : List Choice :=
  let usual : Choice := { amount := 9, mtime := ⟨2, 0⟩, ctime := ⟨2, 0⟩, inode := 5 }
  { tick := 3000000000 } :: List.replicate 23 usual ++
    { events := [(0, .rewrite (Host.sample.locate ["w", "f"]) [98] ⟨2, 0⟩ ⟨2, 0⟩)] } ::
    List.replicate 66 usual ++ { tick := 3000000000 } :: List.replicate 11 usual

/-- Others write `b` over `a` before the last `fstat`, within one tick of the file's times. -/
def staleChoices : List Choice :=
  List.replicate 15 ({} : Choice) ++ { events := [(0, .rewrite (Host.sample.locate ["w", "f"]) [98]
    ⟨0, 0⟩ ⟨0, 0⟩)] } :: { tick := 3000000000 } :: List.replicate 6 ({} : Choice)

end Hashline
