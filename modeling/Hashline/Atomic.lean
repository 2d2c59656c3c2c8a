/-
  A mutation whose calls may fail in any way, while nobody else takes a step:
  an error comes before the rename or the link, a success after exactly one.
-/
import Hashline.History
import Hashline.Mutate
import Hashline.Quiet

namespace Hashline

open Machine

variable {h : Host} {ε α : Type}

/-! ## What was installed -/

/-- What was renamed or linked where, the latest first. -/
def State.installs (s : State h) : List (PathBuf × Option Bytes) := s.trace.filterMap Did.install

theorem State.installs_cons {s s' : State h} {d : Did h} (ht : s'.trace = d :: s.trace) :
    s'.installs = d.install.toList ++ s.installs := by
  rw [State.installs, ht, List.filterMap_cons]
  rcases d.install with _ | i <;> rfl

theorem Since.installs {s s' : State h} (hs : Since s s') : s'.installs = s.installs := by
  obtain ⟨-, ds, hds, hd⟩ := hs
  rw [State.installs, hds, List.filterMap_append, List.filterMap_eq_nil_iff.2 hd]; rfl

/-- Calls that neither rename nor link. -/
def Call.Plain : Call h → Prop
  | .rename .. | .hardLink .. => False
  | _ => True

section
variable {rules : Rules h} {who : ℕ} {s₀ s : State h} {Q : Exec ε α → State h → Prop}

/-- One call that neither renames nor links. -/
theorem wp_plain (hq : rules.Quiet) {c : Call h} (hc : c.Plain) {k : Answer c → Op h ε α}
    (hk : ∀ x a s', act who x c (s.world.wait x.tick) = some (a, s'.world) →
      s'.installs = s.installs → (k a).wp (step rules who) Q s') :
    (Proc.ask c >>= k).wp (step rules who) Q s :=
  wp_quiet hq fun x a s' _ ha ht => hk x a s' ha <| by
    rw [State.installs_cons ht]
    cases c <;> first | rfl | exact hc.elim

/-! ## The temporary file -/

/-- **`write_all` leaves the bytes in the file**, or an error. -/
theorem writeAll_spec (hq : rules.Quiet) {f : ℕ} {bytes : Bytes} : ∀ (rounds : ℕ) {offset : ℕ}
    {s : State h}, (s.world.files f).content = bytes.take offset → offset ≤ bytes.length →
    bytes.length ≤ offset + rounds →
    (writeAll f bytes rounds offset : Op h ε _).wp (step rules who) (fun r s' =>
      s'.installs = s.installs ∧ s'.world.entries = s.world.entries ∧
        ((∃ e, r = .ok (.error e)) ∨ r = .ok (.ok ()) ∧ (s'.world.files f).content = bytes)) s
  | 0, offset, s, hc, hl, hr => by
    rw [List.take_of_length_le (by omega)] at hc
    exact ⟨rfl, rfl, .inr ⟨rfl, hc⟩⟩
  | rounds + 1, offset, s, hc, hl, hr => by
    rw [writeAll]
    split_ifs with hend
    · rw [List.take_of_length_le hend] at hc
      exact ⟨rfl, rfl, .inr ⟨rfl, hc⟩⟩
    · refine wp_plain (c := .write f offset (bytes.drop offset)) hq trivial
        fun x a s₁ ha hi => ?_
      rcases act_write_next (w := s.world.wait x.tick) hc (by omega) ha with ⟨e, rfl, hw⟩ | ⟨n, rfl, hn, hle, -, hw⟩
      · exact ⟨hi, by rw [hw]; rfl, .inl ⟨e, rfl⟩⟩
      · have hcontent : (s₁.world.files f).content = bytes.take (offset + n) := by
          rw [hw, World.setFile_self]
        refine Proc.wp_mono (writeAll_spec hq rounds hcontent hle (by omega))
          fun r s' hr => ⟨hr.1.trans hi, hr.2.1.trans ?_, hr.2.2⟩
        rw [hw]; rfl

/-- A persist step that failed, with nothing renamed or linked. -/
def Refused {β : Type} (s₀ s : State h) (r : Exec PersistError β) : Prop :=
  (∃ e, r = .error (.err e)) ∧ s.installs = s₀.installs

/-- After a step that may have been refused. -/
theorem wp_bind_persist {β γ : Type} {s₀ s : State h} {Q : Exec PersistError γ → State h → Prop}
    {x : Op h PersistError β} {k : β → Op h PersistError γ} {P : β → State h → Prop}
    (hx : x.wp (step rules who) (fun r s' => Refused s₀ s' r ∨ ∃ b, r = .ok b ∧ P b s') s)
    (hk : ∀ b s', P b s' → (k b).wp (step rules who) Q s')
    (hQ : ∀ r s', Refused s₀ s' r → Q r s') : (x >>= k).wp (step rules who) Q s := by
  refine Proc.wp_bind_stopped hx (fun b s' hr => ?_) hk fun e s' hr => ?_
  · obtain ⟨⟨_, he⟩, -⟩ := hr
    cases he
  · obtain ⟨⟨e', he⟩, hi⟩ := hr
    cases he
    exact hQ _ s' ⟨⟨e', rfl⟩, hi⟩

theorem refuse_spec {β : Type} (hq : rules.Quiet) {s : State h} (hi : s.installs = s₀.installs)
    {tempPath : PathBuf} {error : PersistError} :
    (refuse tempPath error : Op h PersistError β).wp (step rules who)
      (fun r s' => Refused s₀ s' r) s := by
  show ((discard tempPath : Op h PersistError Unit) >>= fun _ => Proc.fail error).wp _ _ _
  refine Proc.wp_bind_of (P := fun r s' => s'.installs = s₀.installs ∧ r = .ok ())
    (wp_plain (c := .removeFile tempPath) hq trivial fun _ _ s' _ hi' => ⟨hi'.trans hi, rfl⟩)
    (fun _ s' hr => ⟨⟨_, rfl⟩, hr.1⟩) fun e s' hr => by cases hr.2

theorem flush_spec (hq : rules.Quiet) {path : PathBuf} {f : ℕ} (durability : Durability) :
    (flush path f durability : Op h _ _).wp (step rules who) (fun r s' =>
      Refused s s' r ∨ ∃ u, r = .ok u ∧ Since s s') s := by
  have hsync : ∀ operation, (Op.sync f >>= fun r => Proc.orElse (ioErr path operation) r :
      Op h PersistError Unit).wp (step rules who) (fun r s' =>
        Refused s s' r ∨ ∃ u, r = .ok u ∧ Since s s') s := fun operation =>
    wp_inert (c := .sync f) hq (Since.refl s) trivial fun x a s' hs' _ _ => by
      change Except IoError Unit at a
      rcases a with e | u
      · exact .inl ⟨⟨_, rfl⟩, hs'.installs⟩
      · exact .inr ⟨u, rfl, hs'⟩
  cases durability with
  | full => exact hsync _
  | barrier => exact hsync _
  | none => exact .inr ⟨(), rfl, Since.refl s⟩

/-- A temporary file that holds the bytes. -/
def TempHolds (w : World h) (tempPath : PathBuf) (bytes : Bytes) : Prop :=
  ∃ f, w.entries (h.locate tempPath) = some f ∧ (w.files f).content = bytes

theorem TempHolds.since {s s' : State h} (hs : Since s s') {tempPath : PathBuf} {bytes : Bytes}
    (ht : TempHolds s.world tempPath bytes) : TempHolds s'.world tempPath bytes := by
  obtain ⟨f, hf, hc⟩ := ht
  exact ⟨f, by rw [hs.entries, hf], by rw [hs.files, hc]⟩

theorem writeTemp_spec (hq : rules.Quiet) {tempPath path : PathBuf} {bytes : Bytes}
    {durability : Durability} {s : State h} :
    (writeTemp tempPath path bytes durability : Op h _ _).wp (step rules who) (fun r s' =>
      Refused s s' r ∨ ∃ stamp, r = .ok stamp ∧ s'.installs = s.installs ∧
        TempHolds s'.world tempPath bytes) s := by
  refine wp_plain (c := .createNew tempPath) hq trivial fun x a s₁ ha hi₁ => ?_
  rcases act_createNew ha with ⟨e, rfl, hw⟩ | ⟨-, -, rfl, hw⟩
  · exact .inl ⟨⟨_, rfl⟩, hi₁⟩
  set f := (s.world.wait x.tick).next
  have hent : s₁.world.entries (h.locate tempPath) = some f := by
    rw [hw]; simp [World.addFile, World.setEntry, f]
  have hcont : (s₁.world.files f).content = bytes.take 0 := by
    rw [hw]; simp [World.addFile, World.setEntry, World.setFile, f]
  show Proc.wp _ (writeAll f bytes bytes.length 0 >>= _) _ _
  refine Proc.wp_bind_of (writeAll_spec hq bytes.length hcont (Nat.zero_le _) (by omega))
    (fun r s₂ hr => ?_) fun e s₂ hr => ?_
  · obtain ⟨hi₂, hent₂, ⟨e, he⟩ | ⟨he, hcont₂⟩⟩ := hr
    · cases he; exact .inl ⟨⟨_, rfl⟩, hi₂.trans hi₁⟩
    cases he
    have hholds : TempHolds s₂.world tempPath bytes := ⟨f, by rw [hent₂, hent], hcont₂⟩
    show Proc.wp _ (flush path f durability >>= _) _ _
    refine wp_bind_persist (flush_spec hq durability) (fun _ s₃ hs₃ => ?_)
      fun r s' hr => .inl ⟨hr.1, hr.2.trans (hi₂.trans hi₁)⟩
    refine wp_fstat hq hs₃ (fun s₄ hs₄ => ?_) fun e s₄ hs₄ _ =>
      .inl ⟨⟨_, rfl⟩, hs₄.installs.trans (hi₂.trans hi₁)⟩
    show Proc.wp _ (Decoder.unix.fromMetadata .temp _ >>= _) _ _
    rw [Decoder.unix_bind]
    refine wp_fromMetadata (Q := fun r s' => _) hq hs₄ fun s₅ hs₅ => ?_
    exact .inr ⟨_, rfl, hs₅.installs.trans (hi₂.trans hi₁), hholds.since hs₅⟩
  · obtain ⟨-, -, ⟨_, he⟩ | ⟨he, -⟩⟩ := hr <;> cases he

theorem writeUniqueTemp_spec (hq : rules.Quiet) {parent path : PathBuf} {bytes : Bytes}
    {durability : Durability} {s : State h} :
    (writeUniqueTemp parent path bytes durability : Op h _ _).wp (step rules who) (fun r s' =>
      Refused s s' r ∨ ∃ p, r = .ok p ∧ s'.installs = s.installs ∧
        TempHolds s'.world p.1 bytes) s := by
  refine Proc.wp_bind_of (P := fun r s' => s'.installs = s.installs ∧ ∃ name, r = .ok name) ?_
    (fun name s₁ hr => ?_) fun e s₁ hr => by obtain ⟨-, _, he⟩ := hr; cases he
  · refine wp_now hq (Since.refl s) fun s₁ hs₁ => ?_
    exact wp_plain (c := .fetchAdd) hq trivial fun _ a s₂ _ hi => ⟨hi.trans hs₁.installs, _, rfl⟩
  · refine Proc.wp_attempt_of (writeTemp_spec hq) (fun stamp s₂ hr₂ => ?_) (fun e s₂ hr₂ => ?_)
      fun s₂ hr₂ => ?_
    · rcases hr₂ with ⟨⟨_, he⟩, -⟩ | ⟨_, he, hi, hholds⟩ <;> cases he
      exact .inr ⟨_, rfl, hi.trans hr.1, hholds⟩
    · rcases hr₂ with ⟨-, hi⟩ | ⟨_, he, -⟩
      · exact Proc.wp_mono (refuse_spec hq (hi.trans hr.1)) fun _ _ hr => .inl hr
      · cases he
    · rcases hr₂ with ⟨⟨_, he⟩, -⟩ | ⟨_, he, -⟩ <;> cases he

/-! ## The guard, the rename and the link -/

theorem destinationUnchanged_spec (hq : rules.Quiet) {path tempPath : PathBuf}
    {expected : ExpectedDestination} (hs : Since s₀ s) :
    (destinationUnchanged path tempPath expected : Op h _ _).wp (step rules who) (fun r s' =>
      Refused s₀ s' r ∨ ∃ b, r = .ok b ∧ Since s₀ s') s := by
  refine wp_openRead hq hs (fun f s₁ hs₁ _ => ?_) fun e s₁ hs₁ _ => ?_
  · refine Proc.wp_bind_of (readToEnd_spec hq (saturatingAdd expected.stamp.len 1) hs₁
      List.nil_prefix (Nat.zero_le _) (by rw [List.length_nil]; omega)) (fun r s₂ hr => ?_)
      fun e s₂ hr => by obtain ⟨-, ⟨_, he, -⟩ | he⟩ := hr <;> cases he
    obtain ⟨hs₂, ⟨e, he, -⟩ | he⟩ := hr
    · cases he
      exact Proc.wp_mono (refuse_spec hq hs₂.installs) fun _ _ hr => .inl hr
    · cases he; exact .inr ⟨_, rfl, hs₂⟩
  · show Proc.wp _ (if e.kind = .notFound then _ else _) _ _
    split_ifs
    · exact .inr ⟨_, rfl, hs₁⟩
    · exact Proc.wp_mono (refuse_spec hq hs₁.installs) fun _ _ hr => .inl hr

/-- The guard lets through or refuses; it changes nothing but the temporary file. -/
theorem checkDestination_spec (hq : rules.Quiet) {path tempPath : PathBuf}
    {expected : ExpectedDestination} (hs : Since s₀ s) :
    (checkDestination path tempPath expected : Op h _ _).wp (step rules who) (fun r s' =>
      Refused s₀ s' r ∨ ∃ u, r = .ok u ∧ Since s₀ s') s := by
  have hrefuse : ∀ {s₁} (_ : Since s₀ s₁) (error : PersistError),
      (refuse tempPath error : Op h PersistError Unit).wp (step rules who) (fun r s' =>
        Refused s₀ s' r ∨ ∃ u, r = .ok u ∧ Since s₀ s') s₁ := fun hs₁ error =>
    Proc.wp_mono (refuse_spec hq hs₁.installs) fun _ _ hr => .inl hr
  refine wp_guard hq hs fun s₁ hs₁ => wp_stat hq hs₁ (fun f s₂ hs₂ _ => ?_) fun e s₂ hs₂ _ => ?_
  · show Proc.wp _ (Decoder.unix.fromMetadata .destination _ >>= _) _ _
    rw [Decoder.unix_bind]
    refine wp_fromMetadata hq hs₂ fun s₃ hs₃ => ?_
    show Proc.wp _ (if _ then _ else if _ then _ else _) _ _
    split_ifs
    · exact hrefuse hs₃ _
    · refine wp_bind_persist (destinationUnchanged_spec hq hs₃) (fun b s₄ hs₄ => ?_)
        fun r s' hr => .inl hr
      cases b with
      | true => exact .inr ⟨(), rfl, hs₄⟩
      | false => exact hrefuse hs₄ _
    · exact .inr ⟨(), rfl, hs₃⟩
  · show Proc.wp _ (if e.kind = .notFound then _ else _) _ _
    split_ifs <;> exact hrefuse hs₂ _

theorem confirmStamp_spec (hq : rules.Quiet) (hs : Since s₀ s) {path : PathBuf}
    {tempStamp : FileStamp} : (confirmStamp path tempStamp : Op h ε _).wp (step rules who)
      (fun r s' => Since s₀ s' ∧ ∃ o, r = .ok o) s := by
  refine wp_stat hq hs (fun f s₁ hs₁ _ => ?_) fun e s₁ hs₁ _ => ⟨hs₁, _, rfl⟩
  show Proc.wp _ (Decoder.unix.fromMetadata _ _ >>= _) _ _
  rw [Decoder.unix_bind]
  exact wp_fromMetadata hq hs₁ fun s₂ hs₂ => ⟨hs₂, _, rfl⟩

/-- **After the rename nothing fails.** -/
theorem afterInstall_spec (hq : rules.Quiet) {path : PathBuf} {stamp : FileStamp}
    {durability : Durability} : (afterInstall path stamp durability : Op h ε _).wp
      (step rules who) (fun r s' => Since s s' ∧ ∃ o, r = .ok o) s := by
  unfold afterInstall Decoder.afterInstall
  split_ifs
  · refine Proc.wp_bind_of (P := fun r s' => Since s s' ∧ r = .ok ()) ?_
      (fun _ s₁ hr => confirmStamp_spec hq hr.1) fun e s₁ hr => by cases hr.2
    exact wp_inert (c := .syncDir (h.parentOf path)) hq (Since.refl s) trivial
      fun _ _ s₁ hs₁ _ _ => ⟨hs₁, rfl⟩
  · exact confirmStamp_spec hq (Since.refl s)

/-- Persisting: refused with nothing installed, or done with the bytes installed once. -/
def Persisted (path : PathBuf) (bytes : Bytes) (s₀ s : State h)
    (r : Exec PersistError (Option FileStamp)) : Prop :=
  Refused s₀ s r ∨ ∃ o, r = .ok o ∧ s.installs = (path, some bytes) :: s₀.installs

theorem createParentOf_spec (hq : rules.Quiet) {path : PathBuf} :
    (createParentOf path : Op h _ _).wp (step rules who) (fun r s' =>
      Refused s s' r ∨ ∃ u, r = .ok u ∧ Since s s') s := by
  unfold createParentOf
  rcases path.parent with _ | parent
  · exact .inr ⟨(), rfl, Since.refl s⟩
  · refine wp_inert (c := .createDirAll parent) hq (Since.refl s) trivial
      fun x a s' hs' _ _ => ?_
    change Except IoError Unit at a
    rcases a with e | u
    · exact .inl ⟨⟨_, rfl⟩, hs'.installs⟩
    · exact .inr ⟨u, rfl, hs'⟩

/-- A rename that is done puts the temporary file's bytes at the destination. -/
theorem renamed_content {x : Choice} {w w' : World h} {source target : PathBuf} {bytes : Bytes}
    (ht : TempHolds w source bytes) {u : Unit}
    (ha : act who x (.rename source target) w = some ((.ok u : Except IoError Unit), w')) :
    w'.contentAt (h.locate target) = some bytes := by
  obtain ⟨f, hf, hc⟩ := ht
  rcases act_rename ha with ⟨_, he, -⟩ | ⟨g, hg, -, ⟨ht, rfl⟩ | ⟨-, -, rfl⟩⟩
  · cases he
  · rw [hf] at hg; cases hg; rw [World.contentAt_of_entry _ ht, hc]
  · rw [hf] at hg; cases hg
    rw [World.contentAt_of_entry _ (f := f) (by simp [World.changed, World.setFile, World.setEntry])]
    simp [World.changed, World.setFile, World.setEntry, hc]

theorem linked_content {x : Choice} {w w' : World h} {source target : PathBuf} {bytes : Bytes}
    (ht : TempHolds w source bytes) {u : Unit}
    (ha : act who x (.hardLink source target) w = some ((.ok u : Except IoError Unit), w')) :
    w'.contentAt (h.locate target) = some bytes := by
  obtain ⟨f, hf, hc⟩ := ht
  rcases act_hardLink ha with ⟨_, he, -⟩ | ⟨g, hg, -, -, -, rfl⟩
  · cases he
  · rw [hf] at hg; cases hg
    rw [World.contentAt_of_entry _ (f := f) (by simp [World.changed, World.setFile, World.setEntry])]
    simp [World.changed, World.setFile, World.setEntry, hc]

/-- The rename of `atomic_write`, and what follows it. -/
theorem renameInto_spec (hq : rules.Quiet) {path tempPath : PathBuf} {bytes : Bytes}
    {stamp : FileStamp} {durability : Durability} (hi : s.installs = s₀.installs)
    (ht : TempHolds s.world tempPath bytes) :
    (Op.rename tempPath path >>= fun r => match r with
      | .ok () => afterInstall path stamp durability
      | .error source => refuse tempPath (ioErr path "rename into" source) :
      Op h PersistError _).wp (step rules who) (fun r s' => Persisted path bytes s₀ s' r) s := by
  refine wp_quiet (c := .rename tempPath path) hq fun x a s₁ _ ha htr => ?_
  change Except IoError Unit at a
  have hi₁ := State.installs_cons htr
  rcases a with e | u
  · exact Proc.wp_mono (refuse_spec hq (hi₁.trans hi)) fun _ _ hr => .inl hr
  · have hins : s₁.installs = (path, some bytes) :: s₀.installs := by
      rw [hi₁, hi, ← renamed_content (w := s.world.wait x.tick) ht ha]; rfl
    exact Proc.wp_mono (afterInstall_spec hq) fun r s₂ hr => by
      obtain ⟨hs₂, o, rfl⟩ := hr
      exact .inr ⟨o, rfl, hs₂.installs.trans hins⟩

theorem writeLocked_spec (hq : rules.Quiet) {path : PathBuf} {bytes : Bytes}
    {expected : Option ExpectedDestination} {durability : Durability} {s : State h} :
    (writeLocked path bytes expected durability : Op h _ _).wp (step rules who)
      (fun r s' => Persisted path bytes s s' r) s := by
  refine wp_bind_persist (createParentOf_spec hq) (fun _ s₁ hs₁ => ?_) fun _ _ hr => .inl hr
  refine wp_bind_persist (writeUniqueTemp_spec hq) (fun p s₂ hr₂ => ?_)
    fun r s' hr => .inl ⟨hr.1, hr.2.trans hs₁.installs⟩
  obtain ⟨hi₂, ht⟩ := hr₂
  have hi := hi₂.trans hs₁.installs
  rcases expected with _ | expected
  · exact renameInto_spec hq hi ht
  · refine wp_bind_persist (checkDestination_spec hq (Since.refl s₂)) (fun _ s₃ hs₃ => ?_)
      fun r s' hr => .inl ⟨hr.1, hr.2.trans hi⟩
    exact renameInto_spec hq (hs₃.installs.trans hi) (ht.since hs₃)

theorem createLocked_spec (hq : rules.Quiet) {path : PathBuf} {bytes : Bytes}
    {durability : Durability} {s : State h} :
    (createLocked path bytes durability : Op h _ _).wp (step rules who)
      (fun r s' => Persisted path bytes s s' r) s := by
  refine wp_bind_persist (createParentOf_spec hq) (fun _ s₁ hs₁ => ?_) fun _ _ hr => .inl hr
  refine wp_bind_persist (writeUniqueTemp_spec hq) (fun p s₂ hr₂ => ?_)
    fun r s' hr => .inl ⟨hr.1, hr.2.trans hs₁.installs⟩
  obtain ⟨hi₂, ht⟩ := hr₂
  have hi := hi₂.trans hs₁.installs
  refine wp_quiet (c := .hardLink p.1 path) hq fun x a s₃ _ ha htr => ?_
  change Except IoError Unit at a
  have hi₃ := State.installs_cons htr
  refine Proc.wp_bind_of (P := fun r s' => s'.installs = s₃.installs ∧ r = .ok ())
    (wp_plain (c := .removeFile p.1) hq trivial fun _ _ s' _ hi' => ⟨hi', rfl⟩)
    (fun _ s₄ hr₄ => ?_) fun e s' hr => by cases hr.2
  rcases a with e | u
  · have hsame : s₄.installs = s.installs := hr₄.1.trans (hi₃.trans hi)
    show Proc.wp _ (if e.kind = .alreadyExists then _ else _) _ _
    split_ifs <;> exact .inl ⟨⟨_, rfl⟩, hsame⟩
  · have hins : s₄.installs = (path, some bytes) :: s.installs := by
      rw [hr₄.1, hi₃, hi, ← linked_content (w := s₂.world.wait x.tick) ht ha]; rfl
    exact Proc.wp_mono (afterInstall_spec hq) fun r s₅ hr => by
      obtain ⟨hs₅, o, rfl⟩ := hr
      exact .inr ⟨o, rfl, hs₅.installs.trans hins⟩

/-- The lock is given back, whatever came of what it guarded. -/
theorem withPathLock_spec (hq : rules.Quiet) {path : PathBuf} {bytes : Bytes}
    {body : Op h PersistError (Option FileStamp)}
    (hbody : ∀ s, body.wp (step rules who) (fun r s' => Persisted path bytes s s' r) s)
    (s : State h) : (withPathLock path body).wp (step rules who)
      (fun r s' => Persisted path bytes s s' r) s := by
  refine wp_plain (c := .lock path.components) hq trivial fun x _ s₁ _ hi₁ => ?_
  have hunlock : ∀ (r : Except PersistError (Option FileStamp)) s₂,
      (Op.unlock path >>= fun _ => Proc.orElse id r : Op h PersistError _).wp (step rules who)
        (fun r' s' => (r' = match r with | .ok o => .ok o | .error e => .error (.err e)) ∧
          s'.installs = s₂.installs) s₂ := fun r s₂ =>
    wp_plain (c := .unlock path.components) hq trivial fun _ _ s₃ _ hi₃ => by
      rcases r with e | o <;> exact ⟨rfl, hi₃⟩
  refine Proc.wp_attempt_of (hbody s₁) (fun o s₂ hr => Proc.wp_mono (hunlock (.ok o) s₂) ?_)
    (fun e s₂ hr => Proc.wp_mono (hunlock (.error e) s₂) ?_) fun s₂ hr => ?_
  · rintro r s₃ ⟨rfl, hi₃⟩
    rcases hr with ⟨⟨_, he⟩, -⟩ | ⟨o', -, hi₂⟩
    · cases he
    · exact .inr ⟨o, rfl, by rw [hi₃, hi₂, hi₁]⟩
  · rintro r s₃ ⟨rfl, hi₃⟩
    rcases hr with ⟨-, hi₂⟩ | ⟨_, he, -⟩
    · exact .inl ⟨⟨e, rfl⟩, by rw [hi₃, hi₂, hi₁]⟩
    · cases he
  · rcases hr with ⟨⟨_, he⟩, -⟩ | ⟨_, he, -⟩ <;> cases he

theorem atomicWrite_spec (hq : rules.Quiet) {path : PathBuf} {bytes : Bytes}
    {expected : Option ExpectedDestination} {durability : Durability} (s : State h) :
    (atomicWrite path bytes expected durability : Op h _ _).wp (step rules who)
      (fun r s' => Persisted path bytes s s' r) s :=
  withPathLock_spec hq (fun _ => writeLocked_spec hq) s

theorem atomicCreate_spec (hq : rules.Quiet) {path : PathBuf} {bytes : Bytes}
    {durability : Durability} (s : State h) :
    (atomicCreate path bytes durability : Op h _ _).wp (step rules who)
      (fun r s' => Persisted path bytes s s' r) s :=
  withPathLock_spec hq (fun _ => createLocked_spec hq) s

/-! ## The pipelines -/

/-- A pipeline that ended early, with nothing renamed or linked. -/
def Stopped {β : Type} (s₀ s : State h) (r : Exec ε β) : Prop :=
  (∃ e, r = .error e) ∧ s.installs = s₀.installs

/-- After a step that may have ended the pipeline. -/
theorem wp_bind_stop {ε β γ : Type} {s₀ s : State h} {Q : Exec ε γ → State h → Prop}
    {x : Op h ε β} {k : β → Op h ε γ} {P : β → State h → Prop}
    (hx : x.wp (step rules who) (fun r s' => Stopped s₀ s' r ∨ ∃ b, r = .ok b ∧ P b s') s)
    (hk : ∀ b s', P b s' → (k b).wp (step rules who) Q s')
    (hQ : ∀ r s', Stopped s₀ s' r → Q r s') : (x >>= k).wp (step rules who) Q s := by
  refine Proc.wp_bind_stopped hx (fun b s' hr => ?_) hk fun e s' hr => hQ _ s' ⟨⟨e, rfl⟩, hr.2⟩
  obtain ⟨⟨_, he⟩, -⟩ := hr
  cases he

/-- A computation without calls may end the pipeline. -/
theorem wp_ofExec_stop {ε β γ : Type} {s₀ s : State h} {Q : Exec ε γ → State h → Prop}
    {r : Exec ε β} {k : β → Op h ε γ} (hi : s.installs = s₀.installs)
    (hk : ∀ b, r = .ok b → (k b).wp (step rules who) Q s)
    (hQ : ∀ r s', Stopped s₀ s' r → Q r s') :
    (Proc.ofExec r >>= k).wp (step rules who) Q s :=
  wp_bind_stop (P := fun b s' => r = .ok b ∧ s' = s)
    (by rcases r with e | b
        · exact .inl ⟨⟨e, rfl⟩, hi⟩
        · exact .inr ⟨b, rfl, rfl, rfl⟩)
    (fun b _ hb => by obtain ⟨hb, rfl⟩ := hb; exact hk b hb) hQ

theorem cachePersisted_spec (hq : rules.Quiet) {path : PathBuf}
    {snapshot : Snapshot h.contentId} (o : Option FileStamp) :
    (cachePersisted path snapshot o : Op h ε _).wp (step rules who)
      (fun r s' => r = .ok () ∧ s'.installs = s.installs) s := by
  rcases o with _ | stamp
  · exact ⟨rfl, rfl⟩
  · exact wp_plain (c := .cacheInsert path.components (snapshot.withStamp stamp)) hq trivial
      fun _ _ s' _ hi => ⟨rfl, hi⟩

/-- **After the rename the unsafe constructor does not fail**: what is published is a text. -/
theorem publish_spec (hq : rules.Quiet) {path : PathBuf} {input : EditRequest}
    {previous : SnapshotId} {applied : Bytes} {expected : Option FileStamp}
    {durability : Durability} (ht : IsText applied) {s : State h} :
    (Edit.publish path input previous applied expected durability : Op h _ _).wp (step rules who)
      (fun r s' => Stopped s s' r ∨ r = .ok ⟨input.filePath, previous, h.contentId applied,
        input.edits.length, applied.length, applied.count lf + 1⟩ ∧
        s'.installs = (path, some applied) :: s.installs) s := by
  refine wp_bind_stop (Proc.wp_mapErr.2 (Proc.wp_mono (atomicWrite_spec hq s) fun r s₁ hr => ?_))
    (P := fun _ s' => s'.installs = (path, some applied) :: s.installs)
    (fun stamp s₁ hi => ?_) fun r s' hr => .inl hr
  · rcases hr with ⟨⟨e, rfl⟩, hi⟩ | ⟨o, rfl, hi⟩
    · exact .inl ⟨⟨_, rfl⟩, hi⟩
    · exact .inr ⟨o, rfl, hi⟩
  · rw [Snapshot.fromValidatedBytes_eq ht]
    show Proc.wp _ (cachePersisted path (Snapshot.ofText ⟨applied, ht⟩ none) stamp >>= _) _ _
    refine Proc.wp_bind_of (cachePersisted_spec hq stamp) (fun _ s₂ hr => ?_)
      fun e s₂ hr => by cases hr.1
    exact .inr ⟨rfl, hr.2.trans hi⟩

/-- The bytes a mutation started from: what the destination held; or none where the machine lied. -/
def Found (s₀ s : State h) (path : PathBuf) (base : Option Bytes) : Prop :=
  base = s₀.world.contentAt (h.locate path) ∨ base = none ∧ s.Lied

theorem step_lied {x : Choice} {c : Call h} {a : Answer c} {s s' : State h} (hl : s.Lied)
    (hst : step rules who x c s = some (a, s')) : s'.Lied := by
  obtain ⟨-, w, -, -, ht⟩ := step_eq_some.1 hst
  obtain ⟨d, hd, hl⟩ := hl
  exact ⟨d, by rw [ht]; exact List.mem_cons_of_mem _ hd, hl⟩

/-- What was found missing at one moment was found missing in the end. -/
theorem wp_missing {β : Type} {x : Op h ε β} {P Q : Exec ε β → State h → Prop} {s₀ s : State h}
    {path : PathBuf} (hm : Missing s₀ s path) (hx : x.wp (step rules who) P s)
    (hQ : ∀ r s', P r s' → Found s₀ s' path none → Q r s') : x.wp (step rules who) Q s := by
  rcases hm with hm | hm
  · refine Proc.wp_mono hx fun r s' hr => hQ r s' hr (.inl ?_)
    rw [World.contentAt, World.fileAt, hm]; rfl
  · exact Proc.wp_mono (Proc.wp_invariant (fun x c s r s' => step_lied) hm hx)
      fun r s' hr => hQ r s' hr.1 (.inr ⟨rfl, hr.2⟩)

/-- A mutation that ended: stopped, or done with its bytes installed once. -/
def Ended {β : Type} (path : PathBuf) (request : Request) (view : β → Response) (s₀ s : State h)
    (r : Exec ε β) : Prop :=
  Stopped s₀ s r ∨ ∃ base bytes success, Found s₀ s path base ∧ r = .ok success ∧
    Accomplishes h.contentId base bytes request (view success) ∧
    s.installs = (path, some bytes) :: s₀.installs

theorem createNewFile_spec (hq : rules.Quiet) {path : PathBuf} {input : EditRequest}
    {durability : Durability} {s : State h} :
    (Edit.createNewFile path input durability : Op h _ _).wp (step rules who) (fun r s' =>
      Stopped s s' r ∨ ∃ bytes success, r = .ok success ∧
        Accomplishes h.contentId none bytes (.edit input) (.edited success) ∧
        s'.installs = (path, some bytes) :: s.installs) s := by
  refine wp_ofExec_stop rfl (fun empty he => ?_) fun r s' hr => .inl hr
  rw [Exec.mapErr_eq_ok] at he
  have hid : empty.id = h.contentId [] := by
    rw [Snapshot.fromBytes_eq isText_nil] at he; cases he; rfl
  split_ifs with hne
  · exact wp_ofExec_stop rfl (fun e _ => .inl ⟨⟨_, rfl⟩, rfl⟩) fun r s' hr => .inl hr
  refine wp_ofExec_stop rfl (fun applied ha => ?_) fun r s' hr => .inl hr
  rw [applyVersionedReferenceEdits_eq_ok, hid] at ha
  obtain ⟨hsnap, happ⟩ := ha
  have hpub : ∀ s₁ : State h, s₁.installs = s.installs →
      (Edit.publish path input empty.id applied none durability : Op h _ _).wp (step rules who)
        (fun r s' => Stopped s s' r ∨ ∃ bytes success, r = .ok success ∧
          Accomplishes h.contentId none bytes (.edit input) (.edited success) ∧
          s'.installs = (path, some bytes) :: s.installs) s₁ := fun s₁ hi =>
    Proc.wp_mono (publish_spec hq (applyReferenceEdits_isText happ).2) fun r s₂ hr => by
      rcases hr with hr | ⟨rfl, hi₂⟩
      · exact .inl ⟨hr.1, hr.2.trans hi⟩
      · exact .inr ⟨applied, _, rfl, ⟨hsnap, happ, by rw [hid]; rfl⟩, hi₂.trans (by rw [hi])⟩
  rcases path.parent with _ | parent
  · exact hpub s rfl
  · refine wp_plain (c := .createDirAll parent) hq trivial fun x a s₁ _ hi => ?_
    change Except IoError Unit at a
    rcases a with e | u
    · exact .inl ⟨⟨_, rfl⟩, hi⟩
    · exact hpub s₁ hi

theorem editBlocking_spec (hq : rules.Quiet) {path : PathBuf} {input : EditRequest}
    {durability : Durability} {s : State h} :
    (Edit.runBlocking path input durability : Op h _ _).wp (step rules who)
      (fun r s' => Ended path (.edit input) .edited s s' r) s := by
  refine Proc.wp_attempt_of (Snapshot.load_spec hq s) (fun snapshot s₁ hr => ?_)
    (fun e s₁ hr => ?_) fun s₁ hr => ?_
  · obtain ⟨hs₁, ⟨_, he, -⟩ | ⟨_, he, f, t, hf, hb, -⟩⟩ := hr
    · cases he
    cases he
    refine wp_reserve hq hs₁ fun granted s₂ hs₂ => ?_
    refine wp_ofExec_stop hs₂.installs (fun applied ha => ?_) fun r s' hr => .inl hr
    rw [applyEditsFast_eq_ok] at ha
    obtain ⟨hsnap, happ⟩ := ha
    have hid : snapshot.id = h.contentId snapshot.bytes := snapshot.id_eq
    refine Proc.wp_mono (publish_spec hq (applyReferenceEdits_isText happ).2) fun r s₃ hr => ?_
    rcases hr with hr | ⟨rfl, hi⟩
    · exact .inl ⟨hr.1, hr.2.trans hs₂.installs⟩
    · refine .inr ⟨some snapshot.bytes, applied, _, .inl ?_, rfl, ⟨?_, happ, ?_⟩, ?_⟩
      · rw [World.contentAt_of_entry _ hf, hb]
      · rw [hsnap, hid]; rfl
      · rw [hid]; rfl
      · rw [hi, hs₂.installs]
  · obtain ⟨hs₁, ⟨e', he, hm⟩ | ⟨_, he, -⟩⟩ := hr <;> cases he
    show Proc.wp _ (if e.isNotFound then _ else _) _ _
    split_ifs with hnf
    · refine wp_missing (hm hnf) (createNewFile_spec hq) fun r s₂ hr hfound => ?_
      rcases hr with hr | ⟨bytes, success, rfl, hacc, hi⟩
      · exact .inl ⟨hr.1, hr.2.trans hs₁.installs⟩
      · exact .inr ⟨none, bytes, success, hfound, rfl, hacc, by rw [hi, hs₁.installs]⟩
    · exact .inl ⟨⟨_, rfl⟩, hs₁.installs⟩
  · obtain ⟨-, ⟨_, he, -⟩ | ⟨_, he, -⟩⟩ := hr <;> cases he

theorem loadCurrent_spec (hq : rules.Quiet) {path : PathBuf} {s : State h} :
    (Write.loadCurrent path : Op h _ _).wp (step rules who) (fun r s' => Stopped s s' r ∨
      ∃ current, r = .ok current ∧ Since s s' ∧ match current with
        | none => Missing s s' path
        | some snapshot => Snapshot.Loaded s s' path snapshot) s := by
  refine Proc.wp_attempt_of (Snapshot.load_spec hq s) (fun snapshot s₁ hr => ?_)
    (fun e s₁ hr => ?_) fun s₁ hr => ?_
  · obtain ⟨hs₁, ⟨_, he, -⟩ | ⟨_, he, hl⟩⟩ := hr <;> cases he
    exact .inr ⟨some snapshot, rfl, hs₁, hl⟩
  · obtain ⟨hs₁, ⟨_, he, hm⟩ | ⟨_, he, -⟩⟩ := hr <;> cases he
    show Proc.wp _ (if e.isNotFound then _ else _) _ _
    split_ifs with hnf
    · exact .inr ⟨none, rfl, hs₁, hm hnf⟩
    · exact .inl ⟨⟨_, rfl⟩, hs₁.installs⟩
  · obtain ⟨-, ⟨_, he, -⟩ | ⟨_, he, -⟩⟩ := hr <;> cases he

theorem persist_spec (hq : rules.Quiet) {path : PathBuf} {bytes : Bytes}
    {current : Option (Snapshot h.contentId)} {created : Bool} {durability : Durability}
    (s : State h) : (Write.persist path bytes current created durability : Op h _ _).wp
      (step rules who) (fun r s' => Persisted path bytes s s' r) s := by
  unfold Write.persist
  split_ifs
  · exact atomicCreate_spec hq s
  · exact atomicWrite_spec hq s

theorem loseCreateRace_spec (hq : rules.Quiet) {path : PathBuf} {input : WriteRequest}
    {s : State h} : (Write.loseCreateRace path input : Op h _ _).wp (step rules who)
      (fun _ s' => s'.installs = s.installs) s := by
  refine Proc.wp_attempt_of (Snapshot.load_spec hq s) (fun snapshot s₁ hr => ?_)
    (fun e s₁ hr => ?_) fun s₁ hr => ?_
  · rcases hv : validateReferenceWrite (some (snapshot.bytes, snapshot.id)) input with
      (_ | _) | _ <;> simp only [hv] <;> exact hr.1.installs
  · show Proc.wp _ (if e.isNotFound then _ else _) _ _
    split_ifs <;> exact hr.1.installs
  · obtain ⟨-, ⟨_, he, -⟩ | ⟨_, he, -⟩⟩ := hr <;> cases he

theorem carryOut_spec (hq : rules.Quiet) {path : PathBuf} {input : WriteRequest}
    {current : Option (Snapshot h.contentId)} {created : Bool} {durability : Durability}
    (ht : IsText input.content.bytes) {s : State h} :
    (Write.carryOut path input current created durability : Op h _ _).wp (step rules who)
      (fun r s' => Stopped s s' r ∨ r = .ok ⟨input.filePath, h.contentId input.content.bytes,
        input.content.bytes.length, input.content.bytes.count lf + 1, created⟩ ∧
        s'.installs = (path, some input.content.bytes) :: s.installs) s := by
  refine Proc.wp_attempt_of (persist_spec hq s) (fun stamp s₁ hr => ?_) (fun e s₁ hr => ?_)
    fun s₁ hr => ?_
  · rcases hr with ⟨⟨_, he⟩, -⟩ | ⟨_, -, hi⟩
    · cases he
    simp only [Snapshot.fromValidatedBytes_eq ht]
    show Proc.wp _
      (cachePersisted path (Snapshot.ofText ⟨input.content.bytes, ht⟩ none) stamp >>= _) _ _
    exact Proc.wp_bind_of (cachePersisted_spec hq stamp)
      (fun _ s₂ hr => .inr ⟨rfl, hr.2.trans hi⟩) fun e s₂ hr => by cases hr.1
  · rcases hr with ⟨-, hi⟩ | ⟨_, he, -⟩
    · cases e with
      | destinationExists p =>
        exact Proc.wp_bind_of (loseCreateRace_spec hq) (fun e' s₂ hr => .inl ⟨⟨_, rfl⟩, hr.trans hi⟩)
          fun e' s₂ hr => .inl ⟨⟨_, rfl⟩, hr.trans hi⟩
      | io | destinationChanged => exact .inl ⟨⟨_, rfl⟩, hi⟩
    · cases he
  · rcases hr with ⟨⟨_, he⟩, -⟩ | ⟨_, he, -⟩ <;> cases he

theorem writeBlocking_spec (hq : rules.Quiet) {path : PathBuf} {input : WriteRequest}
    {durability : Durability} {s : State h} :
    (Write.runBlocking path input durability : Op h _ _).wp (step rules who)
      (fun r s' => Ended path (.write input) .written s s' r) s := by
  refine wp_bind_stop (loadCurrent_spec hq) (fun current s₁ hr => ?_) fun r s' hr => .inl hr
  obtain ⟨hs₁, hcur⟩ := hr
  refine wp_ofExec_stop hs₁.installs (fun created hv => ?_) fun r s' hr => .inl hr
  rw [validateReferenceWrite_eq_ok] at hv
  obtain ⟨ht, ⟨he, hc, rfl⟩ | ⟨id, bytes, he, hc, rfl⟩⟩ := hv
  · rw [Option.map_eq_none_iff] at hc
    subst hc
    refine wp_missing hcur (carryOut_spec hq ht) fun r s₂ hr hfound => ?_
    rcases hr with hr | ⟨rfl, hi⟩
    · exact .inl ⟨hr.1, hr.2.trans hs₁.installs⟩
    · exact .inr ⟨none, _, _, hfound, rfl, ⟨by rw [he], rfl, by rw [he]; rfl⟩,
        by rw [hi, hs₁.installs]⟩
  · rw [Option.map_eq_some_iff] at hc
    obtain ⟨snapshot, rfl, hc⟩ := hc
    rw [Prod.mk.injEq] at hc
    obtain ⟨f, t, hf, hb, -⟩ := hcur
    refine Proc.wp_mono (carryOut_spec hq ht) fun r s₂ hr => ?_
    rcases hr with hr | ⟨rfl, hi⟩
    · exact .inl ⟨hr.1, hr.2.trans hs₁.installs⟩
    · refine .inr ⟨some snapshot.bytes, _, _, .inl ?_, rfl, ⟨?_, rfl, by rw [he]; rfl⟩,
        by rw [hi, hs₁.installs]⟩
      · rw [World.contentAt_of_entry _ hf, hb]
      · rw [he]
        show some _ = some id
        rw [← hc.2, snapshot.id_eq]; rfl

/-! ## From the request on -/

theorem existingAncestor_spec (hq : rules.Quiet) : ∀ (n : ℕ) {path : PathBuf} {s : State h},
    Since s₀ s → (existingAncestor n path : Op h _ _).wp (step rules who)
      (fun _ s' => Since s₀ s') s
  | 0, _, _, hs => hs
  | n + 1, path, s, hs => by
    refine wp_inert (c := .pathExists path) hq hs trivial fun _ b s₁ hs₁ _ _ => ?_
    change Bool at b
    cases b with
    | true => exact hs₁
    | false =>
      rw [if_neg (by decide)]
      rcases path.parent with _ | parent
      · exact hs₁
      · exact existingAncestor_spec hq n hs₁

theorem confineToRoot_spec (hq : rules.Quiet) {root path : PathBuf} {s : State h} :
    (confineToRoot root path : Op h _ _).wp (step rules who) (fun _ s' => Since s s') s := by
  unfold confineToRoot
  split_ifs
  · exact Since.refl s
  · refine Proc.wp_bind_of (existingAncestor_spec hq _ (Since.refl s)) (fun existing s₁ hs₁ => ?_)
      fun _ _ hs₁ => hs₁
    refine wp_inert (c := .canonicalize existing) hq hs₁ trivial fun _ a s₂ hs₂ _ _ => ?_
    change Except IoError PathBuf at a
    rcases a with e | canon
    · exact hs₂
    · show Proc.wp _ (if _ then _ else _) _ _
      split_ifs <;> exact hs₂

theorem resolvePath_spec (hq : rules.Quiet) {workspace : Workspace} {path : String} {s : State h} :
    (workspace.resolvePath path : Op h _ _).wp (step rules who) (fun r s' => Since s s' ∧
      ((∃ e, r = .error e) ∨ r = .ok (resolvePath workspace.root path))) s := by
  refine Proc.wp_mapErr.2 ?_
  unfold Workspace.resolve
  split_ifs
  · refine Proc.wp_bind_of (P := fun r s' => Since s s') (Proc.wp_mapErr.2
      (confineToRoot_spec hq)) (fun _ s₁ hs₁ => ⟨hs₁, .inr rfl⟩) fun e s₁ hs₁ => ⟨hs₁, .inl ?_⟩
    rcases e with e | _ <;> exact ⟨_, rfl⟩
  · exact ⟨Since.refl s, .inr rfl⟩

/-- What a pipeline does from a moment on, it does from a quiet moment before. -/
theorem Ended.since {β : Type} {path : PathBuf} {request : Request} {view : β → Response}
    {s₁ s₂ : State h} {r : Exec ε β} (hs : Since s₀ s₁) (hr : Ended path request view s₁ s₂ r) :
    Ended path request view s₀ s₂ r := by
  rcases hr with hr | ⟨base, bytes, success, hf, rfl, hacc, hi⟩
  · exact .inl ⟨hr.1, hr.2.trans hs.installs⟩
  · refine .inr ⟨base, bytes, success, ?_, rfl, hacc, by rw [hi, hs.installs]⟩
    rcases hf with hf | hf
    · refine .inl ?_
      rw [hf, World.contentAt, World.fileAt, hs.entries, hs.files]; rfl
    · exact .inr hf

/-- Validation, the path, and the blocking pipeline on it. -/
theorem pipeline_spec {β : Type} (hq : rules.Quiet) {workspace : Workspace} (request : Request)
    {view : β → Response} {operation : String} {v : Exec ProtocolError Unit}
    {blocking : PathBuf → Op h ProtocolError β} (s : State h)
    (hblocking : ∀ s, (blocking (workspace.pathOf request)).wp (step rules who) (fun r s' =>
      Ended (workspace.pathOf request) request view s s' r) s) :
    (do
      Proc.ofExec v
      let path ← workspace.resolvePath request.filePath
      spawnBlocking operation path (blocking path) : Op h _ _).wp (step rules who)
      (fun r s' => Ended (workspace.pathOf request) request view s s' r) s := by
  refine wp_ofExec_stop rfl (fun _ _ => ?_) fun r s' hr => .inl hr
  refine Proc.wp_bind_of (resolvePath_spec hq) (fun path s₁ hr => ?_) fun e s₁ hr =>
    .inl ⟨⟨e, rfl⟩, hr.1.installs⟩
  obtain ⟨hs₁, ⟨_, he⟩ | he⟩ := hr <;> cases he
  refine Proc.wp_onPanic_of (hblocking s₁) (fun r' s' hr => hr.since hs₁) fun s' hr => ?_
  rcases hr with hr | ⟨_, _, _, _, he, -⟩
  · exact .inl ⟨⟨_, rfl⟩, hr.2.trans hs₁.installs⟩
  · cases he

/-- A pipeline whose success is answered as a response. -/
theorem ended_answered {β : Type} {path : PathBuf} {request : Request} {view : β → Response}
    {x : Op h ProtocolError β} {s : State h}
    (hx : x.wp (step rules who) (fun r s' => Ended path request view s s' r) s) :
    (do
      let success ← x
      pure (view success) : Op h _ _).wp (step rules who)
      (fun r s' => Ended path request id s s' r) s := by
  refine Proc.wp_bind_of hx (fun success s' hr => ?_) fun e s' hr => ?_
  · rcases hr with ⟨⟨_, he⟩, -⟩ | ⟨base, bytes, success', hf, he, hacc, hi⟩
    · cases he
    · cases he; exact .inr ⟨base, bytes, _, hf, rfl, hacc, hi⟩
  · rcases hr with ⟨-, hi⟩ | ⟨_, _, _, _, he, -⟩
    · exact .inl ⟨⟨e, rfl⟩, hi⟩
    · cases he

theorem serve_spec (hq : rules.Quiet) (workspace : Workspace) (request : Request) (s : State h) :
    (serve workspace request : Op h _ _).wp (step rules who) (fun r s' =>
      Ended (workspace.pathOf request) request id s s' r) s := by
  cases request with
  | edit request => exact ended_answered (pipeline_spec hq (.edit request) s fun _ => editBlocking_spec hq)
  | write request =>
    exact ended_answered (pipeline_spec hq (.write request) s fun _ => writeBlocking_spec hq)

/-- Nobody else takes a step; every call may fail. -/
def alone : Rules h := fun _ _ x => x.events.isEmpty

theorem alone_quiet : (alone : Rules h).Quiet := fun _ _ _ hx => List.isEmpty_iff.1 hx

/-- **End-to-end atomicity and truthful success**, whichever calls fail: an error comes without any
    rename or link, and a success with exactly one, of the reference result onto the destination,
    which the response describes. -/
theorem serve_atomic {workspace : Workspace} {request : Request} {xs : List Choice}
    {r : Exec ProtocolError Response} {s s' : State h}
    (hrun : Prog.runs (step alone who) xs (serve workspace request, s) = some (.ret r, s')) :
    (∀ e, r = .error e → s'.installs = s.installs) ∧
    ∀ response, r = .ok response → ∃ base bytes, Found s s' (workspace.pathOf request) base ∧
      Accomplishes h.contentId base bytes request response ∧
      s'.installs = (workspace.pathOf request, some bytes) :: s.installs := by
  have hend := Proc.wp_runs (serve_spec alone_quiet workspace request s) hrun
  constructor
  · rintro e rfl
    rcases hend with hr | ⟨_, _, _, _, he, -⟩
    · exact hr.2
    · cases he
  · rintro response rfl
    rcases hend with ⟨⟨_, he⟩, -⟩ | ⟨base, bytes, _, hf, he, hacc, hi⟩
    · cases he
    · cases he; exact ⟨base, bytes, hf, hacc, hi⟩

end

/-- A write that makes a new file, of which every call does what it is asked to. -/
theorem serve_atomic_create : ∃ response s',
    Prog.runs (step alone 0) (List.replicate 19 {})
      (serve ⟨["w"], false, .full⟩ (.write ⟨"f", ⟨[97, 10], by decide⟩, .absent⟩),
        (⟨.sample ["w", "f"] none, []⟩ : State Host.sample)) = some (.ret (.ok response), s') ∧
      ∃ base bytes, Found ⟨.sample ["w", "f"] none, []⟩ s' ["w", "f"] base ∧
      Accomplishes Host.sample.contentId base bytes
        (.write ⟨"f", ⟨[97, 10], by decide⟩, .absent⟩) response ∧
      s'.installs = [(["w", "f"], some bytes)] := by
  have hrun : ∃ response s', Prog.runs (step alone 0) (List.replicate 19 {})
      (serve ⟨["w"], false, .full⟩ (.write ⟨"f", ⟨[97, 10], by decide⟩, .absent⟩),
        (⟨.sample ["w", "f"] none, []⟩ : State Host.sample)) = some (.ret (.ok response), s') :=
    ⟨_, _, rfl⟩
  obtain ⟨response, s', hrun⟩ := hrun
  exact ⟨response, s', hrun, (serve_atomic hrun).2 response rfl⟩

end Hashline
