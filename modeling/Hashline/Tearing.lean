/-
  A file rewritten in place while it is loaded: what a load answers is a whole
  content, unless the clock is read too late.
-/
import Hashline.Readers

namespace Hashline

open Machine

variable {h : Host} {ε α : Type}

/-! ## One rewrite -/

/-- While the file is loaded it is rewritten in place once at most, with as many bytes, and both its
    times become the moment rounded down by less than two seconds. -/
def lone (path : PathBuf) : Rules h := fun s _ x => match x.events with
  | [] => true
  | [(tick, .rewrite loc content mtime _)] => (s.trace.all fun d => d.choice.events.isEmpty) &&
      decide (loc = h.locate path) && decide (Fresh (s.world.now + tick) mtime) &&
      (s.world.contentAt loc).any fun old => old.length == content.length
  | _ => false

/-- Bytes were read. -/
def Did.reads (d : Did h) : Bool := match d.call, d.answer with
  | .read .., .ok chunk => !chunk.isEmpty
  | _, _ => false

def Did.opens (d : Did h) : Bool := match d.call with
  | .openRead _ => true
  | _ => false

/-- Somebody stepped before the call, and the file's metadata is as before that. -/
def Did.unnoticed (f : ℕ) (d : Did h) : Bool :=
  !d.choice.events.isEmpty && d.was.metadata f == d.before.metadata f

/-- Of the calls, the latest first: bytes were read before a step that left the metadata. -/
def cut (f : ℕ) : List (Did h) → Bool
  | [] => false
  | d :: earlier => d.unnoticed f && earlier.any Did.reads || cut f earlier

/-- Of the calls, the latest first: bytes were read before a step that left the metadata, and after. -/
def torn (f : ℕ) : List (Did h) → Bool
  | [] => false
  | d :: earlier => d.reads && cut f (d :: earlier) || torn f earlier

/-- The calls since a file was opened. -/
def State.sinceOpen (s : State h) : List (Did h) := s.trace.takeWhile fun d => !d.opens

/-- The file's change time or modification time is at most two seconds past, or none. -/
def World.recent (w : World h) (f : ℕ) : Bool :=
  withinRacyWindow w.now (w.files f).mtime.toSystemTime ||
    withinRacyWindow w.now (w.files f).ctime.toSystemTime

/-- Where a rewrite has left the metadata of a file between two reads, the clock sample of the stamp
    that follows comes while the file's times are recent. -/
def prompt (path : PathBuf) : Rules h := fun s c x => lone path s c x && match c, s.trace with
  | .now, d :: _ => match d.call with
    | .fstat f => !torn f s.sinceOpen || (s.world.wait x.tick).recent f
    | _ => true
  | _, _ => true

/-- Somebody has stepped. -/
def State.Rewritten (s : State h) : Prop := ∃ d ∈ s.trace, d.choice.events ≠ []

/-- The rewrite came before the last call. -/
structure Rewrote (path : PathBuf) (s s' : State h) : Prop where
  entries : s'.world.entries = s.world.entries
  length : ∀ f, s.world.entries (h.locate path) = some f →
    (s'.world.files f).content.length = (s.world.files f).content.length
  rewritten : s'.Rewritten

section
variable {path : PathBuf} {f who : ℕ} {s s' : State h} {c : Call h} {x : Choice}

theorem prompt_lone (hr : prompt path s c x = true) : lone path s c x = true := (Bool.and_eq_true_iff.1 hr).1

/-- After the rewrite nobody steps. -/
theorem events_of_rewritten (hs : s.Rewritten) (hr : lone path s c x = true) : x.events = [] := by
  obtain ⟨d, hd, hne⟩ := hs
  unfold lone at hr
  split at hr
  · assumption
  · simp only [Bool.and_eq_true, List.all_eq_true, List.isEmpty_iff] at hr
    exact absurd (hr.1.1.1 d hd) hne
  · cases hr

/-- What comes before a call: time, or the rewrite. -/
theorem lone_elapsed {w : World h} (hr : lone path s c x = true) (hw : x.elapsed s.world = some w) :
    x.events = [] ∧ w = s.world.wait x.tick ∨ x.events ≠ [] ∧ w.entries = s.world.entries ∧
      ∀ f, s.world.entries (h.locate path) = some f →
        (w.files f).content.length = (s.world.files f).content.length := by
  unfold lone at hr
  split at hr
  · rename_i he
    rw [Choice.elapsed, he] at hw
    cases hw
    exact .inl ⟨he, rfl⟩
  · rename_i tick loc content mtime ctime he
    simp only [Bool.and_eq_true, decide_eq_true_eq, Option.any_eq_true, beq_iff_eq] at hr
    obtain ⟨⟨⟨-, rfl⟩, -⟩, old, hold, hlen⟩ := hr
    obtain ⟨g, hg, rfl⟩ := (World.contentAt_eq_some _).1 hold
    rw [Choice.elapsed, he, elapse, Event.apply] at hw
    simp only [World.wait_entries, hg, Option.bind_eq_bind, Option.bind_some] at hw
    split_ifs at hw
    · cases hw
      refine .inr ⟨by rw [he]; exact List.cons_ne_nil _ _, rfl, fun f hf => ?_⟩
      rw [hg, Option.some.injEq] at hf
      subst hf
      rw [World.wait_files, World.setFile_self]
      exact hlen.symm
    · cases hw
  · cases hr

/-! ## The calls so far -/

theorem sinceOpen_cons {d : Did h} (ht : s'.trace = d :: s.trace) (hd : d.opens = false) :
    s'.sinceOpen = d :: s.sinceOpen := by
  rw [State.sinceOpen, ht, List.takeWhile_cons, hd]
  rfl

theorem cut_cons {d : Did h} {earlier : List (Did h)} (hc : cut f earlier = true) :
    cut f (d :: earlier) = true := by
  rw [cut, hc, Bool.or_true]

theorem torn_cons {d : Did h} {earlier : List (Did h)} (hc : torn f earlier = true) :
    torn f (d :: earlier) = true := by
  rw [torn, hc, Bool.or_true]

theorem torn_of_cut {d : Did h} {earlier : List (Did h)} (hd : d.reads = true)
    (hc : cut f (d :: earlier) = true) : torn f (d :: earlier) = true := by
  rw [torn, hd, hc]
  rfl

/-! ## Before the rewrite and after -/

/-- As `prompt`, and nobody steps. -/
def still (path : PathBuf) : Rules h := fun s c x => prompt path s c x && x.events.isEmpty

theorem still_quiet : (still path : Rules h).Quiet := fun _ _ _ hr =>
  List.isEmpty_iff.1 (Bool.and_eq_true_iff.1 hr).2

theorem Rewritten.step {rules : Rules h} {a : Answer c} (hs : s.Rewritten)
    (hst : step rules who x c s = some (a, s')) : s'.Rewritten := by
  obtain ⟨d, hd, hne⟩ := hs
  obtain ⟨-, w, -, -, ht⟩ := step_eq_some.1 hst
  exact ⟨d, by rw [ht]; exact List.mem_cons_of_mem _ hd, hne⟩

/-- After the rewrite nobody steps, to the end. -/
theorem wp_still {p : Op h ε α} {Q : Exec ε α → State h → Prop} (hs : s.Rewritten)
    (hp : p.wp (step (still path) who) Q s) : p.wp (step (prompt path) who) Q s := by
  induction (p : Prog (Call h) Answer (Exec ε α)) generalizing s with
  | ret r => exact hp
  | call c k ih =>
    intro x a s' hst
    refine ih a (Rewritten.step hs hst) (hp x a s' ?_)
    obtain ⟨hr, hw⟩ := step_eq_some.1 hst
    refine step_eq_some.2 ⟨?_, hw⟩
    rw [still, hr, events_of_rewritten hs (prompt_lone hr)]
    rfl

/-- One call: nobody has stepped before it, or the rewrite came there. -/
theorem wp_lone {k : Answer c → Op h ε α} {Q : Exec ε α → State h → Prop} (hc : c.Inert)
    (hk : ∀ x a s', Since s s' → act who x c s'.world = some (a, s'.world) →
      s'.trace = ⟨who, x, c, a, s.world, s'.world, s'.world⟩ :: s.trace →
      (k a).wp (step (prompt path) who) Q s')
    (hnew : ∀ x a s', Rewrote path s s' → act who x c s'.world = some (a, s'.world) →
      s'.trace = ⟨who, x, c, a, s.world, s'.world, s'.world⟩ :: s.trace → x.events ≠ [] →
      (k a).wp (step (still path) who) Q s') :
    (Proc.ask c >>= k).wp (step (prompt path) who) Q s := by
  refine wp_call fun x w a s' hr hw ha ht => ?_
  have heq := act_inert hc ha
  rw [← heq] at ha ht hw
  rcases lone_elapsed (prompt_lone hr) hw with ⟨-, hw'⟩ | ⟨hne, hen, hlen⟩
  · refine hk x a s' ⟨⟨x.tick, hw'⟩, [_], ht, fun d hd => ?_⟩ ha ht
    rw [List.mem_singleton] at hd
    subst hd
    cases c <;> first | rfl | exact hc.elim
  · have hs' : s'.Rewritten := ⟨_, by rw [ht]; exact List.mem_cons_self, hne⟩
    exact wp_still hs' (hnew x a s' ⟨hen, hlen, hs'⟩ ha ht hne)

/-! ## What is concluded from a read -/

/-- What the path held before, or holds. -/
def Held (s₀ : State h) (loc : Loc) (bytes : Bytes) (s : State h) : Prop :=
  s₀.world.contentAt loc = some bytes ∨ s.world.contentAt loc = some bytes

/-- A candidate is a whole content. -/
def Settles (s₀ : State h) (loc : Loc) (r : Exec SnapshotError (Option (ValidatedText × FileStamp)))
    (s : State h) : Prop := ∀ c, r = .ok (some c) → Held s₀ loc c.1.bytes s

/-- `read_candidate` from the end of the read loop on. -/
def concluded (path : PathBuf) (f : ℕ) (before : FileStamp) (bytes : Bytes) :
    Op h SnapshotError (Option (ValidatedText × FileStamp)) := do
  let afterMetadata ← Proc.orElse (Snapshot.ioError path "read final metadata for") (← Op.fstat f)
  let after ← Op.fromMetadata afterMetadata
  Snapshot.judge path before after bytes

/-- A candidate is of the bytes that were read, and the final stamp. -/
theorem meets_judge_bytes (path : PathBuf) (before after : FileStamp) (bytes : Bytes) :
    (Snapshot.judge path before after bytes : Op h _ _).Meets
      (fun o => ∀ c, o = some c → c.1.bytes = bytes ∧ c.2 = after) Anything := by
  refine (Snapshot.meets_pathStamp path).bind fun _ _ => ?_
  split_ifs
  · exact fun c hc => by cases hc
  · refine (Snapshot.meets_confirmed path after bytes).bind fun ok _ => ?_
    cases ok with
    | false => exact fun c hc => by cases hc
    | true =>
      rcases ht : ValidatedText.tryFromBytes bytes with (e | _) | text
      · trivial
      · exact absurd ht ValidatedText.noPanic_tryFromBytes
      · intro c hc
        cases hc
        exact ⟨ValidatedText.tryFromBytes_eq_ok.1 ht, rfl⟩

theorem meets_concluded (path : PathBuf) (f : ℕ) (before : FileStamp) (bytes : Bytes) :
    (concluded path f before bytes : Op h _ _).Meets
      (fun o => ∀ c, o = some c → c.1.bytes = bytes) Anything := by
  refine Proc.meets_call fun a => (meets_orElse_any _).bind fun metadata _ => ?_
  refine (meets_fromMetadata _).bind fun after _ => ?_
  exact (meets_judge_bytes path before after bytes).mono (fun o ho c hc => (ho c hc).1) fun _ _ => trivial

variable {s₀ : State h} {before : FileStamp} {bytes : Bytes}

/-- What was there before is concluded rightly. -/
theorem concluded_old {rules : Rules h} (hb : s₀.world.contentAt (h.locate path) = some bytes) :
    (concluded path f before bytes).wp (step rules who) (Settles s₀ (h.locate path)) s :=
  Proc.wp_mono ((meets_concluded path f before bytes).wp s) fun r s' hr c hc => by
    subst hc
    rw [hr c rfl]
    exact .inl hb

/-- Calls that change nothing, after the rewrite. -/
theorem since_of_all {β : Type} {p : Op h ε β} (hp : p.All Call.Calm) {Q : Exec ε β → State h → Prop}
    (hw : p.wp (step (still path) who) Q s) :
    p.wp (step (still path) who) (fun r s' => Q r s' ∧ s'.world.contentAt = s.world.contentAt) s := by
  refine Proc.wp_of_all hp (fun x c t a t' hc ht hst => ?_) rfl hw
  obtain ⟨hr, w, hw, ha, -⟩ := step_eq_some.1 hst
  rw [Choice.elapsed, still_quiet _ _ _ hr] at hw
  cases hw
  rw [act_calm hc ha, ← ht]
  rfl

theorem concluded_calm (path : PathBuf) (f : ℕ) (before : FileStamp) (bytes : Bytes) :
    (concluded path f before bytes : Op h _ _).All Call.Calm := by
  refine Proc.All.bind (Proc.all_ask trivial) fun a => ?_
  refine Proc.All.bind (Proc.all_orElse _ _) fun metadata => ?_
  exact Proc.All.bind (fromMetadata_calm metadata) fun after => Snapshot.judge_calm path before after bytes

/-- What is there after the rewrite is concluded rightly. -/
theorem concluded_new (hb : s.world.contentAt (h.locate path) = some bytes) :
    (concluded path f before bytes).wp (step (still path) who) (Settles s₀ (h.locate path)) s :=
  Proc.wp_mono (since_of_all (concluded_calm path f before bytes)
    ((meets_concluded path f before bytes).wp s)) fun r s' hr c hc => by
      obtain ⟨hm, hkeep⟩ := hr
      subst hc
      rw [hm c rfl]
      exact .inr (by rw [hkeep]; exact hb)

/-- Bytes that a racy stamp is taken with are read again. -/
theorem confirmed_racy {after : FileStamp} (hr : after.racy = true) :
    (Snapshot.confirmed path after bytes).wp (step (still path) who)
      (fun r s' => r = .ok true → s'.world.contentAt (h.locate path) = some bytes) s := by
  rw [Snapshot.confirmed, if_pos hr]
  refine Proc.wp_bind_of (fsRead_spec still_quiet (Since.refl s)) (fun r s₁ hr => ?_)
    fun e s₁ _ he => by cases he
  obtain ⟨hs₁, ⟨e, he, -⟩ | ⟨g, hg, he⟩⟩ := hr
  · cases he
    show Proc.wp _ (if e.kind = .notFound then _ else _) _ _
    split_ifs <;> exact fun he => by cases he
  · cases he
    intro he
    rw [Except.ok.injEq, decide_eq_true_eq] at he
    rw [← hs₁.entries] at hg
    rw [s₁.world.contentAt_of_entry hg, hs₁.files, he]

/-- After the rewrite, stamps that differ or a racy one leave no other bytes. -/
theorem judge_racy {after : FileStamp} (hr : (before != after) = true ∨ after.racy = true) :
    (Snapshot.judge path before after bytes).wp (step (still path) who) (Settles s₀ (h.locate path)) s := by
  refine Proc.wp_bind_of Proc.wp_true (fun stamp s₁ _ => ?_) fun e s₁ _ c hc => by cases hc
  show Proc.wp _ (if _ then _ else _) _ _
  split_ifs with hsame
  · exact fun c hc => by cases hc
  have hracy : after.racy = true := by
    rcases hr with hne | hracy
    · rw [hne] at hsame
      exact absurd rfl hsame
    · exact hracy
  refine Proc.wp_bind_of (confirmed_racy hracy) (fun ok s₂ hok => ?_) fun e s₂ _ c hc => by cases hc
  cases ok with
  | false => exact fun c hc => by cases hc
  | true =>
    refine Snapshot.wp_contract ValidatedText.noPanic_tryFromBytes (fun text ht c hc => ?_)
      fun r' hr' c hc => ?_
    · cases hc
      rw [ValidatedText.tryFromBytes_eq_ok.1 ht]
      exact .inr (hok rfl)
    · obtain ⟨e, rfl, -⟩ := hr' True
      cases hc

/-- What tells a torn read: the stamps will differ, or bytes were read before the rewrite and after. -/
def Told (f : ℕ) (m : Metadata) (s : State h) : Prop :=
  s.world.metadata f ≠ m ∨ torn f s.sinceOpen = true

theorem recent_racy {w : World h} (hr : w.recent f = true) :
    (FileStamp.fromMetadata (w.metadata f) w.now).racy = true := hr

/-- A torn read is told, and not concluded from. -/
theorem concluded_told {m : Metadata} {t : ℤ} (hs : Told f m s) :
    (concluded path f (.fromMetadata m t) bytes).wp (step (still path) who)
      (Settles s₀ (h.locate path)) s := by
  refine wp_quiet still_quiet fun x a s₁ _ ha ht => ?_
  obtain ⟨hw, ⟨e, -, rfl⟩ | rfl⟩ := act_fstat ha
  · exact fun c hc => by cases hc
  rw [← hw] at ha ht
  refine Proc.wp_bind.2 (wp_quiet still_quiet fun y a s₂ hr ha₂ _ => ?_)
  obtain ⟨rfl, hw₂⟩ := Prod.mk.inj (Option.some.inj ha₂)
  refine judge_racy ?_
  rcases hs with hne | htorn
  · refine .inl ?_
    rw [bne, Bool.not_eq_true', Bool.eq_false_iff]
    intro heq
    rw [FileStamp.fromMetadata_eq_iff] at heq
    exact hne heq.symm
  · have hopen : s₁.sinceOpen = _ :: s.sinceOpen := sinceOpen_cons ht rfl
    have hrule : torn f s₁.sinceOpen = false ∨ (s₁.world.wait y.tick).recent f = true := by
      have hp := (Bool.and_eq_true_iff.1 (Bool.and_eq_true_iff.1 hr).1).2
      simp only [ht] at hp
      simpa using hp
    rcases hrule with hf | hrecent
    · rw [hopen, torn_cons htorn] at hf
      cases hf
    · have hmeta : (s.world.wait x.tick).metadata f = (s₁.world.wait y.tick).metadata f := by
        rw [hw]
        rfl
      rw [hmeta]
      exact .inr (recent_racy hrecent)

/-! ## The read loop -/

/-- Calls of the read loop. -/
def Call.Grows : Call h → Prop
  | .read .. | .reserve _ => True
  | _ => False

theorem growBy_grows (capacity : ℕ) (bytes chunk : Bytes) :
    (Snapshot.growBy capacity bytes chunk : Op h _ _).All Call.Grows := by
  refine Proc.All.bind (Proc.all_ofExec _) fun _ => ?_
  split_ifs
  · refine Proc.All.bind (Proc.all_ask trivial) fun granted => ?_
    change Bool at granted
    cases granted
    · exact Proc.all_fail _
    · exact Proc.all_pure _
  · exact Proc.all_pure _

theorem readLoop_grows (path : PathBuf) (f : ℕ) : ∀ (rounds capacity : ℕ) (bytes : Bytes),
    (Snapshot.readLoop path f rounds capacity bytes : Op h _ _).All Call.Grows
  | 0, _, bytes => Proc.all_fail _
  | rounds + 1, capacity, bytes => by
    refine Proc.All.bind (Proc.all_ask trivial) fun a => ?_
    refine Proc.All.bind (Proc.all_orElse _ _) fun chunk => ?_
    split_ifs
    · exact Proc.all_pure _
    · exact Proc.All.bind (growBy_grows capacity bytes chunk) fun capacity =>
        readLoop_grows path f rounds capacity _

/-- What was read is what was there, or after the rewrite what is, or a torn read is told. -/
def Gathers (s₀ : State h) (loc : Loc) (f : ℕ) (r : Exec SnapshotError Bytes) (s : State h) : Prop :=
  ∀ bytes, r = .ok bytes → s₀.world.contentAt loc = some bytes ∨
    s.Rewritten ∧ (s.world.contentAt loc = some bytes ∨ Told f (s₀.world.metadata f) s)

/-- The rewrite came, and it will be told or came after bytes that were read. -/
structure Suspect (s₀ : State h) (path : PathBuf) (f : ℕ) (s : State h) : Prop where
  length : (s.world.files f).content.length = (s₀.world.files f).content.length
  rewritten : s.Rewritten
  doubt : s.world.metadata f ≠ s₀.world.metadata f ∨ cut f s.sinceOpen = true

/-- A torn read stays told. -/
theorem gathers_told {p : Op h SnapshotError Bytes} (hp : p.All Call.Grows) (hs : s.Rewritten)
    (ht : Told f (s₀.world.metadata f) s) {loc : Loc} :
    p.wp (step (still path) who) (Gathers s₀ loc f) s := by
  refine Proc.wp_mono (Proc.wp_of_all (I := fun s => s.Rewritten ∧ Told f (s₀.world.metadata f) s) hp
    (fun x c t a t' hc ht hst => ⟨Rewritten.step ht.1 hst, ?_⟩) ⟨hs, ht⟩ Proc.wp_true)
    fun r s' hr bytes _ => .inr ⟨hr.2.1, .inr hr.2.2⟩
  obtain ⟨hr, w, hw, ha, htr⟩ := step_eq_some.1 hst
  rw [Choice.elapsed, still_quiet _ _ _ hr] at hw
  cases hw
  have hin : c.Inert := by cases c <;> trivial
  have hopen : t'.sinceOpen = _ :: t.sinceOpen :=
    sinceOpen_cons htr (by cases c <;> first | rfl | exact hc.elim)
  rcases ht.2 with hne | htorn
  · refine .inl ?_
    rw [act_inert hin ha]
    exact hne
  · exact .inr (by rw [hopen]; exact torn_cons htorn)

/-- All is read after the rewrite. -/
theorem gathers_new (hs : s.Rewritten) (hf : s.world.entries (h.locate path) = some f) {rounds capacity : ℕ}
    (hb : bytes <+: (s.world.files f).content) :
    (Snapshot.readLoop path f rounds capacity bytes).wp (step (still path) who)
      (Gathers s₀ (h.locate path) f) s := by
  refine Proc.wp_mono (Proc.wp_invariant (fun _ _ _ _ _ => Rewritten.step) hs
    (Snapshot.readLoop_spec still_quiet rounds (Since.refl s) hb)) fun r s' hr bytes' he => ?_
  obtain ⟨⟨hsince, ⟨e, hr, -⟩ | hr⟩, hs'⟩ := hr
  · rw [he] at hr
    cases hr
  · rw [he, Except.ok.injEq] at hr
    subst hr
    refine .inr ⟨hs', .inl ?_⟩
    rw [← hsince.entries] at hf
    rw [s'.world.contentAt_of_entry hf, hsince.files]

/-- A call that the rewrite came before, when bytes had been read. -/
theorem suspect_of {a : Answer c} (hs : Since s₀ s) (hn : Rewrote path s s')
    (hf : s₀.world.entries (h.locate path) = some f)
    (ht : s'.trace = ⟨who, x, c, a, s.world, s'.world, s'.world⟩ :: s.trace) (he : x.events ≠ [])
    (hc : c.Grows) (hread : s.sinceOpen.any Did.reads = true) : Suspect s₀ path f s' := by
  rw [← hs.entries] at hf
  refine ⟨by rw [hn.length f hf, hs.files], hn.rewritten, ?_⟩
  by_cases hm : s'.world.metadata f = s₀.world.metadata f
  · refine .inr ?_
    rw [sinceOpen_cons ht (by cases c <;> first | rfl | exact hc.elim), cut, hread, Did.unnoticed]
    simp [he, hm, hs.metadata]
  · exact .inl hm

theorem Suspect.step {a : Answer c} (hs : Suspect s₀ path f s) (hw : s'.world = s.world.wait x.tick)
    (ht : s'.trace = ⟨who, x, c, a, s.world, s'.world, s'.world⟩ :: s.trace) (hc : c.Grows) :
    Suspect s₀ path f s' := by
  obtain ⟨d, hd, hne⟩ := hs.rewritten
  refine ⟨by rw [hw]; exact hs.length, ⟨d, by rw [ht]; exact List.mem_cons_of_mem _ hd, hne⟩, ?_⟩
  rw [sinceOpen_cons ht (by cases c <;> first | rfl | exact hc.elim), hw]
  exact hs.doubt.imp_right cut_cons

/-- A round of the loop whose bytes were read after the rewrite: either there were none, and those
    from before are all, or the read is torn. -/
theorem gathers_round (hs : Suspect s₀ path f s) (hf : s₀.world.entries (h.locate path) = some f)
    (hb : bytes <+: (s₀.world.files f).content) {rounds capacity n offset most : ℕ} (hn : 0 < n)
    {chunk : Bytes} (hchunk : chunk = ((s.world.files f).content.drop bytes.length).take n)
    {w w' w'' : World h} {earlier : List (Did h)}
    (ht : s.trace = ⟨who, x, .read f offset most, .ok chunk, w, w', w''⟩ :: earlier) :
    (if chunk = [] then pure bytes else do
      let capacity ← Snapshot.growBy capacity bytes chunk
      Snapshot.readLoop path f rounds capacity (bytes ++ chunk) : Op h SnapshotError Bytes).wp
        (step (still path) who) (Gathers s₀ (h.locate path) f) s := by
  split_ifs with hc
  · have hall : (s₀.world.files f).content.length ≤ bytes.length := by
      rw [hchunk, List.take_eq_nil_iff, List.drop_eq_nil_iff, hs.length] at hc
      omega
    rintro _ ⟨⟩
    rw [s₀.world.contentAt_of_entry hf, hb.eq_of_length (Nat.le_antisymm hb.length_le hall)]
    exact .inl rfl
  · refine gathers_told (Proc.All.bind (growBy_grows _ _ _) fun _ => readLoop_grows path f _ _ _)
      hs.rewritten (hs.doubt.imp_right fun hcut => ?_)
    rw [State.sinceOpen, ht, List.takeWhile_cons] at hcut ⊢
    refine torn_of_cut ?_ hcut
    simpa [Did.reads] using hc

/-- The loop goes on after the rewrite. -/
theorem gathers_suspect (hs : Suspect s₀ path f s) (hf : s₀.world.entries (h.locate path) = some f)
    (hb : bytes <+: (s₀.world.files f).content) : ∀ {rounds capacity : ℕ},
    (Snapshot.readLoop path f rounds capacity bytes).wp (step (still path) who)
      (Gathers s₀ (h.locate path) f) s
  | 0, capacity => fun b he => by cases he
  | rounds + 1, capacity => by
    refine wp_quiet still_quiet fun x a s₁ _ ha ht => ?_
    obtain ⟨hw, ⟨e, -, rfl⟩ | ⟨-, rfl⟩ | rfl⟩ := act_read ha
    · exact fun b he => by cases he
    · exact fun b he => by cases he
    rw [← hw] at ht ⊢
    refine gathers_round (hs.step hw ht trivial) hf hb ?_ rfl ht
    rw [Choice.moved, readBufferBytes]
    omega

/-- Making room, before the rewrite or as it comes. -/
theorem growBy_lone (hs : Since s₀ s) (hf : s₀.world.entries (h.locate path) = some f)
    (hread : s.sinceOpen.any Did.reads = true) {capacity : ℕ} {chunk : Bytes} :
    (Snapshot.growBy capacity bytes chunk).wp (step (prompt path) who) (fun _ s' =>
      Since s₀ s' ∧ s'.sinceOpen.any Did.reads = true ∨ Suspect s₀ path f s') s := by
  refine Snapshot.wp_contract (noPanic_validateFileSize _) (fun _ _ => ?_) fun _ _ => .inl ⟨hs, hread⟩
  split_ifs
  · refine wp_lone (c := .reserve _) trivial (fun x a s' hs' _ ht => ?_) fun x a s' hn _ ht he => ?_
    · change Bool at a
      have hkeep : Since s₀ s' ∧ s'.sinceOpen.any Did.reads = true :=
        ⟨hs.trans hs', by rw [sinceOpen_cons ht rfl, List.any_cons, hread, Bool.or_true]⟩
      cases a <;> exact .inl hkeep
    · change Bool at a
      have hsus := suspect_of hs hn hf ht he trivial hread
      cases a <;> exact .inr hsus
  · exact .inl ⟨hs, hread⟩

/-- **The read loop**, from before the rewrite on. -/
theorem gathers_old (hf : s₀.world.entries (h.locate path) = some f) : ∀ (rounds : ℕ) {capacity : ℕ}
    {bytes : Bytes} {s : State h}, Since s₀ s → bytes <+: (s₀.world.files f).content →
    (bytes ≠ [] → s.sinceOpen.any Did.reads = true) →
    (Snapshot.readLoop path f rounds capacity bytes).wp (step (prompt path) who)
      (Gathers s₀ (h.locate path) f) s
  | 0, capacity, bytes, s, _, _, _ => fun b he => by cases he
  | rounds + 1, capacity, bytes, s, hs, hb, hread => by
    refine wp_lone (c := .read f bytes.length readBufferBytes) trivial (fun x a s₁ hs₁ ha ht => ?_)
      fun x a s₁ hn ha ht he => ?_
    · obtain ⟨-, ⟨e, -, rfl⟩ | ⟨-, rfl⟩ | rfl⟩ := act_read ha
      · exact fun b he => by cases he
      · exact fun b he => by cases he
      have hs₁' := hs.trans hs₁
      rw [hs₁'.files] at ht ⊢
      obtain ⟨hgrow, hend⟩ := prefix_read (n := x.moved readBufferBytes) hb
        (by rw [Choice.moved, readBufferBytes]; omega)
      show Proc.wp _ (if ((s₀.world.files f).content.drop bytes.length).take _ = [] then _ else _) _ _
      split_ifs with hc
      · rintro _ ⟨⟩
        rw [s₀.world.contentAt_of_entry hf, hend hc]
        exact .inl rfl
      · have hread₁ : s₁.sinceOpen.any Did.reads = true := by
          rw [sinceOpen_cons ht rfl, List.any_cons, Bool.or_eq_true]
          exact .inl (by simpa [Did.reads] using hc)
        refine Proc.wp_bind_of (growBy_lone hs₁' hf hread₁) (fun capacity s₂ hr => ?_)
          fun e s₂ _ b he => by cases he
        rcases hr with ⟨hs₂, hread₂⟩ | hsus
        · exact gathers_old hf rounds hs₂ hgrow fun _ => hread₂
        · exact wp_still hsus.rewritten (gathers_suspect hsus hf hgrow)
    · obtain ⟨-, ⟨e, -, rfl⟩ | ⟨-, rfl⟩ | rfl⟩ := act_read ha
      · exact fun b he => by cases he
      · exact fun b he => by cases he
      by_cases hnil : bytes = []
      · subst hnil
        have hf₁ : s₁.world.entries (h.locate path) = some f := by rw [hn.entries, hs.entries, hf]
        obtain ⟨hgrow, hend⟩ := prefix_read (n := x.moved readBufferBytes)
          (l := (s₁.world.files f).content) List.nil_prefix (by rw [Choice.moved, readBufferBytes]; omega)
        show Proc.wp _ (if ((s₁.world.files f).content.drop _).take _ = [] then _ else _) _ _
        split_ifs with hc
        · rintro _ ⟨⟩
          refine .inr ⟨hn.rewritten, .inl ?_⟩
          rw [s₁.world.contentAt_of_entry hf₁, ← hend hc]
        · refine Proc.wp_bind_of (Proc.wp_invariant (fun _ _ _ _ _ => Rewritten.step) hn.rewritten
            (Snapshot.growBy_spec still_quiet (Since.refl s₁))) (fun capacity s₂ hr => ?_)
            fun e s₂ _ b he => by cases he
          obtain ⟨⟨hs₂, -⟩, hrewritten⟩ := hr
          rw [← hs₂.entries] at hf₁
          rw [← hs₂.files] at hgrow ⊢
          exact gathers_new hrewritten hf₁ hgrow
      · refine gathers_round (suspect_of hs hn hf ht he trivial (hread hnil)) hf hb ?_ rfl ht
        rw [Choice.moved, readBufferBytes]
        omega

/-! ## An attempt -/

/-- What is concluded of what was gathered. -/
theorem concluded_gathered {rules : Rules h}
    (hrules : ∀ {p : Op h SnapshotError (Option (ValidatedText × FileStamp))}
    {Q}, s.Rewritten → p.wp (step (still path) who) Q s → p.wp (step rules who) Q s) {t : ℤ}
    (hg : Gathers s₀ (h.locate path) f (.ok bytes) s) :
    (concluded path f (.fromMetadata (s₀.world.metadata f) t) bytes).wp (step rules who)
      (Settles s₀ (h.locate path)) s := by
  rcases hg bytes rfl with hb | ⟨hs, hb | ht⟩
  · exact concluded_old hb
  · exact hrules hs (concluded_new hb)
  · exact hrules hs (concluded_told ht)

/-- All is read after the rewrite. -/
theorem readStamped_new (hf : s.world.entries (h.locate path) = some f) :
    (Snapshot.readStamped path f before).wp (step (still path) who) (Settles s₀ (h.locate path)) s :=
  Proc.wp_mono (Snapshot.readStamped_spec still_quiet (Since.refl s) hf) fun r s' hr c hc => by
    obtain ⟨hs', ⟨e, he, -⟩ | he | ⟨c', he, g, t, hg, hb, -⟩⟩ := hr
    · rw [hc] at he
      cases he
    · rw [hc] at he
      cases he
    · rw [hc] at he
      cases he
      rw [← hs'.entries] at hg
      refine .inr ?_
      rw [s'.world.contentAt_of_entry hg, hs'.files, hb]

/-- From the initial stamp on, before the rewrite. -/
theorem readStamped_old (hs : Since s₀ s) (hf : s₀.world.entries (h.locate path) = some f) {t : ℤ} :
    (Snapshot.readStamped path f (.fromMetadata (s₀.world.metadata f) t)).wp (step (prompt path) who)
      (Settles s₀ (h.locate path)) s := by
  refine Snapshot.wp_contract (noPanic_validateFileSize _) (fun _ _ => ?_) fun r' hr' c hc => ?_
  · refine wp_lone (c := .reserve _) trivial (fun x a s₁ hs₁ _ _ => ?_) fun x a s₁ hn _ _ _ => ?_
    · change Bool at a
      cases a with
      | false => exact fun c hc => by cases hc
      | true =>
        refine Proc.wp_bind_of (gathers_old hf _ (hs.trans hs₁) List.nil_prefix (absurd rfl))
          (fun bytes s₂ hg => ?_) fun e s₂ _ c hc => by cases hc
        exact concluded_gathered (fun hs hp => wp_still hs hp) hg
    · change Bool at a
      cases a with
      | false => exact fun c hc => by cases hc
      | true =>
        have hf₁ : s₁.world.entries (h.locate path) = some f := by rw [hn.entries, hs.entries, hf]
        refine Proc.wp_bind_of (P := Gathers s₀ (h.locate path) f)
          (gathers_new hn.rewritten hf₁ List.nil_prefix) (fun bytes s₂ hg => ?_)
          fun e s₂ _ c hc => by cases hc
        exact concluded_gathered (fun _ hp => hp) hg
  · obtain ⟨e, rfl, -⟩ := hr' True
    cases hc

/-- An attempt that is made before the rewrite, or as it comes. -/
theorem readCandidate_old (hs : Since s₀ s) :
    (Snapshot.readCandidate path).wp (step (prompt path) who) (Settles s₀ (h.locate path)) s := by
  refine wp_lone (c := .openRead path) trivial (fun x a s₁ hs₁ ha _ => ?_) fun x a s₁ hn ha _ _ => ?_
  · rcases (act_openRead ha).2 with ⟨e, -, rfl⟩ | ⟨f, hf, rfl⟩ | ⟨-, rfl⟩
    · exact fun c hc => by cases hc
    · have hs₁' := hs.trans hs₁
      rw [hs₁'.entries] at hf
      refine wp_lone (c := .fstat f) trivial (fun x a s₂ hs₂ ha _ => ?_) fun x a s₂ hn ha _ _ => ?_
      · obtain ⟨-, ⟨e, -, rfl⟩ | rfl⟩ := act_fstat ha
        · exact fun c hc => by cases hc
        have hs₂' := hs₁'.trans hs₂
        rw [hs₂'.metadata]
        refine Proc.wp_bind.2 (wp_lone (c := .now) trivial (fun x t s₃ hs₃ _ _ => ?_)
          fun x t s₃ hn _ _ _ => ?_)
        · exact readStamped_old (hs₂'.trans hs₃) hf
        · exact readStamped_new (by rw [hn.entries, hs₂'.entries, hf])
      · obtain ⟨-, ⟨e, -, rfl⟩ | rfl⟩ := act_fstat ha
        · exact fun c hc => by cases hc
        refine wp_fromMetadata still_quiet (Since.refl s₂) fun s₃ hs₃ => ?_
        exact readStamped_new (by rw [hs₃.entries, hn.entries, hs₁'.entries, hf])
    · exact fun c hc => by cases hc
  · rcases (act_openRead ha).2 with ⟨e, -, rfl⟩ | ⟨f, hf, rfl⟩ | ⟨-, rfl⟩
    · exact fun c hc => by cases hc
    · refine wp_fstat still_quiet (Since.refl s₁) (fun s₂ hs₂ => ?_) fun e s₂ _ _ c hc => by cases hc
      refine wp_fromMetadata still_quiet hs₂ fun s₃ hs₃ => ?_
      exact readStamped_new (by rw [hs₃.entries, hf])
    · exact fun c hc => by cases hc

/-! ## The load -/

/-- A snapshot is of a whole content. -/
def Whole (s₀ : State h) (loc : Loc) (r : Exec SnapshotError (Snapshot h.contentId)) (s : State h) :
    Prop := ∀ snapshot, r = .ok snapshot → Held s₀ loc snapshot.bytes s

theorem whole_new {r : Exec SnapshotError (Snapshot h.contentId)} (hs : Since s s') {P : Prop}
    (hr : Failed r P ∨ ∃ snapshot, r = .ok snapshot ∧ Snapshot.Loaded s s' path snapshot) :
    Whole s₀ (h.locate path) r s' := by
  intro snapshot hsnapshot
  obtain ⟨e, he, -⟩ | ⟨snapshot', he, g, t, hg, hb, -⟩ := hr
  · rw [hsnapshot] at he
    cases he
  · rw [hsnapshot, Except.ok.injEq] at he
    subst he
    rw [← hs.entries] at hg
    refine .inr ?_
    rw [s'.world.contentAt_of_entry hg, hs.files, hb]

theorem loadAttempts_new (attempts : ℕ) : (Snapshot.loadAttempts path attempts).wp
    (step (still path) who) (Whole s₀ (h.locate path)) s :=
  Proc.wp_mono (Snapshot.loadAttempts_spec still_quiet attempts (Since.refl s)) fun _ _ hr =>
    whole_new hr.1 hr.2

/-- A call that changes nothing, before the rewrite, after it or as it comes. -/
theorem step_calm {a : Answer c} (hc : c.Calm) (hs : Since s₀ s ∨ s.Rewritten)
    (hst : step (prompt path) who x c s = some (a, s')) : Since s₀ s' ∨ s'.Rewritten := by
  rcases hs with hs | hs
  · obtain ⟨hr, w, hw, ha, ht⟩ := step_eq_some.1 hst
    have heq := act_calm hc ha
    rcases lone_elapsed (prompt_lone hr) hw with ⟨-, hw'⟩ | ⟨hne, -⟩
    · refine .inl (hs.trans ⟨⟨x.tick, by rw [heq, hw']⟩, [_], ht, fun d hd => ?_⟩)
      rw [List.mem_singleton] at hd
      subst hd
      cases c <;> first | rfl | exact hc.elim
    · exact .inr ⟨_, by rw [ht]; exact List.mem_cons_self, hne⟩
  · exact .inr (Rewritten.step hs hst)

theorem loadAttempts_old : ∀ (attempts : ℕ) {s : State h}, Since s₀ s →
    (Snapshot.loadAttempts path attempts).wp (step (prompt path) who) (Whole s₀ (h.locate path)) s
  | 0, s, hs => fun snapshot he => by cases he
  | attempts + 1, s, hs => by
    refine Proc.wp_bind_of (Proc.wp_of_all (Snapshot.readCandidate_calm path)
      (fun _ _ _ _ _ => step_calm) (.inl hs) (readCandidate_old hs)) (fun r s₁ hr => ?_)
      fun e s₁ _ snapshot he => by cases he
    obtain ⟨hsettles, hs₁⟩ := hr
    rcases r with _ | ⟨text, stamp⟩
    · rcases hs₁ with hs₁ | hs₁
      · exact loadAttempts_old attempts hs₁
      · exact wp_still hs₁ (loadAttempts_new attempts)
    · show Proc.wp _ (Proc.ofExec (Snapshot.fromValidatedWithStamp text (some stamp))) _ _
      rw [Snapshot.fromValidatedWithStamp_eq]
      rintro _ ⟨⟩
      exact hsettles _ rfl

/-- **No load answers mixed bytes** where the clock is read in time: in every run with one rewrite
    at most, what it answers is the whole content the file had when it began, or has when it ends. -/
theorem load_whole {w : World h} {xs : List Choice} {snapshot : Snapshot h.contentId}
    (hrun : Prog.runs (step (prompt path) who) xs (Snapshot.load path, ⟨w, []⟩) =
      some (.ret (.ok snapshot), s')) :
    w.contentAt (h.locate path) = some snapshot.bytes ∨
      s'.world.contentAt (h.locate path) = some snapshot.bytes := by
  refine Proc.wp_runs (Q := Whole ⟨w, []⟩ (h.locate path)) ?_ hrun snapshot rfl
  refine wp_lone (c := .rest) trivial (fun _ _ s₁ hs₁ _ _ => ?_) fun _ _ s₁ _ _ _ _ => ?_
  · exact loadAttempts_old _ hs₁
  · exact loadAttempts_new _

end

/-- Between the first two reads others write `bb` over `aa`, within one tick of the file's times. -/
def tornTurns (turns : List Choice) : List Choice :=
  List.replicate 6 ({} : Choice) ++ { events := [(0, .rewrite (Host.sample.locate ["w", "f"]) [98, 98]
    ⟨0, 0⟩ ⟨0, 0⟩)] } :: List.replicate 2 ({} : Choice) ++ turns

/-- The clock is read at once: the torn read is found out, and the next attempt answers `bb`. -/
theorem load_whole_prompt : ∃ snapshot s',
    Prog.runs (step (prompt ["w", "f"]) 0) (tornTurns (List.replicate 26 {}))
      (Snapshot.load ["w", "f"], (⟨.sample ["w", "f"] (some [97, 97]), []⟩ : State Host.sample)) =
        some (.ret (.ok snapshot), s') ∧ snapshot.bytes = [98, 98] ∧
      ((World.sample ["w", "f"] (some [97, 97])).contentAt (Host.sample.locate ["w", "f"]) =
          some snapshot.bytes ∨
        s'.world.contentAt (Host.sample.locate ["w", "f"]) = some snapshot.bytes) := by
  have hrun : ∃ snapshot s',
      Prog.runs (step (prompt ["w", "f"]) 0) (tornTurns (List.replicate 26 {}))
        (Snapshot.load ["w", "f"], (⟨.sample ["w", "f"] (some [97, 97]), []⟩ : State Host.sample)) =
          some (.ret (.ok snapshot), s') ∧ snapshot.bytes = [98, 98] :=
    ⟨_, _, rfl, by decide⟩
  obtain ⟨snapshot, s', hrun, hbytes⟩ := hrun
  exact ⟨snapshot, s', hrun, hbytes, load_whole hrun⟩

/-- The clock is read three seconds later: `ab` is answered, which the file never held. -/
theorem exists_mixed : ∃ snapshot s',
    Prog.runs (step (lone ["w", "f"]) 0) (tornTurns [{ tick := 3000000000 }, {}, {}])
      (Snapshot.load ["w", "f"], (⟨.sample ["w", "f"] (some [97, 97]), []⟩ : State Host.sample)) =
        some (.ret (.ok snapshot), s') ∧
    (∀ d ∈ s'.trace, d.was.contentAt (Host.sample.locate ["w", "f"]) = some [97, 97] ∨
      d.was.contentAt (Host.sample.locate ["w", "f"]) = some [98, 98]) ∧
    snapshot.bytes = [97, 98] :=
  ⟨_, _, rfl, by decide, by decide⟩

end Hashline
