/-
  Stamps that tell a file's bytes while others rewrite it in place, and the
  loads that take them.
-/
import Hashline.Shared
import Hashline.Tearing

namespace Hashline

open Machine

variable {h : Host} {ε α : Type}

/-! ## What others do, and when the clock is read -/

/-- The server has made a temporary file there. -/
def State.made (s : State h) (l : Loc) : Bool := s.trace.any fun d => match d.call with
  | .createNew path => h.locate path = l
  | _ => false

/-- Files are rewritten in place, with as many bytes. -/
def inPlace (made : Loc → Bool) : List (ℕ × Event) → World h → Bool
  | [], _ => true
  | (tick, e) :: rest, w => match e with
    | .rewrite loc content _ _ => !made loc &&
        ((w.contentAt loc).any fun old => old.length == content.length) &&
        (e.apply (w.wait tick)).all (inPlace made rest)
    | _ => false

/-- Nobody else does anything but that, and to no temporary file of the server. -/
def outside : Rules h := fun s _ x => inPlace s.made x.events s.world

/-- The content that a read saw a part of. -/
def Did.sees (f : ℕ) (d : Did h) : Option Bytes := match d.call, d.answer with
  | .read g _ _, .ok _ => if g = f then some (d.before.files f).content else none
  | _, _ => none

/-- All that was read is of the content. -/
def seen (f : ℕ) (content : Bytes) (ds : List (Did h)) : Bool :=
  ds.all fun d => (d.sees f).all (· == content)

/-- The content that a rename or a link put at the path, where that was the last to be done. -/
def installed (path : PathBuf) : List (Did h) → Option (Option Bytes)
  | [] => none
  | d :: earlier => match d.call, d.answer with
    | .syncDir _, _ => installed path earlier
    | .removeFile _, _ => installed path earlier
    | .rename _ target, .ok _ =>
      if target = path then some (d.after.contentAt (h.locate path)) else none
    | .hardLink _ target, .ok _ =>
      if target = path then some (d.after.contentAt (h.locate path)) else none
    | _, _ => none

/-- Where the metadata that was answered is still the file's, but not the content that was read or put
    there, the clock sample comes while the file's times are recent. -/
def timely : Rules h := fun s c x => outside s c x && match c, s.trace, x.elapsed s.world with
  | .now, d :: earlier, some w => match d.call, d.answer with
    | .fstat f, .ok m => m != w.metadata f || seen f (w.files f).content s.sinceOpen || w.recent f
    | .stat path, .ok m => (installed path earlier).all fun content =>
      (w.entries (h.locate path)).all fun f =>
        m != w.metadata f || content == some (w.files f).content || w.recent f
    | _, _ => true
  | _, _, _ => true

/-- While the file at the place has the metadata of a stamp that is not racy, it has the bytes. -/
def Sealed (stamp : FileStamp) (bytes : Bytes) (l : Loc) (w : World h) : Prop :=
  stamp.racy = false → ∃ m t, stamp = .fromMetadata m t ∧ t ≤ w.now ∧
    ∀ f, w.entries l = some f → w.metadata f = m → (w.files f).content = bytes

/-- **What is sealed stays so**, whatever is done to the file. -/
theorem Sealed.later {stamp : FileStamp} {bytes : Bytes} {l : Loc} {w w' : World h}
    (hs : Sealed stamp bytes l w) (hl : Later w w') : Sealed stamp bytes l w' := by
  intro hr
  obtain ⟨m, t, rfl, ht, hf⟩ := hs hr
  refine ⟨m, t, rfl, ht.trans hl.now, fun f he hm => ?_⟩
  rcases (hl.moved l).file _ (w'.fileAt_of_entry he) with hsame | ⟨hlt, hn⟩
  · obtain ⟨g, hg, hfile⟩ := (World.fileAt_eq_some _).1 hsame
    rw [← hfile]
    refine hf g hg ?_
    rw [← hm, World.metadata, World.metadata, hfile]
  · simp only [FileStamp.fromMetadata, Bool.or_eq_false_iff] at hr
    have hctime : m.ctime = (w'.files f).ctime := by rw [← hm, World.metadata]
    rw [← hctime] at hlt hn
    have := withinRacyWindow_eq_false hn hr.2
    omega

/-! ## Steps -/

/-- Later, with the same names and the same cache. -/
structure Ahead (s s' : State h) : Prop where
  later : Later s.world s'.world
  entries : s'.world.entries = s.world.entries
  cache : s'.world.cache = s.world.cache

namespace Ahead
variable {s s' s'' : State h}

theorem refl (hs : s.world.Sane) : Ahead s s := ⟨.refl hs, rfl, rfl⟩

theorem trans (h₁ : Ahead s s') (h₂ : Ahead s' s'') : Ahead s s'' :=
  ⟨h₁.later.trans h₂.later, h₂.entries.trans h₁.entries, h₂.cache.trans h₁.cache⟩

end Ahead

section
variable {path : PathBuf} {f who : ℕ} {s s' : State h} {c : Call h} {x : Choice}

theorem inPlace_entries {made : Loc → Bool} : ∀ (events : List (ℕ × Event)) {w w' : World h},
    inPlace made events w = true → elapse events w = some w' →
    w'.entries = w.entries ∧ ∀ g, (∀ l, w.entries l = some g → made l = true) → w'.files g = w.files g
  | [], w, w', _, he => by cases he; exact ⟨rfl, fun _ _ => rfl⟩
  | (tick, e) :: rest, w, w', hp, he => by
    cases e with
    | replace | remove => cases hp
    | rewrite loc content mtime ctime =>
      rw [elapse, Option.bind_eq_bind, Option.bind_eq_some_iff] at he
      obtain ⟨w₁, h₁, he⟩ := he
      rw [inPlace] at hp
      simp only [Bool.and_eq_true, h₁, Option.all_some] at hp
      obtain ⟨⟨hmade, -⟩, hrest⟩ := hp
      obtain ⟨hen, hfiles⟩ := inPlace_entries rest hrest he
      rw [Event.apply, Option.bind_eq_bind, Option.bind_eq_some_iff] at h₁
      obtain ⟨g', hg', h₁⟩ := h₁
      split_ifs at h₁
      cases h₁
      refine ⟨hen, fun g hg => (hfiles g hg).trans ?_⟩
      refine World.setFile_of_ne _ ?_ _
      rintro rfl
      rw [World.wait_entries] at hg'
      rw [hg loc hg'] at hmade
      cases hmade

theorem outside_elapsed {w : World h} (hr : outside s c x = true) (hw : x.elapsed s.world = some w) :
    w.entries = s.world.entries ∧
      ∀ g, (∀ l, s.world.entries l = some g → s.made l = true) → w.files g = s.world.files g := by
  rw [Choice.elapsed, Option.map_eq_some_iff] at hw
  obtain ⟨w₁, h₁, rfl⟩ := hw
  have hsame := inPlace_entries _ hr h₁
  exact hsame

theorem timely_outside (hr : timely s c x = true) : outside s c x = true := (Bool.and_eq_true_iff.1 hr).1

/-- One call that changes nothing. -/
theorem wp_calm {rules : Rules h} {k : Answer c → Op h ε α} {Q : Exec ε α → State h → Prop} (hc : c.Calm)
    (hk : ∀ x a s', rules s c x = true → x.elapsed s.world = some s'.world →
      act who x c s'.world = some (a, s'.world) →
      s'.trace = ⟨who, x, c, a, s.world, s'.world, s'.world⟩ :: s.trace →
      (k a).wp (step rules who) Q s') :
    (Proc.ask c >>= k).wp (step rules who) Q s := by
  refine wp_call fun x w a s' hr hw ha ht => ?_
  have heq := act_calm hc ha
  rw [← heq] at ha ht hw
  exact hk x a s' hr hw ha ht

/-- One call that changes nothing, while others rewrite. -/
theorem wp_ahead {k : Answer c → Op h ε α} {Q : Exec ε α → State h → Prop} (hs : s.world.Sane)
    (hc : c.Calm)
    (hk : ∀ x a s', Ahead s s' → timely s c x = true → x.elapsed s.world = some s'.world →
      act who x c s'.world = some (a, s'.world) →
      s'.trace = ⟨who, x, c, a, s.world, s'.world, s'.world⟩ :: s.trace →
      (k a).wp (step timely who) Q s') :
    (Proc.ask c >>= k).wp (step timely who) Q s :=
  wp_calm hc fun x a s' hr hw ha ht => hk x a s' ⟨Choice.elapsed_later hs hw,
    (outside_elapsed (timely_outside hr) hw).1, (Choice.elapsed_cache_eq hw).1⟩ hr hw ha ht

/-! ## What a stamp is taken with -/

/-- Where all that was read of the file is of one content, the bytes are that, as far as `limit`. -/
def Reads (f limit : ℕ) (bytes : Bytes) (s : State h) : Prop :=
  ∀ content, seen f content s.sinceOpen = true → bytes = content.take limit

/-- As `Reads`, while more is read. -/
def Reading (f : ℕ) (bytes : Bytes) (s : State h) : Prop :=
  ∀ content, seen f content s.sinceOpen = true → bytes <+: content

theorem seen_cons {d : Did h} {ds : List (Did h)} {content : Bytes}
    (hs : seen f content (d :: ds) = true) :
    (d.sees f).all (· == content) = true ∧ seen f content ds = true := by
  rw [seen, List.all_cons, Bool.and_eq_true] at hs
  exact hs

theorem Reading.cons {bytes : Bytes} {d : Did h} (hb : Reading f bytes s)
    (ht : s'.trace = d :: s.trace) (hd : d.opens = false) : Reading f bytes s' := by
  intro content hs
  rw [sinceOpen_cons ht hd] at hs
  exact hb content (seen_cons hs).2

theorem Reads.cons {limit : ℕ} {bytes : Bytes} {d : Did h} (hb : Reads f limit bytes s)
    (ht : s'.trace = d :: s.trace) (hd : d.opens = false) : Reads f limit bytes s' := by
  intro content hs
  rw [sinceOpen_cons ht hd] at hs
  exact hb content (seen_cons hs).2

/-- One read: what is read so far grows, and is all where nothing more comes. -/
theorem Reading.read {bytes : Bytes} (hb : Reading f bytes s) {most n : ℕ} (hn : 0 < n)
    {w w' : World h} (ht : s'.trace = ⟨who, x, .read f bytes.length most,
      .ok (((s'.world.files f).content.drop bytes.length).take n), w, s'.world, w'⟩ :: s.trace) :
    Reading f (bytes ++ ((s'.world.files f).content.drop bytes.length).take n) s' ∧
      (((s'.world.files f).content.drop bytes.length).take n = [] →
        ∀ content, seen f content s'.sinceOpen = true → bytes = content) := by
  have hseen : ∀ content, seen f content s'.sinceOpen = true → (s'.world.files f).content = content ∧
      bytes <+: content := by
    intro content hs
    rw [sinceOpen_cons ht rfl] at hs
    obtain ⟨hd, hs⟩ := seen_cons hs
    refine ⟨?_, hb content hs⟩
    simpa [Did.sees] using hd
  refine ⟨fun content hs => ?_, fun hnil content hs => ?_⟩
  · obtain ⟨rfl, hpre⟩ := hseen content hs
    exact (prefix_read hpre hn).1
  · obtain ⟨rfl, hpre⟩ := hseen content hs
    exact (prefix_read hpre hn).2 hnil

/-- **The stamp of a file that was read**, with the clock sample that follows its metadata: while the
    file has that metadata, what was read is its content. -/
theorem sealed_sample {limit : ℕ} {bytes : Bytes} {l : Loc} {m : Metadata} {y : Choice}
    {w₁ w₂ w₃ : World h} {earlier : List (Did h)}
    (ht : s.trace = ⟨who, y, .fstat f, .ok m, w₁, w₂, w₃⟩ :: earlier)
    (hf : s.world.entries l = some f) (hb : Reads f limit bytes s) (hs : Ahead s s')
    (hr : timely s .now x = true) (hw : x.elapsed s.world = some s'.world)
    (hlimit : m.len ≤ limit ∨ bytes.length < limit) :
    Sealed (.fromMetadata m s'.world.now) bytes l s'.world := by
  intro hracy
  refine ⟨m, _, rfl, le_rfl, fun g hg hm => ?_⟩
  rw [hs.entries, hf, Option.some.injEq] at hg
  subst hg
  have hrule := (Bool.and_eq_true_iff.1 hr).2
  simp only [ht, hw, Bool.or_eq_true, bne_iff_ne] at hrule
  rcases hrule with (hne | hseen) | hrecent
  · exact absurd hm.symm hne
  · have hbytes := hb _ hseen
    have hlen : m.len = (s'.world.files f).content.length := by rw [← hm, World.metadata]
    have hall : (s'.world.files f).content.length ≤ limit := by
      rcases hlimit with hle | hlt
      · rwa [← hlen]
      · rw [hbytes, List.length_take] at hlt
        omega
    rw [hbytes, List.take_of_length_le hall]
  · rw [← hm, recent_racy hrecent] at hracy
    cases hracy

/-! ## A load -/

/-- A procedure of calls that change nothing. -/
theorem wp_ahead_all {p : Op h ε α} (hp : p.All Call.Calm) (hs : s.world.Sane)
    {Q : Exec ε α → State h → Prop} (hw : p.wp (step timely who) Q s) :
    p.wp (step timely who) (fun r s' => Q r s' ∧ Ahead s s') s := by
  refine Proc.wp_of_all hp (fun x c t a t' hc ht hst => ?_) (Ahead.refl hs) hw
  obtain ⟨hr, w, hw, ha, -⟩ := step_eq_some.1 hst
  rw [← act_calm hc ha] at hw
  exact ht.trans ⟨Choice.elapsed_later ht.later.sane hw, (outside_elapsed (timely_outside hr) hw).1,
    (Choice.elapsed_cache_eq hw).1⟩

/-- Making room leaves what was read. -/
theorem growBy_reading {rules : Rules h} {bytes chunk : Bytes} {capacity : ℕ}
    (hb : Reading f (bytes ++ chunk) s) :
    (Snapshot.growBy capacity bytes chunk).wp (step rules who) (fun _ s' =>
      Reading f (bytes ++ chunk) s') s := by
  refine Snapshot.wp_contract (noPanic_validateFileSize _) (fun _ _ => ?_) fun _ _ => hb
  split_ifs
  · refine wp_calm (c := .reserve _) trivial fun x a s' _ _ _ ht => ?_
    change Bool at a
    cases a <;> exact hb.cons ht rfl
  · exact hb

/-- **The read loop**: if all it read was of one content, it has read that. -/
theorem readLoop_reads {rules : Rules h} : ∀ (rounds : ℕ) {capacity : ℕ} {bytes : Bytes} {s : State h},
    Reading f bytes s → (Snapshot.readLoop path f rounds capacity bytes).wp (step rules who)
      (fun r s' => ∀ b, r = .ok b → Reads f (b.length + 1) b s') s
  | 0, _, _, _, _ => fun b he => by cases he
  | rounds + 1, capacity, bytes, s, hb => by
    refine wp_calm (c := .read f bytes.length readBufferBytes) trivial fun x a s₁ _ _ ha ht => ?_
    obtain ⟨-, ⟨e, -, rfl⟩ | ⟨-, rfl⟩ | rfl⟩ := act_read ha
    · exact fun b he => by cases he
    · exact fun b he => by cases he
    obtain ⟨hgrow, hend⟩ := hb.read (by rw [Choice.moved, readBufferBytes]; omega) ht
    show Proc.wp _ (if ((s₁.world.files f).content.drop bytes.length).take _ = [] then _ else _) _ _
    split_ifs with hc
    · rintro _ ⟨⟩ content hseen
      rw [← hend hc content hseen, List.take_of_length_le (Nat.le_succ _)]
    · exact Proc.wp_bind_of (growBy_reading hgrow) (fun capacity s₂ hr => readLoop_reads rounds hr)
        fun e s₂ _ b he => by cases he

/-- What is taken for the file is sealed. -/
def CandidateSealed (l : Loc) (r : Exec SnapshotError (Option (ValidatedText × FileStamp)))
    (s : State h) : Prop :=
  ∀ c, r = .ok (some c) → Sealed c.2 c.1.bytes l s.world

theorem judge_taken {before after : FileStamp} {bytes : Bytes} {l : Loc} (hs : s.world.Sane)
    (hsealed : Sealed after bytes l s.world) :
    (Snapshot.judge path before after bytes).wp (step timely who) (CandidateSealed l) s :=
  Proc.wp_mono (wp_ahead_all (Snapshot.judge_calm path before after bytes) hs
    ((meets_judge_bytes path before after bytes).wp s)) fun r s' hr c hc => by
      obtain ⟨hm, hahead⟩ := hr
      subst hc
      rw [(hm c rfl).1, (hm c rfl).2]
      exact hsealed.later hahead.later

theorem readStamped_taken {before : FileStamp} {l : Loc} (hs : s.world.Sane)
    (hf : s.world.entries l = some f) :
    (Snapshot.readStamped path f before).wp (step timely who) (CandidateSealed l) s := by
  refine Snapshot.wp_contract (noPanic_validateFileSize _) (fun _ _ => ?_) fun r' hr' c hc => ?_
  swap
  · obtain ⟨e, rfl, -⟩ := hr' True
    cases hc
  refine wp_ahead (c := .reserve _) hs trivial fun x a s₁ hs₁ _ _ _ _ => ?_
  change Bool at a
  cases a with
  | false => exact fun c hc => by cases hc
  | true =>
    refine Proc.wp_bind_of (wp_ahead_all (Snapshot.readLoop_calm _ _ _ _ _) hs₁.later.sane
      (readLoop_reads _ fun _ _ => List.nil_prefix)) (fun bytes s₂ hr => ?_) fun e s₂ _ c hc => by cases hc
    obtain ⟨hreads, hs₂⟩ := hr
    refine wp_ahead (c := .fstat f) hs₂.later.sane trivial fun x a s₃ hs₃ _ _ ha ht => ?_
    obtain ⟨-, ⟨e, -, rfl⟩ | rfl⟩ := act_fstat ha
    · exact fun c hc => by cases hc
    refine Proc.wp_bind.2 (wp_ahead (c := .now) hs₃.later.sane trivial
      fun y t s₄ hs₄ hrule hw ha₄ _ => ?_)
    obtain ⟨rfl, -⟩ := Prod.mk.inj (Option.some.inj ha₄)
    refine judge_taken hs₄.later.sane ?_
    have hahead := (hs₁.trans hs₂).trans hs₃
    exact sealed_sample ht (by rw [hahead.entries, hf]) ((hreads bytes rfl).cons ht rfl) hs₄ hrule hw
      (.inr (Nat.lt_succ_self _))

theorem readCandidate_taken (hs : s.world.Sane) :
    (Snapshot.readCandidate path).wp (step timely who) (CandidateSealed (h.locate path)) s := by
  refine wp_ahead (c := .openRead path) hs trivial fun x a s₁ hs₁ _ _ ha _ => ?_
  obtain ⟨-, ⟨e, -, rfl⟩ | ⟨f, hf, rfl⟩ | ⟨-, rfl⟩⟩ := act_openRead ha
  · exact fun c hc => by cases hc
  · refine wp_ahead (c := .fstat f) hs₁.later.sane trivial fun x a s₂ hs₂ _ _ ha _ => ?_
    obtain ⟨-, ⟨e, -, rfl⟩ | rfl⟩ := act_fstat ha
    · exact fun c hc => by cases hc
    refine Proc.wp_bind.2 (wp_ahead (c := .now) hs₂.later.sane trivial fun y t s₃ hs₃ _ _ _ _ => ?_)
    exact readStamped_taken hs₃.later.sane (by rw [(hs₂.trans hs₃).entries, hf])
  · exact fun c hc => by cases hc

/-- The snapshot's stamp is sealed with its bytes. -/
def Snapshot.Sealed (snapshot : Snapshot h.contentId) (l : Loc) (w : World h) : Prop :=
  ∀ stamp, snapshot.stamp = some stamp → Hashline.Sealed stamp snapshot.bytes l w

theorem loadAttempts_sealed : ∀ (attempts : ℕ) {s : State h}, s.world.Sane →
    (Snapshot.loadAttempts path attempts).wp (step timely who)
      (fun r s' => ∀ snapshot, r = .ok snapshot → snapshot.Sealed (h.locate path) s'.world) s
  | 0, s, _ => fun snapshot he => by cases he
  | attempts + 1, s, hs => by
    refine Proc.wp_bind_of (wp_ahead_all (Snapshot.readCandidate_calm path) hs (readCandidate_taken hs))
      (fun r s₁ hr => ?_) fun e s₁ _ snapshot he => by cases he
    obtain ⟨htaken, hs₁⟩ := hr
    rcases r with _ | ⟨text, stamp⟩
    · exact loadAttempts_sealed attempts hs₁.later.sane
    · show Proc.wp _ (Proc.ofExec (Snapshot.fromValidatedWithStamp text (some stamp))) _ _
      rw [Snapshot.fromValidatedWithStamp_eq]
      rintro _ ⟨⟩ _ ⟨⟩
      exact htaken _ rfl

/-- **What a load answers is sealed.** -/
theorem load_sealed (hs : s.world.Sane) : (Snapshot.load path).wp (step timely who)
    (fun r s' => (∀ snapshot, r = .ok snapshot → snapshot.Sealed (h.locate path) s'.world) ∧
      Ahead s s') s := by
  refine wp_ahead_all (Snapshot.load_calm path) hs ?_
  refine wp_ahead (c := .rest) hs trivial fun _ _ s₁ hs₁ _ _ _ _ => ?_
  exact loadAttempts_sealed _ hs₁.later.sane

/-! ## A resident entry that is racy -/

/-- `read_to_end`, as far as its limit: if all it read was of one content, it has read that. -/
theorem readToEnd_reads {rules : Rules h} {limit : ℕ} : ∀ (rounds : ℕ) {bytes : Bytes} {s : State h},
    Reading f bytes s → bytes.length ≤ limit → limit ≤ bytes.length + rounds →
    (readToEnd f limit rounds bytes : Op h ε _).wp (step rules who)
      (fun r s' => ∀ b, r = .ok (.ok b) → Reads f limit b s') s
  | 0, bytes, s, hb, hle, hr => by
    rintro _ ⟨⟩ content hseen
    have hlimit : limit = bytes.length := by omega
    rw [hlimit]
    exact List.prefix_iff_eq_take.1 (hb content hseen)
  | rounds + 1, bytes, s, hb, hle, hr => by
    rw [readToEnd]
    split_ifs with hfull
    · rintro _ ⟨⟩ content hseen
      have hlimit : limit = bytes.length := by omega
      rw [hlimit]
      exact List.prefix_iff_eq_take.1 (hb content hseen)
    · refine wp_calm (c := .read f bytes.length (limit - bytes.length)) trivial
        fun x a s₁ _ _ ha ht => ?_
      obtain ⟨-, ⟨e, -, rfl⟩ | ⟨-, rfl⟩ | rfl⟩ := act_read ha
      · exact fun b he => by cases he
      · exact fun b he => by cases he
      have hmoved : 0 < x.moved (limit - bytes.length) ∧
          x.moved (limit - bytes.length) ≤ limit - bytes.length := by
        rw [Choice.moved]
        omega
      obtain ⟨hgrow, hend⟩ := hb.read hmoved.1 ht
      show Proc.wp _ (if ((s₁.world.files f).content.drop bytes.length).take _ = [] then _ else _) _ _
      split_ifs with hc
      · rintro _ ⟨⟩ content hseen
        rw [← hend hc content hseen, List.take_of_length_le hle]
      · have hpos := List.length_pos_of_ne_nil hc
        have hchunk := List.length_take_le (x.moved (limit - bytes.length))
          ((s₁.world.files f).content.drop bytes.length)
        refine readToEnd_reads rounds hgrow ?_ ?_ <;> rw [List.length_append] <;> omega

/-- **What proves an entry seals it.** -/
theorem provedBy_sealed {snapshot : Snapshot h.contentId} {entryStamp : FileStamp} {l : Loc}
    (hs : s.world.Sane) (hf : s.world.entries l = some f) :
    (SnapshotCache.provedBy snapshot entryStamp f).wp (step timely who)
      (fun r s' => ∀ after, r = .ok (some after) → Sealed after snapshot.bytes l s'.world) s := by
  refine wp_ahead (c := .fstat f) hs trivial fun x a s₁ hs₁ _ _ ha _ => ?_
  obtain ⟨-, ⟨e, -, rfl⟩ | rfl⟩ := act_fstat ha
  · exact fun after he => by cases he
  refine Proc.wp_bind.2 (wp_ahead (c := .now) hs₁.later.sane trivial fun y t s₂ hs₂ _ _ _ _ => ?_)
  show Proc.wp _ (if _ then _ else _) _ _
  split_ifs
  · exact fun after he => by cases he
  refine Proc.wp_bind_of (wp_ahead_all (readToEnd_calm _ _ _ _) hs₂.later.sane (readToEnd_reads _
    (fun _ _ => List.nil_prefix) (Nat.zero_le _) (Nat.le_add_left _ _)))
    (fun r s₃ hr => ?_) fun e s₃ _ after he => by cases he
  obtain ⟨hreads, hs₃⟩ := hr
  rcases r with e | bytes
  · exact fun after he => by cases he
  refine wp_ahead (c := .fstat f) hs₃.later.sane trivial fun x a s₄ hs₄ _ _ ha ht => ?_
  obtain ⟨-, ⟨e, -, rfl⟩ | rfl⟩ := act_fstat ha
  · exact fun after he => by cases he
  refine Proc.wp_bind.2 (wp_ahead (c := .now) hs₄.later.sane trivial
    fun y t s₅ hs₅ hrule hw ha₅ _ => ?_)
  obtain ⟨rfl, -⟩ := Prod.mk.inj (Option.some.inj ha₅)
  intro after he
  rw [Except.ok.injEq] at he
  split_ifs at he with hproved
  cases he
  rw [Bool.and_eq_true, decide_eq_true_eq] at hproved
  obtain ⟨heq, rfl⟩ := hproved
  have hahead := (((hs₁.trans hs₂).trans hs₃).trans hs₄)
  refine sealed_sample ht (by rw [hahead.entries, hf]) ((hreads _ rfl).cons ht rfl) hs₅ hrule hw ?_
  have hlen : (s₄.world.metadata f).len = entryStamp.len := (FileStamp.eq_iff.1 heq).2.1
  have hsize := snapshot.text.isText.size
  have hmax : maxFileBytes < u64Max := by decide
  rw [hlen, saturatingAdd]
  change entryStamp.len ≤ _ ∨ snapshot.text.bytes.length < _
  omega

end

end Hashline
