/-
  Loads whose readings are whole: what they answer, the file at the path has
  had while they were made.
-/
import Hashline.Sealed

namespace Hashline

open Machine

variable {h : Host} {ε α : Type}

/-! ## Readings -/

/-- The file at the place had the content, after a call so far. -/
def State.Had (s : State h) (l : Loc) (content : Bytes) : Prop :=
  ∃ d ∈ s.trace, d.after.contentAt l = some content

instance (s : State h) (l : Loc) (content : Bytes) : Decidable (s.Had l content) :=
  inferInstanceAs (Decidable (∃ d ∈ s.trace, d.after.contentAt l = some content))

/-- The content that a read saw a part of. -/
def Did.sight (d : Did h) : Option Bytes := match d.call, d.answer with
  | .read f _ _, .ok _ => some (d.before.files f).content
  | _, _ => none

/-- All that was read is of the content. -/
def sighted (content : Bytes) (ds : List (Did h)) : Bool := ds.all fun d => d.sight.all (· == content)

/-- What was read in the calls is of one content, which the file at the place had. -/
def State.whole (s : State h) (l : Loc) (ds : List (Did h)) : Bool :=
  (ds.findSome? Did.sight).any fun content => sighted content ds && decide (s.Had l content)

/-- The calls from the open before the last up to it. -/
def State.lastReading (s : State h) : List (Did h) :=
  (s.trace.dropWhile fun d => !d.opens).tail.takeWhile fun d => !d.opens

/-- The file was opened to prove what is resident. -/
def State.proves (s : State h) : Bool :=
  (s.trace.dropWhile fun d => !d.opens).tail.head?.any fun d => match d.call with
    | .cacheRacyResident _ => true
    | _ => false

/-- The metadata were answered for the file. -/
def Did.answers (f : ℕ) (m : Metadata) (d : Did h) : Bool := match d.call, d.answer with
  | .fstat g, .ok m' => g == f && m' == m
  | _, _ => false

/-- No reading that goes into a decision is torn. Where the metadata are as they were before the
    reading, it is whole, or read again as its times are recent; of these two one is whole. -/
def untorn (l : Loc) : Rules h := fun s c x => match c, x.elapsed s.world with
  | .now, some w => match s.trace with
    | d :: earlier => match d.call, d.answer with
      | .fstat f, .ok m => !(earlier.takeWhile fun d => !d.opens).any (·.answers f m) ||
          s.whole l s.sinceOpen || !s.proves && (FileStamp.fromMetadata m w.now).racy
      | _, _ => true
    | [] => true
  | .read f offset most, some w => offset + most != maxVecBytes + 1 || x.fault.isSome ||
      s.whole l s.lastReading || sighted (w.files f).content s.sinceOpen &&
        (decide (s.Had l (w.files f).content) || w.contentAt l == some (w.files f).content)
  | _, _ => true

/-- What was read in the calls is of one content, which the file at the place had. -/
def State.Whole (s : State h) (l : Loc) (ds : List (Did h)) : Prop :=
  ∃ content, sighted content ds = true ∧ s.Had l content

section
variable {path : PathBuf} {f who : ℕ} {l : Loc} {s s' : State h} {c : Call h} {x : Choice}
  {rules : Rules h} {bytes : Bytes} {m : Metadata}

theorem exists_of_whole {ds : List (Did h)} (hw : s.whole l ds = true) : s.Whole l ds := by
  obtain ⟨content, -, hc⟩ := (Option.any_eq_true _ _).1 hw
  rw [Bool.and_eq_true, decide_eq_true_eq] at hc
  exact ⟨content, hc⟩

theorem sighted_cons {d : Did h} {ds : List (Did h)} {content : Bytes} :
    sighted content (d :: ds) = true ↔ d.sight.all (· == content) = true ∧ sighted content ds = true := by
  rw [sighted, List.all_cons, Bool.and_eq_true]
  rfl

theorem seen_of_sighted {content : Bytes} {ds : List (Did h)} (hs : sighted content ds = true) :
    seen f content ds = true := by
  refine List.all_eq_true.2 fun d hd => ?_
  have hd := List.all_eq_true.1 hs d hd
  rcases d with ⟨who, y, c, a, w₁, w₂, w₃⟩
  cases c with
  | read g offset most =>
    change Except IoError Bytes at a
    rcases a with e | chunk
    · rfl
    · by_cases hg : g = f
      · subst hg
        simpa [Did.sees, Did.sight] using hd
      · simp [Did.sees, hg]
  | _ => rfl

theorem State.Had.grown {content : Bytes} (hs : s.Had l content) (ht : s.trace <:+ s'.trace) :
    s'.Had l content := by
  obtain ⟨d, hd, hc⟩ := hs
  exact ⟨d, ht.subset hd, hc⟩

theorem State.Whole.mono {ds ds' : List (Did h)} (hs : s.Whole l ds) (hd : ds' <:+ ds)
    (ht : s.trace <:+ s'.trace) : s'.Whole l ds' := by
  obtain ⟨content, hall, hhad⟩ := hs
  exact ⟨content, List.all_eq_true.2 fun d h => List.all_eq_true.1 hall d (hd.subset h), hhad.grown ht⟩

/-- Bytes that are of a whole reading were had. -/
theorem Reads.had (hb : Reads f (bytes.length + 1) bytes s) (hs : s'.Whole l s.sinceOpen) :
    s'.Had l bytes := by
  obtain ⟨content, hall, hhad⟩ := hs
  have hbytes := hb content (seen_of_sighted hall)
  have hlen := congrArg List.length hbytes
  rw [List.length_take] at hlen
  rw [List.take_of_length_le (by omega)] at hbytes
  rwa [hbytes]

/-! ### Within a reading -/

/-- Calls that open no file. -/
def Call.Shut : Call h → Prop
  | .openRead _ => False
  | _ => True

/-- Later in the same reading. -/
structure Within (s s' : State h) : Prop where
  trace : s.trace <:+ s'.trace
  since : s.sinceOpen <:+ s'.sinceOpen
  last : s'.lastReading = s.lastReading
  proves : s'.proves = s.proves

theorem Within.refl : Within s s := ⟨List.suffix_rfl, List.suffix_rfl, rfl, rfl⟩

theorem Within.trans {s'' : State h} (h₁ : Within s s') (h₂ : Within s' s'') : Within s s'' :=
  ⟨h₁.trace.trans h₂.trace, h₁.since.trans h₂.since, h₂.last.trans h₁.last, h₂.proves.trans h₁.proves⟩

theorem Within.cons {d : Did h} (ht : s'.trace = d :: s.trace) (hd : d.opens = false) : Within s s' := by
  have hdrop : (s'.trace.dropWhile fun d => !d.opens) = s.trace.dropWhile fun d => !d.opens := by
    rw [ht, List.dropWhile_cons, hd]
    rfl
  refine ⟨ht ▸ List.suffix_cons _ _, sinceOpen_cons ht hd ▸ List.suffix_cons _ _, ?_, ?_⟩
  · rw [State.lastReading, hdrop, State.lastReading]
  · rw [State.proves, hdrop, State.proves]

theorem Call.Shut.opens {c : Call h} {a : Answer c} {w₁ w₂ w₃ : World h} (hc : c.Shut) :
    (⟨who, x, c, a, w₁, w₂, w₃⟩ : Did h).opens = false := by
  cases c <;> first | rfl | exact hc.elim

/-- A procedure that opens no file. -/
theorem wp_within {p : Op h ε α} (hp : p.All Call.Shut) {Q : Exec ε α → State h → Prop}
    (hw : p.wp (step rules who) Q s) :
    p.wp (step rules who) (fun r s' => Q r s' ∧ Within s s') s := by
  refine Proc.wp_of_all hp (fun x c t a t' hc ht hst => ?_) Within.refl hw
  obtain ⟨-, w, -, -, htr⟩ := step_eq_some.1 hst
  exact ht.trans (.cons htr hc.opens)

/-- A procedure, and what was made so far. -/
theorem wp_grown {p : Op h ε α} {Q : Exec ε α → State h → Prop} (hw : p.wp (step rules who) Q s) :
    p.wp (step rules who) (fun r s' => Q r s' ∧ s.trace <:+ s'.trace) s := by
  refine Proc.wp_invariant (fun x c t a t' ht hst => ?_) List.suffix_rfl hw
  obtain ⟨-, w, -, -, htr⟩ := step_eq_some.1 hst
  exact ht.trans (htr ▸ List.suffix_cons _ _)

/-- After an open. -/
theorem opened {a : Except IoError ℕ} {w₁ w₂ w₃ : World h}
    (ht : s'.trace = ⟨who, x, .openRead path, a, w₁, w₂, w₃⟩ :: s.trace) :
    s'.sinceOpen = [] ∧ s'.lastReading = s.sinceOpen := by
  constructor
  · rw [State.sinceOpen, ht]
    rfl
  · rw [State.lastReading, ht]
    rfl

theorem Reads.within {limit : ℕ} (hb : Reads f limit bytes s) (hw : Within s s') :
    Reads f limit bytes s' := fun content hs => hb content <|
  List.all_eq_true.2 fun d hd => List.all_eq_true.1 hs d (hw.since.subset hd)

/-! ## What the rule says -/

/-- Of the clock sample that follows the metadata. -/
theorem untorn_now {y : Choice} {w₁ w₂ w₃ w : World h} {earlier : List (Did h)}
    (hr : untorn l s .now x = true) (hw : x.elapsed s.world = some w)
    (ht : s.trace = ⟨who, y, .fstat f, .ok m, w₁, w₂, w₃⟩ :: earlier)
    (hm : (earlier.takeWhile fun d => !d.opens).any (·.answers f m) = true) :
    s.Whole l s.sinceOpen ∨ s.proves = false ∧ (FileStamp.fromMetadata m w.now).racy = true := by
  simp only [untorn, hw, ht, hm] at hr
  simp only [Bool.not_true, Bool.false_or, Bool.or_eq_true, Bool.and_eq_true, Bool.not_eq_true'] at hr
  exact hr.imp_left exists_of_whole

/-- Of a read that is made again. -/
theorem untorn_read {offset most : ℕ} {w : World h} (hr : untorn l s (.read f offset most) x = true)
    (hw : x.elapsed s.world = some w) (he : offset + most = maxVecBytes + 1) (hx : x.fault = none) :
    s.Whole l s.lastReading ∨ sighted (w.files f).content s.sinceOpen = true ∧
      (s.Had l (w.files f).content ∨ w.contentAt l = some (w.files f).content) := by
  simp only [untorn, hw, he, hx] at hr
  simp only [bne_self_eq_false, Option.isSome_none, Bool.false_or, Bool.or_eq_true, Bool.and_eq_true,
    decide_eq_true_eq, beq_iff_eq] at hr
  exact hr.imp_left exists_of_whole

/-! ## A reading that is made again -/

variable (hR : ∀ s c x, rules s c x = true → untorn (h.locate path) s c x = true)
include hR

/-- One read of it. -/
theorem reread_step {offset most : ℕ} {chunk : Bytes} (he : offset + most = maxVecBytes + 1)
    (hr : rules s (.read f offset most) x = true) (hw : x.elapsed s.world = some s'.world)
    (ha : act who x (.read f offset most) s'.world = some (.ok chunk, s'.world))
    (ht : s'.trace = ⟨who, x, .read f offset most, .ok chunk, s.world, s'.world, s'.world⟩ :: s.trace) :
    s'.Whole (h.locate path) s'.lastReading ∨ s'.Whole (h.locate path) s'.sinceOpen := by
  have hfault : x.fault = none := by
    rcases Choice.fallible_eq_some.1 ha with ⟨e, -, hc, -⟩ | ⟨hx, -⟩
    · cases hc
    · exact hx
  have hwithin : Within s s' := .cons ht rfl
  rcases untorn_read (hR _ _ _ hr) hw he hfault with hlast | ⟨hall, hhad⟩
  · exact .inl (hwithin.last ▸ hlast.mono List.suffix_rfl hwithin.trace)
  · refine .inr ⟨(s'.world.files f).content, ?_, ?_⟩
    · rw [sinceOpen_cons ht rfl, sighted_cons]
      exact ⟨by simp [Did.sight], hall⟩
    · rcases hhad with hhad | hnow
      · exact hhad.grown hwithin.trace
      · exact ⟨_, by rw [ht]; exact List.mem_cons_self, hnow⟩

/-- If it comes to the end of the file, it is whole, or the one before it is. -/
theorem readToEnd_whole : ∀ (rounds : ℕ) {bytes : Bytes} {s : State h},
    maxVecBytes + 1 ≤ bytes.length + rounds →
    (readToEnd f (maxVecBytes + 1) rounds bytes : Op h ε _).wp (step rules who) (fun r s' =>
      ∀ b, r = .ok (.ok b) → b.length ≤ maxVecBytes →
        s'.Whole (h.locate path) s'.lastReading ∨ s'.Whole (h.locate path) s'.sinceOpen) s
  | 0, bytes, s, hr => by
    rintro _ ⟨⟩ hle
    omega
  | rounds + 1, bytes, s, hr => by
    rw [readToEnd]
    split_ifs with hfull
    · rintro _ ⟨⟩ hle
      omega
    refine wp_calm (c := .read f bytes.length (maxVecBytes + 1 - bytes.length)) trivial
      fun x a s₁ hrule hw ha ht => ?_
    obtain ⟨-, ⟨e, -, rfl⟩ | ⟨-, rfl⟩ | rfl⟩ := act_read ha
    · exact fun b he => by cases he
    · exact fun b he => by cases he
    show Proc.wp _ (if ((s₁.world.files f).content.drop bytes.length).take _ = [] then _ else _) _ _
    split_ifs with hc
    · exact fun _ _ _ => reread_step hR (by omega) hrule hw ha ht
    · have hpos := List.length_pos_of_ne_nil hc
      exact readToEnd_whole rounds (by rw [List.length_append]; omega)

/-- **A file that is read again**: what is read was had, or the reading before it is whole. -/
theorem fsRead_whole : (fsRead path : Op h ε _).wp (step rules who) (fun r s' => ∀ b, r = .ok (.ok b) →
    s'.Whole (h.locate path) s.sinceOpen ∨ s'.Had (h.locate path) b) s := by
  have hvec : ∀ (f size : ℕ) (s₁ : State h), s₁.lastReading = s.sinceOpen →
      (readVec f size : Op h ε _).wp (step rules who) (fun r s' => ∀ b, r = .ok (.ok b) →
        s'.Whole (h.locate path) s.sinceOpen ∨ s'.Had (h.locate path) b) s₁ := by
    intro f size s₁ hlast
    refine wp_calm (c := .reserve size) trivial fun x a s₂ _ _ _ ht => ?_
    change Bool at a
    cases a with
    | false => exact fun b he => by cases he
    | true =>
      have hshut : (readToEnd f (maxVecBytes + 1) (maxVecBytes + 1) [] : Op h ε _).All Call.Shut := by
        refine Prog.All.mono ?_ (readToEnd_all f _ _ [])
        rintro _ ⟨_, _, rfl⟩
        trivial
      have hreading : Reading f [] s₂ := fun _ _ => List.nil_prefix
      refine Proc.wp_bind_of (Proc.wp_and (readToEnd_reads _ hreading (Nat.zero_le _) (Nat.le_add_left _ _))
        (wp_within hshut (readToEnd_whole hR _ (Nat.le_add_left _ _)))) (fun r s₃ hr => ?_)
        fun e s₃ _ b he => by cases he
      obtain ⟨hreads, hwhole, hwithin⟩ := hr
      rcases r with e | b
      · exact fun b he => by cases he
      show Proc.wp _ (if maxVecBytes < b.length then _ else _) _ _
      split_ifs with hlong
      · exact fun b he => by cases he
      rintro _ ⟨⟩
      rcases hwhole b rfl (Nat.not_lt.1 hlong) with hw | hw
      · refine .inl ?_
        rwa [hwithin.last, (Within.cons ht rfl).last, hlast] at hw
      · refine .inr (Reads.had (f := f) (s := s₃) (fun content hseen => ?_) hw)
        have hb := hreads b rfl content hseen
        have hlen := congrArg List.length hb
        rw [List.length_take] at hlen
        rw [List.take_of_length_le (by omega)] at hb
        rw [hb, List.take_of_length_le (Nat.le_succ _)]
  refine wp_calm (c := .openRead path) trivial fun x a s₁ _ _ ha ht => ?_
  have hlast := (opened ht).2
  change Except IoError ℕ at a
  rcases a with e | f
  · exact fun b he => by cases he
  refine wp_calm (c := .fstat f) trivial fun x a s₂ _ _ ha ht => ?_
  have hlast₂ : s₂.lastReading = s.sinceOpen := (Within.cons ht rfl).last.trans hlast
  change Except IoError Metadata at a
  rcases a with e | metadata
  · exact hvec f 0 s₂ hlast₂
  · exact hvec f metadata.len s₂ hlast₂

/-! ## A load -/

omit hR in
theorem pathStamp_shut (path : PathBuf) : (Snapshot.pathStamp path : Op h _ _).All Call.Shut := by
  refine Proc.All.bind (Proc.all_ask trivial) fun a => ?_
  change Except IoError Metadata at a
  rcases a with source | metadata
  · dsimp only
    split_ifs
    · exact Proc.all_pure _
    · exact Proc.all_fail _
  · have hstamp : (Op.fromMetadata metadata : Op h SnapshotError _).All Call.Shut :=
      Proc.All.bind (Proc.all_ask trivial) fun _ => Proc.all_pure _
    exact hstamp.bind fun _ => Proc.all_pure _

/-- What is taken, the file at the place had. -/
def CandidateHad (l : Loc) (r : Exec SnapshotError (Option (ValidatedText × FileStamp))) (s : State h) :
    Prop := ∀ c, r = .ok (some c) → s.Had l c.1.bytes

/-- What is decided of a reading: stamps that differ, bytes that were had, or a racy stamp. -/
theorem judge_had {before after : FileStamp} (hb : (before != after) = true ∨ s.Had (h.locate path) bytes ∨
    after.racy = true ∧ Reads f (bytes.length + 1) bytes s) :
    (Snapshot.judge path before after bytes).wp (step rules who) (CandidateHad (h.locate path)) s := by
  rcases hb with hne | hhad | ⟨hracy, hreads⟩
  · refine Proc.wp_bind_of Proc.wp_true (fun stamp s₁ _ => ?_) fun e s₁ _ c hc => by cases hc
    show Proc.wp _ (if _ then _ else _) _ _
    rw [if_pos (by simp [hne])]
    exact fun c hc => by cases hc
  · refine Proc.wp_mono (wp_grown ((meets_judge_bytes path before after bytes).wp s)) fun r s' hr c hc => ?_
    obtain ⟨hm, hgrown⟩ := hr
    subst hc
    rw [(hm c rfl).1]
    exact hhad.grown hgrown
  · refine Proc.wp_bind_of (wp_within (pathStamp_shut path) Proc.wp_true) (fun stamp s₁ hr => ?_)
      fun e s₁ _ c hc => by cases hc
    have hreads₁ := hreads.within hr.2
    show Proc.wp _ (if _ then _ else _) _ _
    split_ifs
    · exact fun c hc => by cases hc
    have hconfirmed : (Snapshot.confirmed path after bytes).wp (step rules who)
        (fun r s' => r = .ok true → s'.Had (h.locate path) bytes) s₁ := by
      rw [Snapshot.confirmed, if_pos hracy]
      refine Proc.wp_bind_of (fsRead_whole hR) (fun r s₂ hr => ?_) fun e s₂ _ he => by cases he
      rcases r with e | reread
      · show Proc.wp _ (if e.kind = .notFound then _ else _) _ _
        split_ifs <;> exact fun he => by cases he
      · intro he
        rw [Except.ok.injEq, decide_eq_true_eq] at he
        subst he
        exact (hr _ rfl).elim hreads₁.had id
    refine Proc.wp_bind_of hconfirmed (fun ok s₂ hok => ?_) fun e s₂ _ c hc => by cases hc
    cases ok with
    | false => exact fun c hc => by cases hc
    | true =>
      refine Snapshot.wp_contract ValidatedText.noPanic_tryFromBytes (fun text ht c hc => ?_)
        fun r' hr' c hc => ?_
      · cases hc
        rw [ValidatedText.tryFromBytes_eq_ok.1 ht]
        exact hok rfl
      · obtain ⟨e, rfl, -⟩ := hr' True
        cases hc

theorem readStamped_had {t : ℤ} (hm : s.sinceOpen.any (·.answers f m) = true) :
    (Snapshot.readStamped path f (.fromMetadata m t)).wp (step rules who)
      (CandidateHad (h.locate path)) s := by
  refine Snapshot.wp_contract (noPanic_validateFileSize _) (fun _ _ => ?_) fun r' hr' c hc => ?_
  swap
  · obtain ⟨e, rfl, -⟩ := hr' True
    cases hc
  refine wp_calm (c := .reserve _) trivial fun x a s₁ _ _ _ ht₁ => ?_
  change Bool at a
  cases a with
  | false => exact fun c hc => by cases hc
  | true =>
    have hshut : ∀ {rounds capacity}, (Snapshot.readLoop path f rounds capacity [] : Op h _ _).All Call.Shut :=
      Prog.All.mono (fun c hc => by cases c <;> first | exact trivial | exact hc.elim)
        (readLoop_grows path f _ _ [])
    refine Proc.wp_bind_of (wp_within hshut (readLoop_reads _ fun _ _ => List.nil_prefix))
      (fun bytes s₂ hr => ?_) fun e s₂ _ c hc => by cases hc
    obtain ⟨hreads, hwithin⟩ := hr
    refine wp_calm (c := .fstat f) trivial fun x a s₃ _ _ ha ht₃ => ?_
    obtain ⟨-, ⟨e, -, rfl⟩ | rfl⟩ := act_fstat ha
    · exact fun c hc => by cases hc
    have hreads₃ : Reads f (bytes.length + 1) bytes s₃ := (hreads bytes rfl).within (.cons ht₃ rfl)
    refine Proc.wp_bind.2 (wp_calm (c := .now) trivial fun y a s₄ hrule hw ha₄ ht₄ => ?_)
    obtain ⟨rfl, -⟩ := Prod.mk.inj (Option.some.inj ha₄)
    have hwithin₄ : Within s₃ s₄ := .cons ht₄ rfl
    refine judge_had (f := f) hR ?_
    by_cases hsame : s₃.world.metadata f = m
    · refine .inr ?_
      have hanswers : (s₂.trace.takeWhile fun d => !d.opens).any
          (·.answers f (s₃.world.metadata f)) = true := by
        rw [hsame]
        obtain ⟨d, hd, hans⟩ := List.any_eq_true.1 hm
        exact List.any_eq_true.2 ⟨d, (((Within.cons ht₁ rfl).trans hwithin).since.subset hd), hans⟩
      rcases untorn_now (hR _ _ _ hrule) hw ht₃ hanswers with hwhole | ⟨-, hracy⟩
      · exact .inl (hreads₃.had (hwhole.mono List.suffix_rfl hwithin₄.trace))
      · exact .inr ⟨hracy, hreads₃.within hwithin₄⟩
    · refine .inl ?_
      rw [bne, Bool.not_eq_true', Bool.eq_false_iff]
      intro heq
      rw [FileStamp.fromMetadata_eq_iff] at heq
      exact hsame heq.symm

theorem readCandidate_had : (Snapshot.readCandidate path).wp (step rules who)
    (CandidateHad (h.locate path)) s := by
  refine wp_calm (c := .openRead path) trivial fun x a s₁ _ _ ha ht => ?_
  change Except IoError ℕ at a
  rcases a with e | f
  · exact fun c hc => by cases hc
  refine wp_calm (c := .fstat f) trivial fun x a s₂ _ _ ha ht₂ => ?_
  change Except IoError Metadata at a
  rcases a with e | m
  · exact fun c hc => by cases hc
  refine Proc.wp_bind.2 (wp_calm (c := .now) trivial fun y t s₃ _ _ _ ht₃ => ?_)
  refine readStamped_had hR ?_
  rw [sinceOpen_cons ht₃ rfl, sinceOpen_cons ht₂ rfl]
  simp [Did.answers]

theorem loadAttempts_had : ∀ (attempts : ℕ) {s : State h},
    (Snapshot.loadAttempts path attempts).wp (step rules who)
      (fun r s' => ∀ snapshot, r = .ok snapshot → s'.Had (h.locate path) snapshot.bytes) s
  | 0, s => fun snapshot he => by cases he
  | attempts + 1, s => by
    refine Proc.wp_bind_of (readCandidate_had hR) (fun r s₁ hr => ?_) fun e s₁ _ snapshot he => by cases he
    rcases r with _ | ⟨text, stamp⟩
    · exact loadAttempts_had attempts
    · show Proc.wp _ (Proc.ofExec (Snapshot.fromValidatedWithStamp text (some stamp))) _ _
      rw [Snapshot.fromValidatedWithStamp_eq]
      rintro _ ⟨⟩
      exact hr _ rfl

/-- **What a load answers, the file at the path had.** -/
theorem load_had : (Snapshot.load path).wp (step rules who)
    (fun r s' => ∀ snapshot, r = .ok snapshot → s'.Had (h.locate path) snapshot.bytes) s :=
  wp_calm (c := .rest) trivial fun _ _ _ _ _ _ _ => loadAttempts_had hR _

end

end Hashline
