/-
  What a call is given by the cache, the file at the path had; and a load of a
  file that is found does not say that there is none.
-/
import Hashline.Whole

namespace Hashline

open Machine

variable {h : Host} {ε α : Type}

/-! ## What is resident -/

/-- The entries of the path have stamps of the length of their bytes, which seal them, and no load of
    it is in flight. -/
structure World.Ready (path : PathBuf) (w : World h) : Prop where
  sane : w.Sane
  sealed : ∀ entry, w.cache.Resident (path.components, entry) → ∃ stamp, entry.stamp = some stamp ∧
    stamp.len = entry.snapshot.bytes.length ∧ Sealed stamp entry.snapshot.bytes (h.locate path) w
  flight : w.cache.flight path.components = none
  cell : (w.cells w.nextCell).state = .pending

section
variable {path : PathBuf} {f who : ℕ} {s s' : State h} {c : Call h} {x : Choice} {rules : Rules h}
  {bytes : Bytes}

theorem World.Ready.elapsed {w w' : World h} (hs : w.Ready path) (hw : x.elapsed w = some w') :
    w'.Ready path := by
  have hl := Choice.elapsed_later hs.sane hw
  obtain ⟨hcache, hcells, hnext⟩ := Choice.elapsed_cache_eq hw
  refine ⟨hl.sane, fun entry hr => ?_, by rw [hcache, hs.flight], by rw [hcells, hnext, hs.cell]⟩
  rw [hcache] at hr
  obtain ⟨stamp, hstamp, hlen, hsealed⟩ := hs.sealed entry hr
  exact ⟨stamp, hstamp, hlen, hsealed.later hl⟩

/-- A procedure of calls that change nothing. -/
theorem wp_ready {p : Op h ε α} (hp : p.All Call.Calm) (hs : s.world.Ready path)
    {Q : Exec ε α → State h → Prop} (hw : p.wp (step rules who) Q s) :
    p.wp (step rules who) (fun r s' => Q r s' ∧ s'.world.Ready path) s := by
  refine Proc.wp_of_all hp (fun x c t a t' hc ht hst => ?_) hs hw
  obtain ⟨-, w, hw, ha, -⟩ := step_eq_some.1 hst
  rw [act_calm hc ha]
  exact ht.elapsed hw

/-- A stamp of the path: what is resident with it, the file had. -/
theorem currentStamp_had (hs : s.world.Ready path) :
    (SnapshotCache.currentStamp path).wp (step rules who) (fun r s' => s'.world.Ready path ∧
      ∀ stamp, r = .ok (some stamp) → ∀ entry, s'.world.cache.Resident (path.components, entry) →
        (entry.stamp == some stamp) = true → entry.stamp.any (·.racy) = false →
          s'.Had (h.locate path) entry.snapshot.bytes) s := by
  refine wp_calm (c := .stat path) trivial fun x a s₁ _ hw ha ht => ?_
  have hs₁ := hs.elapsed hw
  obtain ⟨-, ⟨e, -, rfl⟩ | ⟨f, hf, rfl⟩ | ⟨-, rfl⟩⟩ := act_stat ha
  · exact ⟨hs₁, fun stamp he => by cases he⟩
  · refine Proc.wp_bind.2 (wp_calm (c := .now) trivial fun y t s₂ _ hw₂ _ ht₂ =>
      ⟨hs₁.elapsed hw₂, ?_⟩)
    rintro _ ⟨⟩ entry hr heq hracy
    rw [(Choice.elapsed_cache_eq hw₂).1] at hr
    obtain ⟨stamp, hstamp, -, hsealed⟩ := hs₁.sealed entry hr
    rw [hstamp] at heq hracy
    obtain ⟨m, t', rfl, -, hbytes⟩ := hsealed hracy
    have hcontent := hbytes f hf (FileStamp.fromMetadata_eq_iff.1 heq).symm
    have hhad : s₁.Had (h.locate path) entry.snapshot.bytes :=
      ⟨_, by rw [ht]; exact List.mem_cons_self, by
        rw [s₁.world.contentAt_of_entry hf, hcontent]⟩
    exact hhad.grown (ht₂ ▸ List.suffix_cons _ _)
  · exact ⟨hs₁, fun stamp he => by cases he⟩

/-- What is served, the file at the path had. -/
def ServedHad (path : PathBuf) (r : Exec SnapshotError (Option (Snapshot h.contentId))) (s : State h) : Prop :=
  ∀ snapshot, r = .ok (some snapshot) → s.Had (h.locate path) snapshot.bytes

theorem servedHad_none : ServedHad path (.ok none) s := fun _ he => by cases he

theorem servedHad_error {e : Fault SnapshotError} : ServedHad path (.error e) s := fun _ he => by cases he

theorem freshResident_had (hs : s.world.Ready path) : (SnapshotCache.freshResident path).wp (step rules who)
    (fun r s' => ServedHad path r s' ∧ s'.world.Ready path) s := by
  refine wp_ready (SnapshotCache.freshResident_calm path) hs ?_
  refine Proc.wp_bind_of (currentStamp_had hs) (fun o s₁ hr => ?_) fun e s₁ _ => servedHad_error
  obtain ⟨hs₁, hhad⟩ := hr
  rcases o with _ | stamp
  · exact servedHad_none
  refine Proc.wp_ask.2 fun x a s₂ hst snapshot he => ?_
  obtain ⟨-, w, hw, ha, ht⟩ := step_eq_some.1 hst
  cases he
  obtain ⟨entry, hr, rfl, heq, hracy⟩ := SnapshotCache.get_some (act_cacheGet ha).symm
  rw [(Choice.elapsed_cache_eq hw).1] at hr
  exact (hhad stamp rfl entry hr heq hracy).grown (ht ▸ List.suffix_cons _ _)

variable (hR : ∀ s c x, rules s c x = true → untorn (h.locate path) s c x = true)
include hR

/-- What proves an entry is a whole reading of its bytes. -/
theorem provedBy_had {snapshot : Snapshot h.contentId} {entryStamp : FileStamp} (hp : s.proves = true)
    (hlen : entryStamp.len = snapshot.bytes.length) :
    (SnapshotCache.provedBy snapshot entryStamp f).wp (step rules who)
      (fun r s' => ∀ after, r = .ok (some after) → s'.Had (h.locate path) snapshot.bytes) s := by
  refine wp_calm (c := .fstat f) trivial fun x a s₁ _ _ ha ht₁ => ?_
  obtain ⟨-, ⟨e, -, rfl⟩ | rfl⟩ := act_fstat ha
  · exact fun after he => by cases he
  refine Proc.wp_bind.2 (wp_calm (c := .now) trivial fun y t s₂ _ _ ha₂ ht₂ => ?_)
  obtain ⟨rfl, -⟩ := Prod.mk.inj (Option.some.inj ha₂)
  show Proc.wp _ (if _ then _ else _) _ _
  split_ifs with hbefore
  · exact fun after he => by cases he
  have hshut : ∀ {limit rounds}, (readToEnd f limit rounds [] : Op h SnapshotError _).All Call.Shut := by
    refine Prog.All.mono ?_ (readToEnd_all f _ _ [])
    rintro _ ⟨_, _, rfl⟩
    trivial
  refine Proc.wp_bind_of (wp_within hshut (readToEnd_reads _ (fun _ _ => List.nil_prefix) (Nat.zero_le _)
    (Nat.le_add_left _ _))) (fun r s₃ hr => ?_) fun e s₃ _ after he => by cases he
  obtain ⟨hreads, hwithin⟩ := hr
  rcases r with e | bytes
  · exact fun after he => by cases he
  refine wp_calm (c := .fstat f) trivial fun x a s₄ _ _ ha ht₄ => ?_
  obtain ⟨-, ⟨e, -, rfl⟩ | rfl⟩ := act_fstat ha
  · exact fun after he => by cases he
  refine Proc.wp_bind.2 (wp_calm (c := .now) trivial fun y a s₅ hrule hw ha₅ ht₅ => ?_)
  obtain ⟨rfl, -⟩ := Prod.mk.inj (Option.some.inj ha₅)
  intro after he
  rw [Except.ok.injEq] at he
  split_ifs at he with hproved
  rw [Bool.and_eq_true, decide_eq_true_eq] at hproved
  obtain ⟨heq, rfl⟩ := hproved
  -- both stamps are the entry's, so the metadata were answered twice
  rw [bne, Bool.not_eq_true', Bool.not_eq_false] at hbefore
  have hsame : s₁.world.metadata f = s₄.world.metadata f := by
    have hstamps : (FileStamp.fromMetadata (s₁.world.metadata f) s₂.world.now
        == FileStamp.fromMetadata (s₄.world.metadata f) s₅.world.now) = true := by
      rw [FileStamp.eq_iff] at hbefore heq ⊢
      exact ⟨hbefore.1.trans heq.1.symm, hbefore.2.1.trans heq.2.1.symm,
        hbefore.2.2.1.trans heq.2.2.1.symm, hbefore.2.2.2.trans heq.2.2.2.symm⟩
    exact FileStamp.fromMetadata_eq_iff.1 hstamps
  have hsince : Within s₁ s₃ := (Within.cons ht₂ rfl).trans hwithin
  have hanswers : (s₃.trace.takeWhile fun d => !d.opens).any (·.answers f (s₄.world.metadata f)) = true := by
    refine List.any_eq_true.2 ⟨_, hsince.since.subset (by
      rw [sinceOpen_cons ht₁ rfl]; exact List.mem_cons_self), ?_⟩
    simp [Did.answers, hsame]
  have hproves : s₄.proves = true :=
    (Within.cons ht₄ rfl).proves.trans (hsince.proves.trans ((Within.cons ht₁ rfl).proves.trans hp))
  rcases untorn_now (hR _ _ _ hrule) hw ht₄ hanswers with hwhole | ⟨hno, -⟩
  · refine Reads.had (f := f) (s := s₄) (fun content hseen => ?_) (hwhole.mono List.suffix_rfl
      (Within.cons ht₅ rfl).trace)
    have hb := ((hreads _ rfl).within (.cons ht₄ rfl)) content hseen
    have hmax : maxFileBytes < u64Max := by decide
    have hsize := snapshot.text.isText.size
    have hlimit : saturatingAdd entryStamp.len 1 = snapshot.bytes.length + 1 := by
      rw [hlen]
      exact saturatingAdd_of_le (hsize.trans_lt hmax)
    rwa [hlimit] at hb
  · rw [hproves] at hno
    cases hno

theorem verifyRacyResident_had (hs : s.world.Ready path) :
    (SnapshotCache.verifyRacyResident path).wp (step rules who)
      (fun r s' => ServedHad path r s' ∧ (r = .ok none → s'.world.Ready path)) s := by
  refine wp_calm (c := .cacheRacyResident path.components) trivial fun x a s₁ _ hw ha ht₁ => ?_
  have hs₁ := hs.elapsed hw
  obtain rfl := act_cacheRacyResident ha
  rcases hres : s₁.world.cache.racyResident path.components with _ | ⟨snapshot, entryStamp⟩
  · exact ⟨servedHad_none, fun _ => hs₁⟩
  obtain ⟨entry, he, rfl, hstamp⟩ := SnapshotCache.racyResident_some hres
  obtain ⟨stamp, hstamp', hlen, -⟩ := hs₁.sealed entry (SnapshotCache.resident_of_entry he)
  rw [hstamp, Option.some.injEq] at hstamp'
  subst hstamp'
  refine wp_calm (c := .openRead path) trivial fun x a s₂ _ hw₂ ha ht₂ => ?_
  have hs₂ := hs₁.elapsed hw₂
  change Except IoError ℕ at a
  rcases a with e | f
  · exact ⟨servedHad_none, fun _ => hs₂⟩
  have hproves : s₂.proves = true := by
    rw [State.proves, ht₂, ht₁]
    rfl
  refine Proc.wp_bind_of (wp_ready (SnapshotCache.provedBy_calm _ _ f) hs₂
    (provedBy_had hR hproves hlen)) (fun o s₃ hr => ?_) fun e s₃ _ =>
      ⟨servedHad_error, fun he => by cases he⟩
  obtain ⟨hhad, hs₃⟩ := hr
  rcases o with _ | after
  · exact ⟨servedHad_none, fun _ => hs₃⟩
  refine wp_call fun x w a s₄ _ _ _ ht₄ => ⟨?_, fun he => by cases he⟩
  rintro _ ⟨⟩
  exact (hhad after rfl).grown (ht₄ ▸ List.suffix_cons _ _)

theorem loadCell_had {cell : ℕ} : (SnapshotCache.loadCell path cell (Snapshot.load path)).wp (step rules who)
    (fun r s' => ∀ snapshot, r = .ok snapshot → s'.Had (h.locate path) snapshot.bytes) s := by
  have hsettle : ∀ {result : Except SnapshotError (Snapshot h.contentId)} {state s₁},
      (∀ snapshot, result = .ok snapshot → s₁.Had (h.locate path) snapshot.bytes) → (do
        Op.cellSet cell state
        Op.cacheSettle path
        Op.cellUnlock cell
        Proc.orElse id result : Op h SnapshotError _).wp (step rules who)
          (fun r s' => ∀ snapshot, r = .ok snapshot → s'.Had (h.locate path) snapshot.bytes) s₁ := by
    intro result state s₁ hhad
    refine Proc.wp_mono (wp_grown (Proc.Meets.wp (V := fun snapshot => result = .ok snapshot)
      (E := fun _ => True) ?_ s₁)) fun r s' hr snapshot he => ?_
    · refine Proc.meets_call fun _ => Proc.meets_call fun _ => Proc.meets_call fun _ => ?_
      exact Proc.meets_orElse (fun _ he => he) fun _ _ => trivial
    · subst he
      exact (hhad snapshot hr.1).grown hr.2
  refine Proc.wp_attempt_of (Proc.wp_and (load_had hR) ((Snapshot.meets_load path).wp s))
    (fun snapshot s₁ hr => ?_) (fun e s₁ _ => hsettle fun snapshot he => by cases he)
    fun s₁ hr => hr.2
  refine wp_call fun x w a s₂ _ _ _ ht => hsettle fun snapshot' he => ?_
  cases he
  exact (hr.1 snapshot rfl).grown (ht ▸ List.suffix_cons _ _)

theorem claimOrJoin_had (hs : s.world.Ready path) :
    (SnapshotCache.claimOrJoin path (Snapshot.load path)).wp (step rules who)
      (fun r s' => ∀ snapshot, r = .ok snapshot → s'.Had (h.locate path) snapshot.bytes) s := by
  refine Proc.wp_bind_of (currentStamp_had hs) (fun current s₁ hr => ?_) fun e s₁ _ snapshot he => by cases he
  obtain ⟨hs₁, hhad⟩ := hr
  refine wp_call fun x w a s₂ _ hw ha ht => ?_
  have hs₁' := hs₁.elapsed hw
  obtain ⟨rfl, hw₂⟩ := act_cacheClaim ha
  rcases w.cache.claim_flight path.components current w.nextCell with ⟨snapshot, hserve⟩ | ⟨cell, hf, -⟩ |
    ⟨-, hcell, -⟩
  · obtain ⟨entry, hr, rfl, hok⟩ := SnapshotCache.claim_inl (congrArg Prod.fst hserve)
    rw [hserve]
    rintro _ ⟨⟩
    obtain ⟨stamp, hstamp, -, -⟩ := hs₁'.sealed entry hr
    rw [(Choice.elapsed_cache_eq hw).1] at hr
    rcases current with _ | current
    · rw [SnapshotCache.stampOk, hstamp] at hok
      cases hok
    · rw [SnapshotCache.stampOk, Bool.and_eq_true, Bool.not_eq_true'] at hok
      exact (hhad current rfl entry hr hok.1 hok.2).grown (ht ▸ List.suffix_cons _ _)
  · rw [hs₁'.flight] at hf
    cases hf
  · rw [hcell]
    refine wp_call fun x w₃ a s₃ _ hw₃ ha₃ _ => ?_
    obtain ⟨-, rfl, -⟩ := act_cellLock ha₃
    have hpending : (w₃.cells w.nextCell).state = .pending := by
      rw [(Choice.elapsed_cache_eq hw₃).2.1, hw₂]
      exact hs₁'.cell
    rw [hpending]
    exact loadCell_had hR

/-- **What a call is given, the file at the path had** while it was made. -/
theorem getOrLoad_had (hs : s.world.Ready path) :
    (SnapshotCache.getOrLoad path (Snapshot.load path)).wp (step rules who)
      (fun r s' => ∀ snapshot, r = .ok snapshot → s'.Had (h.locate path) snapshot.bytes) s := by
  refine Proc.wp_bind_of (freshResident_had hs) (fun hit s₁ hr => ?_) fun e s₁ _ snapshot he => by cases he
  obtain ⟨hhad, hs₁⟩ := hr
  rcases hit with _ | hit
  swap
  · rintro _ ⟨⟩
    exact hhad _ rfl
  refine Proc.wp_bind_of (verifyRacyResident_had hR hs₁) (fun hit s₂ hr => ?_) fun e s₂ _ snapshot he => by
    cases he
  obtain ⟨hhad, hs₂⟩ := hr
  rcases hit with _ | hit
  · exact claimOrJoin_had hR (hs₂ rfl)
  · rintro _ ⟨⟩
    exact hhad _ rfl

end

/-! ## A file that is found -/

/-- What a load is answered where the file is found: no failure says that there is none. -/
def finding : Dialogue (Call h) Answer where
  call _ := True
  answer c a := match c, a with
    | .openRead _, .error e | .fstat _, .error e | .read .., .error e => e.kind ≠ .notFound
    | _, _ => True

/-- The machine lets no call fail as if there were no file. -/
def Choice.honest (x : Choice) : Bool := !x.fault.any (·.kind == .notFound)

/-- Each open finds a file, and no look at it fails as if there were none. -/
def found : Rules h := fun s c x => match c, x.elapsed s.world with
  | .openRead path, some w => x.honest && (w.entries (h.locate path)).isSome
  | .fstat _, _ | .read .., _ => x.honest
  | _, _ => true

section
variable {path : PathBuf} {f who : ℕ} {s s' : State h} {c : Call h} {x : Choice} {rules : Rules h}
  {bytes : Bytes}

theorem Choice.honest.kind {e : IoError} (hx : x.honest = true) (he : x.fault = some e) :
    e.kind ≠ .notFound := by
  simpa [Choice.honest, he] using hx

/-- **Under the rule** the answers are those. -/
theorem found_finding {a : Answer c} (hr : found s c x = true)
    (hst : step rules who x c s = some (a, s')) : finding.answer c a := by
  obtain ⟨-, w, hw, ha, -⟩ := step_eq_some.1 hst
  cases c with
  | openRead path =>
    simp only [found, hw, Bool.and_eq_true] at hr
    obtain ⟨-, ⟨e, hx, rfl⟩ | ⟨f, -, rfl⟩ | ⟨hn, -⟩⟩ := act_openRead ha
    · rcases hx with hx | ⟨-, rfl⟩
      · exact Choice.honest.kind hr.1 hx
      · exact nofun
    · trivial
    · rw [hn] at hr
      cases hr.2
  | fstat f =>
    obtain ⟨-, ⟨e, hx, rfl⟩ | rfl⟩ := act_fstat ha
    · exact Choice.honest.kind hr hx
    · trivial
  | read f offset most =>
    obtain ⟨-, ⟨e, hx, rfl⟩ | ⟨-, rfl⟩ | rfl⟩ := act_read ha
    · exact Choice.honest.kind hr hx
    · exact nofun
    · trivial
  | _ => trivial

namespace Snapshot

/-- Not that there is no file. -/
def NotMissing (e : SnapshotError) : Prop := e.isNotFound = false

theorem within_contract {β : Type} {r : Exec ContractError β} (hr : r.NoPanic) {V : β → Prop}
    (hV : ∀ a, r = .ok a → V a) :
    (Proc.ofExec (r.mapErr SnapshotError.contract) : Op h _ _).Within finding V NotMissing := by
  rcases r with (e | _) | a
  · rfl
  · exact absurd rfl hr
  · exact hV a rfl

theorem growBy_found (capacity : ℕ) (bytes chunk : Bytes) :
    (growBy capacity bytes chunk : Op h _ _).Within finding Anything NotMissing := by
  refine (within_contract (noPanic_validateFileSize _) fun _ _ => trivial).bind fun _ _ => ?_
  split_ifs
  · refine Proc.within_call trivial fun granted _ => ?_
    change Bool at granted
    cases granted
    · rfl
    · trivial
  · trivial

theorem readLoop_found (path : PathBuf) (f : ℕ) : ∀ (rounds capacity : ℕ) (bytes : Bytes),
    (readLoop path f rounds capacity bytes : Op h _ _).Within finding Anything NotMissing
  | 0, _, _ => rfl
  | rounds + 1, capacity, bytes => by
    refine Proc.within_call trivial fun a ha => ?_
    change Except IoError Bytes at a
    rcases a with e | chunk
    · exact decide_eq_false ha
    · show Proc.Within _ _ _ (if chunk = [] then _ else _)
      split_ifs
      · trivial
      · exact (growBy_found _ _ _).bind fun _ _ => readLoop_found path f rounds _ _

theorem judge_found (path : PathBuf) (before after : FileStamp) (bytes : Bytes) :
    (judge path before after bytes : Op h _ _).Within finding Anything NotMissing := by
  have hstamp : (pathStamp path : Op h _ _).Within finding Anything NotMissing := by
    refine Proc.within_call trivial fun a _ => ?_
    change Except IoError Metadata at a
    rcases a with e | m
    · show Proc.Within _ _ _ (if e.kind = .notFound then _ else _)
      split_ifs with hk
      · trivial
      · exact decide_eq_false hk
    · exact Proc.within_call trivial fun _ _ => trivial
  have hconfirmed : (confirmed path after bytes : Op h _ _).Within finding Anything NotMissing := by
    unfold confirmed
    split_ifs
    · have hcalls : (fsRead path : Op h SnapshotError _).All (finding (h := h)).call :=
        Prog.All.mono (fun _ _ => trivial) (fsRead_calm path)
      refine ((meets_fsRead path).within hcalls).bind fun r _ => ?_
      rcases r with e | reread
      · show Proc.Within _ _ _ (if e.kind = .notFound then _ else _)
        split_ifs with hk
        · trivial
        · exact decide_eq_false hk
      · trivial
    · trivial
  refine hstamp.bind fun _ _ => ?_
  split_ifs
  · trivial
  · refine hconfirmed.bind fun sure _ => ?_
    cases sure with
    | false => trivial
    | true =>
      rw [if_pos rfl]
      exact (within_contract ValidatedText.noPanic_tryFromBytes fun _ _ => trivial).bind fun _ _ => trivial

theorem readCandidate_found (path : PathBuf) :
    (readCandidate path : Op h _ _).Within finding Anything NotMissing := by
  refine Proc.within_call trivial fun a ha => ?_
  change Except IoError ℕ at a
  rcases a with e | f
  · exact decide_eq_false ha
  refine Proc.within_call trivial fun a ha => ?_
  change Except IoError Metadata at a
  rcases a with e | m
  · exact decide_eq_false ha
  refine Proc.within_call trivial fun _ _ => ?_
  refine (within_contract (noPanic_validateFileSize _) fun _ _ => trivial).bind fun _ _ => ?_
  refine Proc.within_call trivial fun granted _ => ?_
  change Bool at granted
  cases granted with
  | false => rfl
  | true =>
    refine (readLoop_found path f _ _ _).bind fun bytes _ => Proc.within_call trivial fun a ha => ?_
    change Except IoError Metadata at a
    rcases a with e | m
    · exact decide_eq_false ha
    · exact Proc.within_call trivial fun _ _ => judge_found path _ _ bytes

theorem loadAttempts_found (path : PathBuf) : ∀ attempts : ℕ,
    (loadAttempts path attempts : Op h _ _).Within finding Anything NotMissing
  | 0 => rfl
  | attempts + 1 => by
    refine (readCandidate_found path).bind fun o _ => ?_
    rcases o with _ | ⟨text, stamp⟩
    · exact loadAttempts_found path attempts
    · show Proc.Within _ _ _ (Proc.ofExec (Snapshot.fromValidatedWithStamp text (some stamp)))
      rw [Snapshot.fromValidatedWithStamp_eq]
      trivial

/-- **A load of a file that is found** does not fail as if there were none. -/
theorem load_found (hF : ∀ s c x, rules s c x = true → found s c x = true) :
    (load path : Op h _ _).wp (step rules who) (fun r _ => r.Meets Anything NotMissing) s :=
  have hload : (load path : Op h _ _).Within finding Anything NotMissing :=
    Proc.within_call trivial fun _ _ => loadAttempts_found path _
  Proc.wp_mono (hload.wp (I := fun _ => True) (fun _ _ _ _ _ _ _ hst =>
    ⟨found_finding (hF _ _ _ (step_eq_some.1 hst).1) hst, trivial⟩) trivial) fun _ _ hr => hr.1

end Snapshot

end

end Hashline
