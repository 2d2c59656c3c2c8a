/-
  What a load answers among exclusive creates of one entry, wherever the link
  and the unlink of another thread fall.
-/
import Hashline.Turns

namespace Hashline

open Machine Object

variable {h : Host} {ε α : Type}

namespace Race

variable {race : Race h} {rules : Rules h} {who : ℕ} {s₀ s : State h} {Q : Exec ε α → State h → Prop}

/-! ## Calls -/

/-- Where the machine does not fail, neither does looking the entry up. -/
theorem Leads.no_refusal {path : PathBuf} {x : Choice} {e : IoError} (hpath : race.Leads path)
    (hx : x.fault = none) : ¬x.Refuses path e := by
  rintro (hf | ⟨hslash, -⟩)
  · rw [hx] at hf; cases hf
  · rw [hpath.plain] at hslash; cases hslash

section
variable (hu : race.Undisturbed rules) (hs : race.Yields who s₀ s)
include hu hs

theorem safe_now {k : ℤ → Op h ε α} (hk : ∀ t s', race.Onward who s₀ s' →
      (k t).Safe (step rules who) everywhere (race.contract who) Q s') :
    (Op.now >>= k).Safe (step rules who) everywhere (race.contract who) Q s :=
  safe_aside (c := .now) hu trivial fun _ _ a s' hi hy _ _ _ _ _ => hk a s' ⟨hi, hs.trans hy⟩

theorem safe_fromMetadata {m : Metadata} {k : FileStamp → Op h ε α}
    (hk : ∀ t s', race.Onward who s₀ s' →
      (k (.fromMetadata m t)).Safe (step rules who) everywhere (race.contract who) Q s') :
    (Op.fromMetadata m >>= k).Safe (step rules who) everywhere (race.contract who) Q s :=
  Proc.safe_bind.2 (safe_now hu hs fun t s' hs' => hk t s' hs')

theorem safe_reserve {n : ℕ} {k : Bool → Op h ε α} (hk : ∀ s', race.Onward who s₀ s' →
      (k true).Safe (step rules who) everywhere (race.contract who) Q s') :
    (Op.reserve n >>= k).Safe (step rules who) everywhere (race.contract who) Q s :=
  safe_aside (c := .reserve n) hu trivial fun _ _ _ s' hi hy _ hflag ha _ _ => by
    cases ha
    rw [hflag n rfl]
    exact hk s' ⟨hi, hs.trans hy⟩

theorem safe_openRead {path : PathBuf} (hpath : race.Leads path)
    {k : Except IoError ℕ → Op h ε α}
    (hok : ∀ f s', race.Onward who s₀ s' → s'.world.entries race.dest = some f →
      (k (.ok f)).Safe (step rules who) everywhere (race.contract who) Q s')
    (hnone : ∀ s', race.Onward who s₀ s' → s'.world.entries race.dest = none →
      (k (.error .noSuchFile)).Safe (step rules who) everywhere (race.contract who) Q s') :
    (Op.openRead path >>= k).Safe (step rules who) everywhere (race.contract who) Q s :=
  safe_aside (c := .openRead path) hu trivial fun _ _ a s' hi hy hfault _ ha he _ => by
    rcases (act_openRead ha).2 with ⟨e, hx, -⟩ | ⟨f, hf, rfl⟩ | ⟨hf, rfl⟩
    · exact absurd hx (hpath.no_refusal hfault)
    · rw [he, hpath.locate] at hf
      exact hok f s' ⟨hi, hs.trans hy⟩ hf
    · rw [he, hpath.locate] at hf
      exact hnone s' ⟨hi, hs.trans hy⟩ hf

theorem safe_stat {path : PathBuf} (hpath : race.Leads path) {f : ℕ}
    (hf : s₀.world.entries race.dest = some f) {k : Except IoError Metadata → Op h ε α}
    (hk : ∀ s', race.Onward who s₀ s' →
      (k (.ok (s'.world.metadata f))).Safe (step rules who) everywhere (race.contract who) Q s') :
    (Op.stat path >>= k).Safe (step rules who) everywhere (race.contract who) Q s :=
  safe_aside (c := .stat path) hu trivial fun _ w a s' hi hy hfault _ ha he hfiles => by
    have hentry := ((hs.trans hy).dest f hf).entry
    rcases (act_stat ha).2 with ⟨e, hx, -⟩ | ⟨g, hg, rfl⟩ | ⟨hg, rfl⟩
    · exact absurd hx (hpath.no_refusal hfault)
    · rw [he, hpath.locate, hentry, Option.some.injEq] at hg
      have hmeta : w.metadata g = s'.world.metadata f := by rw [World.metadata, hfiles, hg]; rfl
      rw [hmeta]
      exact hk s' ⟨hi, hs.trans hy⟩
    · rw [he, hpath.locate, hentry] at hg
      cases hg

theorem safe_fstat {f : ℕ} {k : Except IoError Metadata → Op h ε α}
    (hk : ∀ s', race.Onward who s₀ s' →
      (k (.ok (s'.world.metadata f))).Safe (step rules who) everywhere (race.contract who) Q s') :
    (Op.fstat f >>= k).Safe (step rules who) everywhere (race.contract who) Q s :=
  safe_aside (c := .fstat f) hu trivial fun _ w a s' hi hy hfault _ ha _ hfiles => by
    rcases (act_fstat ha).2 with ⟨e, hx, -⟩ | rfl
    · rw [hfault] at hx; cases hx
    · have hmeta : w.metadata f = s'.world.metadata f := by rw [World.metadata, hfiles]; rfl
      rw [hmeta]
      exact hk s' ⟨hi, hs.trans hy⟩

/-- A read of the entry's file answers a piece of what follows, and nothing only at the end. -/
theorem safe_read {f offset most : ℕ} {b : Bytes} (hf : s₀.world.entries race.dest = some f)
    (hb : (s₀.world.files f).content = b) (hmost : 0 < most) {k : Except IoError Bytes → Op h ε α}
    (hk : ∀ n s', race.Onward who s₀ s' → 0 < n → n ≤ most →
      (k (.ok ((b.drop offset).take n))).Safe (step rules who) everywhere (race.contract who) Q s') :
    (Op.read f offset most >>= k).Safe (step rules who) everywhere (race.contract who) Q s :=
  safe_aside (c := .read f offset most) hu trivial fun x w a s' hi hy hfault _ ha he hfiles => by
    have hkeeps := (hs.trans hy).dest f hf
    obtain ⟨-, ⟨e, hx, -⟩ | ⟨hdir, -⟩ | rfl⟩ := act_read ha
    · rw [hfault] at hx; cases hx
    · rw [hfiles] at hdir
      exact absurd hdir (hi.tidy.plain _ f .dest hkeeps.entry)
    · rw [hfiles, hkeeps.content, hb]
      exact hk _ s' ⟨hi, hs.trans hy⟩ (by rw [Choice.moved]; omega) (Nat.min_le_right _ _)

end

/-! ## Procedures that leave files and names -/

/-- Calls that leave files and names, with the answers there can be under the rules. -/
def answered (rules : Rules h) : Dialogue (Call h) Answer :=
  ⟨Call.Aside, fun c a => ∃ who x s s', step rules who x c s = some (a, s')⟩

theorem within_safe (hu : race.Undisturbed rules) {V : α → Prop} {E : ε → Prop} {x : Op h ε α}
    (hx : x.Within (answered rules) V E) (hi : race.Inv s) :
    x.Safe (step rules who) everywhere (race.contract who)
      (fun r s' => r.Meets V E ∧ race.Onward who s s') s := by
  refine Proc.Within.safe hx (fun s₁ s₂ hs₁ hy hi₂ => ⟨hi₂, hs₁.yields.trans hy⟩)
    (fun x c s₁ a s₂ hc hs₁ _ hst => ?_) ⟨hi, Yields.refl who s⟩
  obtain ⟨hr, w, hw, ha, ht⟩ := step_eq_some.1 hst
  obtain ⟨hi₂, hy⟩ := inv_aside hu hs₁.inv hc hr hw ha ht
  exact ⟨hi₂, fun j _ => hy j, ⟨who, x, s₁, s₂, hst⟩, hi₂, hs₁.yields.trans (hy who)⟩

theorem answered_act (hu : race.Undisturbed rules) {c : Call h} {a : Answer c}
    (ha : (answered rules).answer c a) :
    ∃ who x w w', x.fault = none ∧ act who x c w = some (a, w') := by
  obtain ⟨who, x, s, s', hst⟩ := ha
  obtain ⟨hr, w, -, ha, -⟩ := step_eq_some.1 hst
  exact ⟨who, x, w, _, (hu s c x hr).1, ha⟩

/-! ## Reading the entry's file -/

section
variable (hu : race.Undisturbed rules) {f : ℕ} {b : Bytes} (hf : s₀.world.entries race.dest = some f)
  (hb : (s₀.world.files f).content = b)
include hu hf hb

theorem readToEnd_race {limit : ℕ} : ∀ (rounds : ℕ) {bytes : Bytes} {s : State h},
    race.Onward who s₀ s → bytes <+: b → bytes.length ≤ limit → limit ≤ bytes.length + rounds →
    (readToEnd f limit rounds bytes : Op h ε _).Safe (step rules who) everywhere (race.contract who)
      (fun r s' => race.Onward who s₀ s' ∧ r = .ok (.ok (b.take limit))) s
  | 0, bytes, s, hs, hp, hl, hr => by
    have hlim : limit = bytes.length := by omega
    exact ⟨hs, by rw [hlim, ← List.prefix_iff_eq_take.1 hp]⟩
  | rounds + 1, bytes, s, hs, hp, hl, hr => by
    rw [readToEnd]
    split_ifs with hlim
    · have hlim : limit = bytes.length := by omega
      exact ⟨hs, by rw [hlim, ← List.prefix_iff_eq_take.1 hp]⟩
    · refine safe_read hu hs.yields hf hb (by omega) fun n s' hs' hn hmost => ?_
      obtain ⟨hgrow, hend⟩ := prefix_read hp hn
      have hchunk : ((b.drop bytes.length).take n).length ≤ n := List.length_take_le _ _
      show Proc.Safe _ _ _ (if (b.drop bytes.length).take n = [] then _ else _) _ _
      split_ifs with hc
      · refine ⟨hs', ?_⟩
        rw [← hend hc, List.take_of_length_le hl]
      · have hpos := List.length_pos_of_ne_nil hc
        refine readToEnd_race rounds hs' hgrow ?_ ?_ <;> rw [List.length_append] <;> omega

variable (ht : IsText b)
include ht

theorem readVec_race (hs : race.Yields who s₀ s) {size : ℕ} :
    (readVec f size : Op h ε _).Safe (step rules who) everywhere (race.contract who)
      (fun r s' => race.Onward who s₀ s' ∧ r = .ok (.ok b)) s := by
  refine safe_reserve hu hs fun s₁ hs₁ => ?_
  refine Proc.safe_bind_of (readToEnd_race hu hf hb _ hs₁ List.nil_prefix (Nat.zero_le _)
    (by rw [List.length_nil]; omega)) (fun r s₂ hr => ?_) fun e s₂ hr => by cases hr.2
  obtain ⟨hs₂, he⟩ := hr
  have hsize := ht.size
  have hmax : maxVecBytes = maxFileBytes := rfl
  cases he
  rw [List.take_of_length_le (by omega)]
  show Proc.Safe _ _ _ (if maxVecBytes < b.length then _ else _) _ _
  rw [if_neg (by omega)]
  exact ⟨hs₂, rfl⟩

/-- `fs::read` of the path answers the entry's bytes. -/
theorem fsRead_race (hs : race.Yields who s₀ s) {path : PathBuf} (hpath : race.Leads path) :
    (fsRead path : Op h ε _).Safe (step rules who) everywhere (race.contract who)
      (fun r s' => race.Onward who s₀ s' ∧ r = .ok (.ok b)) s := by
  refine safe_openRead hu hs hpath (fun g s₁ hs₁ hg => ?_) fun s₁ hs₁ hnone => ?_
  · rw [(hs₁.yields.dest f hf).entry, Option.some.injEq] at hg
    subst hg
    refine safe_fstat hu hs₁.yields fun s₂ hs₂ => ?_
    exact readVec_race hu hf hb ht hs₂.yields
  · rw [(hs₁.yields.dest f hf).entry] at hnone
    cases hnone

omit hf hb in
theorem growBy_race (hs : race.Onward who s₀ s) {capacity : ℕ} {bytes chunk : Bytes}
    (hp : bytes ++ chunk <+: b) :
    (Snapshot.growBy capacity bytes chunk : Op h _ _).Safe (step rules who) everywhere
      (race.contract who) (fun r s' => race.Onward who s₀ s' ∧ ∃ n, r = .ok n) s := by
  have hlen := hp.length_le
  rw [List.length_append] at hlen
  have hsize : validateFileSize (bytes.length + chunk.length) = .ok () :=
    validateFileSize_eq_ok.2 (hlen.trans ht.size)
  rw [Snapshot.growBy, hsize]
  show Proc.Safe _ _ _ (if _ then _ else _) _ _
  split_ifs
  · exact safe_reserve hu hs.yields fun s' hs' => ⟨hs', _, rfl⟩
  · exact ⟨hs, _, rfl⟩

/-- **The read loop answers the entry's bytes.** -/
theorem readLoop_race {path : PathBuf} : ∀ (rounds : ℕ) {capacity : ℕ} {bytes : Bytes} {s : State h},
    race.Yields who s₀ s → bytes <+: b → b.length < bytes.length + rounds →
    (Snapshot.readLoop path f rounds capacity bytes : Op h _ _).Safe (step rules who) everywhere
      (race.contract who) (fun r s' => race.Onward who s₀ s' ∧ r = .ok b) s
  | 0, capacity, bytes, s, hs, hp, hr => by
    have hlen := hp.length_le
    omega
  | rounds + 1, capacity, bytes, s, hs, hp, hr => by
    refine safe_read hu hs hf hb (by decide) fun n s₁ hs₁ hn _ => ?_
    obtain ⟨hgrow, hend⟩ := prefix_read hp hn
    show Proc.Safe _ _ _ (if (b.drop bytes.length).take n = [] then _ else _) _ _
    split_ifs with hc
    · exact ⟨hs₁, by rw [← hend hc]⟩
    · have hpos := List.length_pos_of_ne_nil hc
      refine Proc.safe_bind_of (growBy_race hu ht hs₁ hgrow) (fun capacity s₂ hr₂ => ?_)
        fun e s₂ hr₂ => ?_
      · refine readLoop_race rounds hr₂.1.yields hgrow ?_
        rw [List.length_append]
        omega
      · obtain ⟨-, n, he⟩ := hr₂
        cases he

end

/-! ## Attempts -/

/-- Where the metadata differ the temporary name has gone meanwhile. -/
theorem Keeps.moved {w w' : World h} {f : ℕ} (hk : race.Keeps w w' f)
    (hm : w'.metadata f ≠ w.metadata f) : race.Settled w' f ∧ ¬race.Settled w f := by
  have hfile : w'.files f ≠ w.files f := fun he => hm (by simp only [World.metadata, he])
  exact ⟨hk.changed.resolve_left hfile, fun hs => hfile (hk.settled hs).2⟩

/-- What reading the file `f` answers between `w` and `w'`: its bytes, or nothing where the
    temporary name went meanwhile. -/
inductive Reading (race : Race h) (w w' : World h) (f : ℕ) (b : Bytes) :
    Exec SnapshotError (Option (ValidatedText × FileStamp)) → Prop where
  | bytes (text : ValidatedText) (stamp : FileStamp) (hb : text.bytes = b) :
      Reading race w w' f b (.ok (some (text, stamp)))
  | moved (hs : race.Settled w' f) (hn : ¬race.Settled w f) : Reading race w w' f b (.ok none)

section
variable (hu : race.Undisturbed rules) {path : PathBuf} (hpath : race.Leads path)
include hu hpath

section
variable {f : ℕ} {b : Bytes} (hf : s₀.world.entries race.dest = some f)
  (hb : (s₀.world.files f).content = b) (ht : IsText b)
include hf hb ht

theorem confirmed_race (hs : race.Onward who s₀ s) {after : FileStamp} :
    (Snapshot.confirmed path after b : Op h _ _).Safe (step rules who) everywhere (race.contract who)
      (fun r s' => race.Onward who s₀ s' ∧ r = .ok true) s := by
  unfold Snapshot.confirmed
  split_ifs
  · refine Proc.safe_bind_of (fsRead_race hu hf hb ht hs.yields hpath) (fun r s' hr => ?_)
      fun e s' hr => by cases hr.2
    obtain ⟨hs', he⟩ := hr
    cases he
    exact ⟨hs', by simp⟩
  · exact ⟨hs, rfl⟩

theorem judge_race {s₁ : State h} (hs₁ : race.Onward who s₀ s₁) (hs : race.Onward who s₁ s)
    {t t₁ : ℤ} :
    (Snapshot.judge path (.fromMetadata (s₀.world.metadata f) t)
      (.fromMetadata (s₁.world.metadata f) t₁) b : Op h _ _).Safe (step rules who) everywhere
        (race.contract who)
        (fun r s' => race.Onward who s₀ s' ∧ race.Reading s₀.world s'.world f b r) s := by
  have hkeeps₁ := hs₁.yields.dest f hf
  refine Proc.safe_bind.2 ?_
  refine safe_stat hu hs.yields hpath hkeeps₁.entry fun s₂ hs₂ => ?_
  refine safe_fromMetadata hu (Yields.refl who s₂) fun t₂ s₃ hs₃ => ?_
  have hkeeps₂ := hs₂.yields.dest f hkeeps₁.entry
  have hkeeps₃ := hs₃.yields.dest f hkeeps₂.entry
  have hs₀ := (hs₁.trans hs₂).trans hs₃
  have hlen : b.length = (s₁.world.metadata f).len := by
    show _ = (s₁.world.files f).content.length
    rw [hkeeps₁.content, hb]
  show Proc.Safe _ _ _ (if _ then _ else _) _ _
  split_ifs with hdiffer
  · refine ⟨hs₀, ?_⟩
    have hmoved : s₁.world.metadata f ≠ s₀.world.metadata f ∨
        s₂.world.metadata f ≠ s₁.world.metadata f := by
      by_contra hsame
      push Not at hsame
      obtain ⟨h₁, h₂⟩ := hsame
      rw [h₂, h₁] at hdiffer
      rw [h₁] at hlen
      simp only [bne, Option.some_beq_some, FileStamp.fromMetadata_racy, Bool.not_true,
        Bool.false_or, decide_eq_true_iff] at hdiffer
      exact hdiffer hlen
    rcases hmoved with hm | hm
    · obtain ⟨hset, hn⟩ := hkeeps₁.moved hm
      exact .moved ((hkeeps₂.trans hkeeps₃).settled hset).1 hn
    · obtain ⟨hset, hn⟩ := hkeeps₂.moved hm
      exact .moved (hkeeps₃.settled hset).1 fun hset₀ => hn (hkeeps₁.settled hset₀).1
  · refine Proc.safe_bind_of (confirmed_race hu hpath hf hb ht hs₀) (fun sure s₄ hr => ?_)
      fun e s₄ hr => by cases hr.2
    obtain ⟨hs₄, he⟩ := hr
    cases he
    have htext : ValidatedText.tryFromBytes b = .ok ⟨b, ht⟩ := ValidatedText.tryFromBytes_eq_ok.2 rfl
    rw [htext]
    exact ⟨hs₄, .bytes _ _ rfl⟩

theorem readStamped_race (hs : race.Onward who s₀ s) {t : ℤ} :
    (Snapshot.readStamped path f (.fromMetadata (s₀.world.metadata f) t) : Op h _ _).Safe
      (step rules who) everywhere (race.contract who)
        (fun r s' => race.Onward who s₀ s' ∧ race.Reading s₀.world s'.world f b r) s := by
  have hsize : validateFileSize (FileStamp.fromMetadata (s₀.world.metadata f) t).len = .ok () := by
    refine validateFileSize_eq_ok.2 ?_
    show (s₀.world.files f).content.length ≤ _
    rw [hb]
    exact ht.size
  rw [Snapshot.readStamped, hsize]
  refine safe_reserve hu hs.yields fun s₁ hs₁ => ?_
  have hmax := ht.size
  refine Proc.safe_bind_of (readLoop_race hu hf hb ht _ hs₁.yields List.nil_prefix
    (by rw [List.length_nil]; omega)) (fun bytes s₂ hr => ?_) fun e s₂ hr => by cases hr.2
  obtain ⟨hs₂, he⟩ := hr
  cases he
  refine safe_fstat hu hs₂.yields fun s₃ hs₃ => ?_
  refine safe_fromMetadata hu (Yields.refl who s₃) fun t₁ s₄ hs₄ => ?_
  exact judge_race hu hpath hf hb ht hs₃ hs₄

end

/-- What an attempt that began in `w` has answered in `w'`: there is no file, or its bytes, or the
    temporary name went meanwhile. -/
inductive Attempt (race : Race h) (path : PathBuf) (w w' : World h) :
    Exec SnapshotError (Option (ValidatedText × FileStamp)) → Prop where
  | missing (hn : w'.entries race.dest = none) :
      Attempt race path w w' (.error (.err (Snapshot.ioError path "open" .noSuchFile)))
  | bytes (f : ℕ) (text : ValidatedText) (stamp : FileStamp) (hf : w'.entries race.dest = some f)
      (hb : text.bytes = (w'.files f).content) : Attempt race path w w' (.ok (some (text, stamp)))
  | moved (f : ℕ) (hf : w'.entries race.dest = some f) (hs : race.Settled w' f)
      (hn : w.entries race.dest = some f → ¬race.Settled w f) : Attempt race path w w' (.ok none)

theorem readCandidate_race :
    (Snapshot.readCandidate path : Op h _ _).Safe (step rules who) everywhere (race.contract who)
      (fun r s' => race.Onward who s s' ∧ race.Attempt path s.world s'.world r) s := by
  refine safe_openRead hu (Yields.refl who s) hpath (fun f s₁ hs₁ hf => ?_) fun s₁ hs₁ hn =>
    ⟨hs₁, .missing hn⟩
  refine safe_fstat hu (Yields.refl who s₁) fun s₂ hs₂ => ?_
  refine safe_fromMetadata hu (Yields.refl who s₂) fun t s₃ hs₃ => ?_
  have hf₂ := (hs₂.yields.dest f hf).entry
  have ht : IsText (s₂.world.files f).content := by
    rcases hs₂.inv.dest with ⟨hn, -⟩ | ⟨g, i, hw⟩
    · rw [hf₂] at hn; cases hn
    · obtain rfl : f = g := Option.some.inj (hf₂.symm.trans hw.entry)
      rw [hw.content]
      exact race.isText i
  refine Proc.safe_mono (readStamped_race hu hpath hf₂ rfl ht hs₃) fun r s₄ hr => ?_
  obtain ⟨hs₄, hr⟩ := hr
  have hkeeps := hs₄.yields.dest f hf₂
  refine ⟨(hs₁.trans hs₂).trans hs₄, ?_⟩
  cases hr with
  | bytes text stamp hb => exact .bytes f text stamp hkeeps.entry (by rw [hb, hkeeps.content])
  | moved hs hn =>
    refine .moved f hkeeps.entry hs fun hf₀ hset => hn ?_
    exact (((hs₁.trans hs₂).yields.dest f hf₀).settled hset).1

/-- What a load has answered: there is no file, or its bytes. -/
def Loaded (race : Race h) (r : Exec SnapshotError (Snapshot h.contentId)) (w : World h) : Prop :=
  (∃ e, r = .error (.err e) ∧ e.isNotFound = true ∧ w.entries race.dest = none) ∨
    ∃ snapshot f, r = .ok snapshot ∧ w.entries race.dest = some f ∧
      snapshot.bytes = (w.files f).content

/-- The attempt at the entry's file answers where an attempt more could not do better, or goes on. -/
theorem loadAttempts_step (attempts : ℕ)
    (hmore : ∀ f s', race.Onward who s s' → s'.world.entries race.dest = some f →
      race.Settled s'.world f → (s.world.entries race.dest = some f → ¬race.Settled s.world f) →
      (Snapshot.loadAttempts path attempts : Op h _ _).Safe (step rules who) everywhere
        (race.contract who) (fun r s'' => race.Onward who s' s'' ∧ race.Loaded r s''.world) s') :
    (Snapshot.loadAttempts path (attempts + 1) : Op h _ _).Safe (step rules who) everywhere
      (race.contract who) (fun r s' => race.Onward who s s' ∧ race.Loaded r s'.world) s := by
  refine Proc.safe_bind_of (readCandidate_race hu hpath) (fun candidate s₁ hr => ?_)
    fun e s₁ hr => ?_
  · obtain ⟨hs₁, ha⟩ := hr
    cases ha with
    | bytes f text stamp hf hb =>
      show Proc.Safe _ _ _ (Proc.ofExec (Snapshot.fromValidatedWithStamp text (some stamp))) _ _
      rw [Snapshot.fromValidatedWithStamp_eq]
      exact ⟨hs₁, .inr ⟨_, f, rfl, hf, hb⟩⟩
    | moved f hf hs hn =>
      exact Proc.safe_mono (hmore f s₁ hs₁ hf hs hn) fun r s₂ hr => ⟨hs₁.trans hr.1, hr.2⟩
  · obtain ⟨hs₁, ha⟩ := hr
    cases ha with
    | missing hn => exact ⟨hs₁, .inl ⟨_, rfl, rfl, hn⟩⟩

/-- **Two attempts are enough**: the entry's metadata change once, and then no more. -/
theorem load_race : (Snapshot.load path : Op h _ _).Safe (step rules who) everywhere
    (race.contract who) (fun r s' => race.Onward who s s' ∧ race.Loaded r s'.world) s := by
  refine safe_aside (c := .rest) hu trivial fun _ _ _ s₁ hi hy _ _ _ _ _ => ?_
  have hs₁ : race.Onward who s s₁ := ⟨hi, hy⟩
  refine Proc.safe_mono (loadAttempts_step hu hpath 1 fun f s₂ hs₂ hf hset _ => ?_) fun r s' hr =>
    ⟨hs₁.trans hr.1, hr.2⟩
  refine loadAttempts_step hu hpath 0 fun g s₃ hs₃ hg hset₃ hn => ?_
  obtain rfl : f = g := Option.some.inj ((hs₃.yields.dest f hf).entry.symm.trans hg)
  exact absurd hset (hn hf)

end

end Race

end Hashline
