/-
  What a load answers about a file whose bytes do not change, whatever happens
  to the names that lead to it, and what it answers among mutations.
-/
import Hashline.Readers

namespace Hashline

open Machine Object

variable {h : Host} {n : ℕ} {ε α : Type}

/-! ## A file that is beheld -/

/-- The calls of a read, where the file `f` has the bytes `b` and the inode `inode` throughout, and no
    call fails as if there were no file. -/
def beholding (f : ℕ) (b : Bytes) (inode : ℕ) : Dialogue (Call h) Answer where
  call := Call.Modest
  answer c a := match c, a with
    | .read g offset most, .ok chunk =>
      g = f → 0 < most → ∃ k, 0 < k ∧ chunk = (b.drop offset).take k
    | .fstat g, .ok m => g = f → m.inode = inode
    | .read .., .error e | .fstat _, .error e => e.kind ≠ .notFound
    | _, _ => True

section
variable {f inode : ℕ} {b : Bytes}

theorem behold_now {E : ε → Prop} (m : Metadata) : (Op.fromMetadata m : Op h ε FileStamp).Within
    (beholding f b inode) (fun stamp => ∃ t, stamp = .fromMetadata m t) E :=
  Proc.within_call trivial fun t _ => ⟨t, rfl⟩

namespace Snapshot

theorem growBy_beheld (capacity : ℕ) (bytes chunk : Bytes) :
    (growBy capacity bytes chunk : Op h _ _).Within (beholding f b inode) Anything
      fun e => e.isNotFound = false := by
  refine Proc.Within.bind (V := Anything) ?_ fun _ _ => ?_
  · refine Exec.Meets.mapErr (E := Anything) ?_ fun _ _ => rfl
    exact (noPanic_validateFileSize _).meets
  · split_ifs
    · refine Proc.within_call trivial fun granted _ => ?_
      change Bool at granted
      cases granted
      · rfl
      · trivial
    · trivial

/-- **The read loop answers the bytes**, or fails for another reason than that there is no file. -/
theorem readLoop_beheld (path : PathBuf) : ∀ (rounds : ℕ) {capacity : ℕ} {bytes : Bytes},
    bytes <+: b → (readLoop path f rounds capacity bytes : Op h _ _).Within (beholding f b inode)
      (· = b) fun e => e.isNotFound = false
  | 0, _, _, _ => rfl
  | rounds + 1, capacity, bytes, hp => by
    refine Proc.within_call trivial fun a ha => ?_
    change Except IoError Bytes at a
    rcases a with e | chunk
    · exact decide_eq_false ha
    · obtain ⟨k, hk, rfl⟩ := ha rfl (by decide)
      obtain ⟨hgrow, hend⟩ := prefix_read hp hk
      show Proc.Within _ _ _ (if (b.drop bytes.length).take k = [] then _ else _)
      split_ifs with hc
      · exact hend hc
      · exact (growBy_beheld _ _ _).bind fun _ _ => readLoop_beheld path rounds hgrow

theorem pathStamp_beheld (path : PathBuf) : (pathStamp path : Op h _ _).Within (beholding f b inode)
    Anything fun e => e.isNotFound = false := by
  refine Proc.within_call trivial fun a _ => ?_
  change Except IoError Metadata at a
  rcases a with e | m
  · show Proc.Within _ _ _ (if e.kind = .notFound then _ else _)
    split_ifs with hk
    · trivial
    · exact decide_eq_false hk
  · exact (behold_now m).bind fun _ _ => trivial

theorem confirmed_beheld (path : PathBuf) (after : FileStamp) (bytes : Bytes) :
    (confirmed path after bytes : Op h _ _).Within (beholding f b inode) Anything
      fun e => e.isNotFound = false := by
  unfold confirmed
  split_ifs
  · refine ((meets_fsRead path).within (Prog.All.mono (fun _ hc => hc.modest) (fsRead_calm path))).bind fun r _ => ?_
    rcases r with e | reread
    · show Proc.Within _ _ _ (if e.kind = .notFound then _ else _)
      split_ifs with hk
      · trivial
      · exact decide_eq_false hk
    · trivial
  · trivial

/-- What is answered is of the file: its bytes, and a stamp with its inode. -/
def OfFile (b : Bytes) (inode : ℕ) (r : Option (ValidatedText × FileStamp)) : Prop :=
  ∀ c, r = some c → c.1.bytes = b ∧ c.2.inode = inode

theorem judge_beheld (path : PathBuf) (before : FileStamp) {after : FileStamp}
    (hafter : after.inode = inode) :
    (judge path before after b : Op h _ _).Within (beholding f b inode)
      (OfFile b inode) fun e => e.isNotFound = false := by
  refine (pathStamp_beheld path).bind fun pathStamp _ => ?_
  show Proc.Within _ _ _ (if _ then _ else _)
  split_ifs
  · exact fun _ hc => by cases hc
  · refine (confirmed_beheld path _ b).bind fun sure _ => ?_
    cases sure with
    | false => exact fun _ hc => by cases hc
    | true =>
      refine Proc.Within.bind (V := fun text => text.bytes = b) ?_ fun text ht => ?_
      · refine Exec.Meets.mapErr (E := Anything) ?_ fun _ _ => rfl
        rcases htext : ValidatedText.tryFromBytes b with (e | _) | text
        · trivial
        · exact absurd htext ValidatedText.noPanic_tryFromBytes
        · exact ValidatedText.tryFromBytes_eq_ok.1 htext
      · intro c hc
        cases hc
        exact ⟨ht, hafter⟩

/-- **What is read through a descriptor** is the file's, whatever the path leads to by then. -/
theorem readStamped_beheld (path : PathBuf) (before : FileStamp) :
    (readStamped path f before : Op h _ _).Within (beholding f b inode) (OfFile b inode)
      fun e => e.isNotFound = false := by
  refine Proc.Within.bind (V := Anything) ?_ fun _ _ => ?_
  · refine Exec.Meets.mapErr (E := Anything) ?_ fun _ _ => rfl
    exact (noPanic_validateFileSize _).meets
  refine Proc.within_call trivial fun granted _ => ?_
  change Bool at granted
  cases granted with
  | false => rfl
  | true =>
    refine (readLoop_beheld path _ List.nil_prefix).bind fun bytes hb => ?_
    subst hb
    refine Proc.within_call trivial fun a ha => ?_
    change Except IoError Metadata at a
    rcases a with e | m
    · exact decide_eq_false ha
    · refine (behold_now m).bind fun after hafter => ?_
      obtain ⟨t, rfl⟩ := hafter
      exact judge_beheld path before (ha rfl)

end Snapshot

end

/-! ## Among the threads of a service -/

namespace Service
variable {V : Service h n} {rules : Rules h} {i : Fin n} {s s' : State h}
  {Q : Exec ε α → State h → Prop}

/-- One call of a thread among the others. -/
theorem safe_makes (hc : rules.Closed) {c : Call h} {k : Answer c → Op h ε α}
    (hk : ∀ s₁ x a s₂, V.Keeps i s s₁ → V.Inv s₁ → rules s₁ c x = true → Makes i x c a s₁ s₂ →
      V.Inv s₂ ∧ (∀ j, j ≠ i → V.Keeps j s₁ s₂) ∧
        (k a).Safe (step rules i) everywhere (V.contract i) Q s₂) :
    (Proc.ask c >>= k).Safe (step rules i) everywhere (V.contract i) Q s := by
  refine safe_call fun s₁ x w a s₂ hs₁ hi hr hw ha ht => ?_
  rw [Choice.elapsed, hc.calm s₁ c x hr] at hw
  simp only [elapse, Option.map_some, Option.some.injEq] at hw
  subst hw
  exact hk s₁ x a s₂ hs₁ hi hr ⟨ha, ht⟩

/-- One call that shares nothing. -/
theorem safe_modest (hc : rules.Closed) {c : Call h} (hmodest : c.Modest) {k : Answer c → Op h ε α}
    (hk : ∀ s₁ x a s₂, V.Keeps i s s₁ → V.Keeps i s₁ s₂ → V.Inv s₁ → V.Inv s₂ → ¬x.Lies →
      Makes i x c a s₁ s₂ → (k a).Safe (step rules i) everywhere (V.contract i) Q s₂) :
    (Proc.ask c >>= k).Safe (step rules i) everywhere (V.contract i) Q s := by
  refine safe_makes hc fun s₁ x a s₂ hs₁ hi hr hm => ?_
  obtain ⟨hi₂, hkeeps⟩ := hm.modest hi hmodest
  exact ⟨hi₂, fun j _ => hkeeps j, hk s₁ x a s₂ hs₁ (hkeeps i) hi hi₂ (hc.honest s₁ c x hr) hm⟩

/-- A procedure of such calls, where `J` tells what they can be answered. -/
theorem within_safe (hc : rules.Closed) {D : Dialogue (Call h) Answer} (hcall : ∀ c, D.call c → c.Modest)
    {J : State h → Prop} (hJ : ∀ s s', V.Keeps i s s' → J s → J s')
    (hanswer : ∀ x c a s s', D.call c → J s → ¬x.Lies → Makes i x c a s s' → D.answer c a)
    {W : α → Prop} {E : ε → Prop} {x : Op h ε α} (hx : x.Within D W E) (hi : V.Inv s) (hs : J s) :
    x.Safe (step rules i) everywhere (V.contract i)
      (fun r s' => r.Meets W E ∧ V.Inv s' ∧ V.Keeps i s s') s := by
  refine Proc.safe_mono (Proc.Within.safe (I := fun s' => J s' ∧ V.Inv s' ∧ V.Keeps i s s') hx
    (fun s₁ s₂ hs₁ hk hi₂ => ⟨hJ _ _ hk hs₁.1, hi₂, hs₁.2.2.trans hk⟩)
    (fun x c s₁ a s₂ hcc hs₁ _ hst => ?_) ⟨hs, hi, .refl i s⟩) fun r s' hr => ⟨hr.1, hr.2.2⟩
  obtain ⟨hr, w, hw, ha, ht⟩ := step_eq_some.1 hst
  rw [Choice.elapsed, hc.calm s₁ c x hr] at hw
  simp only [elapse, Option.map_some, Option.some.injEq] at hw
  subst hw
  have hm : Makes i x c a s₁ s₂ := ⟨ha, ht⟩
  obtain ⟨hi₂, hkeeps⟩ := hm.modest hs₁.2.1 (hcall c hcc)
  exact ⟨hi₂, fun j _ => hkeeps j, hanswer x c a s₁ s₂ hcc hs₁.1 (hc.honest s₁ c x hr) hm,
    hJ _ _ (hkeeps i) hs₁.1, hi₂, hs₁.2.2.trans (hkeeps i)⟩

/-- Calls that share nothing, answered in any way. -/
def modestly : Dialogue (Call h) Answer := ⟨Call.Modest, fun _ _ => True⟩

theorem modest_of_calm {x : Op h ε α} (hx : x.All Call.Calm) : x.All modestly.call :=
  Prog.All.mono (fun _ hc => hc.modest) hx

theorem modestly_safe (hc : rules.Closed) {W : α → Prop} {E : ε → Prop} {x : Op h ε α}
    (hx : x.Within modestly W E) (hi : V.Inv s) : x.Safe (step rules i) everywhere (V.contract i)
      (fun r s' => r.Meets W E ∧ V.Inv s' ∧ V.Keeps i s s') s :=
  within_safe hc (fun _ h => h) (J := fun _ => True) (fun _ _ _ h => h) (fun _ _ _ _ _ _ _ _ _ => trivial)
    hx hi trivial

/-! ### Loading -/

theorem Shows.retains {f inode : ℕ} {b : Bytes} (hs : V.Shows f b inode s) (hr : V.Retains i s s') :
    V.Shows f b inode s' := hs.mono hr.published

/-- What a published file is answered to be. -/
theorem beholding_answer {f inode : ℕ} {b : Bytes} {x : Choice} {c : Call h} {a : Answer c}
    (hs : V.Shows f b inode s) (hx : ¬x.Lies) (hm : Makes i x c a s s') :
    (beholding f b inode).answer c a := by
  have hfault : ∀ {e}, x.fault = some e → e.kind ≠ .notFound := fun he hk => hx ⟨_, he, hk⟩
  cases c with
  | read g offset most =>
    rcases (act_read hm.act).2 with ⟨e, he, rfl⟩ | ⟨-, rfl⟩ | rfl
    · exact hfault he
    · exact nofun
    · rintro rfl hmost
      refine ⟨x.moved most, by rw [Choice.moved]; omega, ?_⟩
      rw [← hs.content]
      rfl
  | fstat g =>
    rcases (act_fstat hm.act).2 with ⟨e, he, rfl⟩ | rfl
    · exact hfault he
    · rintro rfl
      exact hs.inode
  | _ => trivial

theorem Based.retains {snapshot : Snapshot h.contentId} (hb : V.Based snapshot s)
    (hr : V.Retains i s s') : V.Based snapshot s' := hb.mono hr.published

/-- A snapshot of a published file, whose bytes thread `i` has found at the place. -/
structure Found (V : Service h n) (i : Fin n) (l : Loc) (snapshot : Snapshot h.contentId) (s : State h) :
    Prop where
  based : V.Based snapshot s
  saw : s.Saw i l snapshot.bytes

theorem Found.retains {l : Loc} {snapshot : Snapshot h.contentId} (hf : V.Found i l snapshot s)
    (hr : V.Retains i s s') : V.Found i l snapshot s' := ⟨hf.based.retains hr, hf.saw.grown hr.grown⟩

theorem Found.of {l : Loc} {snapshot : Snapshot h.contentId} (hf : V.Found i l snapshot s) :
    V.Of l snapshot s := ⟨hf.based, i, hf.saw⟩

/-- Thread `i` has found nothing at the place, where there was nothing in the beginning. -/
def Misses (V : Service h n) (i : Fin n) (l : Loc) (s : State h) : Prop :=
  V.start.entries l = none ∧ s.Missed i l

/-- What a load comes to: a snapshot of a published file, or a failure, which says that there is no
    file only where none was found. -/
def Loads (V : Service h n) (i : Fin n) (l : Loc) (r : Exec SnapshotError (Snapshot h.contentId))
    (s : State h) : Prop :=
  (∃ e, r = .error (.err e) ∧ (e.isNotFound = true → V.Misses i l s)) ∨
    ∃ snapshot, r = .ok snapshot ∧ V.Found i l snapshot s

section
variable (hc : rules.Closed) {path : PathBuf} (hpub : V.Public (h.locate path))
include hc hpub

theorem readCandidate_safe : (Snapshot.readCandidate path : Op h _ _).Safe (step rules i) everywhere
    (V.contract i) (fun r s' => V.Inv s' ∧ V.Keeps i s s' ∧
        ((∃ e, r = .error (.err e) ∧ (e.isNotFound = true → V.Misses i (h.locate path) s')) ∨
          ∃ o, r = .ok o ∧ ∀ c, o = some c → s'.Saw i (h.locate path) c.1.bytes ∧
            ∃ f, V.Shows f c.1.bytes c.2.inode s')) s := by
  refine safe_modest (c := .openRead path) hc trivial fun s₁ x a s₂ hk₁ hk₂ hi₁ hi₂ hx hm => ?_
  have hkeeps := hk₁.trans hk₂
  obtain ⟨hw, ⟨e, he, rfl⟩ | ⟨f, hf, rfl⟩ | ⟨hf, rfl⟩⟩ := act_openRead hm.act
  · refine ⟨hi₂, hkeeps, .inl ⟨_, rfl, fun hn => ?_⟩⟩
    have hkind := of_decide_eq_true hn
    exact absurd ⟨e, he.fault_of_notFound hkind, hkind⟩ hx
  · have hshows : V.Shows f (s₂.world.files f).content (s₂.world.files f).inode s₂ :=
      ⟨⟨_, hpub, .inl (by rw [hw]; exact hf)⟩, rfl, rfl⟩
    have hsaw : s₂.Saw i (h.locate path) (s₂.world.files f).content := by
      refine ⟨_, hm.trace ▸ List.mem_cons_self, rfl, World.contentAt_of_entry _ ?_⟩
      rw [hw]
      exact hf
    have hread : (do
        let beforeMetadata ← Proc.orElse (Snapshot.ioError path "read initial metadata for")
          (← Op.fstat f)
        let before ← Op.fromMetadata beforeMetadata
        Snapshot.readStamped path f before : Op h _ _).Within
          (beholding f (s₂.world.files f).content (s₂.world.files f).inode)
          (Snapshot.OfFile (s₂.world.files f).content (s₂.world.files f).inode)
          fun e => e.isNotFound = false := by
      refine Proc.within_call trivial fun a ha => ?_
      change Except IoError Metadata at a
      rcases a with e | m
      · exact decide_eq_false ha
      · exact (behold_now m).bind fun before _ => Snapshot.readStamped_beheld path before
    refine Proc.safe_mono (within_safe hc (fun _ h => h) (fun _ _ hk hs => hs.retains hk.retains)
      (fun _ _ _ _ _ _ hs hx hm => beholding_answer hs hx hm) hread hi₂ hshows) fun r s' hr => ?_
    obtain ⟨hr, hi', hk'⟩ := hr
    refine ⟨hi', hkeeps.trans hk', ?_⟩
    rcases r with (e | _) | o
    · exact .inl ⟨e, rfl, fun hn => absurd (hn.symm.trans hr) nofun⟩
    · exact hr.elim
    · refine .inr ⟨o, rfl, fun c ho => ?_⟩
      rw [(hr c ho).1, (hr c ho).2]
      exact ⟨hsaw.grown hk'.grown, f, hshows.retains hk'.retains⟩
  · have hmissed : s₂.Missed i (h.locate path) := by
      refine ⟨_, hm.trace ▸ List.mem_cons_self, rfl, ?_⟩
      simp [Did.misses, IoError.noSuchFile]
    refine ⟨hi₂, hkeeps, .inl ⟨_, rfl, fun _ => ⟨?_, hmissed⟩⟩⟩
    by_contra hthere
    exact hi₁.there _ hpub hthere hf

theorem loadAttempts_safe : ∀ (attempts : ℕ) {s : State h}, V.Inv s →
    (Snapshot.loadAttempts path attempts : Op h _ _).Safe (step rules i) everywhere (V.contract i)
      (fun r s' => V.Inv s' ∧ V.Keeps i s s' ∧ V.Loads i (h.locate path) r s') s
  | 0, s, hi => ⟨hi, .refl i s, .inl ⟨_, rfl, nofun⟩⟩
  | attempts + 1, s, hi => by
    refine Proc.safe_bind_of (readCandidate_safe hc hpub) (fun o s₁ hr => ?_) fun e s₁ hr => ?_
    · obtain ⟨hi₁, hk₁, ⟨_, he, -⟩ | ⟨o', he, hread⟩⟩ := hr
      · cases he
      cases he
      rcases o with _ | ⟨text, stamp⟩
      · refine Proc.safe_mono (loadAttempts_safe attempts hi₁) fun r s' hr => ?_
        exact ⟨hr.1, hk₁.trans hr.2.1, hr.2.2⟩
      · show Proc.Safe _ _ _ (Proc.ofExec (Snapshot.fromValidatedWithStamp text (some stamp))) _ _
        rw [Snapshot.fromValidatedWithStamp_eq]
        obtain ⟨hsaw, f, hs⟩ := hread _ rfl
        exact ⟨hi₁, hk₁, .inr ⟨_, rfl, ⟨f, stamp, rfl, hs⟩, hsaw⟩⟩
    · obtain ⟨hi₁, hk₁, ⟨e', he, hn⟩ | ⟨_, he, -⟩⟩ := hr <;> cases he
      exact ⟨hi₁, hk₁, .inl ⟨e', rfl, hn⟩⟩

/-- **A load among mutations** answers a version that others can see, with its file's inode. -/
theorem load_safe : (Snapshot.load path : Op h _ _).Safe (step rules i) everywhere (V.contract i)
    (fun r s' => V.Inv s' ∧ V.Keeps i s s' ∧ V.Loads i (h.locate path) r s') s := by
  refine safe_modest (c := .rest) hc trivial fun s₁ x a s₂ hk₁ hk₂ hi₁ hi₂ hx hm => ?_
  refine Proc.safe_mono (loadAttempts_safe hc hpub _ hi₂) fun r s' hr => ?_
  exact ⟨hr.1, (hk₁.trans hk₂).trans hr.2.1, hr.2.2⟩

end

end Service

end Hashline
