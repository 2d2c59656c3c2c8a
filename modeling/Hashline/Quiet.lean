/-
  What calls and `Snapshot::load` do while nobody else takes a step.
-/
import Hashline.Load

namespace Hashline

open Machine

variable {h : Host} {ε α : Type}

/-! ## Calls that change nothing -/

/-- Calls that leave the world as it is. -/
def Call.Inert : Call h → Prop
  | .rest | .guard .. | .now | .reserve _ | .pathExists _ | .canonicalize _ | .openRead _ | .read ..
  | .sync _ | .fstat _ | .stat _ | .fileType _ | .createDirAll _ | .syncDir _ => True
  | _ => False

/-- A call that cannot change the world, and may fail. -/
theorem Choice.fallible_inert {x : Choice} {w w' : World h} {b a : Except IoError α}
    (ha : x.fallible w (some (b, w)) = some (a, w')) : w' = w := by
  rcases Choice.fallible_eq_some.1 ha with ⟨_, _, _, rfl⟩ | ⟨_, ha⟩
  · rfl
  · cases ha; rfl

theorem act_inert {who : ℕ} {x : Choice} {c : Call h} {w w' : World h} {a : Answer c}
    (hc : c.Inert) (ha : act who x c w = some (a, w')) : w' = w := by
  cases c with
  | rest | guard | now | reserve | pathExists => cases ha; rfl
  | canonicalize | sync | fstat | createDirAll | syncDir => exact Choice.fallible_inert ha
  | openRead path => exact (act_openRead ha).1
  | read f offset most => exact (act_read ha).1
  | fileType path => exact (act_fileType ha).1
  | stat path => exact (act_stat ha).1
  | _ => exact hc.elim

/-! ## The world after inert calls -/

/-- The machine lets a call fail as if there were no file. -/
def Choice.Lies (x : Choice) : Prop := ∃ e, x.fault = some e ∧ e.kind = .notFound

def State.Lied (s : State h) : Prop := ∃ d ∈ s.trace, d.choice.Lies

/-- What a rename or a link put where. -/
def Did.install (d : Did h) : Option (PathBuf × Option Bytes) :=
  match d.call, d.answer with
  | .rename _ path, .ok () => some (path, d.after.contentAt (h.locate path))
  | .hardLink _ path, .ok () => some (path, d.after.contentAt (h.locate path))
  | _, _ => none

/-- Only time has passed, and nothing was renamed or linked. -/
structure Since (s s' : State h) : Prop where
  world : ∃ n : ℕ, s'.world = s.world.wait n
  trace : ∃ ds, s'.trace = ds ++ s.trace ∧ ∀ d ∈ ds, d.install = none

namespace Since
variable {s s' s'' : State h}

theorem refl (s : State h) : Since s s := ⟨⟨0, by simp [World.wait]⟩, [], rfl, by simp⟩

theorem trans (h₁ : Since s s') (h₂ : Since s' s'') : Since s s'' := by
  obtain ⟨⟨n, hn⟩, ds, hds, hd⟩ := h₁
  obtain ⟨⟨m, hm⟩, ds', hds', hd'⟩ := h₂
  refine ⟨⟨n + m, ?_⟩, ds' ++ ds, by rw [hds', hds, List.append_assoc], fun d hm => ?_⟩
  · rw [hm, hn]; simp only [World.wait, Int.natCast_add, Int.add_assoc]
  · rcases List.mem_append.1 hm with hm | hm
    · exact hd' d hm
    · exact hd d hm

theorem files (hs : Since s s') : s'.world.files = s.world.files := by
  obtain ⟨⟨n, hn⟩, -⟩ := hs; rw [hn]; rfl

theorem entries (hs : Since s s') : s'.world.entries = s.world.entries := by
  obtain ⟨⟨n, hn⟩, -⟩ := hs; rw [hn]; rfl

theorem now_le (hs : Since s s') : s.world.now ≤ s'.world.now := by
  obtain ⟨⟨n, hn⟩, -⟩ := hs; rw [hn]; simp only [World.wait]; omega

theorem metadata (hs : Since s s') (f : ℕ) : s'.world.metadata f = s.world.metadata f := by
  simp only [World.metadata, hs.files]

theorem lied (hs : Since s s') (hl : s.Lied) : s'.Lied := by
  obtain ⟨d, hd, hl⟩ := hl
  obtain ⟨-, ds, hds, -⟩ := hs
  exact ⟨d, by rw [hds]; exact List.mem_append_right _ hd, hl⟩

end Since

/-- Nobody else takes a step. -/
def Rules.Quiet (rules : Rules h) : Prop := ∀ s c x, rules s c x = true → x.events = []

section
variable {rules : Rules h} {who : ℕ} {s₀ s : State h} {Q : Exec ε α → State h → Prop}

/-- One call, while nobody else takes a step. -/
theorem wp_quiet (hq : rules.Quiet) {c : Call h} {k : Answer c → Op h ε α}
    (hk : ∀ x a s', rules s c x = true → act who x c (s.world.wait x.tick) = some (a, s'.world) →
      s'.trace = ⟨who, x, c, a, s.world, s.world.wait x.tick, s'.world⟩ :: s.trace →
      (k a).wp (step rules who) Q s') :
    (Proc.ask c >>= k).wp (step rules who) Q s := by
  refine wp_call fun x w a s' hr hw ha ht => ?_
  rw [Choice.elapsed, hq s c x hr] at hw
  simp only [elapse, Option.map_some, Option.some.injEq] at hw
  subst hw
  exact hk x a s' hr ha ht

/-- One call that changes nothing. -/
theorem wp_inert (hq : rules.Quiet) (hs : Since s₀ s) {c : Call h} (hc : c.Inert)
    {k : Answer c → Op h ε α}
    (hk : ∀ x a s', Since s₀ s' → act who x c s'.world = some (a, s'.world) →
      (x.Lies → s'.Lied) → (k a).wp (step rules who) Q s') :
    (Proc.ask c >>= k).wp (step rules who) Q s := by
  refine wp_quiet hq fun x a s' hr ha ht => ?_
  have hw := act_inert hc ha
  refine hk x a s' (hs.trans ⟨⟨x.tick, hw⟩, [_], ht, ?_⟩) ?_ ?_
  · intro d hd
    rw [List.mem_singleton] at hd; subst hd
    cases c <;> first | rfl | exact hc.elim
  · rw [hw] at ha ⊢; exact ha
  · intro hx; exact ⟨_, by rw [ht]; exact List.mem_cons_self, hx⟩

theorem wp_rest (hq : rules.Quiet) (hs : Since s₀ s) {k : Unit → Op h ε α}
    (hk : ∀ s', Since s₀ s' → (k ()).wp (step rules who) Q s') :
    (Op.rest >>= k).wp (step rules who) Q s :=
  wp_inert (c := .rest) hq hs trivial fun _ _ s' hs' _ _ => hk s' hs'

theorem wp_guard (hq : rules.Quiet) (hs : Since s₀ s) {path : PathBuf} {stamp : FileStamp}
    {contentId : SnapshotId} {k : Unit → Op h ε α}
    (hk : ∀ s', Since s₀ s' → (k ()).wp (step rules who) Q s') :
    (Op.guard path stamp contentId >>= k).wp (step rules who) Q s :=
  wp_inert (c := .guard path stamp contentId) hq hs trivial fun _ _ s' hs' _ _ => hk s' hs'

theorem wp_now (hq : rules.Quiet) (hs : Since s₀ s) {k : ℤ → Op h ε α}
    (hk : ∀ s', Since s₀ s' → (k s'.world.now).wp (step rules who) Q s') :
    (Op.now >>= k).wp (step rules who) Q s :=
  wp_inert (c := .now) hq hs trivial fun x a s' hs' ha _ => by
    cases ha; exact hk s' hs'

theorem wp_reserve (hq : rules.Quiet) (hs : Since s₀ s) {n : ℕ} {k : Bool → Op h ε α}
    (hk : ∀ b s', Since s₀ s' → (k b).wp (step rules who) Q s') :
    (Op.reserve n >>= k).wp (step rules who) Q s :=
  wp_inert (c := .reserve n) hq hs trivial fun _ a s' hs' _ _ => hk a s' hs'

theorem wp_openRead (hq : rules.Quiet) (hs : Since s₀ s) {path : PathBuf}
    {k : Except IoError ℕ → Op h ε α}
    (hok : ∀ f s', Since s₀ s' → s₀.world.entries (h.locate path) = some f →
      (k (.ok f)).wp (step rules who) Q s')
    (herr : ∀ e s', Since s₀ s' →
      (e.kind = .notFound → s₀.world.entries (h.locate path) = none ∨ s'.Lied) →
      (k (.error e)).wp (step rules who) Q s') :
    (Op.openRead path >>= k).wp (step rules who) Q s :=
  wp_inert (c := .openRead path) hq hs trivial fun x a s' hs' ha hl => by
    rcases (act_openRead ha).2 with ⟨e, hx, rfl⟩ | ⟨f, hf, rfl⟩ | ⟨hf, rfl⟩
    · exact herr e s' hs' fun he => .inr (hl ⟨e, hx.fault_of_notFound he, he⟩)
    · rw [hs'.entries] at hf; exact hok f s' hs' hf
    · rw [hs'.entries] at hf; exact herr _ s' hs' fun _ => .inl hf

theorem wp_stat (hq : rules.Quiet) (hs : Since s₀ s) {path : PathBuf}
    {k : Except IoError Metadata → Op h ε α}
    (hok : ∀ f s', Since s₀ s' → s₀.world.entries (h.locate path) = some f →
      (k (.ok (s₀.world.metadata f))).wp (step rules who) Q s')
    (herr : ∀ e s', Since s₀ s' →
      (e.kind = .notFound → s₀.world.entries (h.locate path) = none ∨ s'.Lied) →
      (k (.error e)).wp (step rules who) Q s') :
    (Op.stat path >>= k).wp (step rules who) Q s :=
  wp_inert (c := .stat path) hq hs trivial fun x a s' hs' ha hl => by
    rcases (act_stat ha).2 with ⟨e, hx, rfl⟩ | ⟨f, hf, rfl⟩ | ⟨hf, rfl⟩
    · exact herr e s' hs' fun he => .inr (hl ⟨e, hx.fault_of_notFound he, he⟩)
    · rw [hs'.entries] at hf; rw [hs'.metadata]; exact hok f s' hs' hf
    · rw [hs'.entries] at hf; exact herr _ s' hs' fun _ => .inl hf

theorem wp_fstat (hq : rules.Quiet) (hs : Since s₀ s) {f : ℕ}
    {k : Except IoError Metadata → Op h ε α}
    (hok : ∀ s', Since s₀ s' → (k (.ok (s₀.world.metadata f))).wp (step rules who) Q s')
    (herr : ∀ e s', Since s₀ s' → (e.kind = .notFound → s'.Lied) →
      (k (.error e)).wp (step rules who) Q s') :
    (Op.fstat f >>= k).wp (step rules who) Q s :=
  wp_inert (c := .fstat f) hq hs trivial fun x a s' hs' ha hl => by
    rcases Choice.fallible_eq_some.1 ha with ⟨e, hx, rfl, -⟩ | ⟨-, ha⟩
    · exact herr e s' hs' fun he => hl ⟨e, hx, he⟩
    · cases ha; rw [hs'.metadata]; exact hok s' hs'

/-- A read answers a piece of what follows, and nothing only at the end. -/
theorem wp_read (hq : rules.Quiet) (hs : Since s₀ s) {f offset most : ℕ} (hmost : 0 < most)
    {k : Except IoError Bytes → Op h ε α}
    (hok : ∀ n s', Since s₀ s' → 0 < n → n ≤ most →
      (k (.ok (((s₀.world.files f).content.drop offset).take n))).wp (step rules who) Q s')
    (herr : ∀ e s', Since s₀ s' → (e.kind = .notFound → s'.Lied) →
      (k (.error e)).wp (step rules who) Q s') :
    (Op.read f offset most >>= k).wp (step rules who) Q s :=
  wp_inert (c := .read f offset most) hq hs trivial fun x a s' hs' ha hl => by
    obtain ⟨-, ⟨e, hx, rfl⟩ | ⟨-, rfl⟩ | rfl⟩ := act_read ha
    · exact herr e s' hs' fun he => hl ⟨e, hx, he⟩
    · exact herr _ s' hs' fun he => by cases he
    · rw [hs'.files]
      exact hok _ s' hs' (by rw [Choice.moved]; omega) (Nat.min_le_right _ _)

theorem wp_fromMetadata (hq : rules.Quiet) (hs : Since s₀ s) {m : Metadata}
    {k : FileStamp → Op h ε α}
    (hk : ∀ s', Since s₀ s' →
      (k (.fromMetadata m s'.world.now)).wp (step rules who) Q s') :
    (Op.fromMetadata m >>= k).wp (step rules who) Q s := by
  refine Proc.wp_bind.2 (wp_now hq hs fun s' hs' => ?_)
  exact hk s' hs'

/-! ## Reading a file -/

/-- What is read so far grows by a piece of what follows, and is all where that piece is empty. -/
theorem prefix_read {l bytes : Bytes} (hb : bytes <+: l) {n : ℕ} (hn : 0 < n) :
    bytes ++ (l.drop bytes.length).take n <+: l ∧
      ((l.drop bytes.length).take n = [] → bytes = l) := by
  obtain ⟨rest, rfl⟩ := hb
  rw [List.drop_left]
  refine ⟨(List.prefix_append_right_inj _).2 (List.take_prefix _ _), fun he => ?_⟩
  rw [List.take_eq_nil_iff] at he
  rcases he with rfl | rfl
  · omega
  · rw [List.append_nil]

/-- **`read_to_end` answers the bytes up to the limit.** -/
theorem readToEnd_spec (hq : rules.Quiet) {f limit : ℕ} : ∀ (rounds : ℕ) {bytes : Bytes} {s},
    Since s₀ s → bytes <+: (s₀.world.files f).content → bytes.length ≤ limit →
    limit ≤ bytes.length + rounds →
    (readToEnd f limit rounds bytes : Op h ε _).wp (step rules who) (fun r s' => Since s₀ s' ∧
      ((∃ e, r = .ok (.error e) ∧ (e.kind = .notFound → s'.Lied)) ∨
        r = .ok (.ok ((s₀.world.files f).content.take limit)))) s
  | 0, bytes, s, hs, hb, hl, hr => by
    have hlim : limit = bytes.length := by omega
    exact ⟨hs, .inr (by rw [hlim, ← List.prefix_iff_eq_take.1 hb])⟩
  | rounds + 1, bytes, s, hs, hb, hl, hr => by
    rw [readToEnd]
    split_ifs with hlim
    · have hlim : limit = bytes.length := by omega
      exact ⟨hs, .inr (by rw [hlim, ← List.prefix_iff_eq_take.1 hb])⟩
    · refine wp_read hq hs (by omega) (fun n s' hs' hn hmost => ?_) fun e s' hs' he =>
        ⟨hs', .inl ⟨e, rfl, he⟩⟩
      obtain ⟨hgrow, hend⟩ := prefix_read hb hn
      have hchunk : (((s₀.world.files f).content.drop bytes.length).take n).length ≤ n :=
        List.length_take_le _ _
      show Proc.wp _ (if ((s₀.world.files f).content.drop bytes.length).take n = [] then _
        else _) _ _
      split_ifs with hc
      · refine ⟨hs', .inr ?_⟩
        rw [← hend hc, List.take_of_length_le hl]
      · have hpos := List.length_pos_of_ne_nil hc
        refine readToEnd_spec hq rounds hs' hgrow ?_ ?_ <;> rw [List.length_append] <;> omega

theorem readVec_spec (hq : rules.Quiet) (hs : Since s₀ s) {f size : ℕ} :
    (readVec f size : Op h ε _).wp (step rules who) (fun r s' => Since s₀ s' ∧
      ((∃ e, r = .ok (.error e) ∧ (e.kind = .notFound → s'.Lied)) ∨
        r = .ok (.ok (s₀.world.files f).content))) s := by
  refine wp_reserve hq hs fun granted s₁ hs₁ => ?_
  cases granted with
  | false => exact ⟨hs₁, .inl ⟨_, rfl, fun he => by cases he⟩⟩
  | true =>
    refine Proc.wp_bind_of (readToEnd_spec hq _ hs₁ List.nil_prefix (Nat.zero_le _)
      (by rw [List.length_nil]; omega)) (fun r s₂ hr => ?_) fun e s₂ hr => ?_
    · obtain ⟨hs₂, ⟨e, he, hl⟩ | he⟩ := hr
      · cases he; exact ⟨hs₂, .inl ⟨e, rfl, hl⟩⟩
      · cases he
        show Proc.wp _ (if _ then _ else _) _ _
        split_ifs with hlong
        · exact ⟨hs₂, .inl ⟨_, rfl, fun he => by cases he⟩⟩
        · rw [List.length_take] at hlong
          exact ⟨hs₂, .inr (by rw [List.take_of_length_le (by omega)])⟩
    · obtain ⟨-, ⟨_, he, -⟩ | he⟩ := hr <;> cases he

/-- **`fs::read` answers the content**, where a vector can hold it. -/
theorem fsRead_spec (hq : rules.Quiet) (hs : Since s₀ s) {path : PathBuf} :
    (fsRead path : Op h ε _).wp (step rules who) (fun r s' => Since s₀ s' ∧
      ((∃ e, r = .ok (.error e) ∧
        (e.kind = .notFound → s₀.world.entries (h.locate path) = none ∨ s'.Lied)) ∨
        ∃ f, s₀.world.entries (h.locate path) = some f ∧
          r = .ok (.ok (s₀.world.files f).content))) s := by
  refine wp_openRead hq hs (fun f s₁ hs₁ hf => ?_) fun e s₁ hs₁ he => ⟨hs₁, .inl ⟨e, rfl, he⟩⟩
  have hvec : ∀ size s₂, Since s₀ s₂ → (readVec f size : Op h ε _).wp (step rules who)
      (fun r s' => Since s₀ s' ∧ ((∃ e, r = .ok (.error e) ∧
        (e.kind = .notFound → s₀.world.entries (h.locate path) = none ∨ s'.Lied)) ∨
        ∃ f, s₀.world.entries (h.locate path) = some f ∧
          r = .ok (.ok (s₀.world.files f).content))) s₂ := fun size s₂ hs₂ =>
    Proc.wp_mono (readVec_spec hq hs₂) fun r s' hr => by
      obtain ⟨hs', ⟨e, rfl, hl⟩ | rfl⟩ := hr
      · exact ⟨hs', .inl ⟨e, rfl, fun hk => .inr (hl hk)⟩⟩
      · exact ⟨hs', .inr ⟨f, hf, rfl⟩⟩
  exact wp_fstat hq hs₁ (fun s₂ hs₂ => hvec _ s₂ hs₂) fun e s₂ hs₂ _ => hvec _ s₂ hs₂

/-! ## Loading a snapshot -/

/-- A failure, which says there is no file only where `P` holds. -/
def Failed (r : Exec SnapshotError α) (P : Prop) : Prop :=
  ∃ e, r = .error (.err e) ∧ (e.isNotFound = true → P)

theorem Failed.mono {r : Exec SnapshotError α} {P P' : Prop} (hr : Failed r P) (hP : P → P') :
    Failed r P' := by
  obtain ⟨e, rfl, he⟩ := hr
  exact ⟨e, rfl, fun hk => hP (he hk)⟩

/-- There is no file, or the machine lied about it. -/
def Missing (s₀ s : State h) (path : PathBuf) : Prop :=
  s₀.world.entries (h.locate path) = none ∨ s.Lied

namespace Snapshot
variable {Q : Exec SnapshotError α → State h → Prop}

/-- A checked value, or a failure that says nothing of files. -/
theorem wp_contract {β : Type} {r : Exec ContractError β} (hr : r.NoPanic)
    {k : β → Op h SnapshotError α} (hok : ∀ a, r = .ok a → (k a).wp (step rules who) Q s)
    (herr : ∀ r', (∀ P, Failed r' P) → Q r' s) :
    (Proc.ofExec (r.mapErr SnapshotError.contract) >>= k).wp (step rules who) Q s := by
  rcases r with (e | _) | a
  · exact herr _ fun P => ⟨_, rfl, fun he => by cases he⟩
  · exact absurd rfl hr
  · exact hok a rfl

theorem growBy_spec (hq : rules.Quiet) (hs : Since s₀ s) {capacity : ℕ} {bytes chunk : Bytes} :
    (growBy capacity bytes chunk : Op h _ _).wp (step rules who) (fun r s' => Since s₀ s' ∧
      ((∀ P, Failed r P) ∨ ∃ n, r = .ok n)) s := by
  refine wp_contract (noPanic_validateFileSize _) (fun _ _ => ?_) fun r' hr' => ⟨hs, .inl hr'⟩
  split_ifs
  · refine wp_reserve hq hs fun granted s' hs' => ?_
    cases granted with
    | false => exact ⟨hs', .inl fun P => ⟨_, rfl, fun he => by cases he⟩⟩
    | true => exact ⟨hs', .inr ⟨_, rfl⟩⟩
  · exact ⟨hs, .inr ⟨_, rfl⟩⟩

/-- **The read loop answers the content.** -/
theorem readLoop_spec (hq : rules.Quiet) {path : PathBuf} {f : ℕ} : ∀ (rounds : ℕ) {capacity : ℕ}
    {bytes : Bytes} {s}, Since s₀ s → bytes <+: (s₀.world.files f).content →
    (readLoop path f rounds capacity bytes : Op h _ _).wp (step rules who) (fun r s' =>
      Since s₀ s' ∧ (Failed r s'.Lied ∨ r = .ok (s₀.world.files f).content)) s
  | 0, capacity, bytes, s, hs, hb => ⟨hs, .inl ⟨_, rfl, fun he => by cases he⟩⟩
  | rounds + 1, capacity, bytes, s, hs, hb => by
    refine wp_read hq hs (by decide) (fun n s₁ hs₁ hn _ => ?_) fun e s₁ hs₁ he =>
      ⟨hs₁, .inl ⟨_, rfl, fun hk => he (of_decide_eq_true hk)⟩⟩
    obtain ⟨hgrow, hend⟩ := prefix_read hb hn
    show Proc.wp _ (if ((s₀.world.files f).content.drop bytes.length).take n = [] then _
      else _) _ _
    split_ifs with hc
    · exact ⟨hs₁, .inr (by rw [← hend hc])⟩
    · refine Proc.wp_bind_of (growBy_spec hq hs₁) (fun capacity s₂ hr => ?_) fun e s₂ hr => ?_
      · exact readLoop_spec hq rounds hr.1 hgrow
      · obtain ⟨hs₂, hr | ⟨n, hr⟩⟩ := hr
        · obtain ⟨e', he, hn⟩ := hr s₂.Lied
          cases he; exact ⟨hs₂, .inl ⟨e', rfl, hn⟩⟩
        · cases hr

theorem pathStamp_spec (hq : rules.Quiet) (hs : Since s₀ s) {path : PathBuf} :
    (pathStamp path : Op h _ _).wp (step rules who) (fun r s' => Since s₀ s' ∧
      ((∀ P, Failed r P) ∨ ∃ stamp, r = .ok stamp)) s := by
  refine wp_stat hq hs (fun f s₁ hs₁ _ => ?_) fun e s₁ hs₁ _ => ?_
  · exact wp_fromMetadata hq hs₁ fun s₂ hs₂ => ⟨hs₂, .inr ⟨_, rfl⟩⟩
  · show Proc.wp _ (if e.kind = .notFound then _ else _) _ _
    split_ifs with he
    · exact ⟨hs₁, .inr ⟨_, rfl⟩⟩
    · exact ⟨hs₁, .inl fun P => ⟨_, rfl, fun hk => absurd (of_decide_eq_true hk) he⟩⟩

theorem confirmed_spec (hq : rules.Quiet) (hs : Since s₀ s) {path : PathBuf} {after : FileStamp}
    {bytes : Bytes} : (confirmed path after bytes : Op h _ _).wp (step rules who) (fun r s' =>
      Since s₀ s' ∧ ((∀ P, Failed r P) ∨ ∃ b, r = .ok b)) s := by
  unfold confirmed
  split_ifs
  · refine Proc.wp_bind_of (fsRead_spec hq hs) (fun r s₁ hr => ?_) fun e s₁ hr => ?_
    · obtain ⟨hs₁, ⟨e, he, -⟩ | ⟨f, -, he⟩⟩ := hr
      · cases he
        show Proc.wp _ (if e.kind = .notFound then _ else _) _ _
        split_ifs with hk
        · exact ⟨hs₁, .inr ⟨_, rfl⟩⟩
        · exact ⟨hs₁, .inl fun P => ⟨_, rfl, fun hn => absurd (of_decide_eq_true hn) hk⟩⟩
      · cases he; exact ⟨hs₁, .inr ⟨_, rfl⟩⟩
    · obtain ⟨-, ⟨_, he, -⟩ | ⟨_, -, he⟩⟩ := hr <;> cases he
  · exact ⟨hs, .inr ⟨_, rfl⟩⟩

/-- What a verdict on `bytes` can be. -/
theorem judge_spec (hq : rules.Quiet) (hs : Since s₀ s) {path : PathBuf}
    {before after : FileStamp} {bytes : Bytes} :
    (judge path before after bytes : Op h _ _).wp (step rules who) (fun r s' => Since s₀ s' ∧
      ((∀ P, Failed r P) ∨ r = .ok none ∨ ∃ text, r = .ok (some (text, after)) ∧
        text.bytes = bytes)) s := by
  refine Proc.wp_bind_of (pathStamp_spec hq hs) (fun stamp s₁ hr => ?_) fun e s₁ hr => ?_
  · show Proc.wp _ (if _ then _ else _) _ _
    split_ifs
    · exact ⟨hr.1, .inr (.inl rfl)⟩
    · refine Proc.wp_bind_of (confirmed_spec hq hr.1) (fun b s₂ hr => ?_) fun e s₂ hr => ?_
      · cases b with
        | false => exact ⟨hr.1, .inr (.inl rfl)⟩
        | true =>
          refine wp_contract ValidatedText.noPanic_tryFromBytes (fun text ht => ?_)
            fun r' hr' => ⟨hr.1, .inl hr'⟩
          exact ⟨hr.1, .inr (.inr ⟨text, rfl, ValidatedText.tryFromBytes_eq_ok.1 ht⟩)⟩
      · obtain ⟨hs₂, hr | ⟨_, hr⟩⟩ := hr
        · refine ⟨hs₂, .inl fun P => ?_⟩
          obtain ⟨e', he, hn⟩ := hr P
          cases he; exact ⟨e', rfl, hn⟩
        · cases hr
  · obtain ⟨hs₁, hr | ⟨_, hr⟩⟩ := hr
    · refine ⟨hs₁, .inl fun P => ?_⟩
      obtain ⟨e', he, hn⟩ := hr P
      cases he; exact ⟨e', rfl, hn⟩
    · cases hr

/-- What one attempt answers while nobody else takes a step: the content with its stamp. -/
def Candidate (s₀ s : State h) (path : PathBuf) (r : ValidatedText × FileStamp) : Prop :=
  ∃ f t, s₀.world.entries (h.locate path) = some f ∧ r.1.bytes = (s₀.world.files f).content ∧
    r.2 = .fromMetadata (s₀.world.metadata f) t ∧ s₀.world.now ≤ t ∧ t ≤ s.world.now

theorem readStamped_spec (hq : rules.Quiet) (hs : Since s₀ s) {path : PathBuf} {f : ℕ}
    {before : FileStamp} (hf : s₀.world.entries (h.locate path) = some f) :
    (readStamped path f before : Op h _ _).wp (step rules who) (fun r s' => Since s₀ s' ∧
      (Failed r s'.Lied ∨ r = .ok none ∨ ∃ c, r = .ok (some c) ∧ Candidate s₀ s' path c)) s := by
  refine wp_contract (noPanic_validateFileSize _) (fun _ _ => ?_) fun r' hr' => ⟨hs, .inl (hr' _)⟩
  refine wp_reserve hq hs fun granted s₁ hs₁ => ?_
  cases granted with
  | false => exact ⟨hs₁, .inl ⟨_, rfl, fun he => by cases he⟩⟩
  | true =>
    refine Proc.wp_bind_of (readLoop_spec hq _ hs₁ List.nil_prefix) (fun bytes s₂ hr => ?_)
      fun e s₂ hr => ?_
    · obtain ⟨hs₂, ⟨_, he, -⟩ | he⟩ := hr
      · cases he
      cases he
      refine wp_fstat hq hs₂ (fun s₃ hs₃ => ?_) fun e s₃ hs₃ he =>
        ⟨hs₃, .inl ⟨_, rfl, fun hk => he (of_decide_eq_true hk)⟩⟩
      refine wp_fromMetadata hq hs₃ fun s₄ hs₄ => Proc.wp_mono (judge_spec hq (Since.refl s₄))
        fun r s₅ hr => ?_
      obtain ⟨hs₅, hr | rfl | ⟨text, rfl, ht⟩⟩ := hr
      · exact ⟨hs₄.trans hs₅, .inl (hr _)⟩
      · exact ⟨hs₄.trans hs₅, .inr (.inl rfl)⟩
      · exact ⟨hs₄.trans hs₅, .inr (.inr ⟨_, rfl, f, s₄.world.now, hf, ht, rfl, hs₄.now_le,
          hs₅.now_le⟩)⟩
    · obtain ⟨hs₂, ⟨e', he, hn⟩ | he⟩ := hr <;> cases he
      exact ⟨hs₂, .inl ⟨e', rfl, hn⟩⟩

theorem readCandidate_spec (hq : rules.Quiet) (hs : Since s₀ s) {path : PathBuf} :
    (readCandidate path : Op h _ _).wp (step rules who) (fun r s' => Since s₀ s' ∧
      (Failed r (Missing s₀ s' path) ∨ r = .ok none ∨
        ∃ c, r = .ok (some c) ∧ Candidate s₀ s' path c)) s := by
  refine wp_openRead hq hs (fun f s₁ hs₁ hf => ?_) fun e s₁ hs₁ he =>
    ⟨hs₁, .inl ⟨_, rfl, fun hk => he (of_decide_eq_true hk)⟩⟩
  refine wp_fstat hq hs₁ (fun s₂ hs₂ => ?_) fun e s₂ hs₂ he =>
    ⟨hs₂, .inl ⟨_, rfl, fun hk => .inr (he (of_decide_eq_true hk))⟩⟩
  refine wp_fromMetadata hq hs₂ fun s₃ hs₃ => Proc.wp_mono (readStamped_spec hq hs₃ hf)
    fun r s' hr => ⟨hr.1, ?_⟩
  exact hr.2.imp_left fun hr => hr.mono .inr

/-- What `load` answers while nobody else takes a step. -/
def Loaded (s₀ s : State h) (path : PathBuf) (snapshot : Snapshot h.contentId) : Prop :=
  ∃ f t, s₀.world.entries (h.locate path) = some f ∧
    snapshot.bytes = (s₀.world.files f).content ∧
    snapshot.stamp = some (.fromMetadata (s₀.world.metadata f) t) ∧
    s₀.world.now ≤ t ∧ t ≤ s.world.now

theorem loadAttempts_spec (hq : rules.Quiet) {path : PathBuf} : ∀ (attempts : ℕ) {s : State h},
    Since s₀ s → (loadAttempts path attempts : Op h _ _).wp (step rules who) (fun r s' =>
      Since s₀ s' ∧ (Failed r (Missing s₀ s' path) ∨
        ∃ snapshot, r = .ok snapshot ∧ Loaded s₀ s' path snapshot)) s
  | 0, s, hs => ⟨hs, .inl ⟨_, rfl, fun he => by cases he⟩⟩
  | attempts + 1, s, hs => by
    refine Proc.wp_bind_of (readCandidate_spec hq hs) (fun r s₁ hr => ?_) fun e s₁ hr => ?_
    · obtain ⟨hs₁, ⟨_, he, -⟩ | he | ⟨⟨text, stamp⟩, he, f, t, hf, hb, hst, ht, ht'⟩⟩ := hr
      · cases he
      · cases he; exact loadAttempts_spec hq attempts hs₁
      · cases he
        show Proc.wp _ (Proc.ofExec (fromValidatedWithStamp text (some stamp))) _ _
        rw [fromValidatedWithStamp_eq]
        exact ⟨hs₁, .inr ⟨_, rfl, f, t, hf, hb, congrArg some hst, ht, ht'⟩⟩
    · obtain ⟨hs₁, ⟨e', he, hn⟩ | he | ⟨_, he, -⟩⟩ := hr <;> cases he
      exact ⟨hs₁, .inl ⟨e', rfl, hn⟩⟩

/-- **`load` answers the content and its stamp**, while nobody else takes a step. -/
theorem load_spec (hq : rules.Quiet) (s : State h) {path : PathBuf} :
    (load path : Op h _ _).wp (step rules who) (fun r s' => Since s s' ∧
      (Failed r (Missing s s' path) ∨
        ∃ snapshot, r = .ok snapshot ∧ Loaded s s' path snapshot)) s :=
  wp_rest hq (Since.refl s) fun _ hs' => loadAttempts_spec hq _ hs'

end Snapshot

end

end Hashline
