/-
  The guard before the rename: what the destination holds when it lets the
  rename through, whatever others did to it since the stamp was taken.
-/
import Mathlib.Data.Set.Function
import Hashline.History
import Hashline.Persist
import Hashline.Quiet

namespace Hashline

open Machine

variable {h : Host} {ε α : Type}

/-- Calls whose answer a clock sample makes a stamp. -/
def Call.IsStat : Call h → Bool
  | .stat _ | .fstat _ => true
  | _ => false

/-- A stamp's `stat` and its clock sample are one instant, and a read that was begun goes on at
    once. -/
def instant : Rules h := fun s c x => match c with
  | .now => !(s.trace.head?.any fun d => d.call.IsStat) || x.events.isEmpty && x.tick == 0
  | .read .. => x.events.isEmpty && x.tick == 0
  | _ => true

/-- Moreover the temporary file is not given the name of the destination itself. -/
def distinct (path : PathBuf) : Rules h := fun s c x => instant s c x && match c with
  | .createNew tempPath => h.locate tempPath ≠ h.locate path
  | _ => true

/-! ## Before the rename -/

/-- A call other than the rename, which leaves the destination's content. -/
def Did.Keeps (path : PathBuf) (d : Did h) : Prop :=
  (∀ source target, d.call ≠ .rename source target) ∧
    d.after.contentAt (h.locate path) = d.before.contentAt (h.locate path)

/-- A state before the rename: the stamp of `t₀` still proves what it proves, and no call so far has
    touched the destination. -/
structure Watched (path : PathBuf) (id : SnapshotId) (t₀ : ℤ) (s : State h) : Prop where
  sane : s.world.Sane
  now : t₀ ≤ s.world.now
  justified : Justified t₀ id (h.locate path) s.world
  kept : ∀ d ∈ s.trace, d.Keeps path

/-- A file with one name, which is not the destination. -/
structure Temporary (path tempPath : PathBuf) (f : ℕ) (w : World h) : Prop where
  lt : f < w.next
  only : ∀ loc, w.entries loc = some f → loc = h.locate tempPath
  ne : h.locate tempPath ≠ h.locate path

section
variable {path : PathBuf} {id : SnapshotId} {t₀ : ℤ} {who : ℕ} {s : State h}
  {Q : Exec ε α → State h → Prop}

/-- One call before the rename, that is seen to leave the destination's content. -/
theorem wp_watched (hs : Watched path id t₀ s) {c : Call h} (hc : ∀ a b, c ≠ .rename a b)
    {k : Answer c → Op h ε α}
    (hkeep : ∀ x w a w', x.elapsed s.world = some w → w.Sane → distinct path s c x = true →
      act who x c w = some (a, w') → w'.contentAt (h.locate path) = w.contentAt (h.locate path))
    (hk : ∀ x w a s', Watched path id t₀ s' → distinct path s c x = true →
      x.elapsed s.world = some w → Later s.world w → act who x c w = some (a, s'.world) →
      s'.trace = ⟨who, x, c, a, s.world, w, s'.world⟩ :: s.trace →
      (k a).wp (step (distinct path) who) Q s') :
    (Proc.ask c >>= k).wp (step (distinct path) who) Q s := by
  refine wp_call fun x w a s' hr hw ha ht => ?_
  have hlw := Choice.elapsed_later hs.sane hw
  have hla := act_later hlw.sane ha
  refine hk x w a s' ⟨hla.sane, ?_, ?_, ?_⟩ hr hw hlw ha ht
  · exact Int.le_trans hs.now (Int.le_trans hlw.now hla.now)
  · exact (hs.justified.moved hs.now (hlw.moved _)).moved (Int.le_trans hs.now hlw.now) (hla.moved _)
  · intro d hd
    rw [ht] at hd
    rcases List.mem_cons.1 hd with rfl | hd
    · exact ⟨hc, hkeep x w a s'.world hw hlw.sane hr ha⟩
    · exact hs.kept d hd

/-- One call that changes nothing. -/
theorem wp_watched_inert (hs : Watched path id t₀ s) {c : Call h} (hc : c.Inert)
    {k : Answer c → Op h ε α}
    (hk : ∀ x a s', Watched path id t₀ s' → distinct path s c x = true →
      x.elapsed s.world = some s'.world → act who x c s'.world = some (a, s'.world) →
      s'.trace = ⟨who, x, c, a, s.world, s'.world, s'.world⟩ :: s.trace →
      (k a).wp (step (distinct path) who) Q s') :
    (Proc.ask c >>= k).wp (step (distinct path) who) Q s := by
  refine wp_watched hs (fun a b hab => by subst hab; exact hc.elim)
    (fun x w a w' _ _ _ ha => by rw [act_inert hc ha]) fun x w a s' hs' hr hw _ ha ht => ?_
  have heq := act_inert hc ha
  rw [← heq] at ha ht hw
  exact hk x a s' hs' hr hw ha ht

/-! ## The temporary file -/

theorem Temporary.event {tempPath : PathBuf} {f : ℕ} {w w' : World h} {e : Event}
    (ht : Temporary path tempPath f w) (he : e.apply w = some w') :
    Temporary path tempPath f w' := by
  cases e with
  | rewrite loc content mtime ctime =>
    rw [Event.apply, Option.bind_eq_bind, Option.bind_eq_some_iff] at he
    obtain ⟨g, -, he⟩ := he
    split_ifs at he
    cases he; exact ⟨ht.lt, ht.only, ht.ne⟩
  | replace loc file =>
    rw [Event.apply] at he
    split_ifs at he
    cases he
    refine ⟨Nat.lt_succ_of_lt ht.lt, fun loc' hl => ?_, ht.ne⟩
    by_cases hll : loc' = loc
    · subst hll
      rw [World.addFile_entries, Option.some.injEq] at hl
      have := ht.lt; omega
    · rw [World.addFile_entries_ne _ hll] at hl; exact ht.only loc' hl
  | remove loc =>
    rw [Event.apply] at he
    cases he
    refine ⟨ht.lt, fun loc' hl => ?_, ht.ne⟩
    by_cases hll : loc' = loc
    · subst hll; simp at hl
    · rw [World.setEntry_of_ne _ hll] at hl; exact ht.only loc' hl

theorem Temporary.elapse {tempPath : PathBuf} {f : ℕ} : ∀ (events : List (ℕ × Event))
    {w w' : World h}, Temporary path tempPath f w → elapse events w = some w' →
    Temporary path tempPath f w'
  | [], w, w', ht, he => by cases he; exact ht
  | (tick, e) :: rest, w, w', ht, he => by
    rw [Hashline.elapse, Option.bind_eq_bind, Option.bind_eq_some_iff] at he
    obtain ⟨w₁, h₁, he⟩ := he
    exact Temporary.elapse rest (Temporary.event (w := w.wait tick) ⟨ht.lt, ht.only, ht.ne⟩ h₁) he

theorem Temporary.elapsed {tempPath : PathBuf} {f : ℕ} {x : Choice} {w w' : World h}
    (ht : Temporary path tempPath f w) (he : x.elapsed w = some w') :
    Temporary path tempPath f w' := by
  rw [Choice.elapsed, Option.map_eq_some_iff] at he
  obtain ⟨w₁, h₁, rfl⟩ := he
  have ht₁ := ht.elapse _ h₁
  exact ⟨ht₁.lt, ht₁.only, ht₁.ne⟩

/-- What is done to a file that is not the destination leaves the destination. -/
theorem contentAt_setFile {w : World h} {loc : Loc} {f : ℕ} (hf : w.entries loc ≠ some f)
    (file : File) : (w.setFile f file).contentAt loc = w.contentAt loc := by
  unfold World.contentAt World.fileAt
  rcases hl : w.entries loc with _ | g
  · simp [hl]
  · have hg : g ≠ f := fun hgf => hf (by rw [hl, hgf])
    simp [hl, World.setFile_of_ne _ hg]

theorem contentAt_changed (w : World h) (loc : Loc) (f : ℕ) (t : FileTime) :
    (w.changed f t).contentAt loc = w.contentAt loc := by
  unfold World.contentAt World.fileAt
  rcases hl : w.entries loc with _ | g <;> simp [hl]

theorem contentAt_setEntry {w : World h} {loc loc' : Loc} (hl : loc ≠ loc') (o : Option ℕ) :
    (w.setEntry loc' o).contentAt loc = w.contentAt loc := by
  unfold World.contentAt World.fileAt
  rw [World.setEntry_of_ne _ hl]; rfl

theorem contentAt_addFile {w : World h} (hs : w.Sane) {loc loc' : Loc} (hl : loc ≠ loc')
    (file : File) : (w.addFile loc' file).contentAt loc = w.contentAt loc := by
  unfold World.contentAt World.fileAt
  rw [World.addFile_entries_ne _ hl]
  rcases he : w.entries loc with _ | g
  · rfl
  · simp [World.addFile_files _ (hs _ _ he)]

/-- Errors that a guarded write may return. -/
def PersistError.Expected (e : PersistError) : Prop := ∀ path, e ≠ .destinationExists path

/-- Given up before the rename, or gone on. -/
def Watching {β : Type} (path : PathBuf) (id : SnapshotId) (t₀ : ℤ) (P : β → State h → Prop)
    (r : Exec PersistError β) (s : State h) : Prop :=
  Watched path id t₀ s ∧ ((∃ e, r = .error (.err e) ∧ e.Expected) ∨ ∃ b, r = .ok b ∧ P b s)

/-- After a step before the rename. -/
theorem wp_bind_watching {β γ : Type} {Q : Exec PersistError γ → State h → Prop}
    {x : Op h PersistError β} {k : β → Op h PersistError γ} {P : β → State h → Prop}
    (hx : x.wp (step (distinct path) who) (Watching path id t₀ P) s)
    (hk : ∀ b s', Watched path id t₀ s' → P b s' → (k b).wp (step (distinct path) who) Q s')
    (hQ : ∀ e s', Watched path id t₀ s' → PersistError.Expected e → Q (.error (.err e)) s') :
    (x >>= k).wp (step (distinct path) who) Q s := by
  refine Proc.wp_bind_of hx (fun b s' hr => ?_) fun e s' hr => ?_
  · obtain ⟨hs', ⟨_, he, -⟩ | ⟨_, hb, hP⟩⟩ := hr
    · cases he
    · cases hb; exact hk b s' hs' hP
  · obtain ⟨hs', ⟨_, he, hexp⟩ | ⟨_, hb, -⟩⟩ := hr
    · cases he; exact hQ _ s' hs' hexp
    · cases hb

theorem expected_io (path : PathBuf) (operation : String) (source : IoError) :
    (ioErr path operation source).Expected := fun _ => by simp [ioErr]

theorem expected_changed (p : String) : (PersistError.destinationChanged p).Expected :=
  fun _ => by simp

/-- Removing the temporary file leaves the destination. -/
theorem refuse_watched {β : Type} {tempPath : PathBuf} (hs : Watched path id t₀ s)
    (hne : h.locate tempPath ≠ h.locate path) {error : PersistError} (he : error.Expected)
    (P : β → State h → Prop) : (refuse tempPath error : Op h PersistError β).wp
      (step (distinct path) who) (Watching path id t₀ P) s := by
  show ((discard tempPath : Op h PersistError Unit) >>= fun _ => Proc.fail error).wp _ _ _
  refine Proc.wp_bind_of (P := fun r s' => Watched path id t₀ s' ∧ r = .ok ()) ?_
    (fun _ s' hr => ⟨hr.1, .inl ⟨_, rfl, he⟩⟩) fun e s' hr => by cases hr.2
  refine wp_watched (c := .removeFile tempPath) hs (by simp) (fun x w a w' _ _ _ ha => ?_)
    fun _ _ _ s' hs' _ _ _ _ _ => ⟨hs', rfl⟩
  rcases act_removeFile ha with ⟨_, _, rfl⟩ | ⟨f, -, -, -, rfl⟩
  · rfl
  · rw [contentAt_changed, contentAt_setEntry (Ne.symm hne)]

theorem writeAll_watched {tempPath : PathBuf} {f : ℕ} {bytes : Bytes} : ∀ (rounds : ℕ)
    {offset : ℕ} {s : State h}, Watched path id t₀ s → Temporary path tempPath f s.world →
    (writeAll f bytes rounds offset : Op h ε _).wp (step (distinct path) who) (fun r s' =>
      Watched path id t₀ s' ∧ ∃ r', r = .ok r') s
  | 0, offset, s, hs, _ => ⟨hs, _, rfl⟩
  | rounds + 1, offset, s, hs, ht => by
    rw [writeAll]
    split_ifs
    · exact ⟨hs, _, rfl⟩
    · have hwrite : ∀ {x : Choice} {w : World h} {a : Except IoError ℕ} {w' : World h},
          Temporary path tempPath f w →
          act who x (.write f offset (bytes.drop offset)) w = some (a, w') →
          w'.contentAt (h.locate path) = w.contentAt (h.locate path) ∧
            Temporary path tempPath f w' := fun htw ha => by
        rcases act_write ha with ⟨_, _, rfl⟩ | ⟨-, -, rfl⟩
        · exact ⟨rfl, htw⟩
        · exact ⟨contentAt_setFile (fun hf => htw.ne (htw.only _ hf).symm) _,
            htw.lt, htw.only, htw.ne⟩
      refine wp_watched (c := .write f offset (bytes.drop offset)) hs (by simp)
        (fun x w a w' hw _ _ ha => (hwrite (ht.elapsed hw) ha).1)
        fun x w a s' hs' _ hw _ ha _ => ?_
      change Except IoError ℕ at a
      rcases a with e | n
      · exact ⟨hs', _, rfl⟩
      · exact writeAll_watched rounds hs' (hwrite (ht.elapsed hw) ha).2

theorem flush_watched {f : ℕ} (durability : Durability) (hs : Watched path id t₀ s)
    {dest : PathBuf} : (flush dest f durability : Op h _ _).wp (step (distinct path) who)
      (Watching path id t₀ fun _ _ => True) s := by
  have hsync : ∀ operation, (Op.sync f >>= fun r => Proc.orElse (ioErr dest operation) r :
      Op h PersistError Unit).wp (step (distinct path) who)
      (Watching path id t₀ fun _ _ => True) s := fun operation =>
    wp_watched_inert (c := .sync f) hs trivial fun x a s' hs' _ _ _ _ => by
      change Except IoError Unit at a
      rcases a with e | u
      · exact ⟨hs', .inl ⟨_, rfl, expected_io _ _ _⟩⟩
      · exact ⟨hs', .inr ⟨u, rfl, trivial⟩⟩
  cases durability with
  | full => exact hsync _
  | barrier => exact hsync _
  | none => exact ⟨hs, .inr ⟨(), rfl, trivial⟩⟩

theorem writeTemp_watched {dest tempPath : PathBuf} {bytes : Bytes} {durability : Durability}
    (hs : Watched path id t₀ s) :
    (writeTemp tempPath dest bytes durability : Op h _ _).wp (step (distinct path) who)
      (fun r s' => h.locate tempPath ≠ h.locate path ∧
        Watching path id t₀ (fun _ _ => True) r s') s := by
  have hrule : ∀ {s : State h} {x}, distinct path s (.createNew tempPath) x = true →
      h.locate tempPath ≠ h.locate path := fun hr => by simpa [distinct, instant] using hr
  refine wp_watched (c := .createNew tempPath) hs (by simp) (fun x w a w' hw hsane hr ha => ?_)
    fun x w a s₁ hs₁ hr hw hlw ha _ => ?_
  · rcases act_createNew ha with ⟨_, _, rfl⟩ | ⟨-, -, -, rfl⟩
    · rfl
    · exact contentAt_addFile hsane (Ne.symm (hrule hr)) _
  have hne := hrule hr
  rcases act_createNew ha with ⟨e, rfl, -⟩ | ⟨-, -, rfl, hw₁⟩
  · exact ⟨hne, hs₁, .inl ⟨_, rfl, expected_io _ _ _⟩⟩
  have htemp : Temporary path tempPath w.next s₁.world := by
    rw [hw₁]
    refine ⟨by simp, fun loc hl => ?_, hne⟩
    by_contra hll
    rw [World.addFile_entries_ne _ hll] at hl
    have := hlw.sane _ _ hl; omega
  show Proc.wp _ (writeAll w.next bytes bytes.length 0 >>= _) _ _
  refine Proc.wp_bind_of (writeAll_watched bytes.length hs₁ htemp) (fun r s₂ hr => ?_)
    fun e s₂ hr => by obtain ⟨-, _, he⟩ := hr; cases he
  obtain ⟨hs₂, -⟩ := hr
  rcases r with e | u
  · exact ⟨hne, hs₂, .inl ⟨_, rfl, expected_io _ _ _⟩⟩
  show Proc.wp _ (flush dest w.next durability >>= _) _ _
  refine wp_bind_watching (flush_watched durability hs₂) (fun _ s₃ hs₃ _ => ?_)
    fun e s' hs' he => ⟨hne, hs', .inl ⟨e, rfl, he⟩⟩
  refine wp_watched_inert (c := .fstat w.next) hs₃ trivial fun x a s₄ hs₄ _ _ _ _ => ?_
  change Except IoError Metadata at a
  rcases a with e | m
  · exact ⟨hne, hs₄, .inl ⟨_, rfl, expected_io _ _ _⟩⟩
  · exact Proc.wp_bind.2 (wp_watched_inert (c := .now) hs₄ trivial fun x a s₅ hs₅ _ _ _ _ =>
      ⟨hne, hs₅, .inr ⟨_, rfl, trivial⟩⟩)

theorem writeUniqueTemp_watched {parent dest : PathBuf} {bytes : Bytes} {durability : Durability}
    (hs : Watched path id t₀ s) :
    (writeUniqueTemp parent dest bytes durability : Op h _ _).wp (step (distinct path) who)
      (Watching path id t₀ fun p _ => h.locate p.1 ≠ h.locate path) s := by
  refine Proc.wp_bind_of (P := fun r s' => Watched path id t₀ s' ∧ ∃ name, r = .ok name) ?_
    (fun name s₁ hr => ?_) fun e s₁ hr => by obtain ⟨-, _, he⟩ := hr; cases he
  · refine wp_watched_inert (c := .now) hs trivial fun x a s₁ hs₁ _ _ _ _ => ?_
    refine wp_watched (c := .fetchAdd) hs₁ (by simp) (fun _ _ _ _ _ _ _ ha => by cases ha; rfl)
      fun _ _ a s₂ hs₂ _ _ _ _ _ => ⟨hs₂, _, rfl⟩
  · refine Proc.wp_attempt_of (writeTemp_watched hr.1) (fun stamp s₂ hr₂ => ?_)
      (fun e s₂ hr₂ => ?_) fun s₂ hr₂ => ?_
    · exact ⟨hr₂.2.1, .inr ⟨_, rfl, hr₂.1⟩⟩
    · obtain ⟨hne, hs₂, ⟨_, he, hexp⟩ | ⟨_, he, -⟩⟩ := hr₂ <;> cases he
      exact refuse_watched hs₂ hne hexp _
    · obtain ⟨-, -, ⟨_, he, -⟩ | ⟨_, he, -⟩⟩ := hr₂ <;> cases he

/-! ## The guard -/

/-- What the guard finds: the identity, or no more than that of the bytes up to its limit. -/
def Passed (path : PathBuf) (id : SnapshotId) (limit : ℕ) (w : World h) : Prop :=
  ∃ content, w.contentAt (h.locate path) = some content ∧
    (h.contentId content = id ∨ h.contentId (content.take limit) = id)

/-- A read that is begun goes on at once, to the end or the limit. -/
theorem readToEnd_watched {f limit : ℕ} {content : Bytes} : ∀ (rounds : ℕ) {bytes : Bytes}
    {s : State h}, Watched path id t₀ s → s.world.entries (h.locate path) = some f →
    (s.world.files f).content = content → bytes <+: content → bytes.length ≤ limit →
    limit ≤ bytes.length + rounds →
    (readToEnd f limit rounds bytes : Op h ε _).wp (step (distinct path) who) (fun r s' =>
      Watched path id t₀ s' ∧ s'.world.contentAt (h.locate path) = some content ∧
        ((∃ e, r = .ok (.error e)) ∨ r = .ok (.ok (content.take limit)))) s
  | 0, bytes, s, hs, hf, hc, hb, hl, hr => by
    have hlim : limit = bytes.length := by omega
    exact ⟨hs, by rw [s.world.contentAt_of_entry hf, hc],
      .inr (by rw [hlim, ← List.prefix_iff_eq_take.1 hb])⟩
  | rounds + 1, bytes, s, hs, hf, hc, hb, hl, hr => by
    rw [readToEnd]
    split_ifs with hlim
    · have hlim : limit = bytes.length := by omega
      exact ⟨hs, by rw [s.world.contentAt_of_entry hf, hc],
        .inr (by rw [hlim, ← List.prefix_iff_eq_take.1 hb])⟩
    refine wp_watched_inert (c := .read f bytes.length (limit - bytes.length)) hs trivial
      fun x a s₁ hs₁ hrule hw ha _ => ?_
    -- the rule lets nothing pass before a read
    have hsame : s₁.world = s.world := by
      simp only [distinct, instant, Bool.and_true, Bool.and_eq_true, List.isEmpty_iff,
        beq_iff_eq] at hrule
      rw [Choice.elapsed, hrule.1, hrule.2] at hw
      simpa [elapse, World.wait] using hw.symm
    have hat : s₁.world.contentAt (h.locate path) = some content := by
      rw [hsame, s.world.contentAt_of_entry hf, hc]
    obtain ⟨-, ⟨e, -, rfl⟩ | ⟨-, rfl⟩ | rfl⟩ := act_read ha
    · exact ⟨hs₁, hat, .inl ⟨e, rfl⟩⟩
    · exact ⟨hs₁, hat, .inl ⟨_, rfl⟩⟩
    have hn : 0 < x.moved (limit - bytes.length) := by rw [Choice.moved]; omega
    have hmost : x.moved (limit - bytes.length) ≤ limit - bytes.length := Nat.min_le_right _ _
    obtain ⟨hgrow, hend⟩ := prefix_read hb hn
    rw [hsame, hc]
    set chunk := (content.drop bytes.length).take (x.moved (limit - bytes.length))
    have hchunk : chunk.length ≤ x.moved (limit - bytes.length) := List.length_take_le _ _
    show Proc.wp _ (if chunk = [] then _ else _) _ _
    split_ifs with hce
    · refine ⟨hs₁, hat, .inr ?_⟩
      rw [← hend hce, List.take_of_length_le hl]
    · have hpos := List.length_pos_of_ne_nil hce
      refine readToEnd_watched rounds hs₁ (by rw [hsame, hf]) (by rw [hsame, hc]) hgrow ?_ ?_ <;>
        rw [List.length_append] <;> omega

/-- The expected destination was stamped at `t₀`. -/
def ExpectedDestination.At (expected : ExpectedDestination) (id : SnapshotId) (t₀ : ℤ) : Prop :=
  (∃ m, expected.stamp = .fromMetadata m t₀) ∧ expected.contentId = id

theorem destinationUnchanged_watched {tempPath : PathBuf} {expected : ExpectedDestination}
    (hs : Watched path id t₀ s) (hne : h.locate tempPath ≠ h.locate path)
    (hid : expected.contentId = id) :
    (destinationUnchanged path tempPath expected : Op h _ _).wp (step (distinct path) who)
      (Watching path id t₀ fun b s' =>
        b = true → Passed path id (saturatingAdd expected.stamp.len 1) s'.world) s := by
  refine wp_watched_inert (c := .openRead path) hs trivial fun x a s₁ hs₁ _ _ ha _ => ?_
  rcases (act_openRead ha).2 with ⟨e, -, rfl⟩ | ⟨f, hf, rfl⟩ | ⟨-, rfl⟩
  · show Proc.wp _ (if e.kind = .notFound then _ else _) _ _
    split_ifs
    · exact ⟨hs₁, .inr ⟨false, rfl, by simp⟩⟩
    · exact refuse_watched hs₁ hne (expected_io _ _ _) _
  · refine Proc.wp_bind_of (readToEnd_watched (saturatingAdd expected.stamp.len 1) hs₁ hf rfl
      List.nil_prefix (Nat.zero_le _) (by rw [List.length_nil]; omega)) (fun r s₂ hr => ?_)
      fun e s₂ hr => by obtain ⟨-, -, ⟨_, he⟩ | he⟩ := hr <;> cases he
    obtain ⟨hs₂, hat, ⟨e, he⟩ | he⟩ := hr
    · cases he; exact refuse_watched hs₂ hne (expected_io _ _ _) _
    · cases he
      exact ⟨hs₂, .inr ⟨_, rfl, fun hb => ⟨_, hat, .inr ((of_decide_eq_true hb).trans hid)⟩⟩⟩
  · exact ⟨hs₁, .inr ⟨false, rfl, by simp⟩⟩

/-- **What the guard lets through**: by an equal stamp that is proof, or by the bytes. -/
theorem checkDestination_watched {tempPath : PathBuf} {expected : ExpectedDestination}
    (hs : Watched path id t₀ s) (hne : h.locate tempPath ≠ h.locate path)
    (he : expected.At id t₀) :
    (checkDestination path tempPath expected : Op h _ _).wp (step (distinct path) who)
      (Watching path id t₀ fun _ s' =>
        Passed path id (saturatingAdd expected.stamp.len 1) s'.world) s := by
  obtain ⟨⟨m, hm⟩, hid⟩ := he
  have hrefuse : ∀ {s₁}, Watched path id t₀ s₁ → ∀ {error : PersistError}, error.Expected →
      (refuse tempPath error : Op h PersistError Unit).wp (step (distinct path) who)
        (Watching path id t₀ fun _ s' =>
          Passed path id (saturatingAdd expected.stamp.len 1) s'.world) s₁ :=
    fun hs₁ _ hexp => refuse_watched hs₁ hne hexp _
  refine wp_watched_inert (c := .guard path expected.stamp expected.contentId) hs trivial
    fun _ _ s₁ hs₁ _ _ _ _ => ?_
  refine wp_watched_inert (c := .stat path) hs₁ trivial fun x a s₂ hs₂ _ _ ha hstat => ?_
  rcases (act_stat ha).2 with ⟨e, -, rfl⟩ | ⟨f, hf, rfl⟩ | ⟨-, rfl⟩
  · show Proc.wp _ (if e.kind = .notFound then _ else _) _ _
    split_ifs
    · exact hrefuse hs₂ (expected_changed _)
    · exact hrefuse hs₂ (expected_io _ _ _)
  · refine Proc.wp_bind.2 (wp_watched_inert (c := .now) hs₂ trivial
      fun x t s₃ hs₃ hrule hw ha ht => ?_)
    -- the clock is read at the instant of the `stat`
    have hsame : s₃.world = s₂.world := by
      simp only [distinct, instant, hstat, List.head?_cons, Option.any_some, Call.IsStat,
        Bool.not_true, Bool.false_or, Bool.and_true, Bool.and_eq_true, List.isEmpty_iff,
        beq_iff_eq] at hrule
      rw [Choice.elapsed, hrule.1, hrule.2] at hw
      simpa [elapse, World.wait] using hw.symm
    show Proc.wp _ (if FileStamp.fromMetadata (s₂.world.metadata f) t != expected.stamp then _
      else _) _ _
    split_ifs with hst hracy
    · exact hrefuse hs₃ (expected_changed _)
    · refine wp_bind_watching (destinationUnchanged_watched hs₃ hne hid)
        (fun b s₄ hs₄ hb => ?_) fun e s' hs' he => ⟨hs', .inl ⟨e, rfl, he⟩⟩
      cases b with
      | true => exact ⟨hs₄, .inr ⟨(), rfl, hb rfl⟩⟩
      | false => exact hrefuse hs₄ (expected_changed _)
    · refine ⟨hs₃, .inr ⟨(), rfl, (s₃.world.files f).content, ?_, .inl ?_⟩⟩
      · rw [hsame]; exact s₂.world.contentAt_of_entry hf
      · rw [hm] at hst hracy
        rw [hsame]
        refine hs₂.justified.of_stamp (t := t) hf ?_ (by simpa using hracy)
        by_contra hne
        exact hst (by rw [bne, Bool.eq_false_iff.2 hne]; rfl)
  · exact hrefuse hs₂ (expected_changed _)

/-! ## The rename -/

/-- Calls other than the rename. -/
def Call.NoRename : Call h → Prop
  | .rename .. => False
  | _ => True

/-- Whoever got as far as a rename had passed the guard. -/
def RenamedPassed (path : PathBuf) (id : SnapshotId) (limit : ℕ) (s : State h) : Prop :=
  ∀ d ∈ s.trace, ∀ source target, d.call = .rename source target → Passed path id limit d.was

/-- What has got as far as a rename. -/
def State.Renamed (s : State h) : Prop := ∃ d ∈ s.trace, ∃ source target, d.call = .rename source target

theorem step_renamed {rules : Rules h} {x : Choice} {c : Call h} {a : Answer c} {s s' : State h}
    (hr : s.Renamed) (hst : step rules who x c s = some (a, s')) : s'.Renamed := by
  obtain ⟨-, w, -, -, ht⟩ := step_eq_some.1 hst
  obtain ⟨d, hd, hr⟩ := hr
  exact ⟨d, by rw [ht]; exact List.mem_cons_of_mem _ hd, hr⟩

theorem step_renamedPassed {rules : Rules h} {limit : ℕ} {x : Choice} {c : Call h} {a : Answer c}
    {s s' : State h} (hc : c.NoRename) (hr : RenamedPassed path id limit s)
    (hst : step rules who x c s = some (a, s')) : RenamedPassed path id limit s' := by
  obtain ⟨-, w, -, -, ht⟩ := step_eq_some.1 hst
  intro d hd source target hd'
  rw [ht] at hd
  rcases List.mem_cons.1 hd with rfl | hd
  · simp only at hd'; subst hd'; exact hc.elim
  · exact hr d hd source target hd'

theorem discard_noRename (tempPath : PathBuf) :
    (discard tempPath : Op h ε Unit).All Call.NoRename :=
  Proc.All.bind (Proc.all_ask trivial) fun _ => Proc.all_pure _

theorem afterInstall_noRename (path : PathBuf) (stamp : FileStamp) (durability : Durability) :
    (afterInstall path stamp durability : Op h ε _).All Call.NoRename := by
  have hconfirm : (confirmStamp path stamp : Op h ε _).All Call.NoRename := by
    refine Proc.All.bind (Proc.all_ask trivial) fun a => ?_
    change Except IoError Metadata at a
    rcases a with e | m
    · exact Proc.all_pure _
    · show Proc.All _ (Decoder.unix.fromMetadata _ _ >>= _)
      rw [Decoder.unix_bind]
      exact Proc.All.bind (Proc.All.bind (Proc.all_ask trivial) fun _ => Proc.all_pure _)
        fun _ => Proc.all_pure _
  unfold afterInstall Decoder.afterInstall
  split_ifs
  · exact Proc.All.bind (Proc.All.bind (Proc.all_ask trivial) fun _ => Proc.all_pure _)
      fun _ => hconfirm
  · exact hconfirm

/-- After a rename that had passed the guard, no other follows. -/
theorem wp_renamed {β : Type} {limit : ℕ} {x : Op h ε β} (hx : x.All Call.NoRename)
    (hr : s.Renamed) (hp : RenamedPassed path id limit s) :
    x.wp (step (distinct path) who) (fun _ s' => s'.Renamed ∧ RenamedPassed path id limit s') s :=
  Proc.wp_mono (Proc.wp_of_all (I := fun s => s.Renamed ∧ RenamedPassed path id limit s) hx
    (fun _ _ _ _ _ hc hi hst => ⟨step_renamed hi.1 hst, step_renamedPassed hc hi.2 hst⟩) ⟨hr, hp⟩
    Proc.wp_true) fun _ _ hr => hr.2

/-- A guarded write: refused with the destination left alone, or it had passed the guard. -/
def Guarded {β : Type} (path : PathBuf) (id : SnapshotId) (t₀ : ℤ) (limit : ℕ)
    (r : Exec PersistError β) (s : State h) : Prop :=
  (Watched path id t₀ s ∧ ∃ e, r = .error (.err e) ∧ e.Expected) ∨
    (s.Renamed ∧ RenamedPassed path id limit s)

theorem writeLocked_guarded {bytes : Bytes} {expected : ExpectedDestination}
    {durability : Durability} (hs : Watched path id t₀ s) (he : expected.At id t₀) :
    (writeLocked path bytes (some expected) durability : Op h _ _).wp (step (distinct path) who)
      (Guarded path id t₀ (saturatingAdd expected.stamp.len 1)) s := by
  have hparent : (createParentOf path : Op h _ _).wp (step (distinct path) who)
      (Watching path id t₀ fun _ _ => True) s := by
    unfold createParentOf
    rcases path.parent with _ | parent
    · exact ⟨hs, .inr ⟨(), rfl, trivial⟩⟩
    · refine wp_watched_inert (c := .createDirAll parent) hs trivial fun x a s' hs' _ _ _ _ => ?_
      change Except IoError Unit at a
      rcases a with e | u
      · exact ⟨hs', .inl ⟨_, rfl, expected_io _ _ _⟩⟩
      · exact ⟨hs', .inr ⟨u, rfl, trivial⟩⟩
  refine wp_bind_watching hparent (fun _ s₁ hs₁ _ => ?_) fun e s' hs' hexp =>
    .inl ⟨hs', e, rfl, hexp⟩
  refine wp_bind_watching (writeUniqueTemp_watched hs₁) (fun p s₂ hs₂ hne => ?_)
    fun e s' hs' hexp => .inl ⟨hs', e, rfl, hexp⟩
  refine wp_bind_watching (checkDestination_watched hs₂ hne he) (fun _ s₃ hs₃ hpass => ?_)
    fun e s' hs' hexp => .inl ⟨hs', e, rfl, hexp⟩
  refine wp_call (c := .rename p.1 path) fun x w a s₄ _ _ _ ht => ?_
  have hren : s₄.Renamed := ⟨_, by rw [ht]; exact List.mem_cons_self, _, _, rfl⟩
  have hpassed : RenamedPassed path id (saturatingAdd expected.stamp.len 1) s₄ := by
    intro d hd source target hd'
    rw [ht] at hd
    rcases List.mem_cons.1 hd with rfl | hd
    · exact hpass
    · exact absurd hd' ((hs₃.kept d hd).1 source target)
  change Except IoError Unit at a
  rcases a with e | u
  · exact Proc.wp_mono (wp_renamed (Proc.All.bind (discard_noRename p.1) fun _ => Proc.all_fail _)
      hren hpassed) fun _ _ hr => .inr hr
  · exact Proc.wp_mono (wp_renamed (afterInstall_noRename _ _ _) hren hpassed)
      fun _ _ hr => .inr hr

theorem atomicWrite_spec_guarded {bytes : Bytes} {expected : ExpectedDestination}
    {durability : Durability} (hs : Watched path id t₀ s) (he : expected.At id t₀) :
    (atomicWrite path bytes (some expected) durability : Op h _ _).wp (step (distinct path) who)
      (Guarded path id t₀ (saturatingAdd expected.stamp.len 1)) s := by
  refine wp_watched (c := .lock path.components) hs (by simp)
    (fun _ _ _ _ _ _ _ ha => by rw [(act_lock ha).2]; rfl) fun _ _ _ s₁ hs₁ _ _ _ _ _ => ?_
  have hunlock : ∀ (r : Except PersistError (Option FileStamp)) s₂,
      Guarded path id t₀ (saturatingAdd expected.stamp.len 1)
        (match r with | .ok o => .ok o | .error e => .error (.err e)) s₂ →
      (Op.unlock path >>= fun _ => Proc.orElse (fun e => e) r : Op h PersistError _).wp
        (step (distinct path) who)
        (Guarded path id t₀ (saturatingAdd expected.stamp.len 1)) s₂ := by
    rintro r s₂ (⟨hs₂, e, he, hexp⟩ | ⟨hren, hpassed⟩)
    · rcases r with e' | o <;> cases he
      exact wp_watched (c := .unlock path.components) hs₂ (by simp) (fun _ _ _ _ _ _ _ ha => by cases ha; rfl)
        fun _ _ _ s₃ hs₃ _ _ _ _ _ => .inl ⟨hs₃, e, rfl, hexp⟩
    · exact Proc.wp_mono (wp_renamed (Proc.All.bind (Proc.all_ask trivial) fun _ =>
        Proc.all_orElse _ _) hren hpassed) fun _ _ hr => .inr hr
  refine Proc.wp_attempt_bind.2 (Proc.wp_mono (writeLocked_guarded hs₁ he) fun r s₂ hr => ?_)
  rcases r with (e | _) | o
  · exact hunlock (.error e) s₂ hr
  · rcases hr with ⟨-, _, he, -⟩ | hr
    · cases he
    · exact .inr hr
  · exact hunlock (.ok o) s₂ hr

/-- The contents a run compares: the base, and what the destination held between calls, whole or as
    far as the guard reads. -/
def Involved (path : PathBuf) (base : Bytes) (trace : List (Did h)) : Set Bytes :=
  {bytes | bytes = base ∨ ∃ d ∈ trace, ∃ content, d.was.contentAt (h.locate path) = some content ∧
    (bytes = content ∨ bytes = content.take (base.length + 1))}

/-- On the contents involved, what passes the guard is the base. -/
theorem Passed.content {base : Bytes} {trace : List (Did h)} {d : Did h} (hd : d ∈ trace)
    (hinj : Set.InjOn h.contentId (Involved path base trace))
    (hp : Passed path (h.contentId base) (base.length + 1) d.was) :
    d.was.contentAt (h.locate path) = some base := by
  obtain ⟨content, hc, hp⟩ := hp
  have hbase : base ∈ Involved path base trace := .inl rfl
  rcases hp with hp | hp
  · rw [hc, hinj (.inr ⟨d, hd, content, hc, .inl rfl⟩) hbase hp]
  · have heq := hinj (.inr ⟨d, hd, content, hc, .inr rfl⟩) hbase hp
    have hlen := congrArg List.length heq
    rw [List.length_take] at hlen
    rw [List.take_of_length_le (by omega)] at heq
    rw [hc, heq]

/-- **Soundness of the guard.** From the instant at which the destination held `base` and was
    stamped, whatever others do before any call: where `atomic_write` gets as far as the rename, the
    destination still held `base` when the guard was done; otherwise it returns the error of a
    changed destination or of the operating system, and none of its calls has touched the
    destination's content. -/
theorem atomicWrite_guarded {bytes : Bytes} {expected : ExpectedDestination}
    {durability : Durability} {w : World h} {f : ℕ} {xs : List Choice} {s' : State h}
    {r : Exec PersistError (Option FileStamp)} (hsane : w.Sane)
    (hf : w.entries (h.locate path) = some f)
    (hstamp : expected.stamp = .fromMetadata (w.metadata f) w.now)
    (hid : expected.contentId = h.contentId (w.files f).content)
    (hlen : (w.files f).content.length ≤ maxFileBytes)
    (hrun : Prog.runs (step (distinct path) who) xs
      (atomicWrite path bytes (some expected) durability, ⟨w, []⟩) = some (.ret r, s'))
    (hinj : Set.InjOn h.contentId (Involved path (w.files f).content s'.trace)) :
    (∀ d ∈ s'.trace, ∀ source target, d.call = .rename source target → ∃ content,
      d.was.contentAt (h.locate path) = some content ∧
        h.contentId content = expected.contentId) ∧
    ((∀ d ∈ s'.trace, ∀ source target, d.call ≠ .rename source target) →
      (∃ e, r = .error (.err e) ∧ ∀ p, e ≠ .destinationExists p) ∧
        ∀ d ∈ s'.trace,
          d.after.contentAt (h.locate path) = d.before.contentAt (h.locate path)) := by
  have hstart : Watched path expected.contentId w.now (⟨w, []⟩ : State h) := by
    refine ⟨hsane, Int.le_refl _, fun file hfile => .inl ?_, by simp⟩
    rw [w.fileAt_of_entry hf, Option.some.injEq] at hfile
    rw [hid, ← hfile]
  have hlimit : saturatingAdd expected.stamp.len 1 = (w.files f).content.length + 1 := by
    rw [hstamp]
    refine saturatingAdd_of_le ?_
    have hmax : maxFileBytes + 1 ≤ u64Max := by decide
    exact Nat.le_trans (Nat.succ_le_succ hlen) hmax
  have hend := Proc.wp_runs (atomicWrite_spec_guarded hstart ⟨⟨_, hstamp⟩, rfl⟩) hrun
  rcases hend with ⟨hs', e, rfl, hexp⟩ | ⟨hren, hpassed⟩
  · exact ⟨fun d hd source target hd' => absurd hd' ((hs'.kept d hd).1 source target),
      fun _ => ⟨⟨e, rfl, hexp⟩, fun d hd => (hs'.kept d hd).2⟩⟩
  · refine ⟨fun d hd source target hd' => ?_, fun hno => ?_⟩
    · have hp := hpassed d hd source target hd'
      rw [hlimit, hid] at hp
      exact ⟨_, hp.content hd hinj, hid.symm⟩
    · obtain ⟨d, hd, source, target, hd'⟩ := hren
      exact absurd hd' (hno d hd source target)

end

/-- A sample file of one byte, stamped at once. -/
def ExpectedDestination.sample (path : PathBuf) : ExpectedDestination :=
  ⟨.fromMetadata ((World.sample path (some [97])).metadata 0) 0, Host.sample.contentId [97]⟩

/-- A stamp within the racy window, and a rename that the bytes let through. -/
theorem atomicWrite_guarded_racy : ∃ r s',
    Prog.runs (step (distinct ["w", "f"]) 0) (List.replicate 18 {})
      (atomicWrite ["w", "f"] [98] (some (.sample ["w", "f"])) .none,
        (⟨.sample ["w", "f"] (some [97]), []⟩ : State Host.sample)) = some (.ret (.ok r), s') ∧
      ∀ d ∈ s'.trace, ∀ source target, d.call = .rename source target → ∃ content,
        d.was.contentAt (Host.sample.locate ["w", "f"]) = some content ∧
          Host.sample.contentId content = Host.sample.contentId [97] := by
  have hrun : ∃ r s', Prog.runs (step (distinct ["w", "f"]) 0) (List.replicate 18 {})
      (atomicWrite ["w", "f"] [98] (some (.sample ["w", "f"])) .none,
        (⟨.sample ["w", "f"] (some [97]), []⟩ : State Host.sample)) = some (.ret (.ok r), s') ∧
      ∀ d ∈ s'.trace, d.was.contentAt (Host.sample.locate ["w", "f"]) = some [97] ∨
        d.was.contentAt (Host.sample.locate ["w", "f"]) = some [98] :=
    ⟨_, _, rfl, by decide⟩
  obtain ⟨r, s', hrun, hheld⟩ := hrun
  have hinj : Set.InjOn Host.sample.contentId (Involved ["w", "f"] [97] s'.trace) := by
    have hone : ∀ bytes ∈ Involved ["w", "f"] [97] s'.trace, bytes = [97] ∨ bytes = [98] := by
      rintro bytes (rfl | ⟨d, hd, content, hc, hb⟩)
      · exact .inl rfl
      · rcases hheld d hd with h' | h' <;> rw [h'] at hc <;> cases hc <;>
          rcases hb with rfl | rfl <;> simp
    intro a ha b hb hab
    rcases hone a ha with rfl | rfl <;> rcases hone b hb with rfl | rfl <;>
      first | rfl | exact absurd hab (by decide)
  exact ⟨r, s', hrun, (atomicWrite_guarded (World.sample_sane _ _) rfl rfl rfl (by decide) hrun
    hinj).1⟩

/-- The temporary file is drawn the name of the destination: nothing is renamed, and the destination
    is removed. -/
theorem atomicWrite_unguarded : ∃ e s',
    Prog.runs (step instant 0) (List.replicate 7 {})
      (atomicWrite ["w", tempName 7 0 0] [98] (some (.sample ["w", tempName 7 0 0])) .none,
        (⟨.sample ["w", tempName 7 0 0] (some [97]), []⟩ : State Host.sample)) =
          some (.ret (.error e), s') ∧
      Set.InjOn Host.sample.contentId (Involved ["w", tempName 7 0 0] [97] s'.trace) ∧
      (∀ d ∈ s'.trace, ∀ source target, d.call ≠ .rename source target) ∧
      ∃ d ∈ s'.trace, d.before.contentAt (Host.sample.locate ["w", tempName 7 0 0]) = some [97] ∧
        d.after.contentAt (Host.sample.locate ["w", tempName 7 0 0]) = none := by
  have hrun : ∃ e s', Prog.runs (step instant 0) (List.replicate 7 {})
      (atomicWrite ["w", tempName 7 0 0] [98] (some (.sample ["w", tempName 7 0 0])) .none,
        (⟨.sample ["w", tempName 7 0 0] (some [97]), []⟩ : State Host.sample)) =
          some (.ret (.error e), s') ∧
      (∀ d ∈ s'.trace, d.was.contentAt (Host.sample.locate ["w", tempName 7 0 0]) = some [97] ∨
        d.was.contentAt (Host.sample.locate ["w", tempName 7 0 0]) = none) ∧
      (∀ d ∈ s'.trace, d.call.NoRename) ∧
      ∃ d ∈ s'.trace, d.before.contentAt (Host.sample.locate ["w", tempName 7 0 0]) = some [97] ∧
        d.after.contentAt (Host.sample.locate ["w", tempName 7 0 0]) = none :=
    ⟨_, _, rfl, by decide, by simp [Call.NoRename], by decide⟩
  obtain ⟨e, s', hrun, hheld, hno, hgone⟩ := hrun
  refine ⟨e, s', hrun, ?_, fun d hd source target hc => ?_, hgone⟩
  · refine Set.Subsingleton.injOn (fun a ha b hb => ?_) _
    have hone : ∀ bytes ∈ Involved ["w", tempName 7 0 0] [97] s'.trace, bytes = [97] := by
      rintro bytes (rfl | ⟨d, hd, content, hc, hb⟩)
      · rfl
      · rcases hheld d hd with h' | h' <;> rw [h'] at hc <;> cases hc
        rcases hb with rfl | rfl <;> rfl
    rw [hone a ha, hone b hb]
  · have := hno d hd
    rw [hc] at this; exact this

end Hashline
