/-
  Reads among mutations: a snapshot that is served, out of the cache or loaded,
  is what a thread found at the place, the reader itself unless it joined.
-/
import Hashline.Readers
import Hashline.Steady

namespace Hashline

open Machine Object

variable {h : Host} {n : ℕ} {ε α : Type}

/-! ## What an error tells -/

/-- A payload of the error, if there is one, is of some of the bytes. -/
def Recounts (contentId : Bytes → SnapshotId) (G : Bytes → Prop) (e : Fault ProtocolError) : Prop :=
  ∀ error, e = .err error → error.conflict = none ∧ error.existing = none ∨
    ∃ bytes, G bytes ∧ error.Tells contentId bytes

namespace Recounts
variable {contentId : Bytes → SnapshotId} {G G' : Bytes → Prop} {error : ProtocolError}

theorem empty (hc : error.conflict = none) (hx : error.existing = none) :
    Recounts contentId G (.err error) := fun _ he => by
  cases he
  exact .inl ⟨hc, hx⟩

theorem new (code : ErrorCode) (message : String) : Recounts contentId G (.err (.new code message)) :=
  empty rfl rfl

theorem bare (hb : error.Bare) : Recounts contentId G (.err error) := empty hb.conflict hb.existing

theorem decided {bytes : Bytes} (hG : G bytes) (hd : error.Decided contentId bytes) :
    Recounts contentId G (.err error) := fun _ he => by
  cases he
  exact .inr ⟨bytes, hG, hd.2⟩

theorem panic : Recounts contentId G .panic := nofun

theorem mono {e : Fault ProtocolError} (he : Recounts contentId G e) (h : ∀ b, G b → G' b) :
    Recounts contentId G' e := fun error hr =>
  (he error hr).imp_right fun ⟨bytes, hG, ht⟩ => ⟨bytes, h _ hG, ht⟩

end Recounts

/-! ## The answer of a read -/

namespace Read

/-- The bytes are the page of the snapshot that the request asks for. -/
def Shows (quote : String → String) (input : ReadRequest) {contentId : Bytes → SnapshotId}
    (snapshot : Snapshot contentId) (bytes : Bytes) : Prop :=
  ∃ granted page, readSnapshot granted snapshot input = .ok page ∧ bytes = page.render quote

theorem answer_meets {quote : String → String} (path : PathBuf) {input : ReadRequest}
    (hvalid : input.validate = .ok ()) (snapshot : Snapshot h.contentId) :
    (answer quote path input snapshot).Meets (Shows quote input snapshot)
      (ProtocolError.Decided h.contentId snapshot.bytes) := by
  refine Proc.meets_call fun granted => ?_
  change Bool at granted
  have hstart := meets_pageStart snapshot granted input
  rcases hpage : pageStart granted snapshot input with (e | _) | startLine
  · rw [hpage] at hstart
    exact hstart
  · rw [hpage] at hstart
    exact hstart.elim
  show Proc.Meets _ _ (if startLine > snapshot.lineCount then _ else _)
  split_ifs with hlarge
  · rcases hcursor : input.cursor with _ | cursor
    · have hread : readSnapshot granted snapshot input = (do
          let header ← (SnapshotHeader.new input.path snapshot.id snapshot.lineCount
            snapshot.byteLen).mapErr .ofContract
          .ok ⟨header, [], none⟩) := by
        rw [readSnapshot, hvalid, hpage]
        show (if startLine > snapshot.lineCount then _ else _) = _
        rw [if_pos hlarge, hcursor]
      show Proc.Meets _ _ (Proc.ofExec _ >>= _)
      rw [snapshot.header_new] at hread ⊢
      refine ⟨granted, _, hread, ?_⟩
      simp [Page.render]
    · exact ContractError.decided _
  · have hread : readSnapshot granted snapshot input =
        (snapshotPage granted snapshot input.path startLine input.limit.toNat).mapErr
          (snapshotProtocolError "read" input.path) := by
      rw [readSnapshot, hvalid, hpage]
      show (if startLine > snapshot.lineCount then _ else _) = _
      rw [if_neg hlarge]
    refine meets_maybeBlocking ?_ fun _ =>
      ⟨ProtocolError.consistent_new plain_io _, ProtocolError.tells_new _ _⟩
    have hnot := noPanic_renderSnapshotPage snapshot quote granted input.path startLine input.limit.toNat
    rw [renderSnapshotPage] at hnot ⊢
    rcases hsnap : snapshotPage granted snapshot input.path startLine input.limit.toNat with (e | _) | page
    · exact ⟨snapshotProtocolError_consistent _ _ e, snapshotProtocolError_tells _ _ e⟩
    · rw [hsnap] at hnot
      exact absurd rfl hnot
    · rw [hsnap] at hread
      exact ⟨granted, page, hread, rfl⟩

theorem answer_calm (quote : String → String) (path : PathBuf) (input : ReadRequest)
    (snapshot : Snapshot h.contentId) : (answer quote path input snapshot).All Call.Calm := by
  refine Proc.All.bind (Proc.all_ask trivial) fun granted => ?_
  refine Proc.All.bind (Proc.all_ofExec _) fun startLine => ?_
  split_ifs
  · split
    · exact Proc.all_fail _
    · exact Proc.All.bind (Proc.all_ofExec _) fun _ => Proc.all_pure _
  · unfold maybeBlocking
    split_ifs
    · exact spawnBlocking_all (Proc.all_ofExec _)
    · exact Proc.all_ofExec _

end Read

namespace Service
variable {V : Service h n} {rules : Rules h} {i : Fin n} {s s' : State h} {l : Loc}
  {snapshot : Snapshot h.contentId}

/-! ## What is shared -/

/-- **What is resident is of its place**, with a stamp of its file. -/
theorem Inv.resident (hi : V.Inv s) (hb : V.start.Blank) {path : PathBuf} (hpub : V.Public (h.locate path))
    {entry : Entry h.contentId} (hr : s.world.cache.Resident (path.components, entry)) :
    V.Of (h.locate path) entry.snapshot s ∧
      entry.stamp.map FileStamp.inode = entry.snapshot.stamp.map FileStamp.inode := by
  obtain ⟨d, hd, hcall, hst⟩ := (hi.shared hb).inserted _ hr
  have hd := hi.honest d hd
  simp only [Honest, hcall, Host.locate_components] at hd
  exact ⟨hd hpub, hst⟩

/-- **What a cell tells is of the place** it is for. -/
theorem Inv.told (hi : V.Inv s) (hb : V.start.Blank) {path : PathBuf} (hpub : V.Public (h.locate path))
    {cell : ℕ} (hl : s.Led path.components cell) (hc : (s.world.cells cell).state = .ready (.ok snapshot)) :
    V.Of (h.locate path) snapshot s := by
  obtain ⟨d, hd, hcall⟩ := (hi.shared hb).told cell snapshot hc
  have hd := hi.honest d hd
  simp only [Honest, hcall] at hd
  obtain ⟨path', hl', hof⟩ := hd
  obtain rfl := (hi.shared hb).one _ _ _ hl hl'
  rw [Host.locate_components] at hof
  exact hof hpub

/-- The stamp is of a published file, whose bytes thread `i` has found at the place. -/
def Stamped (V : Service h n) (i : Fin n) (l : Loc) (stamp : FileStamp) (s : State h) : Prop :=
  ∃ f b, V.Shows f b stamp.inode s ∧ s.Saw i l b

theorem Stamped.keeps {stamp : FileStamp} (hs : V.Stamped i l stamp s) (hk : V.Keeps i s s') :
    V.Stamped i l stamp s' := by
  obtain ⟨f, b, hshows, hsaw⟩ := hs
  exact ⟨f, b, hshows.mono hk.published, hsaw.grown hk.grown⟩

/-- **An equal stamp is of the same file**: a snapshot that has the stamp of what was found there is
    what was found. -/
theorem Stamped.found {stamp : FileStamp} (hs : V.Stamped i l stamp s) (hi : V.Inv s)
    (ho : V.Of l snapshot s) (hst : snapshot.stamp.map FileStamp.inode = some stamp.inode) :
    V.Found i l snapshot s := by
  obtain ⟨f, b, hshows, hsaw⟩ := hs
  obtain ⟨g, stamp', hst', hshows'⟩ := ho.based
  rw [hst', Option.map_some, Option.some.injEq] at hst
  obtain rfl := hi.inode f g (hi.born f hshows.published) (hi.born g hshows'.published)
    (hshows.inode.trans (hst.symm.trans hshows'.inode.symm))
  refine ⟨ho.based, ?_⟩
  rw [← hshows'.content, hshows.content]
  exact hsaw

/-! ## Out of the cache -/

/-- What a thread comes to that looks for a snapshot: if there is one, it found it. -/
def Finds (V : Service h n) (i : Fin n) (l : Loc) (s : State h)
    (r : Exec SnapshotError (Option (Snapshot h.contentId))) (s' : State h) : Prop :=
  V.Inv s' ∧ V.Keeps i s s' ∧
    (V.start.Blank → V.Public l → ∀ snapshot, r = .ok (some snapshot) → V.Found i l snapshot s')

section
variable (hc : rules.Closed) {path : PathBuf}

/-- What is proved has the stamp of the entry, which is then the one of the descriptor. -/
theorem provedBy_within (snapshot : Snapshot h.contentId) (entryStamp : FileStamp) (f : ℕ)
    {D : Dialogue (Call h) Answer} {P : ℕ → Prop}
    (hcalm : ∀ c : Call h, c.Calm → D.call c)
    (hfstat : ∀ m : Metadata, D.answer (.fstat f) (.ok m) → P m.inode) :
    (SnapshotCache.provedBy snapshot entryStamp f).Within D (fun r => ∀ after, r = some after →
      after.inode = entryStamp.inode ∧ P entryStamp.inode) Anything := by
  have hnow : ∀ m : Metadata, (Op.fromMetadata m : Op h SnapshotError FileStamp).Within D
      (fun stamp => ∃ t, stamp = .fromMetadata m t) Anything := fun m =>
    Proc.within_call (hcalm .now trivial) fun t _ => ⟨t, rfl⟩
  refine Proc.within_call (hcalm _ trivial) fun a ha => ?_
  change Except IoError Metadata at a
  rcases a with e | m
  · exact nofun
  refine (hnow m).bind fun before hbefore => ?_
  obtain ⟨t, rfl⟩ := hbefore
  show Proc.Within _ _ _ (if _ then _ else _)
  split_ifs with hne
  · exact nofun
  have heq : (FileStamp.fromMetadata m t == entryStamp) = true := by
    by_contra hno
    exact hne (by rw [bne, Bool.eq_false_iff.2 hno]; rfl)
  refine ((meets_readToEnd _ _).within (Prog.All.mono hcalm (readToEnd_calm _ _ _ _))).bind
    fun r _ => ?_
  rcases r with e | bytes
  · exact nofun
  refine Proc.within_call (hcalm _ trivial) fun a _ => ?_
  change Except IoError Metadata at a
  rcases a with e | m'
  · exact nofun
  refine (hnow m').bind fun after _ found hfound => ?_
  split_ifs at hfound with hok
  cases hfound
  rw [Bool.and_eq_true] at hok
  exact ⟨FileStamp.inode_of_beq hok.1, FileStamp.inode_of_beq heq ▸ hfstat m ha⟩

include hc

theorem currentStamp_safe : (SnapshotCache.currentStamp path : Op h _ _).Safe (step rules i) everywhere
    (V.contract i) (fun r s' => V.Inv s' ∧ V.Keeps i s s' ∧ (V.Public (h.locate path) →
      ∀ stamp, r = .ok (some stamp) → V.Stamped i (h.locate path) stamp s')) s := by
  refine safe_modest (c := .stat path) hc trivial fun s₁ x a s₂ hk₁ hk₂ _ hi₂ _ hm => ?_
  have hk := hk₁.trans hk₂
  obtain ⟨hw, ⟨e, -, rfl⟩ | ⟨f, hf, rfl⟩ | ⟨-, rfl⟩⟩ := act_stat hm.act
  · exact ⟨hi₂, hk, fun _ => nofun⟩
  · have hent : s₂.world.entries (h.locate path) = some f := by
      rw [hw]
      exact hf
    have hstamped : V.Public (h.locate path) → V.Stamped i (h.locate path)
        (.fromMetadata ((s₁.world.wait x.tick).metadata f) 0) s₂ := fun hpub =>
      ⟨f, _, ⟨⟨_, hpub, .inl hent⟩, rfl, by rw [hw]; rfl⟩, _, hm.trace ▸ List.mem_cons_self, rfl,
        World.contentAt_of_entry _ hent⟩
    refine Proc.safe_bind.2 (safe_modest (c := .now) hc trivial fun s₃ x₃ t s₄ hk₃ hk₄ _ hi₄ _ _ => ?_)
    refine ⟨hi₄, hk.trans (hk₃.trans hk₄), fun hpub stamp hst => ?_⟩
    cases hst
    exact (hstamped hpub).keeps (hk₃.trans hk₄)
  · exact ⟨hi₂, hk, fun _ => nofun⟩

/-- A hit is what stood there when the stamp was taken. -/
theorem freshResident_safe : (SnapshotCache.freshResident path : Op h _ _).Safe (step rules i) everywhere
    (V.contract i) (V.Finds i (h.locate path) s) s := by
  refine Proc.safe_bind_of (currentStamp_safe hc) (fun stamp s₁ hr => ?_)
    fun e s₁ hr => ⟨hr.1, hr.2.1, fun _ _ => nofun⟩
  obtain ⟨hi₁, hk₁, hstamped⟩ := hr
  rcases stamp with _ | stamp
  · exact ⟨hi₁, hk₁, fun _ _ => nofun⟩
  refine safe_modest (c := .cacheGet path.components (some stamp)) hc trivial fun s₂ x a s₃ hk₂ hk₃ hi₂ hi₃ _ hm =>
    ⟨hi₃, hk₁.trans (hk₂.trans hk₃), fun hb hpub snapshot hsnap => ?_⟩
  obtain ⟨entry, hres, rfl, hst, -⟩ :=
    SnapshotCache.get_some ((act_cacheGet hm.act).symm.trans (Except.ok.inj hsnap))
  obtain ⟨hof, hin⟩ := hi₂.resident hb hpub hres
  have hfound := ((hstamped hpub stamp rfl).keeps hk₂).found hi₂ hof
    (hin.symm.trans (stamp_inode_of_beq hst))
  exact hfound.retains hk₃.retains

/-- What proves an entry is read from the file that is open. -/
theorem provedBy_safe (hi : V.Inv s) {snapshot : Snapshot h.contentId} {entryStamp : FileStamp} {f : ℕ}
    (hent : s.world.entries (h.locate path) = some f)
    (hsaw : s.Saw i (h.locate path) (s.world.files f).content) :
    (SnapshotCache.provedBy snapshot entryStamp f : Op h _ _).Safe (step rules i) everywhere (V.contract i)
      (fun r s' => V.Inv s' ∧ V.Keeps i s s' ∧ ∀ after, r = .ok (some after) →
        after.inode = entryStamp.inode ∧
          (V.Public (h.locate path) → V.Stamped i (h.locate path) entryStamp s')) s := by
  by_cases hpub : V.Public (h.locate path)
  · have hshows : V.Shows f (s.world.files f).content (s.world.files f).inode s :=
      ⟨⟨_, hpub, .inl hent⟩, rfl, rfl⟩
    have hwithin := provedBy_within snapshot entryStamp f
      (D := beholding f (s.world.files f).content (s.world.files f).inode)
      (P := (· = (s.world.files f).inode)) (fun _ hc => hc.modest) fun m ha => ha rfl
    refine Proc.safe_mono (within_safe hc (fun _ h => h) (fun _ _ hk hs => hs.retains hk.retains)
      (fun _ _ _ _ _ _ hs hx hm => beholding_answer hs hx hm) hwithin hi hshows) fun r s' hr => ?_
    obtain ⟨hr, hi', hk'⟩ := hr
    refine ⟨hi', hk', fun after he => ?_⟩
    subst he
    obtain ⟨hafter, hinode⟩ := hr after rfl
    exact ⟨hafter, fun _ =>
      ⟨f, _, by rw [hinode]; exact hshows.mono hk'.published, hsaw.grown hk'.grown⟩⟩
  · have hwithin := provedBy_within snapshot entryStamp f
      (D := modestly) (P := fun _ => True) (fun _ hc => hc.modest) fun _ _ => trivial
    refine Proc.safe_mono (modestly_safe hc hwithin hi) fun r s' hr => ?_
    obtain ⟨hr, hi', hk'⟩ := hr
    refine ⟨hi', hk', fun after he => ?_⟩
    subst he
    exact ⟨(hr after rfl).1, fun h => absurd h hpub⟩

/-- A racy entry that is proved is what stood there when the file was opened. -/
theorem verifyRacyResident_safe : (SnapshotCache.verifyRacyResident path : Op h _ _).Safe (step rules i)
    everywhere (V.contract i) (V.Finds i (h.locate path) s) s := by
  refine safe_modest (c := .cacheRacyResident path.components) hc trivial fun s₁ x a s₂ hk₁ hk₂ hi₁ hi₂ _ hm => ?_
  have hk := hk₁.trans hk₂
  have ha := act_cacheRacyResident hm.act
  change Option (Snapshot h.contentId × FileStamp) at a
  rcases a with _ | ⟨snapshot, entryStamp⟩
  · exact ⟨hi₂, hk, fun _ _ => nofun⟩
  obtain ⟨entry, he, rfl, hst⟩ := SnapshotCache.racyResident_some ha.symm
  have hres := SnapshotCache.resident_of_entry he
  refine safe_modest (c := .openRead path) hc trivial fun s₃ x₃ a s₄ hk₃ hk₄ _ hi₄ _ hm₃ => ?_
  have hk₂₄ := hk₃.trans hk₄
  obtain ⟨hw, ⟨e, -, rfl⟩ | ⟨f, hf, rfl⟩ | ⟨-, rfl⟩⟩ := act_openRead hm₃.act
  · exact ⟨hi₄, hk.trans hk₂₄, fun _ _ => nofun⟩
  swap
  · exact ⟨hi₄, hk.trans hk₂₄, fun _ _ => nofun⟩
  have hent : s₄.world.entries (h.locate path) = some f := by
    rw [hw]
    exact hf
  have hsaw : s₄.Saw i (h.locate path) (s₄.world.files f).content :=
    ⟨_, hm₃.trace ▸ List.mem_cons_self, rfl, World.contentAt_of_entry _ hent⟩
  refine Proc.safe_bind_of (provedBy_safe hc hi₄ hent hsaw) (fun r s₅ hr => ?_)
    fun e s₅ hr => ⟨hr.1, (hk.trans hk₂₄).trans hr.2.1, fun _ _ => nofun⟩
  obtain ⟨hi₅, hk₅, hr⟩ := hr
  have hk₂₅ := hk₂₄.trans hk₅
  rcases r with _ | after
  · exact ⟨hi₅, hk.trans hk₂₅, fun _ _ => nofun⟩
  obtain ⟨hafter, hstamped⟩ := hr after rfl
  refine safe_makes (c := .cacheRefresh path.components entryStamp after) hc fun s₆ x₆ a s₇ hk₆ hi₆ _ hm₆ => ?_
  obtain ⟨hi₇, hk₇⟩ := hm₆.idle hi₆ trivial hafter trivial
  have hk₅₇ := hk₆.trans (hk₇ i)
  refine ⟨hi₇, fun j _ => hk₇ j, hi₇, (hk.trans hk₂₅).trans hk₅₇, fun hb hpub snapshot hsnap => ?_⟩
  cases hsnap
  obtain ⟨hof, hin⟩ := hi₁.resident hb hpub hres
  rw [hst, Option.map_some] at hin
  have hk₁₅ := hk₂.trans hk₂₅
  exact ((hstamped hpub).found hi₅ (hof.mono hk₁₅.published hk₁₅.grown) hin.symm).retains hk₅₇.retains

end

/-! ## Loaded, or of a load that another thread made -/

/-- Thread `i` was given the snapshot: it found it, or joined the load of a thread that had. -/
structure Given (V : Service h n) (i : Fin n) (l : Loc) (snapshot : Snapshot h.contentId) (s : State h) :
    Prop where
  of : V.Of l snapshot s
  found : s.Saw i l snapshot.bytes ∨ s.Joined i

theorem Given.keeps (hg : V.Given i l snapshot s) (hk : V.Keeps i s s') : V.Given i l snapshot s' := by
  refine ⟨hg.of.mono hk.published hk.grown, hg.found.imp (fun hs => hs.grown hk.grown) ?_⟩
  rintro ⟨d, hd, hj⟩
  exact ⟨d, hk.grown.subset hd, hj⟩

theorem Found.given (hf : V.Found i l snapshot s) : V.Given i l snapshot s := ⟨hf.of, .inl hf.saw⟩

/-- What `get_or_load` comes to: if there is a snapshot, thread `i` was given it. -/
def Serves (V : Service h n) (i : Fin n) (l : Loc) (s : State h)
    (r : Exec SnapshotError (Snapshot h.contentId)) (s' : State h) : Prop :=
  V.Inv s' ∧ V.Keeps i s s' ∧
    (V.start.Blank → V.Public l → ∀ snapshot, r = .ok snapshot → V.Given i l snapshot s')

theorem led_grown {path : PathBuf} {cell : ℕ} (hl : s.Led path cell) (hk : V.Keeps i s s') :
    s'.Led path cell := by
  obtain ⟨d, hd, hl⟩ := hl
  exact ⟨d, hk.grown.subset hd, hl⟩

section
variable (hc : rules.Closed) {path : PathBuf}
include hc

/-- A load of any path. -/
theorem load_found (hi : V.Inv s) : (Snapshot.load path : Op h _ _).Safe (step rules i) everywhere (V.contract i)
    (fun r s' => V.Inv s' ∧ V.Keeps i s s' ∧ r ≠ .error .panic ∧ (V.Public (h.locate path) →
      ∀ snapshot, r = .ok snapshot → V.Found i (h.locate path) snapshot s')) s := by
  by_cases hpub : V.Public (h.locate path)
  · refine Proc.safe_mono (load_safe hc hpub) fun r s' hr => ⟨hr.1, hr.2.1, ?_, fun _ snapshot he => ?_⟩
    · rintro rfl
      obtain ⟨-, -, ⟨_, he, -⟩ | ⟨_, he, -⟩⟩ := hr <;> cases he
    · subst he
      obtain ⟨-, -, ⟨_, he, -⟩ | ⟨_, he, hf⟩⟩ := hr <;> cases he
      exact hf
  · have hwithin : (Snapshot.load path : Op h _ _).Within modestly Anything Anything :=
      ((Snapshot.meets_load path).mono (fun _ _ => trivial) fun _ _ => trivial).within
        (modest_of_calm (Snapshot.load_calm path))
    refine Proc.safe_mono (modestly_safe hc hwithin hi) fun r s' hr =>
      ⟨hr.2.1, hr.2.2, ?_, fun h => absurd h hpub⟩
    rintro rfl
    exact hr.1

/-- **The owner of a cell** tells what it found. -/
theorem loadCell_safe (hi : V.Inv s) {cell : ℕ} (hl : s.Led path.components cell) :
    (SnapshotCache.loadCell path cell (Snapshot.load path)).Safe (step rules i) everywhere (V.contract i)
      (V.Serves i (h.locate path) s) s := by
  -- what is settled after the cell is told
  have hend : ∀ {s₁ : State h} (loaded : Except SnapshotError (Snapshot h.contentId)),
      V.Keeps i s s₁ → (V.Public (h.locate path) → ∀ snapshot, loaded = .ok snapshot →
        V.Found i (h.locate path) snapshot s₁) →
      (Op.cacheSettle path >>= fun _ => Op.cellUnlock cell >>= fun _ => Proc.orElse id loaded :
        Op h SnapshotError _).Safe (step rules i) everywhere (V.contract i)
          (V.Serves i (h.locate path) s) s₁ := by
    intro s₁ loaded hk hf
    refine safe_modest (c := .cacheSettle path.components) hc trivial fun s₂ x _ s₃ hk₂ hk₃ _ _ _ _ => ?_
    refine safe_modest (c := .cellUnlock cell) hc trivial fun s₄ x₄ _ s₅ hk₄ hk₅ _ hi₅ _ _ => ?_
    have hk₁₅ := (hk₂.trans hk₃).trans (hk₄.trans hk₅)
    rcases loaded with e | snapshot
    · exact ⟨hi₅, hk.trans hk₁₅, fun _ _ => nofun⟩
    · refine ⟨hi₅, hk.trans hk₁₅, fun _ hpub snapshot' hsnap => ?_⟩
      cases hsnap
      exact ((hf hpub snapshot rfl).retains hk₁₅.retains).given
  refine Proc.safe_attempt_of (load_found hc hi) (fun snapshot s₁ hr => ?_) (fun e s₁ hr => ?_)
    fun s₁ hr => hr.2.2.1 rfl
  · obtain ⟨-, hk₁, -, hf⟩ := hr
    refine safe_makes (c := .cacheInsert path.components snapshot) hc fun s₂ x _ s₃ hk₂ hi₂ _ hm => ?_
    have hof : ∀ {s₄ : State h}, V.Keeps i s₁ s₄ → V.Public (h.locate path.components) →
        V.Of (h.locate path.components) snapshot s₄ := by
      rw [Host.locate_components]
      exact fun hk hpub => ((hf hpub snapshot rfl).retains hk.retains).of
    obtain ⟨hi₃, hk₃⟩ := hm.idle hi₂ trivial trivial (hof hk₂)
    refine ⟨hi₃, fun j _ => hk₃ j, ?_⟩
    refine safe_makes (c := .cellSet cell (.ready (.ok snapshot))) hc fun s₄ x₄ _ s₅ hk₄ hi₄ _ hm₄ => ?_
    have hk₁₄ := hk₂.trans ((hk₃ i).trans hk₄)
    obtain ⟨hi₅, hk₅⟩ := hm₄.idle hi₄ trivial trivial
      ⟨path.components, led_grown hl (hk₁.trans hk₁₄), hof hk₁₄⟩
    refine ⟨hi₅, fun j _ => hk₅ j, hend _ ((hk₁.trans hk₁₄).trans (hk₅ i)) fun hpub _ he => ?_⟩
    cases he
    exact (hf hpub snapshot rfl).retains (hk₁₄.trans (hk₅ i)).retains
  · obtain ⟨-, hk₁, -⟩ := hr
    refine safe_makes (c := .cellSet cell (.ready (.error e.display))) hc
      fun s₂ x _ s₃ hk₂ hi₂ _ hm => ?_
    obtain ⟨hi₃, hk₃⟩ := hm.idle hi₂ trivial trivial trivial
    exact ⟨hi₃, fun j _ => hk₃ j, hend _ (hk₁.trans (hk₂.trans (hk₃ i))) fun _ => nofun⟩

/-- A cell that was told is joined; else the thread owns it. -/
theorem loadOrWait_safe {cell : ℕ} (hl : s.Led path.components cell) :
    (SnapshotCache.loadOrWait path cell (Snapshot.load path)).Safe (step rules i) everywhere
      (V.contract i) (V.Serves i (h.locate path) s) s := by
  refine safe_modest (c := .cellLock cell) hc trivial fun s₁ x a s₂ hk₁ hk₂ hi₁ hi₂ _ hm => ?_
  have hk := hk₁.trans hk₂
  obtain ⟨-, ha, -⟩ := act_cellLock hm.act
  change InflightState h.contentId at a
  rcases a with _ | result
  · refine Proc.safe_mono (loadCell_safe hc hi₂ (led_grown hl hk)) fun r s' hr => ?_
    exact ⟨hr.1, hk.trans hr.2.1, hr.2.2⟩
  have hjoined : s₂.Joined i :=
    ⟨Made i x (.cellLock cell) (.ready result) s₁ s₂, hm.trace ▸ List.mem_cons_self, rfl, trivial⟩
  refine safe_modest (c := .cellUnlock cell) hc trivial fun s₃ x₃ _ s₄ hk₃ hk₄ _ hi₄ _ _ => ?_
  have hk₂₄ := hk₃.trans hk₄
  refine ⟨hi₄, hk.trans hk₂₄, fun hb hpub snapshot hsnap => ?_⟩
  rcases result with message | snapshot'
  · cases hsnap
  cases hsnap
  have hof := hi₁.told hb hpub (led_grown hl hk₁) ha.symm
  exact Given.keeps ⟨hof.mono hk₂.published hk₂.grown, .inr hjoined⟩ hk₂₄

/-- Under the lock of the shard an entry is served whose stamp is the current one. -/
theorem claimOrJoin_safe : (SnapshotCache.claimOrJoin path (Snapshot.load path)).Safe (step rules i)
    everywhere (V.contract i) (V.Serves i (h.locate path) s) s := by
  refine Proc.safe_bind_of (currentStamp_safe hc) (fun current s₁ hr => ?_)
    fun e s₁ hr => ⟨hr.1, hr.2.1, fun _ _ => nofun⟩
  obtain ⟨-, hk₁, hstamped⟩ := hr
  refine safe_modest (c := .cacheClaim path.components current) hc trivial fun s₂ x a s₃ hk₂ hk₃ hi₂ hi₃ _ hm => ?_
  have hk := hk₁.trans (hk₂.trans hk₃)
  obtain ⟨ha, -⟩ := act_cacheClaim hm.act
  change Snapshot h.contentId ⊕ ℕ at a
  rcases a with snapshot | cell
  · obtain ⟨entry, hres, rfl, hok⟩ := SnapshotCache.claim_inl ha.symm
    refine ⟨hi₃, hk, fun hb hpub snapshot hsnap => ?_⟩
    cases hsnap
    obtain ⟨hof, hin⟩ := hi₂.resident hb hpub hres
    rcases current with _ | stamp
    · -- an entry that was inserted has a stamp
      obtain ⟨_, _, hst, -⟩ := hof.based
      rw [hst, Option.isNone_iff_eq_none.1 hok] at hin
      cases hin
    · rw [SnapshotCache.stampOk, Bool.and_eq_true] at hok
      have hfound := ((hstamped hpub stamp rfl).keeps hk₂).found hi₂ hof
        (hin.symm.trans (stamp_inode_of_beq hok.1))
      exact (hfound.retains hk₃.retains).given
  · have hled : s₃.Led path.components cell :=
      ⟨Made i x (.cacheClaim path.components current) (.inr cell) s₂ s₃, hm.trace ▸ List.mem_cons_self, rfl, rfl⟩
    refine Proc.safe_mono (loadOrWait_safe hc hled) fun r s' hr => ?_
    exact ⟨hr.1, hk.trans hr.2.1, hr.2.2⟩

/-- **`get_or_load` among mutations**: what it serves stood at the place while it ran, unless it joined
    another load. -/
theorem getOrLoad_safe : (SnapshotCache.getOrLoad path (Snapshot.load path)).Safe (step rules i)
    everywhere (V.contract i) (V.Serves i (h.locate path) s) s := by
  refine Proc.safe_bind_of (freshResident_safe hc) (fun hit s₁ hr => ?_)
    fun e s₁ hr => ⟨hr.1, hr.2.1, fun _ _ => nofun⟩
  obtain ⟨hi₁, hk₁, hfound⟩ := hr
  rcases hit with _ | snapshot
  swap
  · exact ⟨hi₁, hk₁, fun hb hpub _ hsnap => by cases hsnap; exact (hfound hb hpub snapshot rfl).given⟩
  refine Proc.safe_bind_of (verifyRacyResident_safe hc) (fun hit s₂ hr => ?_)
    fun e s₂ hr => ⟨hr.1, hk₁.trans hr.2.1, fun _ _ => nofun⟩
  obtain ⟨hi₂, hk₂, hfound⟩ := hr
  rcases hit with _ | snapshot
  swap
  · exact ⟨hi₂, hk₁.trans hk₂,
      fun hb hpub _ hsnap => by cases hsnap; exact (hfound hb hpub snapshot rfl).given⟩
  refine Proc.safe_mono (claimOrJoin_safe hc) fun r s' hr => ?_
  exact ⟨hr.1, (hk₁.trans hk₂).trans hr.2.1, hr.2.2⟩

/-! ## The tool -/

omit hc in
/-- What a thread comes to that needs a snapshot of the place: its errors have no payload. -/
def Served (V : Service h n) (i : Fin n) (l : Loc) (r : Exec ProtocolError (Snapshot h.contentId))
    (s : State h) : Prop :=
  V.Inv s ∧ (V.start.Blank → V.Public l → ∀ snapshot, r = .ok snapshot → V.Given i l snapshot s) ∧
    ∀ e, r = .error e → Recounts h.contentId (fun _ => False) e

omit hc in
/-- An error without a payload. -/
theorem Served.fails (hi : V.Inv s) {e : Fault ProtocolError}
    (he : Recounts h.contentId (fun _ => False) e) : V.Served i l (.error e) s := by
  refine ⟨hi, fun _ _ _ he' => ?_, fun _ he' => ?_⟩ <;> cases he'
  exact he

omit hc in
/-- What a read comes to: a page of a snapshot that it was given, or an error that tells of one. -/
def Shown (V : Service h n) (i : Fin n) (l : Loc) (quote : String → String) (input : ReadRequest)
    (r : Exec ProtocolError Bytes) (s : State h) : Prop :=
  (∀ bytes, r = .ok bytes → ∃ snapshot : Snapshot h.contentId,
      V.Given i l snapshot s ∧ Read.Shows quote input snapshot bytes) ∧
    ∀ e, r = .error e →
      Recounts h.contentId (fun b => ∃ snapshot : Snapshot h.contentId, V.Given i l snapshot s ∧
        snapshot.bytes = b) e

omit hc in
theorem Shown.keeps {quote : String → String} {input : ReadRequest} {r : Exec ProtocolError Bytes}
    (hr : V.Shown i l quote input r s) (hk : V.Keeps i s s') : V.Shown i l quote input r s' := by
  refine ⟨fun bytes he => ?_, fun e he => (hr.2 e he).mono fun b hb => ?_⟩
  · obtain ⟨snapshot, hg, hshows⟩ := hr.1 bytes he
    exact ⟨snapshot, hg.keeps hk, hshows⟩
  · obtain ⟨snapshot, hg, hb⟩ := hb
    exact ⟨snapshot, hg.keeps hk, hb⟩

omit hc in
theorem Shown.fails {quote : String → String} {input : ReadRequest} {e : Fault ProtocolError}
    (he : Recounts h.contentId (fun _ => False) e) : V.Shown i l quote input (.error e) s := by
  refine ⟨fun _ he' => ?_, fun _ he' => ?_⟩ <;> cases he'
  exact he.mono fun _ => False.elim

/-- **A read among mutations**: what it shows is of a snapshot that it was given. -/
theorem read_safe {quote : String → String} {workspace : Workspace} {input : ReadRequest}
    (hi : V.Inv s) : (Read.run quote workspace input : Op h _ _).Safe (step rules i) everywhere
      (V.contract i) (fun r s' => V.start.Blank →
        V.Public (h.locate (Hashline.resolvePath workspace.root input.path)) →
        V.Shown i (h.locate (Hashline.resolvePath workspace.root input.path)) quote input r s') s := by
  unfold Read.run
  rcases hvalid : input.validate with (e | _) | _
  · exact fun _ _ => .fails (.bare e.bare)
  · exact fun _ _ => .fails .panic
  show Proc.Safe _ _ _ (workspace.resolvePath input.path >>= _) _ _
  have hresolve : (workspace.resolvePath input.path : Op h _ _).Within modestly
      (· = Hashline.resolvePath workspace.root input.path) ProtocolError.Bare :=
    (meets_resolvePath workspace _ fun reason => ProtocolError.bare_new ⟨by decide, by decide⟩ reason).within
      (modest_of_calm (resolvePath_calm workspace _))
  refine Proc.safe_bind_of (modestly_safe hc hresolve hi) (fun path s₁ hr => ?_) fun e s₁ hr _ _ => ?_
  swap
  · rcases e with e | _
    · exact .fails (.bare hr.1)
    · exact .fails .panic
  obtain ⟨rfl, hi₁, -⟩ := hr
  set path := Hashline.resolvePath workspace.root input.path
  have hload : (Read.load path : Op h _ _).Safe (step rules i) everywhere (V.contract i)
      (V.Served i (h.locate path)) s₁ := by
    refine safe_modest (c := .stat path) hc trivial fun s₂ x metadata s₃ _ _ _ _ _ _ => ?_
    have hget : ((SnapshotCache.getOrLoad path (Snapshot.load path)).mapErr
        (snapshotProtocolError "read" path.display) : Op h _ _).Safe (step rules i) everywhere
        (V.contract i) (V.Served i (h.locate path)) s₃ := by
      refine Prog.safe_bind.2 (Prog.safe_mono (getOrLoad_safe hc) fun r s' hr => ?_)
      rcases r with (e | _) | snapshot
      · exact .fails hr.1 (.bare (snapshotProtocolError_bare _ _ e))
      · exact .fails hr.1 .panic
      · refine ⟨hr.1, fun hb hpub snapshot' he => ?_, fun _ he => by cases he⟩
        cases he
        exact hr.2.2 hb hpub snapshot rfl
    show Proc.Safe _ _ _ (if _ then spawnBlocking _ _ _ else _) _ _
    split_ifs
    · exact Proc.safe_onPanic_of hget (fun _ _ hr => hr) fun s' hr => .fails hr.1 (.new _ _)
    · exact hget
  refine Proc.safe_bind_of hload (fun snapshot s₂ hr => ?_) fun e s₂ hr _ _ => .fails (hr.2.2 e rfl)
  refine Proc.safe_mono (modestly_safe hc ((Read.answer_meets path hvalid snapshot).within
    (modest_of_calm (Read.answer_calm _ _ _ _))) hr.1) fun r s' hr' hb hpub => ?_
  have hgiven := (hr.2.1 hb hpub snapshot rfl).keeps hr'.2.2
  rcases r with (e | _) | bytes
  · refine ⟨fun _ he => ?_, fun _ he => ?_⟩ <;> cases he
    exact .decided ⟨snapshot, hgiven, rfl⟩ hr'.1
  · exact .fails .panic
  · refine ⟨fun _ he => ?_, fun _ he => ?_⟩ <;> cases he
    exact ⟨snapshot, hgiven, hr'.1⟩

end

end Service

end Hashline
