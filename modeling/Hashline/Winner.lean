/-
  Exclusive create has exactly one winner: the calls that link or find the
  entry linked, and what each of them returns.
-/
import Hashline.Exclusive
import Hashline.Payload

namespace Hashline

open Machine Object

variable {h : Host} {ε α : Type}

namespace Race
variable {race : Race h} {rules : Rules h} {who : ℕ} {s s' : State h} {Q : Exec ε α → State h → Prop}

/-! ## The temporary file -/

/-- The path of a temporary file is beside the entry. -/
theorem locate_temp {path : PathBuf} (hpath : h.locate path = race.dest) (d n : ℕ) :
    h.locate ((h.parentOf path).join (tempName h.processId d n)) = race.temp d n ∧
      ((h.parentOf path).join (tempName h.processId d n)).slashed = false := by
  have hname := isComponent_tempName h.processId d n
  refine ⟨?_, PathBuf.slashed_join _ hname⟩
  rcases hparent : path.parent with _ | parent
  · refine absurd ?_ race.named
    rw [← hpath, Host.locate, PathBuf.parent_eq_none.1 hparent]
    rfl
  · obtain ⟨⟨c, -, hc⟩, -⟩ := PathBuf.parent_eq_some hparent
    rw [Host.parentOf, hparent, Option.getD_some, temp, ← hpath, Host.locate, Host.locate,
      PathBuf.components_join _ hname, hc]
    simp

section
variable (hu : race.Undisturbed rules)
include hu

theorem uniqueTempName_race : (uniqueTempName : Op h ε String).Safe (step rules who) everywhere
    (race.contract who) (fun r s' => race.Onward who s s' ∧ ∃ d n,
      r = .ok (tempName h.processId d n) ∧ s'.Owns who d ∧
        s'.world.entries (race.temp d n) = none) s := by
  refine safe_now hu (Yields.refl who s) fun now s₁ hs₁ => ?_
  refine safe_turn (c := .fetchAdd) hu fun s₂ x a s₃ w hs₂ _ ha ht => ?_
  obtain ⟨hi, hy, hown, hfree⟩ := fetchAdd_turn hs₂.inv ht ⟨rfl, rfl⟩ id ha
  exact ⟨hi, fun j _ => hy j, (hs₁.trans hs₂).trans ⟨hi, hy who⟩, a, now.toNat, rfl, hown, hfree _⟩

theorem writeAll_race {d n f : ℕ} {bytes : Bytes} : ∀ (rounds : ℕ) {offset : ℕ} {s : State h},
    race.Inv s → race.Temp who d n f (bytes.take offset) s → offset ≤ bytes.length →
    bytes.length ≤ offset + rounds →
    (writeAll f bytes rounds offset : Op h ε _).Safe (step rules who) everywhere (race.contract who)
      (fun r s' => race.Inv s' ∧ r = .ok (.ok ()) ∧ race.Temp who d n f bytes s') s
  | 0, offset, s, hi, ht, hl, hr => by
    rw [List.take_of_length_le (by omega)] at ht
    exact ⟨hi, rfl, ht⟩
  | rounds + 1, offset, s, hi, ht, hl, hr => by
    rw [writeAll]
    split_ifs with hdone
    · rw [List.take_of_length_le hdone] at ht
      exact ⟨hi, rfl, ht⟩
    · refine safe_turn (c := .write f offset (bytes.drop offset)) hu
        fun s₁ x a s₂ w hs₁ hx ha htr => ?_
      change Except IoError ℕ at a
      obtain ⟨k, rfl, hpos, hle, hi₂, hy, ht₂⟩ :=
        write_turn hs₁.inv hx htr (ht.yields hs₁.yields) (by omega) rfl id ha
      exact ⟨hi₂, hy, writeAll_race rounds hi₂ ht₂ hle (by omega)⟩

omit hu in
/-- What keeps its temporary file through calls that leave files and names. -/
theorem Temp.onward {d n f : ℕ} {bytes : Bytes} (ht : race.Temp who d n f bytes s)
    (hs : race.Onward who s s') : race.Temp who d n f bytes s' := ht.yields hs.yields

theorem flush_within {path : PathBuf} {f : ℕ} (durability : Durability) :
    (flush path f durability : Op h _ _).Within (answered rules) (fun _ => True) fun _ => False := by
  have hsync : ∀ operation, (Op.sync f >>= fun r => Proc.orElse (ioErr path operation) r :
      Op h PersistError Unit).Within (answered rules) (fun _ => True) fun _ => False := by
    intro operation
    refine Proc.within_call (c := Call.sync f) trivial fun a ha => ?_
    obtain ⟨_, x, w, w', hx, ha⟩ := answered_act hu ha
    cases Choice.fallible_of_none hx ha
    trivial
  cases durability with
  | full => exact hsync _
  | barrier => exact hsync _
  | none => trivial

theorem writeTemp_race {tempPath path : PathBuf} {bytes : Bytes} {durability : Durability} {d n : ℕ}
    (hslash : tempPath.slashed = false) (hpath : h.locate tempPath = race.temp d n) (hown : s.Owns who d)
    (hun : ¬s.Linked race.dest who) (hfree : s.world.entries (race.temp d n) = none) :
    (writeTemp tempPath path bytes durability : Op h _ _).Safe (step rules who) everywhere
      (race.contract who) (fun r s' => race.Inv s' ∧ (∃ stamp, r = .ok stamp) ∧
        ∃ f, race.Temp who d n f bytes s') s := by
  refine safe_turn (c := .createNew tempPath) hu fun s₁ x a s₂ w hs₁ hx ha htr => ?_
  change Except IoError ℕ at a
  have hfree₁ := ((hs₁.yields.own d n hown).1).trans hfree
  obtain ⟨f, rfl, hi₂, hy, ht₂⟩ := createNew_turn hs₁.inv hx htr hslash hpath
    (hs₁.yields.owns d hown) (fun hl => hun (hs₁.yields.mine.1 hl)) hfree₁ rfl id ha
  refine ⟨hi₂, hy, ?_⟩
  show Proc.Safe _ _ _ (writeAll f bytes bytes.length 0 >>= _) _ _
  refine Proc.safe_bind_of (writeAll_race hu bytes.length hi₂ (by rwa [List.take_zero])
    (Nat.zero_le _) (by omega)) (fun r s₃ hr => ?_) fun e s₃ hr => by cases hr.2.1
  obtain ⟨hi₃, he, ht₃⟩ := hr
  cases he
  show Proc.Safe _ _ _ (flush path f durability >>= _) _ _
  refine Proc.safe_bind_of (within_safe hu (flush_within hu durability) hi₃) (fun _ s₄ hr => ?_)
    fun e s₄ hr => ?_
  · have ht₄ := ht₃.onward hr.2
    refine safe_fstat hu (Yields.refl who s₄) fun s₅ hs₅ => ?_
    show Proc.Safe _ _ _ (Decoder.unix.fromMetadata .temp _ >>= _) _ _
    rw [Decoder.unix_bind]
    refine safe_fromMetadata hu (Yields.refl who s₅) fun t s₆ hs₆ => ?_
    exact ⟨hs₆.inv, ⟨_, rfl⟩, f, ht₄.onward (hs₅.trans hs₆)⟩
  · obtain ⟨hr, hs₄⟩ := hr
    rcases e with e | _ <;> exact hr.elim

/-- A temporary file of its own holds the bytes. -/
theorem writeUniqueTemp_race {path : PathBuf} (hpath : race.Leads path) {bytes : Bytes}
    {durability : Durability} (hun : ¬s.Linked race.dest who) :
    (writeUniqueTemp (h.parentOf path) path bytes durability : Op h _ _).Safe (step rules who)
      everywhere (race.contract who) (fun r s' => race.Inv s' ∧ ∃ p d n f, r = .ok p ∧
        (h.locate p.1 = race.temp d n ∧ p.1.slashed = false) ∧ race.Temp who d n f bytes s') s := by
  refine Proc.safe_bind_of (uniqueTempName_race hu) (fun name s₁ hr => ?_) fun e s₁ hr => ?_
  · obtain ⟨hs₁, d, n, he, hown, hfree⟩ := hr
    cases he
    have htemp := locate_temp hpath.locate d n
    refine Proc.safe_attempt_of (writeTemp_race hu htemp.2 htemp.1 hown (fun hl => hun (hs₁.yields.mine.1 hl))
      hfree) (fun stamp s₂ hr => ?_) (fun e s₂ hr => ?_) fun s₂ hr => ?_
    · obtain ⟨hi₂, -, f, ht⟩ := hr
      exact ⟨hi₂, _, d, n, f, rfl, htemp, ht⟩
    · obtain ⟨-, ⟨_, he⟩, -⟩ := hr
      cases he
    · obtain ⟨-, ⟨_, he⟩, -⟩ := hr
      cases he
  · obtain ⟨-, _, _, he, -⟩ := hr
    cases he

/-! ## The link -/

theorem createParentOf_within {path : PathBuf} :
    (createParentOf path : Op h _ _).Within (answered rules) (fun _ => True) fun _ => False := by
  unfold createParentOf
  split
  · rename_i parent _
    refine Proc.within_call (c := Call.createDirAll parent) trivial fun a ha => ?_
    obtain ⟨_, x, w, w', hx, ha⟩ := answered_act hu ha
    cases Choice.fallible_of_none hx ha
    trivial
  · trivial

omit hu in
theorem afterInstall_within {path : PathBuf} {stamp : FileStamp} {durability : Durability} :
    (afterInstall path stamp durability : Op h ε _).Within (answered rules) (fun _ => True)
      fun _ => False := by
  have hconfirm : (confirmStamp path stamp : Op h ε _).Within (answered rules) (fun _ => True)
      fun _ => False := by
    refine Proc.within_call (c := Call.stat path) trivial fun a _ => ?_
    change Except IoError Metadata at a
    rcases a with e | metadata
    · trivial
    · exact Proc.within_call (c := Call.now) trivial fun t _ => trivial
  unfold afterInstall Decoder.afterInstall
  split_ifs
  · exact Proc.within_call (c := Call.syncDir (h.parentOf path)) trivial fun _ _ => hconfirm
  · exact hconfirm

/-- How a create ends: with the entry linked, or with the entry there. -/
inductive Created (race : Race h) (who : ℕ) (s : State h) :
    Exec PersistError (Option FileStamp) → Prop where
  | won (stamp : Option FileStamp) (hl : s.Linked race.dest who) : Created race who s (.ok stamp)
  | lost (path : String) (hl : ¬s.Linked race.dest who) (hd : s.world.entries race.dest ≠ none) :
      Created race who s (.error (.err (.destinationExists path)))

omit hu in
theorem Created.onward {r : Exec PersistError (Option FileStamp)} (hc : race.Created who s r)
    (hs : race.Onward who s s') : race.Created who s' r := by
  cases hc with
  | won stamp hl => exact .won stamp (hs.yields.mine.2 hl)
  | lost path hl hd =>
    refine .lost path (fun hl' => hl (hs.yields.mine.1 hl')) ?_
    obtain ⟨f, hf⟩ := Option.ne_none_iff_exists'.1 hd
    rw [(hs.yields.dest f hf).entry]
    exact Option.some_ne_none f

theorem createLocked_race {path : PathBuf} (hpath : race.Leads path)
    {durability : Durability} (hi : race.Inv s) (hun : ¬s.Linked race.dest who) :
    (createLocked path (race.bytes who) durability : Op h _ _).Safe (step rules who) everywhere
      (race.contract who) (fun r s' => race.Inv s' ∧ race.Created who s' r) s := by
  refine Proc.safe_bind_of (within_safe hu (createParentOf_within hu) hi) (fun _ s₁ hr => ?_)
    fun e s₁ hr => ?_
  · have hun₁ : ¬s₁.Linked race.dest who := fun hl => hun (hr.2.yields.mine.1 hl)
    refine Proc.safe_bind_of (writeUniqueTemp_race hu hpath hun₁) (fun p s₂ hr => ?_) fun e s₂ hr => ?_
    · obtain ⟨hi₂, p, d, n, f, he, ⟨htemp, hpslash⟩, ht⟩ := hr
      cases he
      refine safe_turn (c := .hardLink p.1 path) hu fun s₃ x a s₄ w hs₃ hx ha htr => ?_
      change Except IoError Unit at a
      have hlinks : (⟨who, x, .hardLink p.1 path, a, w, s₃.world, s₄.world⟩ : Did h).links race.dest ↔
          a = .ok () := by
        rcases a with e | _
        · exact ⟨False.elim, fun he => by cases he⟩
        · exact ⟨fun _ => rfl, fun _ => hpath.locate⟩
      obtain ⟨hi₄, hy₄, hown, hentry, hdest, hwon⟩ :=
        hardLink_turn hs₃.inv hx htr hpslash hpath.plain htemp hpath.locate (ht.onward hs₃) rfl rfl hlinks ha
      refine ⟨hi₄, hy₄, Proc.safe_bind.2 ?_⟩
      refine safe_turn (c := .removeFile p.1) hu fun s₅ x' a' s₆ w' hs₅ _ ha' htr' => ?_
      obtain ⟨hentry₅, -⟩ := hs₅.yields.own d n hown
      obtain ⟨hi₆, hy₆, hlinked, hdest₆⟩ := removeFile_turn hs₅.inv htr' htemp
        (hs₅.yields.owns d hown) (hentry₅.trans hentry) rfl id ha'
      refine ⟨hi₆, hy₆, ?_⟩
      rcases hwon with ⟨rfl, hl⟩ | ⟨rfl, hl⟩
      · have hl₆ := hlinked.2 (hs₅.yields.mine.2 hl)
        show Proc.Safe _ _ _ (afterInstall path p.2 durability) _ _
        refine Proc.safe_mono (within_safe hu afterInstall_within hi₆) fun r s₇ hr => ?_
        obtain ⟨hr, hs₇⟩ := hr
        refine ⟨hs₇.inv, ?_⟩
        rcases r with (_ | _) | stamp
        · exact hr.elim
        · exact hr.elim
        · exact .won stamp (hs₇.yields.mine.2 hl₆)
      · refine ⟨hi₆, .lost _ (fun hl' => hl (hs₅.yields.mine.1 (hlinked.1 hl'))) ?_⟩
        rw [hdest₆]
        obtain ⟨g, hg⟩ := Option.ne_none_iff_exists'.1 hdest
        rw [(hs₅.yields.dest g hg).entry]
        exact Option.some_ne_none g
    · obtain ⟨-, _, _, _, _, he, -⟩ := hr
      cases he
  · obtain ⟨hr, -⟩ := hr
    rcases e with e | _ <;> exact hr.elim

/-- **A create links the entry, or finds it there.** -/
theorem atomicCreate_race {path : PathBuf} (hpath : race.Leads path)
    {durability : Durability} (hun : ¬s.Linked race.dest who) :
    (atomicCreate path (race.bytes who) durability : Op h _ _).Safe (step rules who) everywhere
      (race.contract who) (fun r s' => race.Inv s' ∧ race.Created who s' r) s := by
  refine safe_aside (c := .lock path.components) hu trivial fun _ _ _ s₁ hi₁ hy₁ _ _ _ _ _ => ?_
  refine Proc.safe_attempt_of (createLocked_race hu hpath hi₁ fun hl => hun (hy₁.mine.1 hl))
    (fun stamp s₂ hr => ?_) (fun e s₂ hr => ?_) fun s₂ hr => ?_
  · refine safe_aside (c := .unlock path.components) hu trivial fun _ _ _ s₃ hi₃ hy₃ _ _ _ _ _ => ?_
    exact ⟨hi₃, hr.2.onward ⟨hi₃, hy₃⟩⟩
  · refine safe_aside (c := .unlock path.components) hu trivial fun _ _ _ s₃ hi₃ hy₃ _ _ _ _ _ => ?_
    exact ⟨hi₃, hr.2.onward ⟨hi₃, hy₃⟩⟩
  · cases hr.2

end

/-! ## What is returned -/

/-- The write created the file. -/
def Wins (contentId : Bytes → SnapshotId) (input : WriteRequest) (r : Exec ProtocolError WriteSuccess) :
    Prop :=
  r = .ok ⟨input.filePath, contentId input.content.bytes, input.content.bytes.length,
    input.content.bytes.count lf + 1, true⟩

/-- The write is refused with `already_exists`, and a payload that describes the bytes. -/
def Loses (contentId : Bytes → SnapshotId) (input : WriteRequest) (bytes : Bytes)
    (r : Exec ProtocolError WriteSuccess) : Prop :=
  ∃ existing, r = .error (.err ⟨.alreadyExists, alreadyExistsMessage, true, none, some existing⟩) ∧
    existing.currentHeader.path = input.filePath ∧
      Describes contentId bytes existing.currentHeader existing.context

/-- What a create is told about a text that is there. -/
theorem validateReferenceWrite_there {contentId : Bytes → SnapshotId} {input : WriteRequest}
    (habsent : input.expect = .absent) (hv : IsText input.content.bytes) {bytes : Bytes}
    (ht : IsText bytes) : ∃ e, validateReferenceWrite (some (bytes, contentId bytes)) input =
      Exec.fail e ∧ Loses contentId input bytes (.error (.err e)) := by
  obtain ⟨context, hcontext, hlen, hrows⟩ := referenceContext_eq ht 1
  have hvalid : input.validate = .ok () := WriteRequest.validate_eq_ok.2 hv
  refine ⟨⟨.alreadyExists, alreadyExistsMessage, true, none,
    some ⟨⟨input.filePath, contentId bytes, lineCount bytes, bytes.length⟩, context⟩⟩, ?_,
    ⟨_, rfl, rfl, rfl, rfl, rfl, hrows⟩⟩
  rw [validateReferenceWrite, hvalid, referenceHeader_of_isText ht, hcontext]
  · show (ProtocolError.alreadyExists _ context _).mapErr ProtocolError.ofContract >>= _ = _
    rw [ProtocolError.alreadyExists, if_neg (by omega)]
    rfl
  · exact habsent

/-- What a write that creates returns: it has linked the entry, or it describes what another has. -/
def Outcome (race : Race h) (who : ℕ) (input : WriteRequest) (s : State h)
    (r : Exec ProtocolError WriteSuccess) : Prop :=
  s.Linked race.dest who ∧ Wins h.contentId input r ∨
    ¬s.Linked race.dest who ∧ ∃ j, s.Linked race.dest j ∧ Loses h.contentId input (race.bytes j) r

theorem Outcome.yields {input : WriteRequest} {r : Exec ProtocolError WriteSuccess}
    (ho : race.Outcome who input s r) (hy : race.Yields who s s') : race.Outcome who input s' r := by
  rcases ho with ⟨hl, hw⟩ | ⟨hl, j, hj, hr⟩
  · exact .inl ⟨hy.mine.2 hl, hw⟩
  · exact .inr ⟨fun hl' => hl (hy.mine.1 hl'), j, hy.linked j hj, hr⟩

section
variable (hu : race.Undisturbed rules) {path : PathBuf} (hpath : race.Leads path)
  {input : WriteRequest} (habsent : input.expect = .absent)
  (hbytes : input.content.bytes = race.bytes who)

/-- A snapshot of the entry is of what somebody linked. -/
theorem Inv.decided (hi : race.Inv s) {f : ℕ} (hf : s.world.entries race.dest = some f)
    {snapshot : Snapshot h.contentId} (hs : snapshot.bytes = (s.world.files f).content)
    (habsent : input.expect = .absent) (hbytes : input.content.bytes = race.bytes who) :
    ∃ j e, s.Linked race.dest j ∧ validateReferenceWrite (some (snapshot.bytes, snapshot.id)) input =
      Exec.fail e ∧ Loses h.contentId input (race.bytes j) (.error (.err e)) := by
  rcases hi.dest with ⟨hn, -⟩ | ⟨g, j, hw⟩
  · rw [hf] at hn; cases hn
  · obtain rfl : f = g := Option.some.inj (hf.symm.trans hw.entry)
    have hv : IsText input.content.bytes := by
      rw [hbytes]
      exact race.isText who
    have hid : snapshot.id = h.contentId snapshot.bytes := snapshot.id_eq
    rw [hid]
    obtain ⟨e, he, hl⟩ := validateReferenceWrite_there habsent hv snapshot.isText
    rw [hs, hw.content] at hl
    exact ⟨j, e, hw.linked, he, hl⟩

include hu hpath habsent hbytes

theorem loseCreateRace_race (hun : ¬s.Linked race.dest who)
    (hd : s.world.entries race.dest ≠ none) :
    (Write.loseCreateRace path input : Op h _ _).Safe (step rules who) everywhere (race.contract who)
      (fun r s' => race.Inv s' ∧ ∃ e, r = .ok e ∧ race.Outcome who input s' (.error (.err e))) s := by
  obtain ⟨f, hf⟩ := Option.ne_none_iff_exists'.1 hd
  refine Proc.safe_attempt_of (load_race hu hpath) (fun snapshot s₁ hr => ?_) (fun e s₁ hr => ?_)
    fun s₁ hr => ?_
  · obtain ⟨hs₁, ⟨e, he, -⟩ | ⟨snapshot', g, he, hg, hb⟩⟩ := hr
    · cases he
    cases he
    obtain ⟨j, e, hj, hv, hl⟩ := hs₁.inv.decided hg hb habsent hbytes
    simp only [hv]
    exact ⟨hs₁.inv, e, rfl, .inr ⟨fun hl' => hun (hs₁.yields.mine.1 hl'), j, hj, hl⟩⟩
  · obtain ⟨hs₁, ⟨e', he, -, hn⟩ | ⟨_, _, he, -⟩⟩ := hr
    · rw [(hs₁.yields.dest f hf).entry] at hn
      cases hn
    · cases he
  · obtain ⟨-, ⟨_, he, -⟩ | ⟨_, _, he, -⟩⟩ := hr <;> cases he

theorem carryOut_race (hun : ¬s.Linked race.dest who) {durability : Durability} :
    (Write.carryOut path input none true durability : Op h _ _).Safe (step rules who) everywhere
      (race.contract who) (fun r s' => race.Inv s' ∧ race.Outcome who input s' r) s := by
  have ht : IsText input.content.bytes := by
    rw [hbytes]
    exact race.isText who
  have hcreate : (Write.persist path input.content.bytes none true durability : Op h _ _) =
      atomicCreate path (race.bytes who) durability := by rw [← hbytes]; rfl
  rw [Write.carryOut, hcreate]
  refine Proc.safe_attempt_of (atomicCreate_race hu hpath hun) (fun stamp s₁ hr => ?_)
    (fun e s₁ hr => ?_) fun s₁ hr => by cases hr.2
  · obtain ⟨hi₁, hc⟩ := hr
    cases hc with
    | won stamp hl =>
      simp only [Snapshot.fromValidatedBytes_eq ht]
      have hwithin : (cachePersisted path (Snapshot.ofText ⟨input.content.bytes, ht⟩ none :
          Snapshot h.contentId) stamp : Op h ProtocolError Unit).Within (answered rules)
            (fun _ => True) fun _ => False := by
        cases stamp with
        | none => trivial
        | some stamp => exact ⟨trivial, fun _ _ => trivial⟩
      show Proc.Safe _ _ _ (cachePersisted path (Snapshot.ofText ⟨input.content.bytes, ht⟩ none) stamp
        >>= _) _ _
      refine Proc.safe_bind_of (within_safe hu hwithin hi₁) (fun _ s₂ hr => ?_) fun e s₂ hr => ?_
      · exact ⟨hr.2.inv, .inl ⟨hr.2.yields.mine.2 hl, rfl⟩⟩
      · rcases e with e | _ <;> exact hr.1.elim
  · obtain ⟨hi₁, hc⟩ := hr
    cases hc with
    | lost p hl hd =>
      refine Proc.safe_bind_of (loseCreateRace_race hu hpath habsent hbytes hl hd)
        (fun e s₂ hr => ?_) fun e s₂ hr => ?_
      · obtain ⟨hi₂, e', he, ho⟩ := hr
        cases he
        exact ⟨hi₂, ho⟩
      · obtain ⟨-, _, he, -⟩ := hr
        cases he

theorem runBlocking_race (hun : ¬s.Linked race.dest who) {durability : Durability} :
    (Write.runBlocking path input durability : Op h _ _).Safe (step rules who) everywhere
      (race.contract who) (fun r s' => race.Inv s' ∧ race.Outcome who input s' r) s := by
  have ht : IsText input.content.bytes := by
    rw [hbytes]
    exact race.isText who
  refine Proc.safe_bind.2 ?_
  refine Proc.safe_attempt_of (load_race hu hpath) (fun snapshot s₁ hr => ?_) (fun e s₁ hr => ?_)
    fun s₁ hr => ?_
  · obtain ⟨hs₁, ⟨e, he, -⟩ | ⟨snapshot', g, he, hg, hb⟩⟩ := hr
    · cases he
    cases he
    obtain ⟨j, e, hj, hv, hl⟩ := hs₁.inv.decided hg hb habsent hbytes
    have hun₁ : ¬s₁.Linked race.dest who := fun hl' => hun (hs₁.yields.mine.1 hl')
    show Proc.Safe _ _ _ (Proc.ofExec
      (validateReferenceWrite (some (snapshot.bytes, snapshot.id)) input) >>= _) _ _
    rw [hv]
    exact ⟨hs₁.inv, .inr ⟨hun₁, j, hj, hl⟩⟩
  · obtain ⟨hs₁, ⟨e', he, hn, -⟩ | ⟨_, _, he, -⟩⟩ := hr
    · cases he
      have hun₁ : ¬s₁.Linked race.dest who := fun hl' => hun (hs₁.yields.mine.1 hl')
      have hv : validateReferenceWrite none input = .ok true :=
        validateReferenceWrite_eq_ok.2 ⟨ht, .inl ⟨habsent, rfl, rfl⟩⟩
      show Proc.Safe _ _ _ (if e.isNotFound then _ else _) _ _
      rw [if_pos hn]
      show Proc.Safe _ _ _ (Proc.ofExec (validateReferenceWrite none input) >>= _) _ _
      rw [hv]
      exact carryOut_race hu hpath habsent hbytes hun₁
    · cases he
  · obtain ⟨-, ⟨_, he, -⟩ | ⟨_, _, he, -⟩⟩ := hr <;> cases he

/-- The path is let through, whatever the file system answers meanwhile. -/
def Admits (rules : Rules h) (workspace : Workspace) (path : String) : Prop :=
  (workspace.resolve path : Op h String PathBuf).Within (answered rules)
    (· = Hashline.resolvePath workspace.root path) fun _ => False

omit hu hpath habsent hbytes in
theorem admits_of_unrestricted {workspace : Workspace} (hr : workspace.restrict = false)
    (path : String) : Admits rules workspace path := by
  rw [Admits, Workspace.resolve, hr]
  exact rfl

omit hpath in
/-- **A write that creates** links the entry and says so, or describes what another has linked. -/
theorem run_race {workspace : Workspace}
    (hpath : race.Leads (Hashline.resolvePath workspace.root input.filePath))
    (hadmits : Admits rules workspace input.filePath) (hi : race.Inv s)
    (hun : ¬s.Linked race.dest who) :
    (Write.run workspace input : Op h _ _).Safe (step rules who) everywhere (race.contract who)
      (fun r s' => race.Outcome who input s' r) s := by
  have hvalid : input.validate = .ok () := by
    refine WriteRequest.validate_eq_ok.2 ?_
    rw [hbytes]
    exact race.isText who
  rw [Write.run, hvalid]
  have hresolve : (workspace.resolvePath input.filePath : Op h _ _).Within (answered rules)
      (· = Hashline.resolvePath workspace.root input.filePath) fun _ => False :=
    hadmits.mapErr fun _ he => he
  show Proc.Safe _ _ _ (workspace.resolvePath input.filePath >>= _) _ _
  refine Proc.safe_bind_of (within_safe hu hresolve hi) (fun path s₁ hr => ?_) fun e s₁ hr => ?_
  · obtain ⟨hp, hs₁⟩ := hr
    change path = _ at hp
    subst hp
    refine Proc.safe_onPanic_of (runBlocking_race hu hpath habsent hbytes
      fun hl => hun (hs₁.yields.mine.1 hl)) (fun r s₂ hr => hr.2) fun s₂ hr => ?_
    obtain ⟨-, ⟨-, he⟩ | ⟨-, _, -, _, he, -⟩⟩ := hr <;> cases he
  · rcases e with e | _ <;> exact hr.1.elim

end

/-! ## The race from its start -/

/-- A world in which the race can begin. -/
structure Begins (race : Race h) (w : World h) : Prop where
  sane : w.Sane
  first : race.first = w.counter
  missing : w.entries race.dest = none
  free : ∀ d n, w.counter ≤ d → w.entries (race.temp d n) = none

theorem Begins.inv {w : World h} (hb : race.Begins w) : race.Inv ⟨w, []⟩ := by
  have hnone : ∀ l f, race.Ours l → w.entries l ≠ some f := by
    rintro l f hl hf
    cases hl with
    | dest => rw [hb.missing] at hf; cases hf
    | temp d n hd =>
      rw [hb.free d n (hb.first ▸ hd)] at hf
      cases hf
  have howns : ∀ i d, ¬State.Owns (⟨w, []⟩ : State h) i d := by
    rintro i d ⟨c, hc, -⟩
    cases hc
  refine ⟨⟨hb.sane, hb.first.le, hb.free, fun l l' f hl hf => absurd hf (hnone l f hl),
    fun d n _ _ f hd _ hf => absurd hf (hnone _ f (.temp d n hd)),
    fun l f hl hf => absurd hf (hnone l f hl)⟩, fun i j d hd => absurd hd (howns i d),
    fun i d hd => absurd hd (howns i d), .inl ⟨hb.missing, ?_⟩⟩
  rintro i ⟨c, hc, -⟩
  cases hc

/-- Every thread writes what is to be created. -/
def creators {n : ℕ} (workspace : Fin n → Workspace) (input : Fin n → WriteRequest) (w : World h) :
    Pool (Fin n) (Call h) Answer (Exec ProtocolError WriteSuccess) (State h) where
  threads i := Write.run (workspace i) (input i)
  current := none
  state := ⟨w, []⟩

/-- Only the threads of a pool make calls. -/
theorem who_of_runs {n : ℕ} {α : Type} {ms : List (Fin n × Choice)}
    {P₀ P : Pool (Fin n) (Call h) Answer α (State h)} (hinit : ∀ d ∈ P₀.state.trace, d.who < n)
    (hruns : P₀.runs (fun i : Fin n => step rules i) everywhere ms = some P) :
    ∀ d ∈ P.state.trace, d.who < n := by
  refine Pool.runs_keep (I := fun s : State h => ∀ d ∈ s.trace, d.who < n)
    (fun i x c s a s' hs hst d hd => ?_) hinit hruns
  obtain ⟨-, w', -, -, ht⟩ := step_eq_some.1 hst
  rw [ht, List.mem_cons] at hd
  rcases hd with rfl | hd
  · exact i.isLt
  · exact hs d hd

/-- **Exclusive create has exactly one winner**, whatever the schedule: one call creates the file,
    which has its bytes, and every other is told so. -/
theorem creators_have_one_winner {n : ℕ} (hn : 0 < n) (hu : race.Undisturbed rules)
    {workspace : Fin n → Workspace} {input : Fin n → WriteRequest}
    (habsent : ∀ i, (input i).expect = .absent)
    (hbytes : ∀ i : Fin n, (input i).content.bytes = race.bytes i)
    (hpath : ∀ i, race.Leads ((workspace i).pathOf (.write (input i))))
    (hadmits : ∀ i, Admits rules (workspace i) (input i).filePath) {w : World h}
    (hb : race.Begins w) {ms : List (Fin n × Choice)}
    {P : Pool (Fin n) (Call h) Answer _ (State h)}
    (hruns : (creators workspace input w).runs (fun i : Fin n => step rules i) everywhere ms = some P)
    {r : Fin n → Exec ProtocolError WriteSuccess} (hend : ∀ i, P.threads i = .ret (r i)) :
    ∃ i, Wins h.contentId (input i) (r i) ∧
      P.state.world.contentAt race.dest = some (input i).content.bytes ∧
      ∀ j, j ≠ i → Loses h.contentId (input j) (input i).content.bytes (r j) := by
  have hfits : Pool.Fits (fun i : Fin n => race.contract i) race.Inv
      fun i (r : Exec ProtocolError WriteSuccess) s => race.Outcome i (input i) s r := by
    refine ⟨fun _ => rfl, fun i s => .refl i s, fun i _ _ _ => .trans, fun i j s s' hne hg => ?_,
      fun i r s s' hy _ ho => ho.yields hy⟩
    exact hg j fun he => hne (Fin.ext he.symm)
  have hsound : Pool.Sound (fun i : Fin n => step rules i) everywhere
      (fun i : Fin n => race.contract i) race.Inv (fun i r s => race.Outcome i (input i) s r)
      (creators workspace input w) := by
    refine ⟨hb.inv, fun i => run_race hu (habsent i) (hbytes i) (hpath i) (hadmits i) hb.inv ?_,
      fun i _ => Prog.rests_everywhere _⟩
    rintro ⟨d, hd, -⟩
    cases hd
  have hsound' := Pool.Sound.runs hfits hsound hruns
  have hout : ∀ i : Fin n, race.Outcome i (input i) P.state (r i) := fun i => by
    have hsafe := hsound'.safe i
    rw [hend i] at hsafe
    exact hsafe
  have hwho : ∀ d ∈ P.state.trace, d.who < n := who_of_runs (fun d hd => by cases hd) hruns
  obtain ⟨j, hj⟩ : ∃ j, P.state.Linked race.dest j := by
    rcases hout ⟨0, hn⟩ with ⟨hl, -⟩ | ⟨-, j, hj, -⟩
    · exact ⟨_, hl⟩
    · exact ⟨j, hj⟩
  rcases hsound'.inv.dest with ⟨-, hnone⟩ | ⟨f, i, hwon⟩
  · exact absurd hj (hnone j)
  obtain ⟨d, hd, rfl, hlinks⟩ := hwon.linked
  have hlt := hwho d hd
  have hbytes' := hbytes ⟨d.who, hlt⟩
  refine ⟨⟨d.who, hlt⟩, ?_, ?_, fun k hk => ?_⟩
  · rcases hout ⟨d.who, hlt⟩ with ⟨-, hw⟩ | ⟨hl, -⟩
    · exact hw
    · exact absurd hwon.linked hl
  · rw [World.contentAt_of_entry _ hwon.entry, hwon.content, hbytes']
  · rcases hout k with ⟨hl, -⟩ | ⟨-, l, hl, hlose⟩
    · exact absurd (Fin.ext (hwon.only k hl)) hk
    · rw [hwon.only l hl] at hlose
      rw [hbytes']
      exact hlose

/-! ### Two threads -/

/-- Who creates the file `f` of the workspace `w`. -/
def sample : Race Host.sample where
  dest := Host.sample.locate ["w", "f"]
  first := 0
  bytes i := if i = 0 then [97] else [98]
  isText i := by split_ifs <;> exact ⟨by decide, by decide, by decide⟩
  named := by decide
  ne_temp d n _ he := by
    have hlist := congrArg String.toList he
    have hname : (Host.sample.locate ["w", "f"]).name = "f" := by decide
    rw [toList_tempName, hname] at hlist
    simp at hlist

/-- The path is spelled in two ways. -/
def sampleInput (i : Fin 2) : WriteRequest :=
  ⟨if i.val = 0 then "f" else "d/../f", ⟨sample.bytes i, (sample.isText i).utf8⟩, .absent⟩

/-- Both look for the file before either creates it. -/
def sampleSchedule : List (Fin 2 × Choice) :=
  [(0, 2), (1, 2), (0, 14), (1, 27)].flatMap fun (m : Fin 2 × ℕ) => List.replicate m.2 (m.1, {})

/-- One links its file, and the other finds it when it comes to link its own. -/
theorem creators_have_one_winner_two : ∃ P, ∃ r : Fin 2 → Exec ProtocolError WriteSuccess,
    (creators (fun _ => ⟨["w"], false, .none⟩) sampleInput (World.sample ["w", "f"] none)).runs
      (fun i : Fin 2 => step (refusing none) i) everywhere sampleSchedule = some P ∧
    (∀ i, P.threads i = .ret (r i)) ∧
    ∃ i, Wins Host.sample.contentId (sampleInput i) (r i) ∧
      P.state.world.contentAt sample.dest = some (sampleInput i).content.bytes ∧
      ∀ j, j ≠ i → Loses Host.sample.contentId (sampleInput j) (sampleInput i).content.bytes (r j) := by
  have hu : sample.Undisturbed (refusing none : Rules Host.sample) := by
    intro s c x hr
    simp only [refusing, Bool.and_eq_true, List.isEmpty_iff, decide_eq_true_eq] at hr
    obtain ⟨⟨hevents, hflag⟩, hfault⟩ := hr
    refine ⟨?_, fun _ _ => hflag, fun e he => ?_⟩
    · rw [hfault]
      cases c <;> rfl
    · rw [hevents] at he
      cases he
  have hb : sample.Begins (World.sample ["w", "f"] none) :=
    ⟨World.sample_sane _ _, rfl, rfl, fun d n _ => by simp [World.sample]⟩
  have hreturned : ((creators (fun _ => ⟨["w"], false, .none⟩) sampleInput
      (World.sample ["w", "f"] none)).runs (fun i : Fin 2 => step (refusing none) i) everywhere
        sampleSchedule).any (fun P => (P.threads 0).Rests (fun _ => false) &&
          (P.threads 1).Rests fun _ => false) = true := by decide +kernel
  rw [Option.any_eq_true] at hreturned
  obtain ⟨P, hruns, hrest⟩ := hreturned
  rw [Bool.and_eq_true] at hrest
  have hret : ∀ i, ∃ r, P.threads i = .ret r :=
    Fin.forall_fin_two.2 ⟨Prog.ret_of_rests hrest.1, Prog.ret_of_rests hrest.2⟩
  choose r hend using hret
  exact ⟨P, r, hruns, hend, creators_have_one_winner (by decide) hu (Fin.forall_fin_two.2 ⟨rfl, rfl⟩)
    (Fin.forall_fin_two.2 ⟨rfl, rfl⟩)
    (Fin.forall_fin_two.2 ⟨⟨by decide, by decide⟩, ⟨by decide, by decide⟩⟩)
    (fun i => admits_of_unrestricted rfl _) hb hruns hend⟩

/-! ### One thread -/

/-- The only create there is. -/
def single (path : String) : Fin 1 → WriteRequest := fun _ => ⟨path, ⟨[97], by decide⟩, .absent⟩

/-- The thread has returned an error. -/
def refused : Prog (Call h) Answer (Exec ProtocolError WriteSuccess) → Bool
  | .ret (.error _) => true
  | _ => false

/-- A run of the only create of `path` to its end, and it has not won. -/
def Unwon (path : String) : Prop :=
  ∃ (ms : List (Fin 1 × Choice)) (P : Pool (Fin 1) (Call Host.sample) Answer _ (State Host.sample))
    (r : Fin 1 → Exec ProtocolError WriteSuccess),
    (creators (fun _ => ⟨["w"], false, .none⟩) (single path) (World.sample ["w", "f"] none)).runs
      (fun i : Fin 1 => step (refusing none) i) everywhere ms = some P ∧
    (∀ i, P.threads i = .ret (r i)) ∧ ¬∃ i, Wins Host.sample.contentId (single path i) (r i)

theorem unwon_of_refused {path : String} {steps : ℕ}
    (h : ((creators (fun _ => ⟨["w"], false, .none⟩) (single path) (World.sample ["w", "f"] none)).runs
      (fun i : Fin 1 => step (refusing none) i) everywhere (List.replicate steps (0, {}))).any
        (fun P => refused (P.threads 0)) = true) : Unwon path := by
  obtain ⟨P, hruns, hrefused⟩ := (Option.any_eq_true _ _).1 h
  obtain ⟨e, he⟩ : ∃ e, P.threads 0 = .ret (.error e) := by
    unfold refused at hrefused
    split at hrefused
    · exact ⟨_, ‹_›⟩
    · cases hrefused
  exact ⟨_, P, fun _ => .error e, hruns, fun i => by rw [Fin.fin_one_eq_zero i, he], nofun⟩

/-- Nobody wins where the temporary file has the entry's name, or where a slash stands behind it. -/
theorem creators_have_no_winner : Unwon (tempName 7 0 0) ∧ Unwon "new/" := by
  constructor
  · exact @unwon_of_refused _ 15 (by decide +kernel)
  · exact @unwon_of_refused _ 13 (by decide +kernel)

end Race

end Hashline
