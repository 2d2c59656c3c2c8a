/-
  Persisting among other threads that persist: a temporary file that nobody else
  sees, a guard that holds until the rename, and one change on record.
-/
import Hashline.Steady

namespace Hashline

open Machine Object

variable {h : Host} {n : ℕ} {ε α : Type}

/-- The flush of a directory does not fail. -/
def Rules.Settles (rules : Rules h) : Prop :=
  ∀ s path x, rules s (.syncDir path) x = true → x.fault = none

/-- A thread that found nothing at a place renames onto it only where there is nothing still. -/
def Rules.Heeds (rules : Rules h) (who : ℕ) : Prop :=
  ∀ s source target x, rules s (.rename source target) x = true → s.Missed who (h.locate target) →
    s.world.entries (h.locate target) = none

namespace Service
variable {V : Service h n} {rules : Rules h} {i : Fin n} {s s' : State h}

/-! ## The temporary file -/

/-- A name of the thread's own. -/
def Owned (i : Fin n) (s : State h) (l : Loc) : Prop :=
  ∃ e m, s.Owns i e ∧ l.name = tempName h.processId e m

theorem Owned.retains {l : Loc} (ho : Owned i s l) (hr : V.Retains i s s') : Owned i s' l := by
  obtain ⟨e, m, ho, hl⟩ := ho
  exact ⟨e, m, hr.owns e ho, hl⟩

theorem locate_join (path : PathBuf) {name : String} (hname : PathBuf.isComponent name = true) :
    (h.locate (path.join name)).name = name := by
  simp [Host.locate, PathBuf.components_join path hname]

/-- The file stands under a temporary name of thread `i`, unseen, with the bytes. -/
structure Held (V : Service h n) (i : Fin n) (l : Loc) (f : ℕ) (bytes : Bytes) (s : State h) : Prop where
  temp : V.Temp i l f s
  content : (s.world.files f).content = bytes

theorem Held.keeps {l : Loc} {f : ℕ} {bytes : Bytes} (hh : V.Held i l f bytes s) (hk : V.Keeps i s s') :
    V.Held i l f bytes s' := by
  obtain ⟨ht, hf, -⟩ := hh.temp.keeps hk
  exact ⟨ht, by rw [hf]; exact hh.content⟩

section
variable (hc : rules.Closed)
include hc

/-- **`write_all` leaves the bytes in the file**, or an error. -/
theorem writeAll_safe {l : Loc} {f : ℕ} {bytes : Bytes} : ∀ (rounds : ℕ) {offset : ℕ} {s : State h},
    V.Inv s → V.Held i l f (bytes.take offset) s → bytes.length ≤ offset + rounds →
    (writeAll f bytes rounds offset : Op h ε _).Safe (step rules i) everywhere (V.contract i)
      (fun r s' => V.Inv s' ∧ V.Retains i s s' ∧
        ((∃ e, r = .ok (.error e)) ∨ r = .ok (.ok ()) ∧ V.Held i l f bytes s')) s
  | 0, offset, s, hi, hh, hr => by
    rw [List.take_of_length_le (by omega)] at hh
    exact ⟨hi, .refl i s, .inr ⟨rfl, hh⟩⟩
  | rounds + 1, offset, s, hi, hh, hr => by
    rw [writeAll]
    split_ifs with hend
    · rw [List.take_of_length_le hend] at hh
      exact ⟨hi, .refl i s, .inr ⟨rfl, hh⟩⟩
    · refine safe_makes (c := .write f offset (bytes.drop offset)) hc fun s₁ x a s₂ hk₁ hi₁ hr₁ hm => ?_
      have hh₁ := hh.keeps hk₁
      obtain ⟨hi₂, hk₂, hret, htemp, hres⟩ := hm.write hi₁ hh₁.temp hh₁.content (by omega)
      refine ⟨hi₂, hk₂, ?_⟩
      have hret₂ := hk₁.retains.trans hret
      rcases hres with ⟨e, rfl⟩ | ⟨k, rfl, hk, hle, hb⟩
      · exact ⟨hi₂, hret₂, .inl ⟨e, rfl⟩⟩
      · refine Proc.safe_mono (writeAll_safe rounds hi₂ ⟨htemp, hb⟩ (by omega)) fun r s' hr => ?_
        exact ⟨hr.1, hret₂.trans hr.2.1, hr.2.2⟩

/-- Ready to be put in its place. -/
structure Finished (V : Service h n) (i : Fin n) (l : Loc) (bytes : Bytes) (s : State h) : Prop where
  held : ∃ f, V.Held i l f bytes s ∧ (V.flushes i → Flushed V.start.next f s.trace)

omit hc in
theorem Finished.keeps {l : Loc} {bytes : Bytes} (hf : V.Finished i l bytes s) (hk : V.Keeps i s s') :
    V.Finished i l bytes s' := by
  obtain ⟨f, hh, hfl⟩ := hf.held
  exact ⟨f, hh.keeps hk, fun hd => (hh.temp.keeps hk).2.2 (hfl hd)⟩

theorem flush_safe {path : PathBuf} {f : ℕ} {durability : Durability}
    (hd : V.flushes i ↔ durability ≠ .none) (hi : V.Inv s) :
    (flush path f durability : Op h _ _).Safe (step rules i) everywhere (V.contract i)
      (fun r s' => V.Inv s' ∧ V.Keeps i s s' ∧ ((∃ e, r = .error (.err e)) ∨ r = .ok () ∧
        (V.flushes i → Flushed V.start.next f s'.trace))) s := by
  have hsync : ∀ operation, (Op.sync f >>= fun r => Proc.orElse (ioErr path operation) r :
      Op h PersistError Unit).Safe (step rules i) everywhere (V.contract i)
      (fun r s' => V.Inv s' ∧ V.Keeps i s s' ∧ ((∃ e, r = .error (.err e)) ∨ r = .ok () ∧
        (V.flushes i → Flushed V.start.next f s'.trace))) s := fun operation => by
    refine safe_modest (c := .sync f) hc trivial fun s₁ x a s₂ hk₁ hk₂ _ hi₂ _ hm => ?_
    change Except IoError Unit at a
    rcases a with e | u
    · exact ⟨hi₂, hk₁.trans hk₂, .inl ⟨_, rfl⟩⟩
    · refine ⟨hi₂, hk₁.trans hk₂, .inr ⟨rfl, fun _ => ?_⟩⟩
      rw [hm.trace]
      exact .inl rfl
  cases durability with
  | full => exact hsync _
  | barrier => exact hsync _
  | none => exact ⟨hi, .refl i s, .inr ⟨rfl, fun hf => absurd rfl (hd.1 hf)⟩⟩

/-- What a step comes to that can be refused: an error, or a value as specified. -/
def Or {β : Type} (V : Service h n) (i : Fin n) (s : State h) (P : β → State h → Prop)
    (r : Exec PersistError β) (s' : State h) : Prop :=
  V.Inv s' ∧ V.Retains i s s' ∧ ((∃ e, r = .error (.err e)) ∨ ∃ b, r = .ok b ∧ P b s')

omit hc in
theorem safe_bind_or {β γ : Type} {s₀ : State h} {P : β → State h → Prop}
    {Q : Exec PersistError γ → State h → Prop} {x : Op h PersistError β} {k : β → Op h PersistError γ}
    (hx : x.Safe (step rules i) everywhere (V.contract i) (V.Or i s₀ P) s)
    (hk : ∀ b s', V.Inv s' → V.Retains i s₀ s' → P b s' →
      (k b).Safe (step rules i) everywhere (V.contract i) Q s')
    (herr : ∀ e s', V.Inv s' → V.Retains i s₀ s' → Q (.error (.err e)) s') :
    (x >>= k).Safe (step rules i) everywhere (V.contract i) Q s := by
  refine Proc.safe_bind_of hx (fun b s' hr => ?_) fun e s' hr => ?_
  · obtain ⟨hi', hret, ⟨_, he⟩ | ⟨b', he, hp⟩⟩ := hr
    · cases he
    · cases he
      exact hk b s' hi' hret hp
  · obtain ⟨hi', hret, ⟨e', he⟩ | ⟨_, he, -⟩⟩ := hr
    · cases he
      exact herr e' s' hi' hret
    · cases he

theorem writeTemp_safe {tempPath path : PathBuf} {bytes : Bytes} {durability : Durability}
    (hd : V.flushes i ↔ durability ≠ .none) (hown : Owned i s (h.locate tempPath)) :
    (writeTemp tempPath path bytes durability : Op h _ _).Safe (step rules i) everywhere (V.contract i)
      (V.Or i s fun _ s' => V.Finished i (h.locate tempPath) bytes s') s := by
  refine safe_makes (c := .createNew tempPath) hc fun s₁ x a s₂ hk₁ hi₁ hr₁ hm => ?_
  obtain ⟨hi₂, hk₂, hret, hres⟩ := hm.createNew hc hr₁ hi₁ (hown.retains hk₁.retains)
  refine ⟨hi₂, hk₂, ?_⟩
  have hret₂ := hk₁.retains.trans hret
  rcases hres with ⟨e, rfl⟩ | ⟨f, rfl, htemp, hempty⟩
  · exact ⟨hi₂, hret₂, .inl ⟨_, rfl⟩⟩
  show Proc.Safe _ _ _ (writeAll f bytes bytes.length 0 >>= _) _ _
  refine Proc.safe_bind_of (writeAll_safe hc (l := h.locate tempPath) bytes.length hi₂
    ⟨htemp, hempty⟩ (by omega)) (fun r s₃ hr => ?_) fun e s₃ hr => ?_
  · obtain ⟨hi₃, hret₃, ⟨e, he⟩ | ⟨he, hheld⟩⟩ := hr <;> cases he
    · exact ⟨hi₃, hret₂.trans hret₃, .inl ⟨_, rfl⟩⟩
    show Proc.Safe _ _ _ (flush path f durability >>= _) _ _
    refine Proc.safe_bind_of (flush_safe hc hd hi₃) (fun _ s₄ hr₄ => ?_) fun e s₄ hr₄ => ?_
    · obtain ⟨hi₄, hk₄, ⟨_, he⟩ | ⟨-, hfl⟩⟩ := hr₄
      · cases he
      have hfin : V.Finished i (h.locate tempPath) bytes s₄ := ⟨f, hheld.keeps hk₄, hfl⟩
      have hret₄ := (hret₂.trans hret₃).trans hk₄.retains
      refine safe_modest (c := .fstat f) hc trivial fun s₅ x₅ a s₆ hk₅ hk₆ _ hi₆ _ _ => ?_
      have hk₄₆ := hk₅.trans hk₆
      change Except IoError Metadata at a
      rcases a with e | m
      · exact ⟨hi₆, hret₄.trans hk₄₆.retains, .inl ⟨_, rfl⟩⟩
      · refine Proc.safe_bind.2 ?_
        refine safe_modest (c := .now) hc trivial fun s₇ x₇ t s₈ hk₇ hk₈ _ hi₈ _ _ => ?_
        have hk₄₈ := hk₄₆.trans (hk₇.trans hk₈)
        exact ⟨hi₈, hret₄.trans hk₄₈.retains, .inr ⟨_, rfl, hfin.keeps hk₄₈⟩⟩
    · obtain ⟨hi₄, hk₄, ⟨e', he⟩ | ⟨he, -⟩⟩ := hr₄ <;> cases he
      exact ⟨hi₄, (hret₂.trans hret₃).trans hk₄.retains, .inl ⟨_, rfl⟩⟩
  · obtain ⟨-, -, ⟨_, he⟩ | ⟨he, -⟩⟩ := hr <;> cases he

/-- A step given up, the temporary name first. -/
theorem refuse_safe {β : Type} {tempPath : PathBuf} {error : PersistError}
    (hown : Owned i s (h.locate tempPath)) :
    (refuse tempPath error : Op h PersistError β).Safe (step rules i) everywhere (V.contract i)
      (fun r s' => V.Inv s' ∧ V.Retains i s s' ∧ ∃ e, r = .error (.err e)) s := by
  show ((discard tempPath : Op h PersistError Unit) >>= fun _ => Proc.fail error).Safe _ _ _ _ _
  refine Proc.safe_bind_of (P := fun r s' => V.Inv s' ∧ V.Retains i s s' ∧ r = .ok ()) ?_
    (fun _ s' hr => ⟨hr.1, hr.2.1, _, rfl⟩) fun e s' hr => by cases hr.2.2
  refine safe_makes (c := .removeFile tempPath) hc fun s₁ x a s₂ hk₁ hi₁ _ hm => ?_
  obtain ⟨hi₂, hk₂, hret, -⟩ := hm.removeFile hi₁ (hown.retains hk₁.retains)
  exact ⟨hi₂, hk₂, hi₂, hk₁.retains.trans hret, rfl⟩

theorem writeUniqueTemp_safe {parent path : PathBuf} {bytes : Bytes} {durability : Durability}
    (hd : V.flushes i ↔ durability ≠ .none) :
    (writeUniqueTemp parent path bytes durability : Op h _ _).Safe (step rules i) everywhere
      (V.contract i) (V.Or i s fun p s' => V.Finished i (h.locate p.1) bytes s') s := by
  refine Proc.safe_bind_of (P := fun r s' => V.Inv s' ∧ V.Retains i s s' ∧
    ∃ name, r = .ok name ∧ Owned i s' (h.locate (parent.join name))) ?_ (fun name s₁ hr => ?_)
    fun e s₁ hr => by obtain ⟨-, -, _, he, -⟩ := hr; cases he
  · refine safe_modest (c := .now) hc trivial fun s₁ x t s₂ hk₁ hk₂ _ _ _ _ => ?_
    refine safe_makes (c := .fetchAdd) hc fun s₃ x₃ e s₄ hk₃ hi₃ _ hm => ?_
    obtain ⟨hi₄, hk₄, hown, -⟩ := hm.fetchAdd hi₃
    refine ⟨hi₄, fun j _ => hk₄ j, hi₄, ((hk₁.trans hk₂).trans (hk₃.trans (hk₄ i))).retains, _, rfl, ?_⟩
    exact ⟨e, _, hown, locate_join _ (isComponent_tempName _ _ _)⟩
  · obtain ⟨hi₁, hret₁, _, he, hown⟩ := hr
    cases he
    refine Proc.safe_attempt_of (writeTemp_safe hc hd hown) (fun stamp s₂ hr₂ => ?_)
      (fun e s₂ hr₂ => ?_) fun s₂ hr₂ => ?_
    · obtain ⟨hi₂, hret₂, ⟨_, he⟩ | ⟨_, he, hfin⟩⟩ := hr₂ <;> cases he
      exact ⟨hi₂, hret₁.trans hret₂, .inr ⟨_, rfl, hfin⟩⟩
    · obtain ⟨hi₂, hret₂, -⟩ := hr₂
      refine Proc.safe_mono (refuse_safe hc (hown.retains hret₂)) fun r s' hr' => ?_
      exact ⟨hr'.1, (hret₁.trans hret₂).trans hr'.2.1, .inl hr'.2.2⟩
    · obtain ⟨-, -, ⟨_, he⟩ | ⟨_, he, -⟩⟩ := hr₂ <;> cases he

end

/-! ## The guard -/

/-- The destination has the bytes, and is locked by thread `i`. -/
structure Guards (V : Service h n) (i : Fin n) (p : PathBuf) (b : Bytes) (s : State h) : Prop where
  path : V.path i = some p
  locked : s.world.locks p.components = some i.val
  content : s.world.contentAt (h.locate p) = some b

theorem Guards.keeps {p : PathBuf} {b : Bytes} (hg : V.Guards i p b s) (hk : V.Keeps i s s') :
    V.Guards i p b s' := by
  obtain ⟨hlock, hent⟩ := hk.locked p hg.path hg.locked
  refine ⟨hg.path, hlock, (World.contentAt_congr hent fun f hf => ?_).trans hg.content⟩
  exact (hk.published f ⟨_, V.named i p hg.path, .inl hf⟩).2.1

/-- What has the inode of the file that was read is that file. -/
theorem Shows.guards {f g inode : ℕ} {b : Bytes} {p : PathBuf} (hs : V.Shows f b inode s) (hi : V.Inv s)
    (hp : V.path i = some p) (hlock : s.world.locks p.components = some i.val)
    (hg : s.world.entries (h.locate p) = some g) (hn : (s.world.files g).inode = inode) :
    V.Guards i p b s := by
  obtain rfl := hi.inode g f (hi.sane _ g hg) (hi.born f hs.published) (hn.trans hs.inode.symm)
  exact ⟨hp, hlock, by rw [World.contentAt_of_entry _ hg, hs.content]⟩

section
variable (hc : rules.Closed) {p tempPath : PathBuf} {expected : ExpectedDestination}
include hc

theorem destinationUnchanged_safe (hown : Owned i s (h.locate tempPath)) :
    (destinationUnchanged p tempPath expected : Op h _ _).Safe (step rules i) everywhere (V.contract i)
      (V.Or i s fun _ s' => V.Keeps i s s') s := by
  have hrefuse : ∀ {s₁ : State h} {error : PersistError}, V.Keeps i s s₁ →
      (refuse tempPath error : Op h PersistError Bool).Safe (step rules i) everywhere (V.contract i)
        (V.Or i s fun _ s' => V.Keeps i s s') s₁ := fun hk =>
    Proc.safe_mono (refuse_safe hc (hown.retains hk.retains)) fun r s' hr =>
      ⟨hr.1, hk.retains.trans hr.2.1, .inl hr.2.2⟩
  refine safe_modest (c := .openRead p) hc trivial fun s₁ x a s₂ hk₁ hk₂ _ hi₂ _ _ => ?_
  have hk := hk₁.trans hk₂
  change Except IoError ℕ at a
  rcases a with e | f
  · show Proc.Safe _ _ _ (if e.kind = .notFound then _ else _) _ _
    split_ifs
    · exact ⟨hi₂, hk.retains, .inr ⟨_, rfl, hk⟩⟩
    · exact hrefuse hk
  · have hread : (readToEnd f (saturatingAdd expected.stamp.len 1) (saturatingAdd expected.stamp.len 1)
        [] : Op h PersistError _).Within modestly Anything Anything :=
      (meets_readToEnd _ _).within (Prog.All.mono (fun _ hc => hc.modest) (readToEnd_calm _ _ _ _))
    refine Proc.safe_bind_of (modestly_safe hc hread hi₂) (fun r s₃ hr => ?_) fun e s₃ hr => ?_
    · obtain ⟨-, hi₃, hk₃⟩ := hr
      rcases r with source | destination
      · exact hrefuse (hk.trans hk₃)
      · exact ⟨hi₃, (hk.trans hk₃).retains, .inr ⟨_, rfl, hk.trans hk₃⟩⟩
    · obtain ⟨hr, hi₃, hk₃⟩ := hr
      rcases e with e | _
      · exact ⟨hi₃, (hk.trans hk₃).retains, .inl ⟨e, rfl⟩⟩
      · exact hr.elim

/-- **The guard lets through only the base**: an equal stamp is of the file that was read, which stands
    there until the lock is given back. -/
theorem checkDestination_safe {f : ℕ} {b : Bytes} (hp : V.path i = some p)
    (hlock : s.world.locks p.components = some i.val) (hs : V.Shows f b expected.stamp.inode s)
    (hown : Owned i s (h.locate tempPath)) :
    (checkDestination p tempPath expected : Op h _ _).Safe (step rules i) everywhere (V.contract i)
      (V.Or i s fun _ s' => V.Keeps i s s' ∧ V.Guards i p b s') s := by
  have hrefuse : ∀ {s₁ : State h} {error : PersistError}, V.Keeps i s s₁ →
      (refuse tempPath error : Op h PersistError Unit).Safe (step rules i) everywhere (V.contract i)
        (V.Or i s fun _ s' => V.Keeps i s s' ∧ V.Guards i p b s') s₁ := fun hk =>
    Proc.safe_mono (refuse_safe hc (hown.retains hk.retains)) fun r s' hr =>
      ⟨hr.1, hk.retains.trans hr.2.1, .inl hr.2.2⟩
  refine safe_modest (c := .guard p expected.stamp expected.contentId) hc trivial
    fun s₁ x a s₂ hk₁ hk₂ _ _ _ _ => ?_
  refine safe_modest (c := .stat p) hc trivial fun s₃ x₃ a s₄ hk₃ hk₄ hi₃ hi₄ _ hm₃ => ?_
  have hk₀₃ := (hk₁.trans hk₂).trans hk₃
  have hk := hk₀₃.trans hk₄
  have hnone : ∀ e : IoError, (if e.kind = .notFound then
      refuse tempPath (.destinationChanged p.display) else
      refuse tempPath (ioErr p "stat destination" e) : Op h PersistError Unit).Safe (step rules i)
        everywhere (V.contract i) (V.Or i s fun _ s' => V.Keeps i s s' ∧ V.Guards i p b s') s₄ := by
    intro e
    split_ifs <;> exact hrefuse hk
  obtain ⟨-, ⟨e, -, rfl⟩ | ⟨g, hg, rfl⟩ | ⟨-, rfl⟩⟩ := act_stat hm₃.act
  · exact hnone e
  · refine Proc.safe_bind.2 (Proc.safe_bind.2 ?_)
    refine safe_modest (c := .now) hc trivial fun s₅ x₅ t' s₆ hk₅ hk₆ _ hi₆ _ _ => ?_
    have hk' := hk.trans (hk₅.trans hk₆)
    show Proc.Safe _ _ _ (if (FileStamp.fromMetadata ((s₃.world.wait x₃.tick).metadata g) t' !=
      expected.stamp) = true then _ else _) _ _
    by_cases hne : (FileStamp.fromMetadata ((s₃.world.wait x₃.tick).metadata g) t' !=
      expected.stamp) = true
    · rw [if_pos hne]
      exact hrefuse hk'
    rw [if_neg hne]
    -- an equal stamp has the inode of the file that was read
    have heq : (FileStamp.fromMetadata ((s₃.world.wait x₃.tick).metadata g) t' ==
        expected.stamp) = true := by
      by_contra hno
      exact hne (by rw [bne, Bool.eq_false_iff.2 hno]; rfl)
    have hinode : (s₃.world.files g).inode = expected.stamp.inode := FileStamp.inode_of_beq heq
    have hguards := ((hs.retains hk₀₃.retains).guards hi₃ hp (hk₀₃.locked p hp hlock).1 hg hinode).keeps
      (hk₄.trans (hk₅.trans hk₆))
    have hk₀₆ : V.Retains i s s₆ := hk'.retains
    split_ifs
    · have hown₆ := hown.retains hk₀₆
      refine safe_bind_or (destinationUnchanged_safe hc hown₆) (fun same s₇ hi₇ hret₇ hk₇ => ?_)
        fun e s₇ hi₇ hret₇ => ⟨hi₇, hk₀₆.trans hret₇, .inl ⟨e, rfl⟩⟩
      cases same with
      | true => exact ⟨hi₇, hk₀₆.trans hret₇, .inr ⟨(), rfl, hk'.trans hk₇, hguards.keeps hk₇⟩⟩
      | false => exact hrefuse (hk'.trans hk₇)
    · exact ⟨hi₆, hk₀₆, .inr ⟨(), rfl, hk', hguards⟩⟩
  · exact hnone _

end

/-! ## The two ways to persist -/

/-- How a thread flushes what it puts at its destination. -/
structure Durably (V : Service h n) (rules : Rules h) (i : Fin n) (p : PathBuf) (durability : Durability) :
    Prop where
  flushes : V.flushes i ↔ durability ≠ .none
  lasts : V.lasts i → durability = .full ∧ p.components ≠ [] ∧ rules.Settles

/-- What a thread put at its destination, for good where it lasts. -/
structure Lands (V : Service h n) (i : Fin n) (p : PathBuf) (old : Option Bytes) (bytes : Bytes)
    (s : State h) : Prop where
  has : Has s i p old bytes
  secured : V.lasts i → Secured (h.locate p) i s.trace

/-- A stamp that was confirmed is of a published file, whose bytes thread `i` has found at the place. -/
def Confirmed (V : Service h n) (i : Fin n) (l : Loc) (bytes : Bytes) (o : Option FileStamp)
    (s : State h) : Prop :=
  ∀ stamp, o = some stamp → s.Saw i l bytes ∧ ∃ f, V.Shows f bytes stamp.inode s

/-- What a persist comes to: an error and nothing put, or the bytes put once, where `old` stood. -/
def Placing (V : Service h n) (i : Fin n) (p : PathBuf) (old : Option Bytes) (bytes : Bytes)
    (r : Exec PersistError (Option FileStamp)) (s : State h) : Prop :=
  V.Inv s ∧ ((∃ e, r = .error (.err e)) ∧ Unput s i (h.locate p) ∨
    (∃ o, r = .ok o ∧ V.Confirmed i (h.locate p) bytes o s) ∧ V.Lands i p old bytes s)

theorem Has.retains {p : PathBuf} {old : Option Bytes} {bytes : Bytes} (hp : V.path i = some p)
    (hh : Has s i p old bytes) (hr : V.Retains i s s') : Has s' i p old bytes :=
  (hr.mine _ _ (V.named i p hp) rfl).2 hh

theorem Lands.retains {p : PathBuf} {old : Option Bytes} {bytes : Bytes} (hp : V.path i = some p)
    (hl : V.Lands i p old bytes s) (hr : V.Retains i s s') : V.Lands i p old bytes s' :=
  ⟨hl.has.retains hp hr, fun h => (hl.secured h).mono hr.grown⟩

theorem Confirmed.mono {l : Loc} {bytes : Bytes} {o : Option FileStamp}
    (hf : V.Confirmed i l bytes o s) (hs : V.Stays s s') (ht : s.trace <:+ s'.trace) :
    V.Confirmed i l bytes o s' := by
  intro stamp ho
  obtain ⟨hsaw, f, hshows⟩ := hf stamp ho
  exact ⟨hsaw.grown ht, f, hshows.mono hs⟩

theorem Placing.retains {p : PathBuf} {old : Option Bytes} {bytes : Bytes}
    {r : Exec PersistError (Option FileStamp)} (hp : V.path i = some p)
    (hpl : V.Placing i p old bytes r s) (hi : V.Inv s') (hr : V.Retains i s s') :
    V.Placing i p old bytes r s' := by
  refine ⟨hi, hpl.2.imp (And.imp_right (hr.unput (V.named i p hp))) ?_⟩
  rintro ⟨⟨o, ho, hf⟩, hl⟩
  exact ⟨⟨o, ho, hf.mono hr.published hr.grown⟩, hl.retains hp hr⟩

section
variable (hc : rules.Closed) {p : PathBuf} (hp : V.path i = some p) {bytes : Bytes}
  {durability : Durability}
include hc hp

/-- Under the lock, which is given back whatever the outcome. -/
theorem withPathLock_safe {old : Option Bytes} {body : Op h PersistError (Option FileStamp)}
    (hbody : ∀ s₁, V.Inv s₁ → V.Keeps i s s₁ → s₁.world.locks p.components = some i.val →
      body.Safe (step rules i) everywhere (V.contract i)
        (fun r s' => V.Placing i p old bytes r s' ∧ s'.world.locks p.components = some i.val) s₁) :
    (withPathLock p body).Safe (step rules i) everywhere (V.contract i)
      (fun r s' => V.Placing i p old bytes r s') s := by
  refine safe_makes (c := .lock p.components) hc fun s₁ x a s₂ hk₁ hi₁ _ hm => ?_
  obtain ⟨hi₂, hk₂, hlock⟩ := hm.lock hi₁
  refine ⟨hi₂, fun j _ => hk₂ j, ?_⟩
  have hunlock : ∀ (r : Except PersistError (Option FileStamp)) s₃, V.Placing i p old bytes
      (match r with | .ok b => .ok b | .error e => .error (.err e)) s₃ →
      s₃.world.locks p.components = some i.val →
      (Op.unlock p >>= fun _ => Proc.orElse id r : Op h PersistError (Option FileStamp)).Safe (step rules i) everywhere
        (V.contract i) (fun r s' => V.Placing i p old bytes r s') s₃ := by
    intro r s₃ hpl hl
    refine safe_makes (c := .unlock p.components) hc fun s₄ x a s₅ hk₄ hi₄ _ hm => ?_
    obtain ⟨hi₅, hk₅, hstays, hledger⟩ := hm.unlock hi₄ (hk₄.locked p hp hl).1
    have hpl₄ := hpl.retains hp hi₄ hk₄.retains
    refine ⟨hi₅, hk₅, ?_⟩
    have hsame : Unput s₅ i (h.locate p) = Unput s₄ i (h.locate p) := by rw [Unput, Unput, hledger]
    have hlands : V.Lands i p old bytes s₄ → V.Lands i p old bytes s₅ := fun hl => by
      refine ⟨?_, fun hlast => ?_⟩
      · rw [Has, hledger]
        exact hl.has
      · rw [hm.trace]
        exact .inl (hl.secured hlast)
    have hend : ∀ {r : Exec PersistError (Option FileStamp)}, V.Placing i p old bytes r s₄ →
        V.Placing i p old bytes r s₅ := by
      rintro r ⟨-, hun | ⟨⟨o, ho, hf⟩, hl⟩⟩
      · exact ⟨hi₅, .inl (by rw [hsame]; exact hun)⟩
      · exact ⟨hi₅, .inr ⟨⟨o, ho, hf.mono hstays (hm.trace ▸ List.suffix_cons _ _)⟩, hlands hl⟩⟩
    rcases r with e | b
    · exact hend hpl₄
    · exact hend hpl₄
  refine Proc.safe_attempt_of (hbody s₂ hi₂ (hk₁.trans (hk₂ i)) hlock) (fun b s₃ hr => ?_)
    (fun e s₃ hr => ?_) fun s₃ hr => ?_
  · exact hunlock (.ok b) s₃ hr.1 hr.2
  · exact hunlock (.error e) s₃ hr.1 hr.2
  · obtain ⟨⟨-, ⟨⟨_, he⟩, -⟩ | ⟨⟨_, he, -⟩, -⟩⟩, -⟩ := hr <;> cases he

omit hp in
/-- What is confirmed under the lock is what stands there. -/
theorem confirmStamp_safe {stamp : FileStamp} (hg : V.Guards i p bytes s) :
    (confirmStamp p stamp : Op h ε _).Safe (step rules i) everywhere (V.contract i)
      (fun r s' => V.Inv s' ∧ V.Keeps i s s' ∧
        ∃ o, r = .ok o ∧ V.Confirmed i (h.locate p) bytes o s') s := by
  refine safe_modest (c := .stat p) hc trivial fun s₁ x a s₂ hk₁ hk₂ hi₁ hi₂ _ hm => ?_
  have hg₁ := hg.keeps hk₁
  obtain ⟨hw, ⟨e, -, rfl⟩ | ⟨f, hf, rfl⟩ | ⟨-, rfl⟩⟩ := act_stat hm.act
  · exact ⟨hi₂, hk₁.trans hk₂, _, rfl, nofun⟩
  · have hbytes := World.contentAt_of_entry s₁.world hf
    rw [hg₁.content, Option.some.injEq] at hbytes
    have hshows : V.Shows f bytes (s₁.world.files f).inode s₂ :=
      Shows.mono hk₂.published ⟨⟨_, V.named i p hg.path, .inl hf⟩, hbytes.symm, rfl⟩
    have hsaw : s₂.Saw i (h.locate p) bytes :=
      ⟨_, hm.trace ▸ List.mem_cons_self, rfl, by rw [hw]; exact hg₁.content⟩
    refine Proc.safe_bind.2 (safe_modest (c := .now) hc trivial fun s₃ x₃ t s₄ hk₃ hk₄ _ hi₄ _ _ => ?_)
    have hk := hk₃.trans hk₄
    refine ⟨hi₄, (hk₁.trans hk₂).trans hk, _, rfl, fun found hfound => ?_⟩
    unfold FileStamp.confirmedAfterRename at hfound
    split_ifs at hfound
    cases hfound
    exact ⟨hsaw.grown hk.grown, f, hshows.mono hk.published⟩
  · exact ⟨hi₂, hk₁.trans hk₂, _, rfl, nofun⟩

omit hp in
/-- After the rename or the link nothing fails, and the directory is flushed where it should be. -/
theorem afterInstall_safe {stamp : FileStamp} {old : Option Bytes} (hd : V.Durably rules i p durability)
    (hp : V.path i = some p) (hhas : Has s i p old bytes) (hg : V.Guards i p bytes s) :
    (afterInstall p stamp durability : Op h ε _).Safe (step rules i) everywhere (V.contract i)
      (fun r s' => V.Inv s' ∧ V.Keeps i s s' ∧ (∃ o, r = .ok o ∧ V.Confirmed i (h.locate p) bytes o s') ∧
        V.Lands i p old bytes s') s := by
  have hconfirm : ∀ {s₁ : State h}, V.Keeps i s s₁ → V.Lands i p old bytes s₁ →
      (confirmStamp p stamp : Op h ε _).Safe (step rules i) everywhere (V.contract i)
        (fun r s' => V.Inv s' ∧ V.Keeps i s s' ∧
          (∃ o, r = .ok o ∧ V.Confirmed i (h.locate p) bytes o s') ∧ V.Lands i p old bytes s') s₁ := by
    intro s₁ hk₁ hl₁
    refine Proc.safe_mono (confirmStamp_safe hc (hg.keeps hk₁)) fun r s' hr => ?_
    exact ⟨hr.1, hk₁.trans hr.2.1, hr.2.2, hl₁.retains hp hr.2.1.retains⟩
  unfold afterInstall Decoder.afterInstall
  split_ifs with hfull
  · refine safe_makes (c := .syncDir (h.parentOf p)) hc fun s₁ x a s₂ hk₁ hi₁ hr₁ hm => ?_
    obtain ⟨hi₂, hk₂⟩ := hm.modest hi₁ trivial
    have hk := hk₁.trans (hk₂ i)
    refine ⟨hi₂, fun j _ => hk₂ j, hconfirm hk ⟨hhas.retains hp hk.retains, fun hlast => ?_⟩⟩
    obtain ⟨-, hne, hsettles⟩ := hd.lasts hlast
    rcases hparent : p.parent with _ | parent
    · exact absurd (PathBuf.parent_eq_none.1 hparent) hne
    obtain ⟨⟨c, -, hcomponents⟩, -⟩ := PathBuf.parent_eq_some hparent
    have hact := hm.act
    rw [act, Choice.fallible, hsettles s₁ _ x hr₁] at hact
    obtain ⟨rfl, -⟩ := Prod.mk.inj (Option.some.inj hact)
    rw [hm.trace]
    refine .inr ⟨?_, _, hhas.retains hp hk₁.retains, rfl⟩
    show h.directory (h.parentOf p).components = h.directory p.components.dropLast
    rw [Host.parentOf, hparent, hcomponents, List.dropLast_concat]
    rfl
  · exact hconfirm (.refl i s) ⟨hhas, fun hlast => absurd (hd.lasts hlast).1 hfull⟩

omit hp in
theorem createParentOf_safe (hi : V.Inv s) :
    (createParentOf p : Op h PersistError Unit).Safe (step rules i) everywhere (V.contract i)
      (V.Or i s fun _ s' => V.Keeps i s s') s := by
  unfold createParentOf
  rcases p.parent with _ | parent
  · exact ⟨hi, .refl i s, .inr ⟨(), rfl, .refl i s⟩⟩
  · refine safe_modest (c := .createDirAll parent) hc trivial fun s₁ x a s₂ hk₁ hk₂ _ hi₂ _ _ => ?_
    have hk := hk₁.trans hk₂
    change Except IoError Unit at a
    rcases a with e | u
    · exact ⟨hi₂, hk.retains, .inl ⟨_, rfl⟩⟩
    · exact ⟨hi₂, hk.retains, .inr ⟨u, rfl, hk⟩⟩

omit hc in
/-- With the lock held, an error before anything was put. -/
theorem placing_error {old : Option Bytes} (hlock : s.world.locks p.components = some i.val)
    (hun : Unput s i (h.locate p)) (e : PersistError) (s' : State h) (hi' : V.Inv s')
    (hr : V.Retains i s s') :
    V.Placing i p old bytes (.error (.err e) : Exec PersistError (Option FileStamp)) s' ∧
      s'.world.locks p.components = some i.val :=
  ⟨⟨hi', .inl ⟨⟨e, rfl⟩, hr.unput (V.named i p hp) hun⟩⟩, hr.locked p hp hlock⟩

/-- With the temporary file finished, the rest. -/
theorem prepared_safe {old : Option Bytes}
    {k : PathBuf × FileStamp → Op h PersistError (Option FileStamp)}
    (hd : V.Durably rules i p durability) (hi : V.Inv s)
    (hlock : s.world.locks p.components = some i.val) (hun : Unput s i (h.locate p))
    (hk : ∀ tempPath stamp s', V.Inv s' → V.Retains i s s' → V.Finished i (h.locate tempPath) bytes s' →
      (k (tempPath, stamp)).Safe (step rules i) everywhere (V.contract i)
        (fun r s'' => V.Placing i p old bytes r s'' ∧ s''.world.locks p.components = some i.val) s') :
    (createParentOf p >>= fun _ => writeUniqueTemp (h.parentOf p) p bytes durability >>= k :
      Op h PersistError (Option FileStamp)).Safe (step rules i) everywhere (V.contract i)
      (fun r s' => V.Placing i p old bytes r s' ∧ s'.world.locks p.components = some i.val) s := by
  refine safe_bind_or (createParentOf_safe hc hi) (fun _ s₁ hi₁ hr₁ _ => ?_)
    (placing_error hp hlock hun)
  refine safe_bind_or (P := fun (p : PathBuf × FileStamp) s' => V.Finished i (h.locate p.1) bytes s')
    (Proc.safe_mono (writeUniqueTemp_safe hc hd.flushes) fun r s' hr =>
      ⟨hr.1, hr₁.trans hr.2.1, hr.2.2⟩) (fun q s₂ hi₂ hr₂ hfin₂ => ?_)
    (placing_error hp hlock hun)
  exact hk q.1 q.2 s₂ hi₂ hr₂ hfin₂

/-- **The rename** puts the bytes where `old` stands, or nothing. -/
theorem rename_safe {tempPath : PathBuf} {stamp : FileStamp} {old : Option Bytes}
    (hd : V.Durably rules i p durability) (hright : V.right i old bytes)
    (hlock : s.world.locks p.components = some i.val) (hun : Unput s i (h.locate p))
    (hfin : V.Finished i (h.locate tempPath) bytes s)
    (hold : ∀ s₁ x, V.Keeps i s s₁ → V.Inv s₁ → rules s₁ (.rename tempPath p) x = true →
      s₁.world.contentAt (h.locate p) = old) :
    (Op.rename tempPath p >>= fun r => match r with
      | .ok () => afterInstall p stamp durability
      | .error source => refuse tempPath (ioErr p "rename into" source) :
        Op h PersistError (Option FileStamp)).Safe (step rules i) everywhere (V.contract i)
      (fun r s' => V.Placing i p old bytes r s' ∧ s'.world.locks p.components = some i.val) s := by
  have hpub := V.named i p hp
  refine safe_makes (c := .rename tempPath p) hc fun s₁ x a s₂ hk₁ hi₁ hx hm => ?_
  have hlock₁ := (hk₁.locked p hp hlock).1
  have hold₁ := hold s₁ x hk₁ hi₁ hx
  obtain ⟨g, hheld, hflush⟩ := (hfin.keeps hk₁).held
  have harmed : V.Armed i p (h.locate tempPath) g bytes s₁ :=
    ⟨hp, hlock₁, hk₁.retains.unput hpub hun, hheld.temp, hheld.content, hflush⟩
  obtain ⟨hi₂, hk₂, hlocks₂, hres⟩ := hm.rename hi₁ harmed (by rw [hold₁]; exact hright)
  refine ⟨hi₂, hk₂, ?_⟩
  have hlock₂ : s₂.world.locks p.components = some i.val := by
    rw [hlocks₂]
    exact hlock₁
  rcases hres with ⟨⟨e, rfl⟩, hr₂⟩ | ⟨rfl, hhas, hthere⟩
  · refine Proc.safe_mono (refuse_safe hc ?_) fun r s' hr => ?_
    · exact Owned.retains harmed.temp.own hr₂
    · obtain ⟨hi', hr', e, rfl⟩ := hr
      exact placing_error hp hlock hun e s' hi' ((hk₁.retains.trans hr₂).trans hr')
  · rw [hold₁] at hhas
    refine Proc.safe_mono (afterInstall_safe hc hd hp hhas ⟨hp, hlock₂, hthere⟩) fun r s' hr => ?_
    obtain ⟨hi', hk', hok, hlands⟩ := hr
    exact ⟨⟨hi', .inr ⟨hok, hlands⟩⟩, (hk'.locked p hp hlock₂).1⟩

/-- **A guarded write** puts its bytes where the base stands, or nothing. -/
theorem writeLocked_safe {expected : ExpectedDestination} {f : ℕ} {b : Bytes}
    (hd : V.Durably rules i p durability) (hright : V.right i (some b) bytes) (hi : V.Inv s)
    (hs : V.Shows f b expected.stamp.inode s) (hlock : s.world.locks p.components = some i.val)
    (hun : Unput s i (h.locate p)) :
    (writeLocked p bytes (some expected) durability : Op h _ _).Safe (step rules i) everywhere
      (V.contract i)
      (fun r s' => V.Placing i p (some b) bytes r s' ∧ s'.world.locks p.components = some i.val) s := by
  have hpub := V.named i p hp
  refine prepared_safe hc hp hd hi hlock hun fun tempPath stamp s₂ hi₂ hr₂ hfin₂ => ?_
  obtain ⟨_, hheld₂, -⟩ := hfin₂.held
  refine safe_bind_or (P := fun _ s' => V.Keeps i s₂ s' ∧ V.Guards i p b s')
    (Proc.safe_mono (checkDestination_safe hc hp (hr₂.locked p hp hlock) (hs.retains hr₂)
      hheld₂.temp.own) fun r s' hr => ⟨hr.1, hr₂.trans hr.2.1, hr.2.2⟩)
    (fun _ s₃ hi₃ hr₃ hkg => ?_) (placing_error hp hlock hun)
  exact rename_safe hc hp hd hright (hr₃.locked p hp hlock) (hr₃.unput hpub hun)
    (hfin₂.keeps hkg.1) fun _ _ hk _ _ => (hkg.2.keeps hk).content

/-- **A write without a guard**, where nothing was found, puts its bytes where nothing stands still. -/
theorem writeFresh_safe (hh : rules.Heeds i) (hd : V.Durably rules i p durability)
    (hright : V.right i none bytes) (hi : V.Inv s) (hmissed : s.Missed i (h.locate p))
    (hlock : s.world.locks p.components = some i.val) (hun : Unput s i (h.locate p)) :
    (writeLocked p bytes none durability : Op h _ _).Safe (step rules i) everywhere (V.contract i)
      (fun r s' => V.Placing i p none bytes r s' ∧ s'.world.locks p.components = some i.val) s := by
  have hpub := V.named i p hp
  refine prepared_safe hc hp hd hi hlock hun fun tempPath stamp s₂ hi₂ hr₂ hfin₂ => ?_
  refine rename_safe hc hp hd hright (hr₂.locked p hp hlock) (hr₂.unput hpub hun) hfin₂
    fun s₃ x hk₃ hi₃ hx => ?_
  have hnone := hh s₃ tempPath p x hx (hmissed.grown (hr₂.grown.trans hk₃.grown))
  rw [World.contentAt, World.fileAt, hnone]
  rfl

/-- **An exclusive create** puts its bytes where nothing stands, or nothing. -/
theorem createLocked_safe (hd : V.Durably rules i p durability) (hright : V.right i none bytes)
    (hi : V.Inv s) (hlock : s.world.locks p.components = some i.val) (hun : Unput s i (h.locate p)) :
    (createLocked p bytes durability : Op h _ _).Safe (step rules i) everywhere (V.contract i)
      (fun r s' => V.Placing i p none bytes r s' ∧ s'.world.locks p.components = some i.val) s := by
  have hpub := V.named i p hp
  refine prepared_safe hc hp hd hi hlock hun fun tempPath stamp s₂ hi₂ hr₂ hfin₂ => ?_
  refine safe_makes (c := .hardLink tempPath p) hc fun s₃ x a s₄ hk₃ hi₃ _ hm₃ => ?_
  have hr₃ := hr₂.trans hk₃.retains
  have hlock₃ := hr₃.locked p hp hlock
  obtain ⟨g, hheld₃, hflush₃⟩ := (hfin₂.keeps hk₃).held
  have harmed : V.Armed i p (h.locate tempPath) g bytes s₃ :=
    ⟨hp, hlock₃, hr₃.unput hpub hun, hheld₃.temp, hheld₃.content, hflush₃⟩
  obtain ⟨hi₄, hk₄, hlocks₄, howns₄, hres⟩ := hm₃.hardLink hi₃ harmed hright
  refine ⟨hi₄, hk₄, ?_⟩
  have hown₄ : Owned i s₄ (h.locate tempPath) := by
    obtain ⟨e, m, ho, hl⟩ := hheld₃.temp.own
    exact ⟨e, m, howns₄ e ho, hl⟩
  have hlock₄ : s₄.world.locks p.components = some i.val := by
    rw [hlocks₄]
    exact hlock₃
  -- the temporary name goes, whatever the link came to
  refine Proc.safe_bind_of (P := fun r s' => V.Inv s' ∧ V.Retains i s₄ s' ∧
    (V.Guards i p bytes s₄ → V.Guards i p bytes s') ∧ r = .ok ()) ?_
    (fun _ s₅ hr₅ => ?_) fun e s₅ hr₅ => by cases hr₅.2.2.2
  · refine safe_makes (c := .removeFile tempPath) hc fun s₅ x a s₆ hk₅ hi₅ _ hm => ?_
    obtain ⟨hi₆, hk₆, hret, hsame⟩ := hm.removeFile hi₅ (hown₄.retains hk₅.retains)
    refine ⟨hi₆, hk₆, hi₆, hk₅.retains.trans hret, fun hg => ?_, rfl⟩
    have hg₅ := hg.keeps hk₅
    exact ⟨hp, hret.locked p hp hg₅.locked, (hsame _ hpub).trans hg₅.content⟩
  · obtain ⟨hi₅, hr₅, hguards₅, -⟩ := hr₅
    have hlock₅ := hr₅.locked p hp hlock₄
    rcases hres with ⟨⟨e, rfl⟩, hr₄⟩ | ⟨rfl, hhas, hthere⟩
    · show Proc.Safe _ _ _ (if e.kind = .alreadyExists then _ else _) _ _
      split_ifs <;> exact placing_error hp hlock hun _ s₅ hi₅ ((hr₃.trans hr₄).trans hr₅)
    · refine Proc.safe_mono (afterInstall_safe hc hd hp (hhas.retains hp hr₅)
        (hguards₅ ⟨hp, hlock₄, hthere⟩)) fun r s' hr => ?_
      obtain ⟨hi', hk', hok, hlands⟩ := hr
      exact ⟨⟨hi', .inr ⟨hok, hlands⟩⟩, (hk'.locked p hp hlock₅).1⟩

theorem atomicWrite_safe {expected : ExpectedDestination} {f : ℕ} {b : Bytes}
    (hd : V.Durably rules i p durability) (hright : V.right i (some b) bytes)
    (hs : V.Shows f b expected.stamp.inode s)
    (hun : Unput s i (h.locate p)) :
    (atomicWrite p bytes (some expected) durability : Op h _ _).Safe (step rules i) everywhere
      (V.contract i) (fun r s' => V.Placing i p (some b) bytes r s') s :=
  withPathLock_safe hc hp fun _ hi₁ hk₁ hl₁ => writeLocked_safe hc hp hd hright hi₁
    (hs.retains hk₁.retains) hl₁ (hk₁.retains.unput (V.named i p hp) hun)

theorem atomicWrite_fresh_safe (hh : rules.Heeds i) (hd : V.Durably rules i p durability)
    (hright : V.right i none bytes) (hmissed : s.Missed i (h.locate p)) (hun : Unput s i (h.locate p)) :
    (atomicWrite p bytes none durability : Op h _ _).Safe (step rules i) everywhere
      (V.contract i) (fun r s' => V.Placing i p none bytes r s') s :=
  withPathLock_safe hc hp fun _ hi₁ hk₁ hl₁ => writeFresh_safe hc hp hh hd hright hi₁
    (hmissed.grown hk₁.grown) hl₁ (hk₁.retains.unput (V.named i p hp) hun)

theorem atomicCreate_safe (hd : V.Durably rules i p durability) (hright : V.right i none bytes)
    (hun : Unput s i (h.locate p)) :
    (atomicCreate p bytes durability : Op h _ _).Safe (step rules i) everywhere (V.contract i)
      (fun r s' => V.Placing i p none bytes r s') s :=
  withPathLock_safe hc hp fun _ hi₁ hk₁ hl₁ => createLocked_safe hc hp hd hright hi₁ hl₁
    (hk₁.retains.unput (V.named i p hp) hun)

end

end Service

end Hashline
