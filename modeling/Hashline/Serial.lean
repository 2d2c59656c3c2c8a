/-
  Mutations that run at the same time: whatever the schedule, each is answered
  as one after another would be, in the order in which they took effect.
-/
import Hashline.Atomic
import Hashline.Dispatch
import Hashline.Placed
import Hashline.Recovery
import Hashline.Searches

namespace Hashline

open Machine Object

variable {h : Host} {n : ℕ} {ε α : Type}

namespace Service
variable {V : Service h n} {rules : Rules h} {i : Fin n} {s s' : State h}

/-! ## What a mutation comes to -/

/-- A file that is edited was there in the beginning. -/
def Sited (V : Service h n) (l : Loc) : Request → Prop
  | .edit _ => V.start.entries l ≠ none
  | .write _ => True

/-- A mutation that stopped: nothing was put, and any payload is of bytes it found at the place, but for
    that of an edit of nothing. -/
structure Halts (sited : Prop) (i : Fin n) (l : Loc) (e : Fault ProtocolError) (s : State h) : Prop where
  unput : Unput s i l
  recounts : sited → Recounts h.contentId (s.Saw i l) e

theorem Halts.mono {sited sited' : Prop} {l : Loc} {e : Fault ProtocolError}
    (hh : Halts sited i l e s) (h : sited' → sited) : Halts sited' i l e s :=
  ⟨hh.unput, fun hs => hh.recounts (h hs)⟩

/-- A mutation that ended: stopped with nothing put, or answered as of what it put where what stood. -/
def Finishes {β : Type} (V : Service h n) (i : Fin n) (p : PathBuf) (request : Request)
    (view : β → Response) (r : Exec ProtocolError β) (s : State h) : Prop :=
  V.Inv s ∧ ((∃ e, r = .error e ∧ Halts (V.Sited (h.locate p) request) i (h.locate p) e s) ∨
    ∃ old bytes success, r = .ok success ∧ V.Lands i p old bytes s ∧
      Accomplishes h.contentId old bytes request (view success))

section
variable {β γ : Type} {p : PathBuf} {request : Request} {view : β → Response}

theorem Finishes.stop (hi : V.Inv s) (hun : Unput s i (h.locate p)) {e : Fault ProtocolError}
    (he : Recounts h.contentId (s.Saw i (h.locate p)) e) :
    V.Finishes i p request view (.error e) s := ⟨hi, .inl ⟨e, rfl, hun, fun _ => he⟩⟩

/-- Whatever an edit of nothing stops with. -/
theorem Finishes.astray (hi : V.Inv s) (hun : Unput s i (h.locate p))
    (hno : ¬V.Sited (h.locate p) request) (e : Fault ProtocolError) :
    V.Finishes i p request view (.error e) s := ⟨hi, .inl ⟨e, rfl, hun, fun hs => absurd hs hno⟩⟩

/-- A pure step that may stop. -/
theorem safe_ofExec_of {x : Exec ProtocolError γ} {k : γ → Op h ProtocolError β}
    (herr : ∀ e, x = .error e → V.Finishes i p request view (.error e) s)
    (hk : ∀ c, x = .ok c → (k c).Safe (step rules i) everywhere (V.contract i)
      (V.Finishes i p request view) s) :
    (Proc.ofExec x >>= k).Safe (step rules i) everywhere (V.contract i)
      (V.Finishes i p request view) s := by
  rcases x with (e | _) | c
  · exact herr _ rfl
  · exact herr _ rfl
  · exact hk c rfl

theorem safe_ofExec {x : Exec ProtocolError γ} {k : γ → Op h ProtocolError β} (hi : V.Inv s)
    (hun : Unput s i (h.locate p))
    (hx : x.Meets Anything fun e => Recounts h.contentId (s.Saw i (h.locate p)) (.err e))
    (hk : ∀ c, x = .ok c → (k c).Safe (step rules i) everywhere (V.contract i)
      (V.Finishes i p request view) s) :
    (Proc.ofExec x >>= k).Safe (step rules i) everywhere (V.contract i)
      (V.Finishes i p request view) s := by
  refine safe_ofExec_of (fun e he => ?_) hk
  subst he
  rcases e with e | _
  · exact .stop hi hun hx
  · exact .stop hi hun .panic

theorem recounts_persist {G : Bytes → Prop} (e : PersistError) :
    Recounts h.contentId G (.err (persistProtocolError e)) := by
  cases e <;> exact .new _ _

end

section
variable (hc : rules.Closed) {p : PathBuf} (hp : V.path i = some p) {durability : Durability}
include hc hp

omit hp in
/-- What is cached with a confirmed stamp is what was found there. -/
theorem cachePersisted_safe (hi : V.Inv s) {snapshot : Snapshot h.contentId} {o : Option FileStamp}
    (hf : V.Confirmed i (h.locate p) snapshot.bytes o s) :
    (cachePersisted p snapshot o : Op h ε Unit).Safe (step rules i) everywhere (V.contract i)
      (fun r s' => V.Inv s' ∧ V.Keeps i s s' ∧ r = .ok ()) s := by
  rcases o with _ | stamp
  · exact ⟨hi, .refl i s, rfl⟩
  · refine safe_makes (c := .cacheInsert p.components (snapshot.withStamp stamp)) hc
      fun s₁ x a s₂ hk₁ hi₁ _ hm => ?_
    obtain ⟨hsaw, f, hshows⟩ := hf.mono hk₁.published hk₁.grown stamp rfl
    rw [← Host.locate_components] at hsaw
    obtain ⟨hi₂, hk₂⟩ := hm.idle hi₁ trivial trivial fun _ => ⟨⟨f, stamp, rfl, hshows⟩, i, hsaw⟩
    exact ⟨hi₂, fun j _ => hk₂ j, hi₂, hk₁.trans (hk₂ i), rfl⟩

/-- **What is published was put where the base stood.** -/
theorem publish_safe {input : EditRequest} {previous : SnapshotId} {applied : Bytes}
    {expected : Option FileStamp} {old : Option Bytes} (ht : IsText applied)
    (hacc : Accomplishes h.contentId old applied (.edit input) (.edited ⟨input.filePath, previous,
      h.contentId applied, input.edits.length, applied.length, applied.count lf + 1⟩))
    (hpersist : (atomicWrite p applied (expected.map fun stamp => ⟨stamp, previous⟩) durability :
      Op h _ _).Safe (step rules i) everywhere (V.contract i) (V.Placing i p old applied) s) :
    (Edit.publish p input previous applied expected durability : Op h _ _).Safe
      (step rules i) everywhere (V.contract i) (V.Finishes i p (.edit input) .edited) s := by
  have hwrite : ((atomicWrite p applied (expected.map fun stamp => ⟨stamp, previous⟩)
      durability).mapErr persistProtocolError : Op h ProtocolError _).Safe (step rules i) everywhere
      (V.contract i) (fun r s' => V.Inv s' ∧ ((∃ e, r = .error (.err e) ∧ Unput s' i (h.locate p) ∧
        Recounts h.contentId (s'.Saw i (h.locate p)) (.err e)) ∨
        (∃ o, r = .ok o ∧ V.Confirmed i (h.locate p) applied o s') ∧ V.Lands i p old applied s')) s := by
    refine Prog.safe_bind.2 (Prog.safe_mono hpersist fun r s' hr => ⟨hr.1, ?_⟩)
    rcases hr.2 with ⟨⟨e, rfl⟩, hun'⟩ | ⟨⟨o, rfl, hf⟩, hhas⟩
    · exact .inl ⟨_, rfl, hun', recounts_persist e⟩
    · exact .inr ⟨⟨o, rfl, hf⟩, hhas⟩
  rw [Edit.publish]
  refine Proc.safe_bind_of hwrite (fun stamp s₁ hr => ?_) fun e s₁ hr => ?_
  · obtain ⟨hi₁, ⟨_, he, -⟩ | ⟨⟨_, he, hf⟩, hhas⟩⟩ := hr <;> cases he
    rw [Snapshot.fromValidatedBytes_eq ht]
    show Proc.Safe _ _ _ (cachePersisted p (Snapshot.ofText ⟨applied, ht⟩ none) stamp >>= _) _ _
    refine Proc.safe_bind_of (cachePersisted_safe hc hi₁ hf) (fun _ s₂ hr₂ => ?_)
      fun e s₂ hr₂ => by cases hr₂.2.2
    exact ⟨hr₂.1, .inr ⟨_, _, _, rfl, hhas.retains hp hr₂.2.1.retains, hacc⟩⟩
  · obtain ⟨hi₁, ⟨_, he, hun, hre⟩ | ⟨⟨_, he, -⟩, -⟩⟩ := hr <;> cases he
    exact .stop hi₁ hun hre

/-- What an edit may put in the place of what. -/
theorem publish_over_safe (hd : V.Durably rules i p durability) {input : EditRequest}
    {snapshot : Snapshot h.contentId} {applied : Bytes}
    (hsnap : input.snapshot = snapshot.id)
    (happ : applyReferenceEdits snapshot.bytes input.edits = .ok applied)
    (hright : ∀ old bytes response, Accomplishes h.contentId old bytes (.edit input) response →
      V.right i old bytes) (hb : V.Based snapshot s) (hun : Unput s i (h.locate p)) :
    (Edit.publish p input snapshot.id applied snapshot.stamp durability : Op h _ _).Safe
      (step rules i) everywhere (V.contract i) (V.Finishes i p (.edit input) .edited) s := by
  have hid : snapshot.id = h.contentId snapshot.bytes := snapshot.id_eq
  have hacc : Accomplishes h.contentId (some snapshot.bytes) applied (.edit input)
      (.edited ⟨input.filePath, snapshot.id, h.contentId applied, input.edits.length, applied.length,
        applied.count lf + 1⟩) := ⟨by rw [hsnap, hid]; rfl, happ, by rw [hid]; rfl⟩
  obtain ⟨f, stamp, hst, hs⟩ := hb
  refine publish_safe hc hp (applyReferenceEdits_isText happ).2 hacc ?_
  rw [hst]
  exact atomicWrite_safe hc hp hd (hright _ _ _ hacc) hs hun

variable (hd : V.Durably rules i p durability)
include hd

/-- **An edit of nothing** is put where there is nothing still. -/
theorem createNewFile_safe {input : EditRequest} (hh : rules.Heeds i)
    (hright : ∀ old bytes response, Accomplishes h.contentId old bytes (.edit input) response →
      V.right i old bytes) (hi : V.Inv s) (hmisses : V.Misses i (h.locate p) s)
    (hun : Unput s i (h.locate p)) :
    (Edit.createNewFile p input durability : Op h _ _).Safe (step rules i) everywhere (V.contract i)
      (V.Finishes i p (.edit input) .edited) s := by
  have hno : ¬V.Sited (h.locate p) (.edit input) := fun hs => hs hmisses.1
  refine safe_ofExec_of (fun e _ => .astray hi hun hno e) fun empty he => ?_
  rw [Exec.mapErr_eq_ok] at he
  have hid : empty.id = h.contentId [] := by
    rw [Snapshot.fromBytes_eq isText_nil] at he; cases he; rfl
  split_ifs with hne
  · exact safe_ofExec_of (fun e _ => .astray hi hun hno e) fun e _ => .astray hi hun hno (.err e)
  refine safe_ofExec_of (fun e _ => .astray hi hun hno e) fun applied ha => ?_
  rw [applyVersionedReferenceEdits_eq_ok, hid] at ha
  obtain ⟨hsnap, happ⟩ := ha
  have hacc : Accomplishes h.contentId none applied (.edit input) (.edited ⟨input.filePath, empty.id,
      h.contentId applied, input.edits.length, applied.length, applied.count lf + 1⟩) :=
    ⟨hsnap, happ, by rw [hid]; rfl⟩
  have hpub : ∀ s₁, V.Keeps i s s₁ →
      (Edit.publish p input empty.id applied none durability : Op h _ _).Safe (step rules i) everywhere
        (V.contract i) (V.Finishes i p (.edit input) .edited) s₁ := fun s₁ hk =>
    publish_safe hc hp (applyReferenceEdits_isText happ).2 hacc
      (atomicWrite_fresh_safe hc hp hh hd (hright _ _ _ hacc) (hmisses.2.grown hk.grown)
        (hk.retains.unput (V.named i p hp) hun))
  rcases p.parent with _ | parent
  · exact hpub s (.refl i s)
  · refine safe_modest (c := .createDirAll parent) hc trivial fun s₁ x a s₂ hk₁ hk₂ _ hi₂ _ _ => ?_
    have hk := hk₁.trans hk₂
    change Except IoError Unit at a
    rcases a with e | u
    · exact .astray hi₂ (hk.retains.unput (V.named i p hp) hun) hno _
    · exact hpub s₂ hk

/-- **An edit** is applied to what it is put in the place of, or to nothing. -/
theorem editBlocking_safe {input : EditRequest}
    (hfresh : ¬V.Sited (h.locate p) (.edit input) → rules.Heeds i)
    (hright : ∀ old bytes response, Accomplishes h.contentId old bytes (.edit input) response →
      V.right i old bytes) (hun : Unput s i (h.locate p)) :
    (Edit.runBlocking p input durability : Op h _ _).Safe (step rules i) everywhere (V.contract i)
      (V.Finishes i p (.edit input) .edited) s := by
  have hpub := V.named i p hp
  refine Proc.safe_attempt_of (load_safe hc hpub) (fun snapshot s₁ hr => ?_) (fun e s₁ hr => ?_)
    fun s₁ hr => ?_
  · obtain ⟨hi₁, hk₁, ⟨_, he, -⟩ | ⟨_, he, hb⟩⟩ := hr
    · cases he
    cases he
    refine safe_modest (c := .reserve snapshot.lineCount) hc trivial
      fun s₂ x granted s₃ hk₂ hk₃ _ hi₃ _ _ => ?_
    have hk := hk₂.trans hk₃
    have hun₃ := ((hk₁.trans hk).retains).unput hpub hun
    have hb₃ := hb.retains hk.retains
    refine safe_ofExec hi₃ hun₃ ((meets_applyEditsFast granted snapshot input).mono (fun _ _ => trivial)
      fun _ he => .decided hb₃.saw he) fun applied ha => ?_
    have ha := applyEditsFast_eq_ok.1 ha
    exact publish_over_safe hc hp hd ha.1 ha.2 hright hb₃.based hun₃
  · obtain ⟨hi₁, hk₁, ⟨e', he, hn⟩ | ⟨_, he, -⟩⟩ := hr <;> cases he
    have hun₁ := hk₁.retains.unput hpub hun
    show Proc.Safe _ _ _ (if e.isNotFound then _ else _) _ _
    split_ifs with hnf
    · exact createNewFile_safe hc hp hd (hfresh fun hs => hs (hn hnf).1) hright hi₁ (hn hnf) hun₁
    · exact .stop hi₁ hun₁ (.bare (snapshotProtocolError_bare _ _ e))
  · obtain ⟨-, -, ⟨_, he, -⟩ | ⟨_, he, -⟩⟩ := hr <;> cases he

/-! ## Write -/

omit hd in
theorem loadCurrent_safe (hun : Unput s i (h.locate p)) :
    (Write.loadCurrent p : Op h _ _).Safe (step rules i) everywhere (V.contract i)
      (fun r s' => V.Inv s' ∧ Unput s' i (h.locate p) ∧
        r.Meets (fun o => ∀ snapshot, o = some snapshot → V.Found i (h.locate p) snapshot s')
          ProtocolError.Bare) s := by
  have hpub := V.named i p hp
  refine Proc.safe_attempt_of (load_safe hc hpub) (fun snapshot s₁ hr => ?_) (fun e s₁ hr => ?_)
    fun s₁ hr => ?_
  · obtain ⟨hi₁, hk₁, ⟨_, he, -⟩ | ⟨_, he, hb⟩⟩ := hr <;> cases he
    exact ⟨hi₁, hk₁.retains.unput hpub hun, fun _ h => by cases h; exact hb⟩
  · obtain ⟨hi₁, hk₁, -⟩ := hr
    have hun₁ := hk₁.retains.unput hpub hun
    show Proc.Safe _ _ _ (if e.isNotFound then _ else _) _ _
    split_ifs
    · exact ⟨hi₁, hun₁, nofun⟩
    · exact ⟨hi₁, hun₁, snapshotProtocolError_bare _ _ e⟩
  · obtain ⟨-, -, ⟨_, he, -⟩ | ⟨_, he, -⟩⟩ := hr <;> cases he

omit hd in
/-- Nothing is put, and whatever is found then is told. -/
theorem loseCreateRace_safe {input : WriteRequest} (hun : Unput s i (h.locate p)) :
    (Write.loseCreateRace p input : Op h _ _).Safe (step rules i) everywhere (V.contract i)
      (fun r s' => V.Inv s' ∧ Unput s' i (h.locate p) ∧ r.Meets
        (fun error => Recounts h.contentId (s'.Saw i (h.locate p)) (.err error)) fun _ => False) s := by
  have hpub := V.named i p hp
  refine Proc.safe_attempt_of (load_safe hc hpub) (fun snapshot s₁ hr => ?_) (fun e s₁ hr => ?_)
    fun s₁ hr => ?_
  · obtain ⟨hi₁, hk₁, ⟨_, he, -⟩ | ⟨_, he, hb⟩⟩ := hr <;> cases he
    have hun₁ := hk₁.retains.unput hpub hun
    have hwrite := meets_writeOver snapshot input
    dsimp only
    split
    · exact ⟨hi₁, hun₁, .new _ _⟩
    · rename_i error he
      rw [he] at hwrite
      exact ⟨hi₁, hun₁, .decided hb.saw hwrite⟩
    · rename_i he
      rw [he] at hwrite
      exact hwrite.elim
  · have hun₁ := hr.2.1.retains.unput hpub hun
    show Proc.Safe _ _ _ (if e.isNotFound then _ else _) _ _
    split_ifs
    · exact ⟨hr.1, hun₁, .new _ _⟩
    · exact ⟨hr.1, hun₁, .bare (snapshotProtocolError_bare _ _ e)⟩
  · obtain ⟨-, -, ⟨_, he, -⟩ | ⟨_, he, -⟩⟩ := hr <;> cases he

omit hd in
/-- The write once it is decided. -/
theorem carryOut_safe {input : WriteRequest} {current : Option (Snapshot h.contentId)} {created : Bool}
    (ht : IsText input.content.bytes)
    (hpersist : (Write.persist p input.content.bytes current created durability : Op h _ _).Safe
      (step rules i) everywhere (V.contract i)
      (V.Placing i p (current.map (·.bytes)) input.content.bytes) s)
    (hacc : Accomplishes h.contentId (current.map (·.bytes)) input.content.bytes (.write input)
      (.written ⟨input.filePath, h.contentId input.content.bytes, input.content.bytes.length,
        input.content.bytes.count lf + 1, created⟩)) :
    (Write.carryOut p input current created durability : Op h _ _).Safe (step rules i) everywhere
      (V.contract i) (V.Finishes i p (.write input) .written) s := by
  refine Proc.safe_attempt_of hpersist (fun stamp s₁ hr => ?_) (fun e s₁ hr => ?_) fun s₁ hr => ?_
  · obtain ⟨hi₁, ⟨⟨_, he⟩, -⟩ | ⟨⟨_, he, hf⟩, hhas⟩⟩ := hr <;> cases he
    rw [Snapshot.fromValidatedBytes_eq ht]
    show Proc.Safe _ _ _ (cachePersisted p (Snapshot.ofText ⟨_, ht⟩ none) stamp >>= _) _ _
    refine Proc.safe_bind_of (cachePersisted_safe hc hi₁ hf) (fun _ s₂ hr₂ => ?_)
      fun e s₂ hr₂ => by cases hr₂.2.2
    exact ⟨hr₂.1, .inr ⟨_, _, _, rfl, hhas.retains hp hr₂.2.1.retains, hacc⟩⟩
  · obtain ⟨hi₁, ⟨-, hun₁⟩ | ⟨⟨_, he, -⟩, -⟩⟩ := hr
    swap
    · cases he
    cases e with
    | destinationExists path =>
      refine Proc.safe_bind_of (loseCreateRace_safe hc hp hun₁) (fun e s₂ hr₂ => ?_) fun e s₂ hr₂ => ?_
      · exact .stop hr₂.1 hr₂.2.1 hr₂.2.2
      · rcases e with e | _
        · exact hr₂.2.2.elim
        · exact .stop hr₂.1 hr₂.2.1 .panic
    | destinationChanged path => exact .stop hi₁ hun₁ (recounts_persist _)
    | io operation path source => exact .stop hi₁ hun₁ (recounts_persist _)
  · obtain ⟨-, ⟨⟨_, he⟩, -⟩ | ⟨⟨_, he, -⟩, -⟩⟩ := hr <;> cases he

/-- **A write** puts its text where it expects to, or nothing. -/
theorem writeBlocking_safe {input : WriteRequest}
    (hright : ∀ old bytes response, Accomplishes h.contentId old bytes (.write input) response →
      V.right i old bytes) (hun : Unput s i (h.locate p)) :
    (Write.runBlocking p input durability : Op h _ _).Safe (step rules i) everywhere (V.contract i)
      (V.Finishes i p (.write input) .written) s := by
  refine Proc.safe_bind_of (loadCurrent_safe hc hp hun) (fun current s₁ hr => ?_) fun e s₁ hr => ?_
  swap
  · rcases e with e | _
    · exact .stop hr.1 hr.2.1 (.bare hr.2.2)
    · exact .stop hr.1 hr.2.1 .panic
  obtain ⟨hi₁, hun₁, hb⟩ := hr
  change ∀ snapshot, current = some snapshot → V.Found i (h.locate p) snapshot s₁ at hb
  have hdecides : (validateReferenceWrite (current.map fun snapshot => (snapshot.bytes, snapshot.id))
      input).Meets Anything fun e => Recounts h.contentId (s₁.Saw i (h.locate p)) (.err e) := by
    rcases current with _ | snapshot
    · exact (meets_validateReferenceWrite_none input).mono (fun _ _ => trivial)
        fun e he => .bare he
    · exact (meets_writeOver snapshot input).mono (fun _ _ => trivial)
        fun e he => .decided (hb snapshot rfl).saw he
  refine safe_ofExec hi₁ hun₁ hdecides fun created hv => ?_
  rw [validateReferenceWrite_eq_ok] at hv
  obtain ⟨ht, ⟨he, hcur, rfl⟩ | ⟨id, bytes, he, hcur, rfl⟩⟩ := hv
  · rw [Option.map_eq_none_iff] at hcur
    subst hcur
    have hacc : Accomplishes h.contentId none input.content.bytes (.write input)
        (.written ⟨input.filePath, h.contentId input.content.bytes, input.content.bytes.length,
          input.content.bytes.count lf + 1, true⟩) := ⟨by rw [he], rfl, by rw [he]; rfl⟩
    exact carryOut_safe hc hp ht (atomicCreate_safe hc hp hd (hright _ _ _ hacc) hun₁) hacc
  · rw [Option.map_eq_some_iff] at hcur
    obtain ⟨snapshot, rfl, hcur⟩ := hcur
    rw [Prod.mk.injEq] at hcur
    have hid : snapshot.id = h.contentId snapshot.bytes := snapshot.id_eq
    have hacc : Accomplishes h.contentId (some snapshot.bytes) input.content.bytes (.write input)
        (.written ⟨input.filePath, h.contentId input.content.bytes, input.content.bytes.length,
          input.content.bytes.count lf + 1, false⟩) := by
      refine ⟨?_, rfl, by rw [he]; rfl⟩
      rw [he]
      show some _ = some id
      rw [← hcur.2, hid]
    obtain ⟨f, stamp, hst, hs⟩ := (hb snapshot rfl).based
    refine carryOut_safe hc hp ht ?_ hacc
    have hwrite : (Write.persist p input.content.bytes (some snapshot) false durability : Op h _ _) =
        atomicWrite p input.content.bytes (some ⟨stamp, snapshot.id⟩) durability := by
      rw [Write.persist, if_neg (by decide), Option.bind_some, hst]
      rfl
    rw [hwrite]
    exact atomicWrite_safe hc hp hd (hright _ _ _ hacc) hs hun₁

/-! ## The tools -/

omit hd in
/-- A tool: its arguments, the path, and the work on a blocking thread. -/
theorem tool_safe {β : Type} (request : Request) {view : β → Response} {workspace : Workspace}
    (operation : String) {valid : Exec ContractError Unit} (hv : valid ≠ .error .panic)
    (x : PathBuf → Op h ProtocolError β) (hpath : p = workspace.pathOf request) (hi : V.Inv s)
    (hun : Unput s i (h.locate p))
    (hx : ∀ s, V.Inv s → Unput s i (h.locate p) → (x p).Safe (step rules i) everywhere (V.contract i)
      (V.Finishes i p request view) s) :
    (do
      Proc.ofExec (valid.mapErr .ofContract)
      let path ← workspace.resolvePath request.filePath
      spawnBlocking operation path (x path) : Op h ProtocolError β).Safe (step rules i) everywhere
        (V.contract i) (V.Finishes i p request view) s := by
  have hpub := V.named i p hp
  have hvalid : (valid.mapErr ProtocolError.ofContract).Meets Anything
      fun e => Recounts h.contentId (s.Saw i (h.locate p)) (.err e) := by
    rcases valid with (e | _) | _
    · exact .bare e.bare
    · exact hv rfl
    · trivial
  refine safe_ofExec hi hun hvalid fun _ _ => ?_
  have hresolve : (workspace.resolvePath request.filePath : Op h _ _).Within modestly
      (· = workspace.pathOf request) ProtocolError.Bare :=
    (meets_resolvePath workspace _ fun reason => ProtocolError.bare_new ⟨by decide, by decide⟩ reason).within
      (modest_of_calm (resolvePath_calm workspace _))
  refine Proc.safe_bind_of (modestly_safe hc hresolve hi) (fun path s₁ hr => ?_) fun e s₁ hr => ?_
  · obtain ⟨hq, hi₁, hk⟩ := hr
    change path = _ at hq
    rw [hq, ← hpath]
    refine Proc.safe_onPanic_of (hx s₁ hi₁ (hk.retains.unput hpub hun)) (fun _ _ hr => hr)
      fun s₂ hr => ?_
    obtain ⟨hi₂, ⟨_, -, hhalts⟩ | ⟨_, _, _, he, -⟩⟩ := hr
    · exact .stop hi₂ hhalts.unput (.new _ _)
    · cases he
  · have hun₁ := hr.2.2.retains.unput hpub hun
    rcases e with e | _
    · exact .stop hr.2.1 hun₁ (.bare hr.1)
    · exact .stop hr.2.1 hun₁ .panic

omit hc hp hd in
/-- The answer of a mutation is what its tool returns, under the name of the tool. -/
theorem finishes_view {β : Type} {request : Request} {view : β → Response} {x : Op h ProtocolError β}
    (hx : x.Safe (step rules i) everywhere (V.contract i) (V.Finishes i p request view) s) :
    (x >>= fun success => pure (view success)).Safe (step rules i) everywhere (V.contract i)
      (V.Finishes i p request id) s := by
  refine Proc.safe_bind_of hx (fun success s₁ hr => ?_) fun e s₁ hr => ⟨hr.1, ?_⟩
  · obtain ⟨hi₁, ⟨_, he, -⟩ | ⟨old, bytes, _, he, hh, ha⟩⟩ := hr <;> cases he
    exact ⟨hi₁, .inr ⟨old, bytes, _, rfl, hh, ha⟩⟩
  · obtain ⟨-, ⟨_, he, hhalts⟩ | ⟨_, _, _, he, -⟩⟩ := hr <;> cases he
    exact .inl ⟨e, rfl, hhalts⟩

/-- **A mutation of the server**, whichever it is. -/
theorem serve_safe (request : Request) {workspace : Workspace} (hpath : p = workspace.pathOf request)
    (hdur : durability = workspace.durability) (hi : V.Inv s) (hun : Unput s i (h.locate p))
    (hfresh : ¬V.Sited (h.locate p) request → rules.Heeds i)
    (hright : ∀ old bytes response, Accomplishes h.contentId old bytes request response →
      V.right i old bytes) :
    (serve workspace request : Op h _ _).Safe (step rules i) everywhere (V.contract i)
      (V.Finishes i p request id) s := by
  subst hdur
  cases request with
  | edit input =>
    have hrun : (Edit.run workspace input : Op h _ _).Safe (step rules i) everywhere (V.contract i)
        (V.Finishes i p (.edit input) .edited) s :=
      tool_safe hc hp (.edit input) "edit" input.noPanic_validate
        (fun path => Edit.runBlocking path input workspace.durability) hpath hi hun
        fun s₁ _ hun₁ => editBlocking_safe hc hp hd hfresh hright hun₁
    exact finishes_view hrun
  | write input =>
    have hrun : (Write.run workspace input : Op h _ _).Safe (step rules i) everywhere (V.contract i)
        (V.Finishes i p (.write input) .written) s :=
      tool_safe hc hp (.write input) "write" input.noPanic_validate
        (fun path => Write.runBlocking path input workspace.durability) hpath hi hun
        fun s₁ _ hun₁ => writeBlocking_safe hc hp hd hright hun₁
    exact finishes_view hrun

end

end Service

/-! ## The tools of one server -/

/-- What a client asks for. -/
inductive Task where
  | mutate (request : Request)
  | read (input : ReadRequest)
  | grep (input : GrepRequest)
  | glob (input : GlobRequest)

/-- What it is told. -/
inductive Reply where
  | mutated (response : Response)
  | text (bytes : Bytes)
  deriving DecidableEq

namespace Task

def run {Overrides : Type} (crates : Crates Overrides) (walker : Walker h Overrides crates)
    (workspace : Workspace) : Task → Op h ProtocolError Reply
  | mutate request => do
    let response ← serve workspace request
    pure (.mutated response)
  | read input => do
    let bytes ← Read.run crates.quote workspace input
    pure (.text bytes)
  | grep input => do
    let bytes ← Grep.run crates walker workspace input
    pure (.text bytes)
  | glob input => do
    let bytes ← Glob.run crates walker workspace input
    pure (.text bytes)

/-- The path it mutates. -/
def target (workspace : Workspace) : Task → Option PathBuf
  | mutate request => some (workspace.pathOf request)
  | _ => none

/-- It edits, and does not write. -/
def Edits : Task → Prop
  | mutate (.edit _) => True
  | _ => False

/-- Done alone where `old` stands, it is answered so and leaves `new`. -/
def Does (contentId : Bytes → SnapshotId) (old : Option Bytes) (task : Task) (reply : Reply)
    (new : Option Bytes) : Prop :=
  ∃ request response bytes, task = .mutate request ∧ reply = .mutated response ∧ new = some bytes ∧
    Accomplishes contentId old bytes request response

/-- What is told follows from what was there and what is left. -/
theorem Does.unique {contentId : Bytes → SnapshotId} {old new : Option Bytes} {task : Task}
    {reply reply' : Reply} (h : task.Does contentId old reply new)
    (h' : task.Does contentId old reply' new) : reply = reply' := by
  obtain ⟨request, response, bytes, rfl, rfl, rfl, ha⟩ := h
  obtain ⟨_, response', _, he, rfl, hb, ha'⟩ := h'
  cases he
  cases hb
  cases request <;> rw [ha.2.2, ha'.2.2]

end Task

/-- Every task has a thread of its own. -/
def taskPool {Overrides : Type} (crates : Crates Overrides) (walker : Walker h Overrides crates)
    (workspace : Workspace) (tasks : Fin n → Task) (w : World h) :
    Pool (Fin n) (Call h) Answer (Exec ProtocolError Reply) (State h) where
  threads i := (tasks i).run crates walker workspace
  current := none
  state := ⟨w, []⟩

/-- A server whose destinations can be told apart: none has the name of a temporary file, and one place
    has one spelling. -/
structure Seemly (workspace : Workspace) (tasks : Fin n → Task) (w : World h) : Prop where
  sane : w.Sane
  free : ∀ l, h.IsTemp w.counter l → w.entries l = none
  inode : ∀ f g, f < w.next → g < w.next → (w.files f).inode = (w.files g).inode → f = g
  named : ∀ i p, (tasks i).target workspace = some p → ¬h.IsTemp w.counter (h.locate p)
  alike : ∀ i j p q, (tasks i).target workspace = some p → (tasks j).target workspace = some q →
    h.locate p = h.locate q → p.components = q.components

/-- A server whose tasks can be taken one after another: what is edited is there, too. -/
structure Orderly (workspace : Workspace) (tasks : Fin n → Task) (w : World h) : Prop
    extends Seemly workspace tasks w where
  there : ∀ i p, (tasks i).target workspace = some p → (tasks i).Edits → w.entries (h.locate p) ≠ none

namespace Seemly
variable {workspace : Workspace} {tasks : Fin n → Task} {w : World h}

/-- The service that does the tasks. -/
def service (ho : Seemly workspace tasks w) (rules : Rules h) : Service h n where
  start := w
  path i := (tasks i).target workspace
  flushes _ := workspace.durability ≠ .none
  lasts i := workspace.durability = .full ∧
    (∀ p, (tasks i).target workspace = some p → p.components ≠ []) ∧ rules.Settles
  right i old bytes := ∃ reply, (tasks i).Does h.contentId old reply (some bytes)
  named := ho.named
  alike := ho.alike

variable {rules : Rules h} (ho : Seemly workspace tasks w)

theorem start : (ho.service rules).Inv ⟨w, []⟩ :=
  Service.Begins.inv (V := ho.service rules) ⟨ho.sane, ho.free, ho.inode⟩

/-- What a thread comes to: a mutation put what it answers of, or stopped and put nothing. -/
def Outcome (rules : Rules h) (i : Fin n) (r : Exec ProtocolError Reply) (s : State h) : Prop :=
  ∀ p, (tasks i).target workspace = some p → (∃ e, r = .error e ∧
      Service.Halts ((tasks i).Edits → w.entries (h.locate p) ≠ none) i (h.locate p) e s) ∨
    ∃ reply old bytes, r = .ok reply ∧ (ho.service rules).Lands i p old bytes s ∧
      (tasks i).Does h.contentId old reply (some bytes)

/-- What a read comes to: a page of a snapshot of its place that it was given, or an error that tells of
    one. -/
def Answered (quote : String → String) (rules : Rules h) (i : Fin n) (r : Exec ProtocolError Reply)
    (s : State h) : Prop :=
  ∀ input, tasks i = .read input → w.Blank →
    ¬h.IsTemp w.counter (h.locate (resolvePath workspace.root input.path)) →
      ∃ r', r = r'.map .text ∧
        (ho.service rules).Shown i (h.locate (resolvePath workspace.root input.path)) quote input r' s

theorem Answered.keeps {ho : Seemly workspace tasks w} {quote : String → String} {i : Fin n}
    {r : Exec ProtocolError Reply} {s s' : State h} (hr : ho.Answered quote rules i r s)
    (hk : (ho.service rules).Keeps i s s') : ho.Answered quote rules i r s' := by
  intro input hread hb hpub
  obtain ⟨r', he, hshown⟩ := hr input hread hb hpub
  exact ⟨r', he, hshown.keeps hk⟩

theorem Outcome.keeps {ho : Seemly workspace tasks w} {i : Fin n} {r : Exec ProtocolError Reply}
    {s s' : State h} (hr : ho.Outcome rules i r s) (hk : (ho.service rules).Keeps i s s') :
    ho.Outcome rules i r s' := by
  intro p hp
  refine (hr p hp).imp ?_ ?_
  · rintro ⟨e, he, hun, hre⟩
    refine ⟨e, he, hk.retains.unput (ho.named i p hp) hun, fun hs => ?_⟩
    exact (hre hs).mono fun _ hs => hs.grown hk.grown
  rintro ⟨reply, old, bytes, he, hl, ha⟩
  exact ⟨reply, old, bytes, he, hl.retains hp hk.retains, ha⟩

variable {Overrides : Type} (crates : Crates Overrides) (walker : Walker h Overrides crates)

variable (workspace tasks w) in
/-- What a search comes to: a report on one content that it found at its place, or on the tree below
    what is no file there. -/
def Reported (i : Fin n) (r : Exec ProtocolError Reply) (s : State h) : Prop :=
  ∀ input, tasks i = .grep input → ¬h.IsTemp w.counter (h.locate (Grep.root workspace input)) →
    ∀ reply, r = .ok reply → ∃ bytes, reply = .text bytes ∧
      ((∃ content, s.Saw i (h.locate (Grep.root workspace input)) content ∧
          Grep.Shows crates workspace h input content bytes) ∨
        s.SawOther i (h.locate (Grep.root workspace input)) ∧
          Grep.ShowsTree crates workspace walker input bytes)

/-- What a task comes to, whichever it is. -/
structure Ends (rules : Rules h) (i : Fin n) (r : Exec ProtocolError Reply) (s : State h) : Prop where
  outcome : ho.Outcome rules i r s
  answered : ho.Answered crates.quote rules i r s
  reported : Reported workspace tasks w crates walker i r s

variable {crates walker}

theorem Ends.keeps {ho : Seemly workspace tasks w} {i : Fin n} {r : Exec ProtocolError Reply}
    {s s' : State h} (hr : ho.Ends crates walker rules i r s) (hk : (ho.service rules).Keeps i s s') :
    ho.Ends crates walker rules i r s' := by
  refine ⟨hr.outcome.keeps hk, hr.answered.keeps hk, fun input htask hpub reply hok => ?_⟩
  obtain ⟨bytes, he, hshown⟩ := hr.reported input htask hpub reply hok
  refine ⟨bytes, he, hshown.imp ?_ fun hs => ⟨hs.1.grown hk.grown, hs.2⟩⟩
  rintro ⟨content, hsaw, hshows⟩
  exact ⟨content, hsaw.grown hk.grown, hshows⟩

/-! ### Each of the tools -/

section
variable (hc : rules.Closed) {i : Fin n} {s : State h} (hi : (ho.service rules).Inv s)
include hc hi

theorem mutate_safe {request : Request} (htask : tasks i = .mutate request)
    (hfresh : ∀ p, (tasks i).target workspace = some p → (tasks i).Edits →
      w.entries (h.locate p) = none → rules.Heeds i) (hun : ∀ l, Service.Unput s i l) :
    ((Task.mutate request).run crates walker workspace : Op h _ _).Safe (step rules i) everywhere
      ((ho.service rules).contract i) (ho.Ends crates walker rules i) s := by
  have hp : (ho.service rules).path i = some (workspace.pathOf request) := by
    show (tasks i).target workspace = _
    rw [htask]
    rfl
  have hd : (ho.service rules).Durably rules i (workspace.pathOf request) workspace.durability :=
    ⟨Iff.rfl, fun hlast => ⟨hlast.1, hlast.2.1 _ hp, hlast.2.2⟩⟩
  have hsited : ((tasks i).Edits → w.entries (h.locate (workspace.pathOf request)) ≠ none) →
      (ho.service rules).Sited (h.locate (workspace.pathOf request)) request := by
    rw [htask]
    intro hs
    cases request with
    | edit input => exact hs trivial
    | write input => trivial
  have hserve := Service.serve_safe hc hp hd request rfl rfl hi (hun _)
    (fun hno => by
      by_contra hheeds
      exact hno (hsited fun hedits hnone => hheeds (hfresh _ hp hedits hnone)))
    fun old bytes response ha => ⟨.mutated response, request, response, bytes, htask, rfl, rfl, ha⟩
  have hends : ∀ {r s₁}, ho.Outcome rules i r s₁ → ho.Ends crates walker rules i r s₁ := fun hr =>
    ⟨hr, fun input he => (by rw [htask] at he; cases he), fun input he => by rw [htask] at he; cases he⟩
  refine Proc.safe_bind_of hserve (fun response s₁ hr => hends ?_) fun e s₁ hr => hends ?_
  · intro p hp'
    obtain rfl := Option.some.inj (hp.symm.trans hp')
    obtain ⟨-, ⟨_, he, -⟩ | ⟨old, bytes, _, he, hl, ha⟩⟩ := hr
    · cases he
    · cases he
      exact .inr ⟨_, old, bytes, rfl, hl, request, _, bytes, htask, rfl, rfl, ha⟩
  · intro p hp'
    obtain rfl := Option.some.inj (hp.symm.trans hp')
    obtain ⟨-, ⟨_, he, hhalts⟩ | ⟨_, _, _, he, -⟩⟩ := hr <;> cases he
    exact .inl ⟨e, rfl, hhalts.mono hsited⟩

theorem read_safe {input : ReadRequest} (htask : tasks i = .read input) :
    ((Task.read input).run crates walker workspace : Op h _ _).Safe (step rules i) everywhere
      ((ho.service rules).contract i) (ho.Ends crates walker rules i) s := by
  have hends : ∀ {r s₁}, ho.Answered crates.quote rules i r s₁ → ho.Ends crates walker rules i r s₁ :=
    fun hr => ⟨fun p hp => (by rw [htask] at hp; cases hp), hr,
      fun input he => by rw [htask] at he; cases he⟩
  refine Proc.safe_bind_of (Service.read_safe hc hi) (fun bytes s₁ hr => hends ?_)
    fun e s₁ hr => hends ?_ <;> rintro input' he hb hpub <;> rw [htask, Task.read.injEq] at he <;> subst he
  · exact ⟨_, rfl, hr hb hpub⟩
  · exact ⟨.error e, rfl, hr hb hpub⟩

theorem grep_safe {input : GrepRequest} (htask : tasks i = .grep input) :
    ((Task.grep input).run crates walker workspace : Op h _ _).Safe (step rules i) everywhere
      ((ho.service rules).contract i) (ho.Ends crates walker rules i) s := by
  have hends : ∀ {r s₁}, Reported workspace tasks w crates walker i r s₁ →
      ho.Ends crates walker rules i r s₁ := fun hr =>
    ⟨fun p hp => (by rw [htask] at hp; cases hp), fun input he => (by rw [htask] at he; cases he), hr⟩
  refine Proc.safe_bind_of (Service.grep_safe hc hi) (fun bytes s₁ hr => hends ?_)
    fun e s₁ hr => hends fun _ _ _ _ => nofun
  rintro input' he hpub reply ⟨⟩
  rw [htask, Task.grep.injEq] at he
  subst he
  exact ⟨bytes, rfl, hr hpub bytes rfl⟩

theorem glob_safe {input : GlobRequest} (htask : tasks i = .glob input) :
    ((Task.glob input).run crates walker workspace : Op h _ _).Safe (step rules i) everywhere
      ((ho.service rules).contract i) (ho.Ends crates walker rules i) s := by
  have hends : ∀ {r s₁}, ho.Ends crates walker rules i r s₁ :=
    ⟨fun p hp => (by rw [htask] at hp; cases hp), fun input he => (by rw [htask] at he; cases he),
      fun input he => by rw [htask] at he; cases he⟩
  have hrun : (Glob.run crates walker workspace input : Op h _ _).Within Service.modestly Anything Anything :=
    ((Glob.meets_run _ _).mono (fun _ h => h) fun _ _ => trivial).within
      (Service.modest_of_calm (Glob.run_calm crates walker workspace input))
  exact Proc.safe_bind_of (Service.modestly_safe hc hrun hi) (fun _ _ _ => hends) fun _ _ _ => hends

end

/-- **A task of the server** among others. -/
theorem run_safe (hc : rules.Closed) (i : Fin n) {s : State h} (hi : (ho.service rules).Inv s)
    (hfresh : ∀ p, (tasks i).target workspace = some p → (tasks i).Edits →
      w.entries (h.locate p) = none → rules.Heeds i) (hun : ∀ l, Service.Unput s i l) :
    ((tasks i).run crates walker workspace : Op h _ _).Safe (step rules i) everywhere
      ((ho.service rules).contract i) (ho.Ends crates walker rules i) s := by
  rcases htask : tasks i with request | input | input | input
  · exact ho.mutate_safe hc hi htask hfresh hun
  · exact ho.read_safe hc hi htask
  · exact ho.grep_safe hc hi htask
  · exact ho.glob_safe hc hi htask

/-- Rules that settle alike are of one service. -/
theorem service_eq {rules' : Rules h} (hsettles : rules'.Settles ↔ rules.Settles) :
    ho.service rules' = ho.service rules := by
  unfold service
  simp only [hsettles]

variable {ho} in
theorem Ends.of_service {rules' : Rules h} (hservice : ho.service rules' = ho.service rules) {i : Fin n}
    {r : Exec ProtocolError Reply} {s : State h} (hr : ho.Ends crates walker rules' i r s) :
    ho.Ends crates walker rules i r s := by
  refine ⟨fun p hp => ?_, fun input htask hb hpub => ?_, hr.reported⟩
  · rw [← hservice]
    exact hr.outcome p hp
  · rw [← hservice]
    exact hr.answered input htask hb hpub

/-- **What holds whenever the pool is looked at**, where each thread has rules of its own. -/
theorem sound {rs : Fin n → Rules h} (hc : ∀ i, (rs i).Closed)
    (hsettles : ∀ i, (rs i).Settles ↔ rules.Settles)
    (hfresh : ∀ i p, (tasks i).target workspace = some p → (tasks i).Edits →
      w.entries (h.locate p) = none → (rs i).Heeds i) {ms : List (Fin n × Choice)}
    {P : Pool (Fin n) (Call h) Answer _ (State h)}
    (hruns : (taskPool crates walker workspace tasks w).runs (fun i : Fin n => step (rs i) i) everywhere ms =
      some P) :
    (ho.service rules).Inv P.state ∧ ∀ i r, P.threads i = .ret r →
      ho.Ends crates walker rules i r P.state := by
  have hfits : Pool.Fits (fun i : Fin n => (ho.service rules).contract i) (ho.service rules).Inv
      (ho.Ends crates walker rules) := by
    refine ⟨fun _ => rfl, fun i s => .refl i s, fun i _ _ _ => .trans, fun i j s s' hne hg => ?_,
      fun i r s s' hk _ hr => hr.keeps hk⟩
    exact hg j hne.symm
  have hsound : Pool.Sound (fun i : Fin n => step (rs i) i) everywhere
      (fun i : Fin n => (ho.service rules).contract i) (ho.service rules).Inv (ho.Ends crates walker rules)
      (taskPool crates walker workspace tasks w) := by
    refine ⟨ho.start, fun i => ?_, fun i _ => ?_⟩
    · have hservice := ho.service_eq (hsettles i)
      have hrun : ((tasks i).run crates walker workspace : Op h _ _).Safe (step (rs i) i) everywhere
          ((ho.service (rs i)).contract i) (ho.Ends crates walker rules i) ⟨w, []⟩ :=
        Proc.safe_mono (ho.run_safe (hc i) i ho.start (hfresh i) fun l c hcl => (List.not_mem_nil hcl).elim)
          fun r s hr => hr.of_service hservice
      rwa [hservice] at hrun
    · rcases (taskPool crates walker workspace tasks w).threads i <;> rfl
  have hsound' := Pool.Sound.runs hfits hsound hruns
  refine ⟨hsound'.inv, fun i r hret => ?_⟩
  have hsafe := hsound'.safe i
  rw [hret] at hsafe
  exact hsafe

variable {ho} {s : State h} {l : Loc}

/-- Who put what is on record, with what each is told. -/
theorem recorded (hi : (ho.service rules).Inv s) (hl : ¬h.IsTemp w.counter l) :
    ∃ (latest : List (Fin n)) (reply : Fin n → Reply), latest.Nodup ∧
      List.Forall₂ (fun (c : Change ℕ (Option Bytes)) (i : Fin n) => c.who = i.val ∧
        (∃ p, (tasks i).target workspace = some p ∧ h.locate p = l) ∧
        (tasks i).Does h.contentId c.old (reply i) c.new) (s.ledger l) latest := by
  have honce : ∀ c ∈ s.ledger l, ∀ d ∈ s.ledger l, c.who = d.who → c = d := fun c hcl d hd =>
    List.inj_on_of_nodup_map (hi.once l hl) hcl hd
  -- who put something there put it once
  have hreply : ∀ i : Fin n, ∃ reply, ∀ c ∈ s.ledger l, c.who = i.val →
      (∃ p, (tasks i).target workspace = some p ∧ h.locate p = l) ∧
        (tasks i).Does h.contentId c.old reply c.new := by
    intro i
    by_cases hex : ∃ c ∈ s.ledger l, c.who = i.val
    · obtain ⟨c, hcl, hwho⟩ := hex
      obtain ⟨j, hj, hp, bytes, hnew, reply, hdoes⟩ := hi.rightly l hl c hcl
      obtain rfl := Fin.ext (hj.symm.trans hwho)
      refine ⟨reply, fun d hd hwho' => ?_⟩
      rw [← honce c hcl d hd (hwho.trans hwho'.symm), hnew]
      exact ⟨hp, hdoes⟩
    · exact ⟨.text [], fun c hcl hwho => absurd ⟨c, hcl, hwho⟩ hex⟩
  choose reply hreply using hreply
  obtain ⟨latest, hlatest⟩ : (s.ledger l).map (·.who) ∈ Set.range (List.map (Fin.val : Fin n → ℕ)) := by
    rw [Set.range_list_map]
    intro k hk
    obtain ⟨c, hcl, rfl⟩ := List.mem_map.1 hk
    obtain ⟨j, hj, -⟩ := hi.rightly l hl c hcl
    exact ⟨j, hj.symm⟩
  have heq : List.Forall₂ (fun (c : Change ℕ (Option Bytes)) (i : Fin n) => c.who = i.val) (s.ledger l)
      latest := by
    rw [← List.forall₂_map_left_iff (f := fun c : Change ℕ (Option Bytes) => c.who)
      (R := fun k (i : Fin n) => k = i.val), ← List.forall₂_map_right_iff (R := Eq), hlatest]
    exact List.forall₂_refl _
  refine ⟨latest, reply, List.Nodup.of_map Fin.val ?_, ?_⟩
  · rw [hlatest]
    exact hi.once l hl
  · exact ((List.forall₂_and_left _ _).2 ⟨fun c hcl => hcl, heq⟩).imp fun c i hci =>
      ⟨hci.2, hreply i c hci.1 hci.2⟩

end Seemly

/-! ### A record and those it is of -/

section
variable {P : Change ℕ (Option Bytes) → Fin n → Prop} {log : List (Change ℕ (Option Bytes))}
  {latest : List (Fin n)} (hf : List.Forall₂ (fun c i => c.who = i.val ∧ P c i) log latest)
include hf

theorem who_of_record : latest.map Fin.val = log.map (·.who) := by
  induction hf with
  | nil => rfl
  | cons hc _ ih => rw [List.map_cons, List.map_cons, ih, hc.1]

theorem mem_of_record {i : Fin n} : i ∈ latest ↔ ∃ c ∈ log, c.who = i.val := by
  rw [← List.mem_map_of_injective Fin.val_injective, who_of_record hf, List.mem_map]

theorem of_record {c : Change ℕ (Option Bytes)} (hc : c ∈ log) {i : Fin n} (hw : c.who = i.val) :
    P c i := by
  induction hf with
  | nil => cases hc
  | cons h _ ih =>
    rcases List.mem_cons.1 hc with rfl | hc
    · obtain rfl := Fin.ext (hw.symm.trans h.1)
      exact h.2
    · exact ih hc

end

/-- **A mutation that has returned** is on record with its answer, or it is an error and is not. -/
theorem Seemly.replied {workspace : Workspace} {tasks : Fin n → Task} {w : World h}
    {ho : Seemly workspace tasks w} {rules : Rules h} {s : State h} {latest : List (Fin n)}
    {reply : Fin n → Reply} {i : Fin n} {p : PathBuf} {r : Exec ProtocolError Reply}
    (hrecord : List.Forall₂ (fun (c : Change ℕ (Option Bytes)) (i : Fin n) => c.who = i.val ∧
      (∃ q, (tasks i).target workspace = some q ∧ h.locate q = h.locate p) ∧
      (tasks i).Does h.contentId c.old (reply i) c.new) (s.ledger (h.locate p)) latest)
    (hp : (tasks i).target workspace = some p) (hout : ho.Outcome rules i r s) :
    (∃ e, r = .error e) ∧ i ∉ latest ∨ r = .ok (reply i) ∧ i ∈ latest := by
  rcases hout p hp with ⟨e, he, hhalts⟩ | ⟨reply', old, bytes, hr, hlands, hdoes⟩
  · refine .inl ⟨⟨e, he⟩, fun hio => ?_⟩
    obtain ⟨c, hcl, hci⟩ := (mem_of_record hrecord).1 hio
    exact hhalts.unput c hcl hci
  · have hhas := hlands.has
    refine .inr ⟨?_, (mem_of_record hrecord).2 ⟨_, hhas, rfl⟩⟩
    rw [hr, hdoes.unique (of_record hrecord hhas rfl).2]

/-- What holds whenever a pool is looked at whose edits find their files. -/
theorem Orderly.sound {workspace : Workspace} {tasks : Fin n → Task} {w : World h} {rules : Rules h}
    {Overrides : Type} {crates : Crates Overrides} {walker : Walker h Overrides crates}
    (ho : Orderly workspace tasks w) (hc : rules.Closed) {ms : List (Fin n × Choice)}
    {P : Pool (Fin n) (Call h) Answer _ (State h)}
    (hruns : (taskPool crates walker workspace tasks w).runs (fun i : Fin n => step rules i) everywhere ms =
      some P) :
    (ho.service rules).Inv P.state ∧ ∀ i r, P.threads i = .ret r →
      ho.Ends crates walker rules i r P.state :=
  ho.toSeemly.sound (fun _ => hc) (fun _ => Iff.rfl)
    (fun i p hp hedits hnone => absurd hnone (ho.there i p hp hedits)) hruns

/-- **Mutations take effect one after another**, whatever the schedule and at every moment: what stands
    at a place is what the mutations on record there leave when each is done alone, in that order, and
    answered as it is; every mutation that has returned is one of them, or an error. -/
theorem tasks_serialize {Overrides : Type} {crates : Crates Overrides} {walker : Walker h Overrides crates}
    {rules : Rules h} {workspace : Workspace} {tasks : Fin n → Task} {w : World h}
    (ho : Orderly workspace tasks w) (hc : rules.Closed) {ms : List (Fin n × Choice)}
    {P : Pool (Fin n) (Call h) Answer _ (State h)}
    (hruns : (taskPool crates walker workspace tasks w).runs (fun i : Fin n => step rules i) everywhere ms =
      some P) {l : Loc} (hl : ¬h.IsTemp w.counter l) :
    ∃ (order : List (Fin n)) (reply : Fin n → Reply),
      order.map Fin.val = ((P.state.ledger l).map (·.who)).reverse ∧ order.Nodup ∧
      (∀ i ∈ order, ∃ p, (tasks i).target workspace = some p ∧ h.locate p = l) ∧
      Serial (Task.Does h.contentId) (w.contentAt l) (order.map fun i => (tasks i, reply i))
        (P.state.world.contentAt l) ∧
      ∀ i p r, (tasks i).target workspace = some p → h.locate p = l → P.threads i = .ret r →
        (∃ e, r = .error e) ∧ i ∉ order ∨ r = .ok (reply i) ∧ i ∈ order := by
  obtain ⟨hi, hout⟩ := ho.sound hc hruns
  obtain ⟨latest, reply, hnodup, hrecord⟩ := Seemly.recorded hi hl
  refine ⟨latest.reverse, reply, by rw [List.map_reverse, who_of_record hrecord],
    List.nodup_reverse.2 hnodup, fun i hio => ?_, ?_, fun i p r hp hpl hret => ?_⟩
  · obtain ⟨c, hcl, hci⟩ := (mem_of_record hrecord).1 (List.mem_reverse.1 hio)
    exact (of_record hrecord hcl hci).1
  · rw [List.map_reverse]
    exact (hi.leads l hl).serial (List.forall₂_map_right_iff.2 (hrecord.imp fun c i hci => hci.2.2))
  · subst hpl
    rw [List.mem_reverse]
    exact Seemly.replied hrecord hp (hout i r hret).outcome

/-! ### A write and an edit of what it writes -/

/-- Nobody else takes a step, nothing fails, and a new file has a new inode. -/
def Rules.sole : Rules h := fun s c x =>
  x.events.isEmpty && x.fault.isNone && match c with
    | .createNew _ => (List.range s.world.next).all fun f => (s.world.files f).inode ≠ x.inode
    | _ => true

theorem Rules.sole_closed : (Rules.sole : Rules h).Closed := by
  refine ⟨fun s c x hr => ?_, fun s c x hr => ?_, fun s path x hr f hf => ?_⟩ <;>
    simp only [Rules.sole, Bool.and_eq_true, List.isEmpty_iff, Option.isNone_iff_eq_none] at hr
  · exact hr.1.1
  · rintro ⟨e, he, -⟩
    rw [hr.1.2] at he
    cases he
  · have hall := List.all_eq_true.1 hr.2 f (List.mem_range.2 hf)
    simpa using hall

theorem Rules.sole_settles : (Rules.sole : Rules h).Settles := fun s path x hr => by
  simp only [Rules.sole, Bool.and_eq_true, Option.isNone_iff_eq_none] at hr
  exact hr.1.2

/-- Two threads. -/
def sampleFirst : Fin 2 := ⟨0, Nat.two_pos⟩

def sampleSecond : Fin 2 := ⟨1, Nat.one_lt_two⟩

theorem valid_b : Utf8.Valid [98] := by decide

theorem valid_c : Utf8.Valid [99] := by decide

theorem one_le_u64Max : 1 ≤ u64Max := by decide

/-- Contents of one letter. -/
def sampleB : Str := ⟨[98], valid_b⟩

def sampleC : Str := ⟨[99], valid_c⟩

/-- Where a file starts. -/
def sampleStart : Position := ⟨1, 0, Nat.one_ne_zero, one_le_u64Max, Nat.zero_le u64Max⟩

/-- The first writes `b` over `a`, and the second puts a `c` before it. -/
def sampleTasks (i : Fin 2) : Task :=
  if i = sampleFirst then .mutate (.write ⟨"f", sampleB, .snapshot (Host.sample.contentId [97])⟩)
  else .mutate (.edit ⟨"f", Host.sample.contentId [98], [.replace sampleStart sampleStart sampleC]⟩)

theorem World.sample_named {content : Option Bytes} {l : Loc} (hl : l = Host.sample.locate ["w", "f"]) :
    ¬Host.sample.IsTemp (World.sample ["w", "f"] content).counter l := by
  rintro ⟨d, m, -, hname⟩
  have hlist := congrArg String.toList hname
  have hf : (Host.sample.locate ["w", "f"]).name = "f" := by decide
  rw [toList_tempName, hl, hf] at hlist
  simp at hlist

/-- The places of tasks that mutate no other file can be told apart. -/
theorem World.sample_seemly {durability : Durability} {tasks : Fin n → Task} {content : Option Bytes}
    (htarget : ∀ i p, (tasks i).target ⟨["w"], false, durability⟩ = some p → p = ["w", "f"]) :
    Seemly ⟨["w"], false, durability⟩ tasks (World.sample ["w", "f"] content) := by
  refine ⟨World.sample_sane _ _, fun l hl => if_neg fun he => World.sample_named he hl,
    fun f g hf hg _ => ?_, fun i p hp => ?_, fun i j p q hp hq _ => ?_⟩
  · change f < 1 at hf
    change g < 1 at hg
    omega
  · rw [htarget i p hp]
    exact World.sample_named rfl
  · rw [htarget i p hp, htarget j q hq]

/-- Tasks that mutate no other file, which is there, are orderly. -/
theorem World.sample_orderly {durability : Durability} {tasks : Fin n → Task} {content : Bytes}
    (htarget : ∀ i p, (tasks i).target ⟨["w"], false, durability⟩ = some p → p = ["w", "f"]) :
    Orderly ⟨["w"], false, durability⟩ tasks (World.sample ["w", "f"] (some content)) := by
  refine ⟨World.sample_seemly htarget, fun i p hp _ => ?_⟩
  rw [htarget i p hp]
  simp [World.sample]

theorem sampleTasks_orderly (durability : Durability) :
    Orderly ⟨["w"], false, durability⟩ sampleTasks (World.sample ["w", "f"] (some [97])) := by
  have htarget : ∀ i, (sampleTasks i).target ⟨["w"], false, durability⟩ = some ["w", "f"] :=
    Fin.forall_fin_two.2 ⟨rfl, rfl⟩
  exact World.sample_orderly fun i p hp => Option.some.inj (hp.symm.trans (htarget i))

/-- The edit loads what is written before the write has returned. -/
def sampleTurns : List (Fin 2 × Choice) :=
  [(sampleFirst, 32, 2), (sampleSecond, 10, 3), (sampleFirst, 3, 2), (sampleSecond, 26, 3)].flatMap
    fun (m : Fin 2 × ℕ × ℕ) =>
    List.replicate m.2.1 (m.1, { amount := 9, inode := m.2.2 })

/-- Every thread has returned what it should. -/
def allReturned (good : Fin n → Exec ProtocolError Reply → Bool)
    (P : Pool (Fin n) (Call h) Answer (Exec ProtocolError Reply) (State h)) : Bool :=
  (List.finRange n).all fun i => match P.threads i with
    | .ret r => good i r
    | _ => false

theorem exists_returned (good : Fin n → Exec ProtocolError Reply → Bool)
    {o : Option (Pool (Fin n) (Call h) Answer (Exec ProtocolError Reply) (State h))}
    (ho : o.any (allReturned good) = true) : ∃ P, ∃ r : Fin n → Exec ProtocolError Reply,
      o = some P ∧ ∀ i, P.threads i = .ret (r i) ∧ good i (r i) = true := by
  obtain ⟨P, rfl, hall⟩ := (Option.any_eq_true _ _).1 ho
  have hret : ∀ i, ∃ r, P.threads i = .ret r ∧ good i r = true := by
    intro i
    have hi := List.all_eq_true.1 hall i (List.mem_finRange i)
    split at hi
    · exact ⟨_, by assumption, hi⟩
    · cases hi
  choose r hr using hret
  exact ⟨P, r, rfl, hr⟩

theorem tasks_serialize_two : ∃ P, ∃ r : Fin 2 → Exec ProtocolError Reply,
    (taskPool Crates.sample Walker.sample ⟨["w"], false, .none⟩ sampleTasks
      (World.sample ["w", "f"] (some [97]))).runs (fun i : Fin 2 => step Rules.sole i) everywhere
        sampleTurns = some P ∧
    (∀ i, P.threads i = .ret (r i)) ∧ (∀ i, (r i).isOk = true) ∧
    ∃ (order : List (Fin 2)) (reply : Fin 2 → Reply),
      order.map Fin.val = ((P.state.ledger (Host.sample.locate ["w", "f"])).map (·.who)).reverse ∧
      order.Nodup ∧
      (∀ i ∈ order, ∃ p, (sampleTasks i).target ⟨["w"], false, .none⟩ = some p ∧
        Host.sample.locate p = Host.sample.locate ["w", "f"]) ∧
      Serial (Task.Does Host.sample.contentId) (some [97]) (order.map fun i => (sampleTasks i, reply i))
        (P.state.world.contentAt (Host.sample.locate ["w", "f"])) ∧
      ∀ i p r, (sampleTasks i).target ⟨["w"], false, .none⟩ = some p →
        Host.sample.locate p = Host.sample.locate ["w", "f"] → P.threads i = .ret r →
        (∃ e, r = .error e) ∧ i ∉ order ∨ r = .ok (reply i) ∧ i ∈ order := by
  have hreturned : ((taskPool Crates.sample Walker.sample ⟨["w"], false, .none⟩ sampleTasks
      (World.sample ["w", "f"] (some [97]))).runs (fun i : Fin 2 => step Rules.sole i) everywhere
        sampleTurns).any (allReturned fun _ r => r.isOk) = true := by decide +kernel
  obtain ⟨P, r, hruns, hend⟩ := exists_returned _ hreturned
  exact ⟨P, r, hruns, fun i => (hend i).1, fun i => (hend i).2,
    tasks_serialize (sampleTasks_orderly _) Rules.sole_closed hruns fun hl =>
      (sampleTasks_orderly .none).named 0 ["w", "f"] rfl hl⟩

end Hashline
