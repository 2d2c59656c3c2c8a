/-
  One failure, one code: what `read`, `edit`, `write` and `grep` report of an
  object that is no text file, each free to run between any two calls of another.
-/
import Hashline.Dispatch
import Hashline.Flight

namespace Hashline

open Machine

variable {h : Host} {ε α : Type}

/-! ## The four tools -/

/-- A call of a tool that names a path. -/
inductive Access where
  | read (request : ReadRequest)
  | edit (request : EditRequest)
  | write (request : WriteRequest)
  | grep (request : GrepRequest)

namespace Access

def filePath : Access → String
  | read request => request.path
  | edit request | write request => request.filePath
  | grep request => request.path.getD "."

def run {Overrides : Type} (crates : Crates Overrides) (walker : Walker h Overrides crates)
    (workspace : Workspace) : Access → Op h ProtocolError Unit
  | read request => do
    let _ ← Read.run crates.quote workspace request
    pure ()
  | edit request => do
    let _ ← Edit.run workspace request
    pure ()
  | write request => do
    let _ ← Write.run workspace request
    pure ()
  | grep request => do
    let _ ← Grep.run crates walker workspace request
    pure ()

/-- Nothing is wrong with the request. -/
def Sound {Overrides : Type} (crates : Crates Overrides) : Access → Prop
  | read request => request.validate = .ok ()
  | edit request => request.validate = .ok ()
  | write request => request.validate = .ok ()
  | grep request => request.validate = .ok () ∧
      ∃ matcher, crates.buildMatcher request.pattern request.ignoreCase = .ok matcher

/-- A search is one of an explicit file, and of no tree. -/
def Explicit (object : Object) : Access → Prop
  | grep _ => object ≠ .directory ∧ object ≠ .special
  | _ => True

/-- The call is `grep`. -/
def Searches : Access → Prop
  | grep _ => True
  | _ => False

end Access

namespace Object

/-- The code that a failure because of the object is to have. -/
def code : Object → ErrorCode
  | missing => .notFound
  | directory | special | barred => .notAFile
  | hidden | denied => .permissionDenied
  | regular bytes => textCode bytes

/-- The code that `grep` finds for it: what cannot be looked at is not there. -/
def grepCode : Object → ErrorCode
  | hidden | barred => .notFound
  | object => object.code

/-- The code that a call finds for it which joins no other. -/
def foundCode (object : Object) : Access → ErrorCode
  | .grep _ => object.grepCode
  | _ => object.loadCode

variable {object : Object} {path : PathBuf} {w₀ : World h}

/-! ## The path -/

theorem resolvePath_within (workspace : Workspace) (name : String) :
    (workspace.resolvePath name : Op h _ _).Within (object.dialogue path w₀)
      (· = resolvePath workspace.root name) fun e => e.code = .rootEscape := by
  have hancestor : ∀ n p, (existingAncestor n p : Op h _ _).All (object.dialogue path w₀).call := by
    intro n
    induction n with
    | zero => exact fun p => Proc.all_fail _
    | succ n ih =>
      intro p
      refine (Proc.all_ask (c := Call.pathExists p) trivial).bind fun found => ?_
      change Bool at found
      cases found with
      | true => exact Proc.all_pure p
      | false =>
        rw [if_neg (by decide)]
        split
        · exact ih _
        · exact Proc.all_fail _
  have hconfine : ∀ root p,
      (confineToRoot root p : Op h _ _).All (object.dialogue path w₀).call := by
    intro root p
    unfold confineToRoot
    split_ifs
    · exact Proc.all_fail _
    · refine (hancestor _ _).bind fun existing => ?_
      refine (Proc.all_ask (c := Call.canonicalize existing) trivial).bind fun canon => ?_
      refine (Proc.all_orElse _ _).bind fun canon => ?_
      split_ifs
      · exact Proc.all_pure _
      · exact Proc.all_fail _
  refine (meets_resolvePath workspace name fun _ => rfl).within ?_
  refine Proc.All.mapErr ?_ _
  unfold Workspace.resolve
  split_ifs
  · exact ((hconfine _ _).mapErr _).bind fun _ => Proc.all_pure _
  · exact Proc.all_pure _

/-! ## The mutations -/

/-- An object that is there is not said to be missing. -/
theorem FailsAs.isNotFound {e : SnapshotError} (he : object.FailsAs e) (hm : object ≠ missing) :
    e.isNotFound = false := by
  have hcode : object.loadCode ≠ .notFound := by
    cases object with
    | missing => exact absurd rfl hm
    | hidden | directory | special | denied | barred => decide
    | regular bytes =>
      show textCode bytes ≠ _
      unfold textCode
      split_ifs <;> decide
  by_contra hn
  rw [Bool.not_eq_false] at hn
  cases e with
  | io operation p source =>
    have hk := he "" ""
    rw [snapshotProtocolError, if_pos (of_decide_eq_true hn)] at hk
    exact hcode hk.symm
  | _ => cases hn

section
variable (hu : object.Unloadable) (hat : object.At w₀ path) (hm : object ≠ missing)
include hu hat hm

/-- An edit of it fails with the code of a load. -/
theorem edit_within (input : EditRequest) (durability : Durability) :
    (Edit.runBlocking path input durability : Op h _ _).Within (object.dialogue path w₀)
      (fun _ => False) fun e => e.code = object.loadCode := by
  refine (load_within hu hat).attempt_bind (fun _ hfalse => hfalse.elim) fun e he => ?_
  show Proc.Within _ _ _ (if e.isNotFound = true then _ else _)
  rw [he.isNotFound hm, if_neg (by decide)]
  exact he _ _

/-- And so does a write over it. -/
theorem write_within (input : WriteRequest) (durability : Durability) :
    (Write.runBlocking path input durability : Op h _ _).Within (object.dialogue path w₀)
      (fun _ => False) fun e => e.code = object.loadCode := by
  refine Proc.Within.bind (V := fun _ => False) ?_ fun _ hfalse => hfalse.elim
  refine (load_within hu hat).attempt_bind (fun _ hfalse => hfalse.elim) fun e he => ?_
  show Proc.Within _ _ _ (if e.isNotFound = true then _ else _)
  rw [he.isNotFound hm, if_neg (by decide)]
  exact he _ _

end

/-! ## The search -/

section
variable {Overrides : Type} {crates : Crates Overrides}

/-- An explicit search of a file fails with the code of its bytes, or that it is denied. -/
theorem searchExplicit_within (hu : object.Unloadable) (hat : object.At w₀ path)
    (hfile : object = denied ∨ ∃ bytes, object = regular bytes) (ctx : SearchContext)
    (input : GrepRequest) :
    (Grep.searchExplicit crates ctx path input : Op h _ _).Within (object.dialogue path w₀)
      (fun _ => False) fun e => e.code = object.grepCode := by
  have hd : object ≠ directory := by rintro rfl; simp at hfile
  refine (within_of_reading (fsRead_reading hat hd)).bind fun r hr => ?_
  refine Proc.within_call trivial fun granted _ => ?_
  refine Proc.Within.bind (V := fun _ => False) ?_ fun _ hfalse => hfalse.elim
  show Exec.Meets _ _ (searchFile ..)
  rcases hr with ⟨e, rfl, hk⟩ | ⟨bytes, rfl, rfl⟩
  · rcases hfile with rfl | ⟨bytes, rfl⟩
    · have hkind : e.kind = .permissionDenied := (Option.some.inj hk).symm
      show (explicitReadError path e).code = _
      simp only [explicitReadError, hkind]
      rfl
    · cases hk
  · unfold searchFile
    refine Exec.Meets.bind (V := fun _ => False) ?_ fun _ hfalse => hfalse.elim
    refine Exec.Meets.mapErr (E := fun e => e.code = textCode bytes) ?_ fun e he => he
    have hv := validateText_code hu
    unfold classifyGrepText
    rcases h : validateText bytes with (error | _) | text
    · rw [h] at hv
      cases error <;> simp only [reduceCtorEq, if_false] <;> exact hv
    · rw [h] at hv; exact hv.elim
    · rw [h] at hv; exact hv.elim

variable {walker : Walker h Overrides crates} {workspace : Workspace}

/-- A search of what is no tree fails with the code that `grep` finds for it. -/
theorem grep_within (hu : object.Unloadable) (hat : object.At w₀ path) (hm : object ≠ missing)
    {request : GrepRequest} (hpath : resolvePath workspace.root (request.path.getD ".") = path) :
    (Grep.run crates walker workspace request : Op h _ _).Within (object.dialogue path w₀) Anything
      fun e => (Access.grep request).Sound crates → (Access.grep request).Explicit object →
        e.code = .rootEscape ∨ e.code = object.grepCode := by
  unfold Grep.run
  rcases hvalid : request.validate with (e | _) | _
  · exact fun hsound => by cases hvalid.symm.trans hsound.1
  · exact (request.noPanic_validate hvalid).elim
  rcases hmatcher : crates.buildMatcher request.pattern request.ignoreCase with e | matcher
  · exact fun hsound => by obtain ⟨-, _, he⟩ := hsound; cases hmatcher.symm.trans he
  refine ((resolvePath_within workspace _).mono (fun _ hp => hp) fun _ he _ _ => .inl he).bind
    fun p hp => ?_
  obtain rfl : p = path := hp.trans hpath
  refine Proc.within_call trivial fun a ha => ?_
  rcases ha rfl with ⟨e, rfl, hk⟩ | ⟨hk, f, hf, rfl⟩
  · refine fun _ hexplicit => .inr ?_
    cases object with
    | missing => exact absurd rfl hm
    | hidden | barred => rfl
    | directory | special | denied | regular _ => cases hk
  · show Proc.Within _ _ _ (if (w₀.files f).type = .regular then _ else _)
    have his := hat.file hf
    split_ifs with ht
    · have hfile : object = denied ∨ ∃ bytes, object = regular bytes := by
        cases object with
        | denied => exact .inl rfl
        | regular bytes => exact .inr ⟨bytes, rfl⟩
        | directory | special => rw [his.1] at ht; cases ht
        | missing | hidden | barred => cases hk
      refine Proc.Within.bind (V := fun _ => False) ?_ fun _ hfalse => hfalse.elim
      exact (searchExplicit_within hu hat hfile _ request).mono (fun _ h => h) fun _ he _ _ => .inr he
    · have htree : ¬(Access.grep request).Explicit object := by
        rintro ⟨hd, hs⟩
        cases object with
        | directory => exact hd rfl
        | special => exact hs rfl
        | denied => exact ht his.1
        | regular bytes => exact ht his.1.1
        | missing | hidden | barred => cases hk
      refine Proc.Within.bind (V := Anything) ?_ fun _ _ => trivial
      show Exec.Meets _ _ (Grep.searchTree crates walker _ p request)
      exact (Grep.meets_searchTree _ p request).mono (fun _ _ => trivial)
        fun _ _ _ hexplicit => absurd hexplicit htree

end

/-! ## Among other calls -/

section
variable {rules : Rules h} {who n₀ : ℕ} {s : State h} {Overrides : Type} {crates : Crates Overrides}
  {walker : Walker h Overrides crates} {workspace : Workspace} {access : Access}

/-- What a sound call reports of the object: what it finds, or where its read has joined a load that
    failed, `io`. -/
def Reports (object : Object) (crates : Crates Overrides) (access : Access) (who : ℕ)
    (r : Exec ProtocolError α) (s : State h) : Prop :=
  ∀ e, r = .error (.err e) → access.Sound crates → access.Explicit object → e.code = .rootEscape ∨
    (¬s.Joined who ∧ e.code = object.foundCode access) ∨
      (s.Joined who ∧ (∃ request, access = .read request) ∧ e.code = .io)

/-- A call that joins no load. -/
theorem reports_alone {r : Exec ProtocolError α} {V : α → Prop}
    (hr : r.Meets V fun e => access.Sound crates → access.Explicit object →
      e.code = .rootEscape ∨ e.code = object.foundCode access) (hs : ¬s.Joined who) :
    object.Reports crates access who r s := by
  rintro e rfl hsound hexplicit
  exact (hr hsound hexplicit).imp_right fun he => .inl ⟨hs, he⟩

variable (hstays : object.Stays path rules) (hat : object.At w₀ path) (hu : object.Unloadable)
include hstays hat hu

/-- A read of the path reports what its load fails with, or `io`. -/
theorem read_safe {request : ReadRequest} (hpath : resolvePath workspace.root request.path = path)
    (hs : ¬s.Joined who) : (Read.run crates.quote workspace request).Safe (step rules who) everywhere
      (vain path w₀ n₀ who) (object.Reports crates (.read request) who) s := by
  unfold Read.run
  rcases hvalid : request.validate with (e | _) | _
  · exact fun _ _ hsound => by cases hvalid.symm.trans hsound
  · exact nofun
  have hresolve : (workspace.resolvePath request.path : Op h _ _).Within (object.dialogue path w₀)
      (· = path) fun e => e.code = .rootEscape :=
    (resolvePath_within workspace _).mono (fun p hp => hp.trans hpath) fun _ he => he
  show Proc.Safe _ _ _ (workspace.resolvePath request.path >>= _) _ _
  refine Proc.safe_bind_of (hstays.safe hat hresolve hs) (fun p s₁ hr => ?_) fun e s₁ hr e' he _ _ => ?_
  swap
  · cases he
    exact .inl hr.1
  obtain ⟨rfl, hs₁⟩ := hr
  -- the snapshot is never there, and so the page is not either
  suffices hload : (Read.load p).Safe (step rules who) everywhere (vain p w₀ n₀ who)
      (fun r s' => (∃ e, r = .error (.err e)) ∧ object.Reports crates (.read request) who r s') s₁ by
    refine Proc.safe_bind_of hload (fun _ _ hr => ?_) fun e s₂ hr e' he => ?_
    · obtain ⟨⟨_, he⟩, -⟩ := hr
      cases he
    · cases he
      exact hr.2 e' rfl
  refine hstays.safe_skip (c := .stat p) trivial (fun _ _ _ _ _ hj => hj) fun metadata s₂ h₂ => ?_
  have hs₂ : ¬s₂.Joined who := by rw [h₂]; exact hs₁
  have hget : ((SnapshotCache.getOrLoad p (Snapshot.load p)).mapErr
      (snapshotProtocolError "read" p.display) : Op h _ _).Safe (step rules who) everywhere
      (vain p w₀ n₀ who) (fun r s' => (∃ e, r = .error (.err e)) ∧
        object.Reports crates (.read request) who r s') s₂ := by
    refine Prog.safe_bind.2 (Prog.safe_mono (getOrLoad_safe hstays hat hu hs₂) fun r s' hr => ?_)
    obtain ⟨e, rfl, hown, hjoined⟩ := hr
    refine ⟨⟨_, rfl⟩, fun e' he _ _ => ?_⟩
    cases he
    by_cases hj : s'.Joined who
    · exact .inr (.inr ⟨hj, ⟨request, rfl⟩, hjoined hj _ _⟩)
    · exact .inr (.inl ⟨hj, hown hj _ _⟩)
  show Proc.Safe _ _ _ (if _ then spawnBlocking _ _ _ else _) _ _
  split_ifs
  · exact Proc.safe_onPanic_of hget (fun _ _ hr => hr) fun s' hr => by
      obtain ⟨⟨_, he⟩, -⟩ := hr
      cases he
  · exact hget

/-- **What each tool reports of an object of which no snapshot can be had**, among other calls on it. -/
theorem access_safe (hm : object ≠ missing)
    (hpath : resolvePath workspace.root access.filePath = path) (hs : ¬s.Joined who) :
    (access.run crates walker workspace).Safe (step rules who) everywhere (vain path w₀ n₀ who)
      (object.Reports crates access who) s := by
  cases access with
  | read request =>
    refine Proc.safe_bind_of (read_safe hstays hat hu hpath hs) (fun _ _ _ => nofun)
      fun e s₁ hr e' he => ?_
    cases he
    exact hr e' rfl
  | edit request =>
    refine Proc.safe_mono (hstays.safe hat (V := Anything) ?_ hs) fun r s' hr =>
      reports_alone hr.1 hr.2
    refine Proc.Within.bind (V := Anything) ?_ fun _ _ => trivial
    unfold Edit.run
    rcases hvalid : request.validate with (e | _) | _
    · exact fun hsound => by cases hvalid.symm.trans hsound
    · exact (request.noPanic_validate hvalid).elim
    refine ((resolvePath_within workspace _).mono (fun _ hp => hp) fun _ he _ _ => .inl he).bind
      fun p hp => ?_
    obtain rfl : p = path := hp.trans hpath
    exact ((edit_within hu hat hm _ _).mono (fun _ hfalse => hfalse.elim)
      fun _ he _ _ => .inr he).onPanic _
  | write request =>
    refine Proc.safe_mono (hstays.safe hat (V := Anything) ?_ hs) fun r s' hr =>
      reports_alone hr.1 hr.2
    refine Proc.Within.bind (V := Anything) ?_ fun _ _ => trivial
    unfold Write.run
    rcases hvalid : request.validate with (e | _) | _
    · exact fun hsound => by cases hvalid.symm.trans hsound
    · exact (request.noPanic_validate hvalid).elim
    refine ((resolvePath_within workspace _).mono (fun _ hp => hp) fun _ he _ _ => .inl he).bind
      fun p hp => ?_
    obtain rfl : p = path := hp.trans hpath
    exact ((write_within hu hat hm _ _).mono (fun _ hfalse => hfalse.elim)
      fun _ he _ _ => .inr he).onPanic _
  | grep request =>
    refine Proc.safe_mono (hstays.safe hat (V := Anything) ?_ hs) fun r s' hr =>
      reports_alone hr.1 hr.2
    exact (grep_within hu hat hm hpath).bind fun _ _ => trivial

end

/-! ## Any number of calls -/

/-- Every thread calls a tool. -/
def accesses {Overrides : Type} (crates : Crates Overrides) (walker : Walker h Overrides crates)
    (workspace : ℕ → Workspace) (access : ℕ → Access) (w : World h) :
    Pool ℕ (Call h) Answer (Exec ProtocolError Unit) (State h) where
  threads i := (access i).run crates walker (workspace i)
  current := none
  state := ⟨w, []⟩

/-- The code that a load finds for the object is the one it is to have where it is a file that may be
    opened. -/
theorem loadCode_eq_code (hm : object ≠ missing) :
    object.loadCode = object.code ↔ ∃ bytes, object = regular bytes := by
  cases object with
  | missing => exact absurd rfl hm
  | regular bytes => exact ⟨fun _ => ⟨bytes, rfl⟩, fun _ => rfl⟩
  | _ => exact ⟨nofun, fun ⟨_, he⟩ => by cases he⟩

/-- `grep` knows denied files too. -/
theorem grepCode_eq_code (hd : object ≠ directory) (hs : object ≠ special) (hm : object ≠ missing) :
    object.grepCode = object.code ↔ (∃ bytes, object = regular bytes) ∨ object = denied := by
  cases object with
  | missing => exact absurd rfl hm
  | directory => exact absurd rfl hd
  | special => exact absurd rfl hs
  | regular bytes => exact ⟨fun _ => .inl ⟨bytes, rfl⟩, fun _ => rfl⟩
  | denied => exact ⟨fun _ => .inr rfl, fun _ => rfl⟩
  | hidden | barred => exact ⟨nofun, by simp⟩

theorem code_ne_io (object : Object) : object.code ≠ .io := by
  cases object with
  | regular bytes =>
    show textCode bytes ≠ _
    unfold textCode
    split_ifs <;> decide
  | _ => decide

/-- **A call reports the object by its code exactly where it finds a file that may be opened** (or a
    denied one, for `grep`) and has joined no load that failed: in every state that any schedule of any
    calls on the path reaches. -/
theorem alike_iff {Overrides : Type} {crates : Crates Overrides} {walker : Walker h Overrides crates}
    {rules : Rules h} (hstays : object.Stays path rules) (hu : object.Unloadable)
    (hm : object ≠ missing) {w : World h} (hat : object.At w path) (hidle : w.Idle path)
    (hcells : ∀ cell, w.nextCell ≤ cell → (w.cells cell).state = .pending)
    {workspace : ℕ → Workspace} {access : ℕ → Access}
    (hpath : ∀ i, resolvePath (workspace i).root (access i).filePath = path)
    {ms : List (ℕ × Choice)} {P : Pool ℕ (Call h) Answer _ (State h)}
    (hruns : (accesses crates walker workspace access w).runs (step rules) everywhere ms = some P)
    {i : ℕ} {e : ProtocolError} (hend : P.threads i = .ret (.error (.err e)))
    (hsound : (access i).Sound crates) (hexplicit : (access i).Explicit object)
    (hroot : e.code ≠ .rootEscape) :
    e.code = object.code ↔ ¬P.state.Joined i ∧
      ((∃ bytes, object = regular bytes) ∨ object = denied ∧ (access i).Searches) := by
  have hfits : Pool.Fits (vain path w w.nextCell)
      (fun s : State h => Flying path w w.nextCell s.world)
      (fun i (r : Exec ProtocolError Unit) s => object.Reports crates (access i) i r s) := by
    refine vain_fits fun i r s s' ho hr => ?_
    simp only [Reports, ho.joined_iff]
    exact hr
  have hstart : ∀ i, ¬(accesses crates walker workspace access w).state.Joined i := by
    rintro i ⟨d, hd, -⟩
    cases hd
  have hsound' : Pool.Sound (step rules) everywhere (vain path w w.nextCell)
      (fun s => Flying path w w.nextCell s.world)
      (fun i r s => object.Reports crates (access i) i r s)
      (accesses crates walker workspace access w) :=
    ⟨.start hidle hcells, fun i => access_safe hstays hat hu hm (hpath i) (hstart i),
      fun i _ => Prog.rests_everywhere _⟩
  have hsafe := (Pool.Sound.runs hfits hsound' hruns).safe i
  rw [hend] at hsafe
  rcases (hsafe e rfl hsound hexplicit).resolve_left hroot with ⟨hj, he⟩ | ⟨hj, -, he⟩
  · rw [he, and_iff_right hj]
    cases haccess : access i with
    | grep request =>
      rw [haccess] at hexplicit
      exact (grepCode_eq_code hexplicit.1 hexplicit.2 hm).trans
        (or_congr_right (and_iff_left trivial).symm)
    | read | edit | write =>
      exact (loadCode_eq_code hm).trans ⟨.inl, fun h => h.elim id fun h => h.2.elim⟩
  · rw [he]
    exact ⟨fun hio => absurd hio.symm object.code_ne_io, fun h => absurd hj h.1⟩

/-! ### Two reads of one file -/

/-- Every thread reads the path `f` of the workspace `w`. -/
def reads (w : World Host.sample) :
    Pool ℕ (Call Host.sample) Answer (Exec ProtocolError Unit) (State Host.sample) :=
  accesses Crates.sample Walker.sample (fun _ => ⟨["w"], false, .full⟩)
    (fun _ => .read ⟨"f", 2000, none, none⟩) w

/-- The code of the error that a thread has returned. -/
def reported : Prog (Call h) Answer (Exec ProtocolError Unit) → Option ErrorCode
  | .ret (.error (.err e)) => some e.code
  | _ => none

theorem error_of_reported {p : Prog (Call h) Answer (Exec ProtocolError Unit)} {code : ErrorCode}
    (hp : reported p = some code) : ∃ e, p = .ret (.error (.err e)) ∧ e.code = code := by
  unfold reported at hp
  split at hp
  · exact ⟨_, rfl, Option.some.inj hp⟩
  · cases hp

/-- The first thread reads, and the second joins its load. -/
def joining : List (ℕ × Choice) := turns 0 8 ++ turns 1 8 ++ turns 0 20 ++ turns 1 2

theorem reads_nul : ∃ P, (reads (World.sample ["w", "f"] (some [0]))).runs (step (refusing none))
    everywhere joining = some P ∧ reported (P.threads 0) = some .binaryFile ∧
      reported (P.threads 1) = some .io := by
  have hany : ((reads (World.sample ["w", "f"] (some [0]))).runs (step (refusing none)) everywhere
      joining).any (fun P => reported (P.threads 0) == some .binaryFile &&
        reported (P.threads 1) == some .io) = true := by decide +kernel
  obtain ⟨P, hruns, hcodes⟩ := (Option.any_eq_true _ _).1 hany
  rw [Bool.and_eq_true, beq_iff_eq, beq_iff_eq] at hcodes
  exact ⟨P, hruns, hcodes⟩

/-- Where the file has a NUL, the first read tells so, and the second joins its load. -/
theorem alike_nul : ∃ P e e',
    (reads (World.sample ["w", "f"] (some [0]))).runs (step (refusing none)) everywhere joining =
      some P ∧
    P.threads 0 = .ret (.error (.err e)) ∧ P.threads 1 = .ret (.error (.err e')) ∧
    (e.code = (regular [0]).code ↔ ¬P.state.Joined 0 ∧
      ((∃ bytes, regular [0] = regular bytes) ∨ regular [0] = denied ∧ False)) ∧
    (e'.code = (regular [0]).code ↔ ¬P.state.Joined 1 ∧
      ((∃ bytes, regular [0] = regular bytes) ∨ regular [0] = denied ∧ False)) := by
  have hstays : (regular [0]).Stays ["w", "f"] (refusing none : Rules Host.sample) :=
    refusing_stays (by simp) (by simp) (by simp)
  have hu : (regular [0]).Unloadable := fun ht => ht.nul List.mem_cons_self
  have hat : (regular [0]).At (World.sample ["w", "f"] (some [0])) ["w", "f"] :=
    ⟨⟨rfl, by decide⟩, rfl, by decide⟩
  obtain ⟨P, hruns, h₀, h₁⟩ := reads_nul
  obtain ⟨e, he, hcode⟩ := error_of_reported h₀
  obtain ⟨e', he', hcode'⟩ := error_of_reported h₁
  exact ⟨P, e, e', hruns, he, he',
    alike_iff hstays hu (by decide) hat ⟨rfl, rfl, rfl⟩ (fun _ _ => rfl) (fun _ => rfl) hruns he rfl
      trivial (by rw [hcode]; decide),
    alike_iff hstays hu (by decide) hat ⟨rfl, rfl, rfl⟩ (fun _ _ => rfl) (fun _ => rfl) hruns he' rfl
      trivial (by rw [hcode']; decide)⟩

/-- A directory can be opened, and then not be read: `read` finds it with `io`. And so does the read
    that joins another's of a file with a NUL. -/
theorem exists_misclassified :
    (∃ P e, (reads (holding .directory)).runs (step (refusing none)) everywhere (turns 0 18) = some P ∧
      P.threads 0 = .ret (.error (.err e)) ∧ e.code = .io ∧ directory.code = .notAFile) ∧
    ∃ P e e', (reads (World.sample ["w", "f"] (some [0]))).runs (step (refusing none)) everywhere
        joining = some P ∧
      P.threads 0 = .ret (.error (.err e)) ∧ P.threads 1 = .ret (.error (.err e')) ∧
      e.code = .binaryFile ∧ e'.code = .io := by
  constructor
  · have hany : ((reads (holding .directory)).runs (step (refusing none)) everywhere (turns 0 18)).any
        (fun P => reported (P.threads 0) == some .io) = true := by decide +kernel
    obtain ⟨P, hruns, hcode⟩ := (Option.any_eq_true _ _).1 hany
    obtain ⟨e, he, hcode⟩ := error_of_reported (beq_iff_eq.1 hcode)
    exact ⟨P, e, hruns, he, hcode, rfl⟩
  · obtain ⟨P, hruns, h₀, h₁⟩ := reads_nul
    obtain ⟨e, he, hcode⟩ := error_of_reported h₀
    obtain ⟨e', he', hcode'⟩ := error_of_reported h₁
    exact ⟨P, e, e', hruns, he, he', hcode, hcode'⟩

end Object

end Hashline
