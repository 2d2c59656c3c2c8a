/-
  Nothing panics: whatever the calls answer, loads, reads, searches and
  listings end in a value or an error.
-/
import Hashline.Payload
import Hashline.Tools

namespace Hashline

open Machine

variable {h : Host} {ε : Type}

/-! ## Loading -/

theorem meets_readToEnd {E : ε → Prop} {f limit : ℕ} : ∀ (rounds : ℕ) (bytes : Bytes),
    (readToEnd f limit rounds bytes : Op h ε _).Meets Anything E
  | 0, bytes => trivial
  | rounds + 1, bytes => by
    rw [readToEnd]
    split_ifs
    · trivial
    · refine Proc.meets_call fun a => ?_
      change Except IoError Bytes at a
      rcases a with e | chunk
      · trivial
      · show Proc.Meets _ _ (if chunk = [] then _ else _)
        split_ifs
        · trivial
        · exact meets_readToEnd rounds _

theorem meets_readVec {E : ε → Prop} (f size : ℕ) :
    (readVec f size : Op h ε _).Meets Anything E := by
  refine Proc.meets_call fun granted => ?_
  cases granted with
  | false => trivial
  | true =>
    refine (meets_readToEnd _ _).bind fun r _ => ?_
    rcases r with e | bytes
    · trivial
    · show Proc.Meets _ _ (if _ then _ else _)
      split_ifs <;> trivial

/-- A file is read, or the error is an answer. -/
theorem meets_fsRead {E : ε → Prop} (path : PathBuf) :
    (fsRead path : Op h ε _).Meets Anything E := by
  refine Proc.meets_call fun a => ?_
  change Except IoError ℕ at a
  rcases a with e | f
  · trivial
  · refine Proc.meets_call fun a => ?_
    change Except IoError Metadata at a
    rcases a with e | metadata
    · exact meets_readVec f 0
    · exact meets_readVec f metadata.len

theorem meets_fromMetadata (metadata : Metadata) :
    (Op.fromMetadata metadata : Op h ε _).Meets Anything Anything := fun _ => trivial

/-- What a contract refuses is an error. -/
theorem meets_contract {α : Type} {r : Exec ContractError α} (hr : r.NoPanic) :
    (Proc.ofExec (r.mapErr SnapshotError.contract) : Op h SnapshotError α).Meets Anything Anything :=
  hr.meets.mapErr fun _ _ => trivial

/-- What is looked up, or fails. -/
theorem meets_orElse_any {α δ : Type} {f : δ → ε} (r : Except δ α) :
    (Proc.orElse f r : Op h ε α).Meets Anything Anything :=
  Proc.meets_orElse (fun _ _ => trivial) fun _ _ => trivial

namespace Snapshot

theorem meets_growBy (capacity : ℕ) (bytes chunk : Bytes) :
    (growBy capacity bytes chunk : Op h _ _).Meets Anything Anything := by
  refine (meets_contract (noPanic_validateFileSize _)).bind fun _ _ => ?_
  split_ifs
  · refine Proc.meets_call fun granted => ?_
    cases granted <;> trivial
  · trivial

theorem meets_readLoop (path : PathBuf) (f : ℕ) : ∀ (rounds capacity : ℕ) (bytes : Bytes),
    (readLoop path f rounds capacity bytes : Op h _ _).Meets Anything Anything
  | 0, _, _ => trivial
  | rounds + 1, capacity, bytes => by
    refine Proc.meets_call fun a => (meets_orElse_any _).bind fun chunk _ => ?_
    split_ifs
    · trivial
    · exact (meets_growBy _ _ _).bind fun capacity _ => meets_readLoop path f rounds capacity _

theorem meets_pathStamp (path : PathBuf) : (pathStamp path : Op h _ _).Meets Anything Anything := by
  refine Proc.meets_call fun a => ?_
  change Except IoError Metadata at a
  rcases a with e | metadata
  · show Proc.Meets _ _ (if _ then _ else _)
    split_ifs <;> trivial
  · exact (meets_fromMetadata _).bind fun _ _ => trivial

theorem meets_confirmed (path : PathBuf) (after : FileStamp) (bytes : Bytes) :
    (confirmed path after bytes : Op h _ _).Meets Anything Anything := by
  unfold confirmed
  split_ifs
  · refine (meets_fsRead path).bind fun r _ => ?_
    rcases r with e | reread
    · show Proc.Meets _ _ (if _ then _ else _)
      split_ifs <;> trivial
    · trivial
  · trivial

theorem meets_judge (path : PathBuf) (before after : FileStamp) (bytes : Bytes) :
    (judge path before after bytes : Op h _ _).Meets Anything Anything := by
  refine (meets_pathStamp path).bind fun _ _ => ?_
  split_ifs
  · trivial
  · refine (meets_confirmed path after bytes).bind fun ok _ => ?_
    cases ok with
    | false => trivial
    | true => exact (meets_contract ValidatedText.noPanic_tryFromBytes).bind fun _ _ => trivial

theorem meets_readCandidate (path : PathBuf) :
    (readCandidate path : Op h _ _).Meets Anything Anything := by
  refine Proc.meets_call fun a => (meets_orElse_any _).bind fun f _ => ?_
  refine Proc.meets_call fun a => (meets_orElse_any _).bind fun metadata _ => ?_
  refine (meets_fromMetadata _).bind fun before _ => ?_
  refine (meets_contract (noPanic_validateFileSize _)).bind fun _ _ => ?_
  refine Proc.meets_call fun granted => ?_
  cases granted with
  | false => trivial
  | true =>
    refine (meets_readLoop path f _ _ _).bind fun bytes _ => ?_
    refine Proc.meets_call fun a => (meets_orElse_any _).bind fun metadata _ => ?_
    exact (meets_fromMetadata _).bind fun after _ => meets_judge path before after bytes

theorem noPanic_fromValidatedWithStamp {contentId : Bytes → SnapshotId} (text : ValidatedText)
    (stamp : Option FileStamp) :
    (fromValidatedWithStamp text stamp : Exec _ (Snapshot contentId)).NoPanic := by
  unfold fromValidatedWithStamp
  split
  · exact Exec.noPanic_fail _
  · exact Exec.noPanic_ok _

theorem meets_loadAttempts (path : PathBuf) : ∀ attempts : ℕ,
    (loadAttempts path attempts : Op h _ _).Meets Anything Anything
  | 0 => trivial
  | attempts + 1 => by
    refine (meets_readCandidate path).bind fun candidate _ => ?_
    rcases candidate with _ | ⟨text, stamp⟩
    · exact meets_loadAttempts path attempts
    · exact (noPanic_fromValidatedWithStamp text (some stamp)).meets

/-- **A load ends in a snapshot or an error.** -/
theorem meets_load (path : PathBuf) : (load path : Op h _ _).Meets Anything Anything :=
  Proc.meets_call fun _ => meets_loadAttempts path _

end Snapshot

/-! ## The cache -/

namespace SnapshotCache

theorem meets_currentStamp (path : PathBuf) :
    (currentStamp path : Op h _ _).Meets Anything Anything := by
  refine Proc.meets_call fun a => ?_
  change Except IoError Metadata at a
  rcases a with e | metadata
  · trivial
  · exact (meets_fromMetadata _).bind fun _ _ => trivial

theorem meets_provedBy (snapshot : Snapshot h.contentId) (entryStamp : FileStamp) (f : ℕ) :
    (provedBy snapshot entryStamp f).Meets Anything Anything := by
  refine Proc.meets_call fun a => ?_
  change Except IoError Metadata at a
  rcases a with e | metadata
  · trivial
  · refine (meets_fromMetadata _).bind fun before _ => ?_
    split_ifs
    · trivial
    · refine (meets_readToEnd _ _).bind fun r _ => ?_
      rcases r with e | bytes
      · trivial
      · refine Proc.meets_call fun a => ?_
        change Except IoError Metadata at a
        rcases a with e | metadata
        · trivial
        · exact (meets_fromMetadata _).bind fun _ _ => trivial

theorem meets_verifyRacyResident (path : PathBuf) :
    (verifyRacyResident path : Op h _ _).Meets Anything Anything := by
  refine Proc.meets_call fun a => ?_
  change Option (Snapshot h.contentId × FileStamp) at a
  rcases a with _ | ⟨snapshot, entryStamp⟩
  · trivial
  · refine Proc.meets_call fun a => ?_
    change Except IoError ℕ at a
    rcases a with e | f
    · trivial
    · refine (meets_provedBy snapshot entryStamp f).bind fun r _ => ?_
      rcases r with _ | after
      · trivial
      · exact Proc.meets_call fun _ => trivial

theorem meets_freshResident (path : PathBuf) :
    (freshResident path : Op h _ _).Meets Anything Anything := by
  refine (meets_currentStamp path).bind fun stamp _ => ?_
  rcases stamp with _ | stamp
  · trivial
  · exact fun _ => trivial

variable {path : PathBuf} {loader : Op h SnapshotError (Snapshot h.contentId)}

theorem meets_loadCell (hl : loader.Meets Anything Anything) (cell : ℕ) :
    (loadCell path cell loader).Meets Anything Anything := by
  refine hl.attempt_bind (fun snapshot _ => ?_) fun error _ => ?_
  · exact Proc.meets_call fun _ => Proc.meets_call fun _ => Proc.meets_call fun _ =>
      Proc.meets_call fun _ => trivial
  · exact Proc.meets_call fun _ => Proc.meets_call fun _ => Proc.meets_call fun _ => trivial

theorem meets_loadOrWait (hl : loader.Meets Anything Anything) (cell : ℕ) :
    (loadOrWait path cell loader).Meets Anything Anything := by
  refine Proc.meets_call fun state => ?_
  change InflightState h.contentId at state
  rcases state with _ | (message | snapshot)
  · exact meets_loadCell hl cell
  · exact Proc.meets_call fun _ => trivial
  · exact Proc.meets_call fun _ => trivial

/-- **`get_or_load` ends in a snapshot or an error**, when its loader does. -/
theorem meets_getOrLoad (hl : loader.Meets Anything Anything) :
    (getOrLoad path loader).Meets Anything Anything := by
  refine (meets_freshResident path).bind fun hit _ => ?_
  rcases hit with _ | hit
  · refine (meets_verifyRacyResident path).bind fun hit _ => ?_
    rcases hit with _ | hit
    · refine (meets_currentStamp path).bind fun current _ => Proc.meets_call fun a => ?_
      change Snapshot h.contentId ⊕ ℕ at a
      rcases a with snapshot | cell
      · trivial
      · exact meets_loadOrWait hl cell
    · trivial
  · trivial

end SnapshotCache

/-! ## Read -/

section
variable {contentId : Bytes → SnapshotId} (snapshot : Snapshot contentId)

/-- Rows of lines there are. -/
theorem noPanic_rows {first last : ℕ} (h : 1 ≤ first) (hl : last ≤ snapshot.lineCount) :
    ((List.range' first (last + 1 - first)).mapM (pageRow true snapshot)).NoPanic := by
  obtain ⟨rows, hrows, -⟩ := Exec.mapM_view (pageRow true snapshot) ContextLine.view
    (lineView snapshot.bytes) (List.range' first (last + 1 - first)) fun line hline => by
      rw [List.mem_range'_1] at hline
      exact pageRow_eq snapshot (by omega) (by omega)
  rw [hrows]
  exact Exec.noPanic_ok _

/-- Rendering a page fails where the offsets cannot be built, and nowhere panics. -/
theorem noPanic_snapshotPage (granted : Bool) (path : String) (startLine limit : ℕ) :
    (snapshotPage granted snapshot path startLine limit).NoPanic := by
  have hheader : (SnapshotHeader.new path snapshot.id snapshot.lineCount snapshot.byteLen).NoPanic := by
    rw [snapshot.header_new]
    exact Exec.noPanic_ok _
  refine Exec.noPanic_bind (Exec.noPanic_mapErr hheader) fun header _ => ?_
  rcases snapshot.offsets_eq granted with ⟨rfl, offsets, ho, -⟩ | ⟨-, ho⟩
  · rw [ho, Exec.ok_bind]
    dsimp only
    have hfits := snapshot.fits
    set last := min (saturatingAdd (max startLine 1) (max limit 1) - 1) snapshot.lineCount with hlast
    split_ifs with hstart hmore
    · exact Exec.noPanic_ok _
    · obtain ⟨cursor, hcursor, -⟩ := pageCursor_eq snapshot hmore
      refine Exec.noPanic_bind ?_ fun _ _ => by rw [hcursor]; exact Exec.noPanic_ok _
      exact noPanic_rows snapshot (by omega) (by omega)
    · exact Exec.noPanic_bind (noPanic_rows snapshot (by omega) (by omega)) fun _ _ =>
        Exec.noPanic_ok _
  · rw [ho]; exact Exec.noPanic_fail _

theorem noPanic_renderSnapshotPage (quote : String → String) (granted : Bool) (path : String)
    (startLine limit : ℕ) :
    (renderSnapshotPage quote granted snapshot path startLine limit).NoPanic :=
  Exec.noPanic_bind (noPanic_snapshotPage snapshot granted path startLine limit) fun _ _ =>
    Exec.noPanic_ok _

/-- The start of a page: refused with a payload of the snapshot, or not. -/
theorem meets_pageStart (granted : Bool) (input : ReadRequest) :
    (pageStart granted snapshot input).Meets Anything
      (ProtocolError.Decided contentId snapshot.bytes) := by
  unfold pageStart
  rcases input.cursor with _ | cursor
  · trivial
  · show (validateCursorOnSnapshot granted snapshot input.path cursor).Meets _ _
    unfold validateCursorOnSnapshot
    split_ifs
    · trivial
    · rw [show snapshot.id = contentId snapshot.bytes from snapshot.id_eq]
      exact (meets_validateReferenceCursor _ _).bind fun _ _ => trivial

end

section
variable {E : ProtocolError → Prop}

/-- Confinement is refused without a payload. -/
theorem meets_resolvePath (workspace : Workspace) (path : String)
    (hE : ∀ reason, E (.new .rootEscape reason)) :
    (workspace.resolvePath path : Op h _ _).Meets (· = resolvePath workspace.root path) E := by
  have hancestor : ∀ n p, (existingAncestor n p : Op h _ _).Meets Anything Anything := by
    intro n
    induction n with
    | zero => exact fun _ => trivial
    | succ n ih =>
      intro p
      refine Proc.meets_call fun found => ?_
      change Bool at found
      cases found with
      | true => trivial
      | false =>
        rw [if_neg (by decide)]
        split
        · exact ih _
        · trivial
  have hconfine : ∀ root p, (confineToRoot root p : Op h _ _).Meets Anything Anything := by
    intro root p
    unfold confineToRoot
    split_ifs
    · trivial
    · refine (hancestor _ _).bind fun existing _ => Proc.meets_call fun canon => ?_
      refine (meets_orElse_any _).bind fun canon _ => ?_
      split_ifs <;> trivial
  refine Proc.Meets.mapErr (E := Anything) ?_ fun reason _ => hE reason
  show Proc.Meets _ _ (do
    if workspace.restrict then _
    pure _)
  split_ifs
  · exact ((hconfine _ _).mapErr fun _ _ => trivial).bind fun _ _ => rfl
  · rfl

/-- A panic on a blocking thread is an error. -/
theorem meets_spawnBlocking {α : Type} (operation : String) (path : PathBuf)
    (x : Op h ProtocolError α) : (spawnBlocking operation path x).Meets Anything Anything := by
  refine Proc.meets_onPanic ?_ trivial
  induction (x : Prog (Call h) Answer (Exec ProtocolError α)) with
  | ret r =>
    rcases r with (e | _) | a
    · exact .inr trivial
    · exact .inl rfl
    · exact .inr trivial
  | call c k ih => exact fun a => ih a

/-- On a blocking thread or not. -/
theorem meets_maybeBlocking {α : Type} {V : α → Prop} {blocking : Bool} {path : PathBuf}
    {x : Op h ProtocolError α} (hx : x.Meets V E) (hE : ∀ message, E (.new .io message)) :
    (Read.maybeBlocking blocking path x).Meets V E := by
  unfold Read.maybeBlocking
  split_ifs
  · exact hx.onPanic (hE _)
  · exact hx

end

theorem plain_io : ErrorCode.io.Plain := ⟨by decide, by decide⟩

namespace Read

theorem meets_load (path : PathBuf) :
    (load path : Op h _ _).Meets Anything ProtocolError.Consistent := by
  refine Proc.meets_call fun metadata => meets_maybeBlocking ?_ fun message =>
    ProtocolError.consistent_new plain_io message
  exact (SnapshotCache.meets_getOrLoad (Snapshot.meets_load path)).mapErr fun e _ =>
    snapshotProtocolError_consistent _ _ e

/-- The errors of a read that has its snapshot are about that snapshot. -/
theorem meets_answer (quote : String → String) (path : PathBuf) (input : ReadRequest)
    (snapshot : Snapshot h.contentId) : (answer quote path input snapshot).Meets Anything
      (ProtocolError.Decided h.contentId snapshot.bytes) := by
  refine Proc.meets_call fun granted => Proc.Meets.bind (V := Anything)
    (meets_pageStart snapshot granted input) fun startLine _ => ?_
  split_ifs
  · rcases input.cursor with _ | cursor
    · refine Proc.Meets.bind (V := Anything) (meets_ofContract ?_) fun _ _ => trivial
      rw [snapshot.header_new]
      trivial
    · exact ContractError.decided _
  · refine meets_maybeBlocking (Exec.Meets.mapErr
      (noPanic_renderSnapshotPage snapshot quote granted _ _ _).meets fun e _ =>
        ⟨snapshotProtocolError_consistent _ _ e, snapshotProtocolError_tells _ _ e⟩) fun message =>
        ⟨ProtocolError.consistent_new plain_io _, ProtocolError.tells_new _ _⟩

/-- **`read` ends in a page or a consistent error.** -/
theorem meets_run (quote : String → String) (workspace : Workspace) (input : ReadRequest) :
    (run quote workspace input : Op h _ _).Meets Anything ProtocolError.Consistent := by
  refine Proc.Meets.bind (V := Anything) (input.noPanic_validate.meets.mapErr fun e _ =>
    ProtocolError.consistent_new e.plain_code _) fun _ _ => ?_
  refine (meets_resolvePath workspace _ fun reason =>
    ProtocolError.consistent_new ⟨by decide, by decide⟩ reason).bind fun path _ => ?_
  refine (meets_load path).bind fun snapshot _ => ?_
  exact (meets_answer quote path input snapshot).mono (fun _ _ => trivial) fun e he => he.1

end Read

/-! ## The mutations -/

theorem Edit.meets_run (workspace : Workspace) (input : EditRequest) :
    (Edit.run workspace input : Op h _ _).Meets Anything Anything := by
  refine Proc.Meets.bind (V := Anything) (input.noPanic_validate.meets.mapErr fun _ _ => trivial)
    fun _ _ => ?_
  exact (meets_resolvePath workspace _ fun _ => trivial).bind fun path _ =>
    meets_spawnBlocking _ path _

theorem Write.meets_run (workspace : Workspace) (input : WriteRequest) :
    (Write.run workspace input : Op h _ _).Meets Anything Anything := by
  refine Proc.Meets.bind (V := Anything) (input.noPanic_validate.meets.mapErr fun _ _ => trivial)
    fun _ _ => ?_
  exact (meets_resolvePath workspace _ fun _ => trivial).bind fun path _ =>
    meets_spawnBlocking _ path _

/-! ## Grep -/

section
variable {contentId : Bytes → SnapshotId} {quote : String → String} {granted : Bool}
  {ctx : SearchContext}

/-- The policy lets a text through, and skips or refuses the rest. -/
theorem meets_classifyGrepText (bytes : Bytes) (target : GrepTarget) :
    (classifyGrepText bytes target).Meets (fun decision => ∀ text, decision = .search text →
      IsText bytes ∧ text.bytes = bytes) Anything := by
  unfold classifyGrepText
  have hv := meets_validateText bytes
  rcases h : validateText bytes with (error | _) | text
  · cases error <;> simp only <;> (try split_ifs) <;> simp [Anything]
  · exact absurd h (noPanic_validateText bytes)
  · rw [h] at hv
    rintro _ ⟨⟩; exact hv

theorem noPanic_renderHit {bytes : Bytes} (ht : IsText bytes) (rel : PathBuf) (matched : List ℕ) :
    (renderHit contentId quote granted ctx bytes rel matched).NoPanic := by
  cases granted with
  | true =>
    obtain ⟨hit, hhit, -⟩ := renderHit_eq_ok contentId quote ctx ht rel matched
    rw [hhit]
    exact Exec.noPanic_ok _
  | false =>
    unfold renderHit
    split_ifs
    · exact Exec.noPanic_ok _
    · have hsnap : (Snapshot.fromValidatedBytes bytes : Exec SnapshotError (Snapshot contentId)) = _ :=
        Snapshot.fromValidatedBytes_eq ht
      rw [hsnap, Exec.mapErr, Exec.ok_bind]
      rcases Snapshot.offsets_eq (.ofText ⟨bytes, ht⟩ none : Snapshot contentId) false with
        ⟨hf, -⟩ | ⟨-, ho⟩
      · cases hf
      · rw [ho]; exact Exec.noPanic_fail _

/-- **The search of one file** ends in a section, a skip or a consistent error. -/
theorem meets_searchFile (path rel : PathBuf) (target : GrepTarget) (content : Except IoError Bytes) :
    (searchFile contentId quote granted ctx path rel target content).Meets Anything
      ProtocolError.Consistent := by
  rcases content with source | bytes
  · cases target with
    | explicitFile =>
      show ProtocolError.Consistent (explicitReadError path source)
      unfold explicitReadError
      split <;> exact ProtocolError.consistent_new ⟨by decide, by decide⟩ _
    | treeEntry => trivial
  · refine ((meets_classifyGrepText bytes target).mapErr fun e _ =>
      ProtocolError.consistent_new e.plain_code _).bind fun decision hd => ?_
    rcases decision with text | _ | _
    · obtain ⟨ht, hb⟩ := hd text rfl
      show (searchText contentId quote granted ctx bytes rel (matchLines ctx.matcher text.bytes)).Meets
        _ _
      rcases matchLines ctx.matcher text.bytes with _ | _ | ⟨line, lines⟩
      · trivial
      · trivial
      · have hn : (renderHit contentId quote granted ctx bytes rel (line :: lines)).NoPanic :=
          noPanic_renderHit ht rel (line :: lines)
        rw [searchText]
        · rcases hr : renderHit contentId quote granted ctx bytes rel (line :: lines) with
            (_ | _) | hit
          · trivial
          · exact absurd hr hn
          · trivial
        · simp
    · trivial
    · trivial

/-- No worker panics, and the error that is kept is consistent. -/
theorem grepVisitor_quiet : Walk.Invariant (grepVisitor contentId quote granted ctx)
    fun _ _ s _ => s.panicked = false ∧ ∀ e ∈ s.error, e.Consistent where
  perm _ _ _ _ _ _ h := h
  visit seen e v vs s q h := by
    rcases e with _ | _ | ⟨rel, content⟩
    · exact h
    · exact h
    · have hfile : (searchFile contentId quote granted ctx (ctx.root ++ rel) rel .treeEntry
        content).Meets Anything ProtocolError.Consistent := meets_searchFile _ _ _ _
      simp only [grepVisitor]
      rcases hr : searchFile contentId quote granted ctx (ctx.root ++ rel) rel .treeEntry content with
        (error | _) | searched
      all_goals rw [hr] at hfile
      · refine ⟨h.1, fun e he => ?_⟩
        simp only [record] at he
        rcases hs : s.error with _ | e₀
        · rw [hs] at he; cases he; exact hfile
        · rw [hs] at he; cases he; exact h.2 _ hs
      · exact hfile.elim
      · cases searched <;> exact h
  leave seen v vs s q h := by
    simp only [grepVisitor]
    split_ifs <;> exact h

end

section
variable {Overrides : Type} {crates : Crates Overrides} {walker : Walker h Overrides crates}

/-- The walker's search ends without a panic. -/
theorem Walker.meets_collect (walker : Walker h Overrides crates) (ctx : SearchContext)
    (path : PathBuf) (overrides : Option Overrides) (maxMatches : ℕ) :
    ((walker.collect ctx path overrides).finish maxMatches).Meets Anything ProtocolError.Consistent := by
  obtain ⟨granted, workers, moves, w, hr, hend, hw⟩ := walker.collects ctx path overrides
  obtain ⟨_, _, ⟨hpanic, herror⟩, -⟩ := Walk.ended grepVisitor_quiet ⟨rfl, by simp [SearchShared.start]⟩
    hr hend
  rw [hw] at hpanic herror
  unfold SearchShared.finish
  rw [hpanic]
  rcases he : (walker.collect ctx path overrides).error with _ | error
  · trivial
  · exact herror error he

theorem plain_invalidPattern : ErrorCode.invalidPattern.Plain := ⟨by decide, by decide⟩

/-- The search of a tree ends in a report or a consistent error. -/
theorem Grep.meets_searchTree (ctx : SearchContext) (path : PathBuf) (input : GrepRequest) :
    (Grep.searchTree crates walker ctx path input).Meets Anything ProtocolError.Consistent := by
  refine Exec.Meets.bind (V := Anything) ?_ fun overrides _ => walker.meets_collect _ _ _ _
  unfold Grep.overrides
  split
  · trivial
  · split
    · trivial
    · exact ProtocolError.consistent_new plain_invalidPattern _

/-- **`grep` ends in a report or a consistent error.** -/
theorem Grep.meets_run (workspace : Workspace) (input : GrepRequest) :
    (Grep.run crates walker workspace input).Meets Anything ProtocolError.Consistent := by
  refine Proc.Meets.bind (V := Anything) (input.noPanic_validate.meets.mapErr fun e _ =>
    ProtocolError.consistent_new e.plain_code _) fun _ _ => ?_
  refine Proc.Meets.bind (V := Anything) (Proc.meets_orElse (fun _ _ => trivial) fun e _ =>
    ProtocolError.consistent_new plain_invalidPattern _) fun matcher _ => ?_
  refine (meets_resolvePath workspace _ fun reason =>
    ProtocolError.consistent_new ⟨by decide, by decide⟩ reason).bind fun path _ => ?_
  refine Proc.meets_call fun type => ?_
  refine Proc.Meets.bind (V := Anything) (Proc.meets_orElse (fun _ _ => trivial) fun e _ =>
    ProtocolError.consistent_new ⟨by decide, by decide⟩ _) fun type _ => ?_
  split_ifs
  · refine Proc.Meets.bind (V := Anything) ?_ fun _ _ => trivial
    refine (meets_fsRead path).bind fun content _ => Proc.meets_call fun granted => ?_
    refine Proc.Meets.bind (V := Anything) (Proc.meets_ofExec.2 (meets_searchFile _ _ _ _))
      fun searched _ => ?_
    cases searched <;> trivial
  · exact Proc.Meets.bind (V := Anything) (Grep.meets_searchTree _ path input) fun _ _ => trivial

/-- **`glob` ends in a listing or a consistent error.** -/
theorem Glob.meets_run (workspace : Workspace) (input : GlobRequest) :
    (Glob.run crates walker workspace input).Meets Anything ProtocolError.Consistent := by
  refine Proc.Meets.bind (V := Anything) (input.noPanic_validate.meets.mapErr fun e _ =>
    ProtocolError.consistent_new e.plain_code _) fun _ _ => ?_
  refine Proc.Meets.bind (V := Anything) (Proc.meets_orElse (fun _ _ => trivial) fun e _ =>
    ProtocolError.consistent_new plain_invalidPattern _) fun isMatch _ => ?_
  refine (meets_resolvePath workspace _ fun reason =>
    ProtocolError.consistent_new ⟨by decide, by decide⟩ reason).bind fun path _ => ?_
  refine Proc.meets_call fun type => ?_
  refine Proc.Meets.bind (V := Anything) (Proc.meets_orElse (fun _ _ => trivial) fun e _ =>
    ProtocolError.consistent_new ⟨by decide, by decide⟩ _) fun type _ => ?_
  split_ifs
  · exact ProtocolError.consistent_new ⟨by decide, by decide⟩ _
  · trivial

end

end Hashline
