/-
  The tools that read, by the calls they make: looking for a file and loading
  it changes nothing that others find.
-/
import Hashline.Cells
import Hashline.Deeds
import Hashline.Tools

namespace Hashline

open Machine

variable {h : Host} {ε : Type}

/-! ## The loader -/

theorem readToEnd_calm (f limit rounds : ℕ) (bytes : Bytes) :
    (readToEnd f limit rounds bytes : Op h ε _).All Call.Calm := by
  refine Prog.All.mono ?_ (readToEnd_all f limit rounds bytes)
  rintro _ ⟨_, _, rfl⟩
  trivial

theorem fromMetadata_calm (metadata : Metadata) : (Op.fromMetadata metadata : Op h ε _).All Call.Calm :=
  Proc.All.bind (Proc.all_ask trivial) fun _ => Proc.all_pure _

theorem fsRead_calm (path : PathBuf) : (fsRead path : Op h ε _).All Call.Calm := by
  have hvec : ∀ f size, (readVec f size : Op h ε _).All Call.Calm := by
    intro f size
    refine Proc.All.bind (Proc.all_ask trivial) fun reserved => ?_
    change Bool at reserved
    rcases reserved with _ | _
    · exact Proc.all_pure _
    refine Proc.All.bind (readToEnd_calm _ _ _ _) fun r => ?_
    rcases r with e | bytes
    · exact Proc.all_pure _
    · dsimp only
      split_ifs <;> exact Proc.all_pure _
  refine Proc.All.bind (Proc.all_ask trivial) fun a => ?_
  change Except IoError ℕ at a
  rcases a with e | f
  · exact Proc.all_pure _
  refine Proc.All.bind (Proc.all_ask trivial) fun a => ?_
  change Except IoError Metadata at a
  rcases a with e | metadata
  · exact hvec f 0
  · exact hvec f metadata.len

namespace Snapshot

theorem growBy_calm (capacity : ℕ) (bytes chunk : Bytes) :
    (growBy capacity bytes chunk : Op h _ _).All Call.Calm := by
  refine Proc.All.bind (Proc.all_ofExec _) fun _ => ?_
  split_ifs
  · refine Proc.All.bind (Proc.all_ask trivial) fun reserved => ?_
    change Bool at reserved
    rcases reserved with _ | _
    · exact Proc.all_fail _
    · exact Proc.all_pure _
  · exact Proc.all_pure _

theorem readLoop_calm (path : PathBuf) (f : ℕ) : ∀ (rounds capacity : ℕ) (bytes : Bytes),
    (readLoop path f rounds capacity bytes : Op h _ _).All Call.Calm
  | 0, _, bytes => Proc.all_fail _
  | rounds + 1, capacity, bytes => by
    refine Proc.All.bind (Proc.all_ask trivial) fun a => ?_
    refine Proc.All.bind (Proc.all_orElse _ _) fun chunk => ?_
    split_ifs
    · exact Proc.all_pure _
    · exact Proc.All.bind (growBy_calm capacity bytes chunk) fun capacity =>
        readLoop_calm path f rounds capacity _

/-- What is decided of a read. -/
theorem judge_calm (path : PathBuf) (before after : FileStamp) (bytes : Bytes) :
    (judge path before after bytes : Op h _ _).All Call.Calm := by
  have hstamp : (pathStamp path : Op h _ _).All Call.Calm := by
    refine Proc.All.bind (Proc.all_ask trivial) fun a => ?_
    change Except IoError Metadata at a
    rcases a with source | metadata
    · dsimp only
      split_ifs
      · exact Proc.all_pure _
      · exact Proc.all_fail _
    · exact (fromMetadata_calm _).bind fun _ => Proc.all_pure _
  have hconfirmed : (confirmed path after bytes : Op h _ _).All Call.Calm := by
    unfold confirmed
    split_ifs
    · refine Proc.All.bind (fsRead_calm path) fun r => ?_
      rcases r with source | reread
      · dsimp only
        split_ifs
        · exact Proc.all_pure _
        · exact Proc.all_fail _
      · exact Proc.all_pure _
    · exact Proc.all_pure _
  refine Proc.All.bind hstamp fun stamp => ?_
  split_ifs
  · exact Proc.all_pure _
  · refine Proc.All.bind hconfirmed fun proved => ?_
    split_ifs
    · exact Proc.All.bind (Proc.all_ofExec _) fun _ => Proc.all_pure _
    · exact Proc.all_pure _

theorem readCandidate_calm (path : PathBuf) : (readCandidate path : Op h _ _).All Call.Calm := by
  refine Proc.All.bind (Proc.all_ask trivial) fun a => ?_
  refine Proc.All.bind (Proc.all_orElse _ _) fun f => ?_
  refine Proc.All.bind (Proc.all_ask trivial) fun a => ?_
  refine Proc.All.bind (Proc.all_orElse _ _) fun metadata => ?_
  refine Proc.All.bind (fromMetadata_calm metadata) fun before => ?_
  refine Proc.All.bind (Proc.all_ofExec _) fun _ => ?_
  refine Proc.All.bind (Proc.all_ask trivial) fun reserved => ?_
  change Bool at reserved
  rcases reserved with _ | _
  · exact Proc.all_fail _
  refine Proc.All.bind (readLoop_calm path f _ _ _) fun bytes => ?_
  refine Proc.All.bind (Proc.all_ask trivial) fun a => ?_
  refine Proc.All.bind (Proc.all_orElse _ _) fun metadata => ?_
  exact Proc.All.bind (fromMetadata_calm metadata) fun after => judge_calm path before after bytes

theorem loadAttempts_calm (path : PathBuf) : ∀ attempts,
    (loadAttempts path attempts : Op h _ _).All Call.Calm
  | 0 => Proc.all_fail _
  | attempts + 1 => by
    refine Proc.All.bind (readCandidate_calm path) fun candidate => ?_
    rcases candidate with _ | ⟨text, stamp⟩
    · exact loadAttempts_calm path attempts
    · exact Proc.all_ofExec _

/-- **A load changes nothing.** -/
theorem load_calm (path : PathBuf) : (load path : Op h _ _).All Call.Calm :=
  Proc.All.bind (Proc.all_ask trivial) fun _ => loadAttempts_calm path _

end Snapshot

/-! ## The cache -/

namespace SnapshotCache

theorem currentStamp_calm (path : PathBuf) : (currentStamp path : Op h _ _).All Call.Calm := by
  refine Proc.All.bind (Proc.all_ask trivial) fun a => ?_
  change Except IoError Metadata at a
  rcases a with e | metadata
  · exact Proc.all_pure _
  · exact (fromMetadata_calm _).bind fun _ => Proc.all_pure _

theorem provedBy_calm (snapshot : Snapshot h.contentId) (entryStamp : FileStamp) (f : ℕ) :
    (provedBy snapshot entryStamp f).All Call.Calm := by
  refine Proc.All.bind (Proc.all_ask trivial) fun a => ?_
  change Except IoError Metadata at a
  rcases a with e | metadata
  · exact Proc.all_pure _
  refine Proc.All.bind (fromMetadata_calm metadata) fun before => ?_
  split_ifs
  · exact Proc.all_pure _
  · refine Proc.All.bind (readToEnd_calm f _ _ _) fun r => ?_
    rcases r with e | bytes
    · exact Proc.all_pure _
    refine Proc.All.bind (Proc.all_ask trivial) fun a => ?_
    change Except IoError Metadata at a
    rcases a with e | metadata
    · exact Proc.all_pure _
    · exact (fromMetadata_calm _).bind fun _ => Proc.all_pure _

theorem freshResident_calm (path : PathBuf) : (freshResident path : Op h _ _).All Call.Calm := by
  refine Proc.All.bind (currentStamp_calm path) fun stamp => ?_
  rcases stamp with _ | stamp
  · exact Proc.all_pure _
  · exact Proc.all_ask trivial

/-- Before a load is claimed only the stamp of an entry changes. -/
theorem verifyRacyResident_all {K : Call h → Prop} {path : PathBuf} (hcalm : ∀ c : Call h, c.Calm → K c)
    (hrefresh : ∀ entryStamp after, K (.cacheRefresh path.components entryStamp after)) :
    (verifyRacyResident path).All K := by
  refine Proc.All.bind (Proc.all_ask (hcalm _ trivial)) fun a => ?_
  change Option (Snapshot h.contentId × FileStamp) at a
  rcases a with _ | ⟨snapshot, entryStamp⟩
  · exact Proc.all_pure _
  refine Proc.All.bind (Proc.all_ask (hcalm _ trivial)) fun a => ?_
  change Except IoError ℕ at a
  rcases a with e | f
  · exact Proc.all_pure _
  refine Proc.All.bind (Prog.All.mono hcalm (provedBy_calm snapshot entryStamp f)) fun r => ?_
  rcases r with _ | after
  · exact Proc.all_pure _
  · exact Proc.All.bind (Proc.all_ask (hrefresh _ _)) fun _ => Proc.all_pure _

end SnapshotCache

/-! ## The tools -/

theorem resolvePath_calm (workspace : Workspace) (path : String) :
    (workspace.resolvePath path : Op h _ _).All Call.Calm := by
  have hancestor : ∀ n p, (existingAncestor n p : Op h _ _).All Call.Calm := by
    intro n
    induction n with
    | zero => exact fun p => Proc.all_fail _
    | succ n ih =>
      refine fun p => (Proc.all_ask trivial).bind fun found => ?_
      change Bool at found
      cases found with
      | true => exact Proc.all_pure p
      | false =>
        rw [if_neg (by decide)]
        split
        · exact ih _
        · exact Proc.all_fail _
  have hconfine : ∀ root p, (confineToRoot root p : Op h _ _).All Call.Calm := by
    intro root p
    unfold confineToRoot
    split_ifs
    · exact Proc.all_fail _
    · refine (hancestor _ _).bind fun existing => ?_
      refine (Proc.all_ask trivial).bind fun canon => ?_
      refine (Proc.all_orElse _ _).bind fun canon => ?_
      split_ifs
      · exact Proc.all_pure _
      · exact Proc.all_fail _
  refine Proc.All.mapErr ?_ _
  unfold Workspace.resolve
  split_ifs
  · exact ((hconfine _ _).mapErr _).bind fun _ => Proc.all_pure _
  · exact Proc.all_pure _

theorem spawnBlocking_all {α : Type} {K : Call h → Prop} {operation : String} {path : PathBuf}
    {x : Op h ProtocolError α} (hx : x.All K) : (spawnBlocking operation path x).All K := by
  refine Prog.All.bind hx fun r => ?_
  rcases r with (_ | _) | _ <;> trivial

section
variable {Overrides : Type} (crates : Crates Overrides) (walker : Walker h Overrides crates)
  (workspace : Workspace)

theorem Grep.run_calm (input : GrepRequest) :
    (Grep.run crates walker workspace input : Op h _ _).All Call.Calm := by
  refine Proc.All.bind (Proc.all_ofExec _) fun _ => ?_
  refine Proc.All.bind (Proc.all_orElse _ _) fun matcher => ?_
  refine Proc.All.bind (resolvePath_calm _ _) fun path => ?_
  refine Proc.All.bind (Proc.all_ask trivial) fun a => ?_
  refine Proc.All.bind (Proc.all_orElse _ _) fun type => ?_
  dsimp only
  split_ifs
  · refine Proc.All.bind ?_ fun report => Proc.all_pure _
    refine Proc.All.bind (fsRead_calm path) fun content => ?_
    refine Proc.All.bind (Proc.all_ask trivial) fun granted => ?_
    refine Proc.All.bind (Proc.all_ofExec _) fun outcome => ?_
    split <;> exact Proc.all_pure _
  · exact Proc.All.bind (Proc.all_ofExec _) fun report => Proc.all_pure _

theorem Glob.run_calm (input : GlobRequest) :
    (Glob.run crates walker workspace input : Op h _ _).All Call.Calm := by
  refine Proc.All.bind (Proc.all_ofExec _) fun _ => ?_
  refine Proc.All.bind (Proc.all_orElse _ _) fun isMatch => ?_
  refine Proc.All.bind (resolvePath_calm _ _) fun path => ?_
  refine Proc.All.bind (Proc.all_ask trivial) fun a => ?_
  refine Proc.All.bind (Proc.all_orElse _ _) fun type => ?_
  split_ifs
  · exact Proc.all_fail _
  · exact Proc.all_pure _

end

end Hashline
