/-
  The two mutations: `edit` and `write`, from the request to the response.
-/
import Hashline.Engine
import Hashline.Persist

namespace Hashline

open Machine

variable {h : Host} {ε : Type}

/-! ## The workspace -/

structure Workspace where
  root : PathBuf
  restrict : Bool
  durability : Durability

/-- The deepest existing ancestor; a parent is shorter than its path. -/
def existingAncestor : ℕ → PathBuf → Op h String PathBuf
  | 0, _ => Proc.fail "path has no existing ancestor"
  | n + 1, path => do
    if ← Op.pathExists path then pure path
    else match path.parent with
      | some parent => existingAncestor n parent
      | none => Proc.fail "path has no existing ancestor"

def confineToRoot (root path : PathBuf) : Op h String Unit :=
  if ".." ∈ path.components then Proc.fail "path contains \"..\" components"
  else do
    let existing ← existingAncestor (path.length + 1) path
    let canon ← Proc.orElse (fun e => s!"cannot canonicalize {existing.display}: {e.text}")
      (← Op.canonicalize existing)
    if root.components.isPrefixOf canon then pure ()
    else Proc.fail s!"path resolves to {canon.display} which is outside the workspace root"

namespace Workspace

def resolve (workspace : Workspace) (path : String) : Op h String PathBuf := do
  let joined := resolvePath workspace.root path
  if workspace.restrict then
    (confineToRoot workspace.root joined).mapErr fun reason =>
      s!"Access to {joined.display} denied: {reason} " ++
        s!"(--restrict confines tools to {workspace.root.display})."
  pure joined

/-- `resolve_workspace_path`. -/
def resolvePath (workspace : Workspace) (path : String) : Op h ProtocolError PathBuf :=
  (workspace.resolve path).mapErr (.new .rootEscape)

end Workspace

/-- `spawn_blocking`: a panic on the blocking thread is an error of the join. -/
def spawnBlocking {α : Type} (operation : String) (path : PathBuf) (x : Op h ProtocolError α) :
    Op h ProtocolError α :=
  x.onPanic (Exec.fail (.new .io s!"Failed to {operation} {path.display}: {h.joinError}"))

/-- Insert a snapshot that a confirmed stamp describes. -/
def cachePersisted (path : PathBuf) (snapshot : Snapshot h.contentId) :
    Option FileStamp → Op h ε Unit
  | some stamp => Op.cacheInsert path (snapshot.withStamp stamp)
  | none => pure ()

/-! ## Edit -/

namespace Edit

/-- Persist `applied`, and publish without reading it back. -/
def publish (path : PathBuf) (input : EditRequest) (previous : SnapshotId) (applied : Bytes)
    (expected : Option FileStamp) (durability : Durability) : Op h ProtocolError EditSuccess := do
  let stamp ← (atomicWrite path applied (expected.map fun stamp => ⟨stamp, previous⟩)
    durability).mapErr persistProtocolError
  let newSnapshot : Snapshot h.contentId ← Proc.ofExec
    ((Snapshot.fromValidatedBytes applied).mapErr (snapshotProtocolError "edit" path.display))
  cachePersisted path newSnapshot stamp
  pure ⟨input.filePath, previous, newSnapshot.id, input.edits.length, newSnapshot.byteLen,
    newSnapshot.lineCount⟩

/-- The conflict of a request that does not name the empty snapshot. -/
def missingConflict (input : EditRequest) (empty : Snapshot h.contentId) :
    Exec ProtocolError ProtocolError := do
  let header ← (referenceHeader input.filePath empty.id []).mapErr .ofContract
  let context := match referenceContext [] 1 with | .ok context => context | .error _ => []
  match ProtocolError.snapshotConflict input.snapshot header context snapshotConflictMessage with
  | .ok error => .ok error
  | .error (.err error) => .ok (.ofContract error)
  | .error .panic => Exec.panic

def createNewFile (path : PathBuf) (input : EditRequest) (durability : Durability) :
    Op h ProtocolError EditSuccess := do
  let empty : Snapshot h.contentId ← Proc.ofExec
    ((Snapshot.fromBytes []).mapErr (snapshotProtocolError "edit" path.display))
  if input.snapshot ≠ empty.id then do
    let error ← Proc.ofExec (missingConflict input empty)
    Proc.fail error
  else do
    let applied ← Proc.ofExec (applyVersionedReferenceEdits [] empty.id input)
    match path.parent with
    | some parent => do
      Proc.orElse (fun e => .new .io
        s!"Failed to create parent directory for {path.display}: {e.text}")
        (← Op.createDirAll parent)
    | none => pure ()
    publish path input empty.id applied none durability

def runBlocking (path : PathBuf) (input : EditRequest) (durability : Durability) :
    Op h ProtocolError EditSuccess := do
  match ← (Snapshot.load path).attempt with
  | .ok snapshot => do
    let granted ← Op.reserve snapshot.lineCount
    let applied ← Proc.ofExec (applyEditsFast granted snapshot input)
    publish path input snapshot.id applied snapshot.stamp durability
  | .error error =>
    if error.isNotFound then createNewFile path input durability
    else Proc.fail (snapshotProtocolError "edit" path.display error)

def run (workspace : Workspace) (input : EditRequest) : Op h ProtocolError EditSuccess := do
  Proc.ofExec (input.validate.mapErr .ofContract)
  let path ← workspace.resolvePath input.filePath
  spawnBlocking "edit" path (runBlocking path input workspace.durability)

end Edit

/-! ## Write -/

namespace Write

/-- The error of an exclusive create that lost the race, decided against what is there now. -/
def loseCreateRace (path : PathBuf) (input : WriteRequest) : Op h ProtocolError ProtocolError := do
  match ← (Snapshot.load path).attempt with
  | .ok snapshot => match validateReferenceWrite (some (snapshot.bytes, snapshot.id)) input with
    | .ok _ => pure (.new .io (s!"Failed to write {path.display}: lost a create race but the " ++
        "destination no longer conflicts; retry"))
    | .error (.err error) => pure error
    | .error .panic => Proc.ofExec Exec.panic
  | .error error =>
    if error.isNotFound then
      pure (.new .io (s!"Failed to write {path.display}: destination appeared and vanished " ++
        "during create; retry"))
    else pure (snapshotProtocolError "write" path.display error)

/-- The destination as it is found, or `None` where there is none. -/
def loadCurrent (path : PathBuf) : Op h ProtocolError (Option (Snapshot h.contentId)) := do
  match ← (Snapshot.load path).attempt with
  | .ok snapshot => pure (some snapshot)
  | .error error =>
    if error.isNotFound then pure none
    else Proc.fail (snapshotProtocolError "write" path.display error)

/-- Persist exclusively or over the validated stamp. -/
def persist (path : PathBuf) (bytes : Bytes) (current : Option (Snapshot h.contentId))
    (created : Bool) (durability : Durability) : Op h PersistError (Option FileStamp) :=
  if created then atomicCreate path bytes durability
  else
    let expected := current.bind fun snapshot =>
      snapshot.stamp.map fun stamp => ⟨stamp, snapshot.id⟩
    atomicWrite path bytes expected durability

/-- `run_blocking` once the write is decided. -/
def carryOut (path : PathBuf) (input : WriteRequest) (current : Option (Snapshot h.contentId))
    (created : Bool) (durability : Durability) : Op h ProtocolError WriteSuccess := do
  let bytes := input.content.bytes
  match ← (persist path bytes current created durability).attempt with
  | .error (.destinationExists _) => do
    let error ← loseCreateRace path input
    Proc.fail error
  | .error error => Proc.fail (persistProtocolError error)
  | .ok stamp => do
    let persisted : Snapshot h.contentId ← Proc.ofExec
      ((Snapshot.fromValidatedBytes bytes).mapErr (snapshotProtocolError "write" path.display))
    cachePersisted path persisted stamp
    pure ⟨input.filePath, persisted.id, persisted.byteLen, persisted.lineCount, created⟩

def runBlocking (path : PathBuf) (input : WriteRequest) (durability : Durability) :
    Op h ProtocolError WriteSuccess := do
  let current ← loadCurrent path
  let created ← Proc.ofExec
    (validateReferenceWrite (current.map fun snapshot => (snapshot.bytes, snapshot.id)) input)
  carryOut path input current created durability

def run (workspace : Workspace) (input : WriteRequest) : Op h ProtocolError WriteSuccess := do
  Proc.ofExec (input.validate.mapErr .ofContract)
  let path ← workspace.resolvePath input.filePath
  spawnBlocking "write" path (runBlocking path input workspace.durability)

end Write

/-! ## Both -/

inductive Request where
  | edit (request : EditRequest)
  | write (request : WriteRequest)
  deriving DecidableEq

inductive Response where
  | edited (success : EditSuccess)
  | written (success : WriteSuccess)
  deriving DecidableEq

def Request.filePath : Request → String
  | edit request => request.filePath
  | write request => request.filePath

/-- The path a request is about. -/
def Workspace.pathOf (workspace : Workspace) (request : Request) : PathBuf :=
  Hashline.resolvePath workspace.root request.filePath

def serve (workspace : Workspace) : Request → Op h ProtocolError Response
  | .edit request => do
    let success ← Edit.run workspace request
    pure (.edited success)
  | .write request => do
    let success ← Write.run workspace request
    pure (.written success)

/-- What a mutation is for: from the bytes it found, if any, the bytes it leaves, and what it
    reports of them. -/
def Accomplishes (contentId : Bytes → SnapshotId) (base : Option Bytes) (bytes : Bytes) :
    Request → Response → Prop
  | .edit request, response =>
    request.snapshot = contentId (base.getD []) ∧
      applyReferenceEdits (base.getD []) request.edits = .ok bytes ∧
      response = .edited ⟨request.filePath, contentId (base.getD []), contentId bytes,
        request.edits.length, bytes.length, bytes.count lf + 1⟩
  | .write request, response =>
    (match request.expect with
      | .absent => base = none
      | .snapshot id => base.map contentId = some id) ∧ bytes = request.content.bytes ∧
      response = .written ⟨request.filePath, contentId bytes, bytes.length, bytes.count lf + 1,
        request.expect = .absent⟩

end Hashline
