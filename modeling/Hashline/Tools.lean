/-
  The tools that read: `read`, `grep` and `glob`, from the request to the text
  of the response.
-/
import Hashline.Cache
import Hashline.Glob
import Hashline.Grep
import Hashline.Mutate

namespace Hashline

open Machine

variable {h : Host} {ε : Type}

/-! ## Read -/

namespace Read

/-- `BLOCKING_READ_BYTES`. -/
def blockingReadBytes : ℕ := 256 * 1024

/-- On a blocking thread where it may take long. -/
def maybeBlocking {α : Type} (blocking : Bool) (path : PathBuf) (x : Op h ProtocolError α) :
    Op h ProtocolError α :=
  if blocking then spawnBlocking "read" path x else x

/-- The snapshot at the path, out of the cache or loaded. -/
def load (path : PathBuf) : Op h ProtocolError (Snapshot h.contentId) := do
  let metadata ← Op.stat path
  let blocking := match metadata with
    | .ok metadata => decide (metadata.len > blockingReadBytes)
    | .error _ => true
  maybeBlocking blocking path ((SnapshotCache.getOrLoad path (Snapshot.load path)).mapErr
    (snapshotProtocolError "read" path.display))

/-- `run` once the snapshot is there; `reserve` is what the offsets of its lines ask for. -/
def answer (quote : String → String) (path : PathBuf) (input : ReadRequest)
    (snapshot : Snapshot h.contentId) : Op h ProtocolError Bytes := do
  let granted ← Op.reserve snapshot.lineCount
  let startLine ← Proc.ofExec (pageStart granted snapshot input)
  if startLine > snapshot.lineCount then
    match input.cursor with
    | some cursor => Proc.fail (.ofContract (.invalidPosition cursor.next))
    | none => do
      let header ← Proc.ofExec ((SnapshotHeader.new input.path snapshot.id snapshot.lineCount
        snapshot.byteLen).mapErr .ofContract)
      pure (header.render quote)
  else
    maybeBlocking (decide (snapshot.byteLen > blockingReadBytes)) path
      (Proc.ofExec ((renderSnapshotPage quote granted snapshot input.path startLine
        input.limit.toNat).mapErr (snapshotProtocolError "read" path.display)))

def run (quote : String → String) (workspace : Workspace) (input : ReadRequest) :
    Op h ProtocolError Bytes := do
  Proc.ofExec (input.validate.mapErr .ofContract)
  let path ← workspace.resolvePath input.path
  let snapshot ← load path
  answer quote path input snapshot

end Read

/-! ## Grep -/

/-- What a search takes from other crates: patterns compiled, or refused with a text, and strings in
    JSON quotes. `Overrides` are the compiled globs of the walk. -/
structure Crates (Overrides : Type) where
  buildMatcher : String → Bool → Except String Matcher
  buildOverrides : PathBuf → String → Except String Overrides
  buildGlob : String → Except String (PathBuf → Bool)
  quote : String → String

/-- The walks below a root: the entries that are found, and, for a search, a run of its workers over
    them to the end. -/
structure Walker (h : Host) (Overrides : Type) (crates : Crates Overrides) where
  entries : PathBuf → Option Overrides → List TreeEntry
  collect : SearchContext → PathBuf → Option Overrides → SearchShared
  collects : ∀ ctx path overrides, ∃ granted workers moves w,
    (Walk.start workers (entries path overrides) [] SearchShared.start).runs
      (grepVisitor h.contentId crates.quote granted ctx) moves = some w ∧ w.live = [] ∧
    w.shared = collect ctx path overrides
  files : PathBuf → List GlobWalked

section
variable {Overrides : Type} (crates : Crates Overrides) (walker : Walker h Overrides crates)

namespace Grep

/-- The search of one file that is named. -/
def searchExplicit (ctx : SearchContext) (path : PathBuf) (input : GrepRequest) :
    Op h ProtocolError Report := do
  let content ← fsRead path
  let granted ← Op.reserve (match content with | .ok bytes => bytes.length | .error _ => 0)
  match ← Proc.ofExec (searchFile h.contentId crates.quote granted ctx path path.named .explicitFile
    content) with
  | .hit hit => pure (report [hit] input.budget 0 0)
  | _ => pure (report [] input.budget 0 0)

/-- The globs of the walk, where there is a pattern. -/
def overrides (path : PathBuf) : Option String → Exec ProtocolError (Option Overrides)
  | none => .ok none
  | some glob => match crates.buildOverrides path glob with
    | .ok overrides => .ok (some overrides)
    | .error e => Exec.fail (.new .invalidPattern ("Invalid glob \"" ++ glob ++ "\": " ++ e))

/-- The search of a tree. -/
def searchTree (ctx : SearchContext) (path : PathBuf) (input : GrepRequest) :
    Exec ProtocolError Report := do
  let overrides ← overrides crates path input.glob
  (walker.collect ctx path overrides).finish input.budget

def run (workspace : Workspace) (input : GrepRequest) : Op h ProtocolError Bytes := do
  Proc.ofExec (input.validate.mapErr .ofContract)
  let matcher ← Proc.orElse (fun e => .new .invalidPattern
    ("Invalid regex pattern \"" ++ input.pattern ++ "\": " ++ e))
    (crates.buildMatcher input.pattern input.ignoreCase)
  let path ← workspace.resolvePath (input.path.getD ".")
  let type ← Proc.orElse (fun _ => .new .notFound s!"Search path not found: {path.display}")
    (← Op.fileType path)
  let ctx := input.searchContext matcher path
  if type = .regular then do
    let report ← searchExplicit crates ctx path input
    pure (report.render input.outputMode)
  else do
    let report ← Proc.ofExec (searchTree crates walker ctx path input)
    pure (report.render input.outputMode)

end Grep

/-! ## Glob -/

namespace Glob

def run (workspace : Workspace) (input : GlobRequest) : Op h ProtocolError Bytes := do
  Proc.ofExec (input.validate.mapErr .ofContract)
  let isMatch ← Proc.orElse (fun e => .new .invalidPattern
    ("Invalid glob pattern \"" ++ input.pattern ++ "\": " ++ e)) (crates.buildGlob input.pattern)
  let path ← workspace.resolvePath (input.path.getD ".")
  let type ← Proc.orElse (fun _ => .new .notFound s!"Glob path not found: {path.display}")
    (← Op.fileType path)
  if type ≠ .directory then
    Proc.fail (.new .notAFile s!"Glob path is not a directory: {path.display}")
  else
    let displayPrefix := input.path.filter (· ≠ ".")
    pure (listing ((walker.files path).filterMap (GlobWalked.entry isMatch displayPrefix))
      input.maxResults.toNat).render

end Glob

end

end Hashline
