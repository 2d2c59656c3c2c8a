/-
  The operating system and the memory the calls of one server share: files and
  their names, the clock, the locks, the cache, and what each call does to them.
-/
import Hashline.Lib.Proc
import Hashline.Shards

namespace Hashline

open Machine

/-- What the server runs on. -/
structure Host where
  contentId : Bytes → SnapshotId
  /-- The directory to which the components of a path lead, `..` and symbolic links resolved. -/
  directory : PathBuf → ℕ
  workingDirectory : PathBuf
  processId : ℕ
  device : ℕ
  /-- The text of a failed join. -/
  joinError : String

namespace IoError

def noSuchFile : IoError := ⟨.notFound, "No such file or directory (os error 2)"⟩
def busy : IoError := ⟨.other, "Device or resource busy (os error 16)"⟩
def fileExists : IoError := ⟨.alreadyExists, "File exists (os error 17)"⟩
def notADirectory : IoError := ⟨.other, "Not a directory (os error 20)"⟩
def isADirectory : IoError := ⟨.other, "Is a directory (os error 21)"⟩

end IoError

/-- A name in a directory. -/
structure Loc where
  directory : ℕ
  name : String
  deriving DecidableEq, Repr

def Host.locate (h : Host) (path : PathBuf) : Loc :=
  ⟨h.directory path.components.dropLast, path.components.getLast?.getD ""⟩

theorem Host.locate_components (h : Host) (path : PathBuf) : h.locate path.components = h.locate path := by
  rw [locate, locate, PathBuf.components_components]

/-- `path.parent().unwrap_or(".")`. -/
def Host.parentOf (h : Host) (path : PathBuf) : PathBuf := path.parent.getD h.workingDirectory

/-- What `is_file` and `is_dir` tell apart. -/
inductive FileType where
  | regular
  | directory
  | other
  deriving DecidableEq, Repr

structure File where
  inode : ℕ
  content : Bytes
  mtime : FileTime
  ctime : FileTime
  type : FileType
  deriving DecidableEq, Repr

/-- `files` are all files there ever were, numbered below `next`; an open descriptor is the number
    of its file. -/
structure World (h : Host) where
  now : ℤ
  files : ℕ → File
  next : ℕ
  entries : Loc → Option ℕ
  counter : ℕ
  locks : PathBuf → Option ℕ
  cache : SnapshotCache h.contentId
  cells : ℕ → Cell h.contentId
  nextCell : ℕ

namespace World
variable {h : Host} (w : World h)

def wait (tick : ℕ) : World h := { w with now := w.now + tick }

def metadata (f : ℕ) : Metadata :=
  let file := w.files f
  ⟨h.device, file.inode, file.content.length, file.mtime, file.ctime⟩

def setFile (f : ℕ) (file : File) : World h :=
  { w with files := fun g => if g = f then file else w.files g }

def setEntry (loc : Loc) (o : Option ℕ) : World h :=
  { w with entries := fun l => if l = loc then o else w.entries l }

/-- A new file under a name. -/
def addFile (loc : Loc) (file : File) : World h :=
  { (w.setFile w.next file).setEntry loc (some w.next) with next := w.next + 1 }

def setCell (cell : ℕ) (c : Cell h.contentId) : World h :=
  { w with cells := fun i => if i = cell then c else w.cells i }

def changed (f : ℕ) (ctime : FileTime) : World h :=
  w.setFile f { w.files f with ctime }

/-- The file a name stands for. -/
def fileAt (loc : Loc) : Option File := (w.entries loc).map w.files

def contentAt (loc : Loc) : Option Bytes := (w.fileAt loc).map File.content

def isDirectory (loc : Loc) : Bool := (w.fileAt loc).any (·.type = .directory)

/-- The file a path leads to; with a slash behind its name it has to be a directory. -/
def find (path : PathBuf) : Except IoError ℕ :=
  match w.entries (h.locate path) with
  | none => .error .noSuchFile
  | some f => if path.slashed ∧ (w.files f).type ≠ .directory then .error .notADirectory else .ok f

end World

/-! ## What others do -/

/-- A moment rounded down by less than two seconds. -/
structure Fresh (now : ℤ) (t : FileTime) : Prop where
  nonneg : 0 ≤ t.nanoseconds
  lt : t.nanoseconds ≤ 999999999
  recent : now - racyWindow < t.nanos
  past : t.nanos ≤ now

instance (now : ℤ) (t : FileTime) : Decidable (Fresh now t) :=
  decidable_of_iff (0 ≤ t.nanoseconds ∧ t.nanoseconds ≤ 999999999 ∧ now - racyWindow < t.nanos ∧
    t.nanos ≤ now) ⟨fun h => ⟨h.1, h.2.1, h.2.2.1, h.2.2.2⟩, fun h => ⟨h.1, h.2, h.3, h.4⟩⟩

/-- A step of another process. -/
inductive Event where
  | rewrite (loc : Loc) (content : Bytes) (mtime ctime : FileTime)
  | replace (loc : Loc) (file : File)
  | remove (loc : Loc)
  deriving DecidableEq, Repr

/-- `none` where the step cannot be taken: no file to rewrite, or a change time that is not of the
    moment. -/
def Event.apply {h : Host} (w : World h) : Event → Option (World h)
  | rewrite loc content mtime ctime => do
    let f ← w.entries loc
    if Fresh w.now ctime then some (w.setFile f { w.files f with content, mtime, ctime }) else none
  | replace loc file => if Fresh w.now file.ctime then some (w.addFile loc file) else none
  | remove loc => some (w.setEntry loc none)

/-! ## Calls -/

/-- Calls to the operating system, to what the server's threads share, and two at which the scheduler
    may let another thread go on: `rest`, and `guard`, where the check before a rename begins. -/
inductive Call (h : Host) where
  | rest
  | guard (path : PathBuf) (stamp : FileStamp) (contentId : SnapshotId)
  | now
  | fetchAdd
  | reserve (bytes : ℕ)
  | pathExists (path : PathBuf)
  | canonicalize (path : PathBuf)
  | openRead (path : PathBuf)
  | createNew (path : PathBuf)
  | read (f offset max : ℕ)
  | write (f offset : ℕ) (bytes : Bytes)
  | sync (f : ℕ)
  | fstat (f : ℕ)
  | stat (path : PathBuf)
  | fileType (path : PathBuf)
  | createDirAll (path : PathBuf)
  | syncDir (path : PathBuf)
  | rename (source target : PathBuf)
  | hardLink (source target : PathBuf)
  | removeFile (path : PathBuf)
  | lock (path : PathBuf)
  | unlock (path : PathBuf)
  | cacheGet (path : PathBuf) (stamp : Option FileStamp)
  | cacheRacyResident (path : PathBuf)
  | cacheRefresh (path : PathBuf) (entryStamp after : FileStamp)
  | cacheClaim (path : PathBuf) (current : Option FileStamp)
  | cacheInsert (path : PathBuf) (snapshot : Snapshot h.contentId)
  | cacheSettle (path : PathBuf)
  | cellLock (cell : ℕ)
  | cellSet (cell : ℕ) (state : InflightState h.contentId)
  | cellUnlock (cell : ℕ)

/-- What a call answers. -/
def Answer {h : Host} : Call h → Type
  | .now => ℤ
  | .fetchAdd => ℕ
  | .reserve _ | .pathExists _ => Bool
  | .canonicalize _ => Except IoError PathBuf
  | .openRead _ | .createNew _ | .write .. => Except IoError ℕ
  | .read .. => Except IoError Bytes
  | .fstat _ | .stat _ => Except IoError Metadata
  | .fileType _ => Except IoError FileType
  | .sync _ | .createDirAll _ | .syncDir _ | .rename .. | .hardLink .. | .removeFile _ =>
    Except IoError Unit
  | .rest | .guard .. | .lock _ | .unlock _ | .cacheRefresh .. | .cacheInsert .. | .cacheSettle _
  | .cellSet .. | .cellUnlock _ => Unit
  | .cacheGet .. => Option (Snapshot h.contentId)
  | .cacheRacyResident _ => Option (Snapshot h.contentId × FileStamp)
  | .cacheClaim .. => Snapshot h.contentId ⊕ ℕ
  | .cellLock _ => InflightState h.contentId

/-- What the machine decides at one call: what happens before it, whether it fails, how far it gets,
    and what is not determined by the files. -/
structure Choice where
  events : List (ℕ × Event) := []
  tick : ℕ := 0
  fault : Option IoError := none
  amount : ℕ := 0
  mtime : FileTime := ⟨0, 0⟩
  ctime : FileTime := ⟨0, 0⟩
  inode : ℕ := 0
  flag : Bool := true
  path : PathBuf := []
  pick : ℕ → ℕ := id

/-- `chunk` written into `content` at `offset`; a hole reads as zeros. -/
def overwrite (content : Bytes) (offset : ℕ) (chunk : Bytes) : Bytes :=
  (content ++ List.replicate (offset - content.length) 0).take offset ++ chunk ++
    content.drop (offset + chunk.length)

/-- How many of `most` bytes are moved: one at least. -/
def Choice.moved (x : Choice) (most : ℕ) : ℕ := min (max 1 x.amount) most

section
variable {h : Host}

/-- Time passes, and others take their steps. -/
def elapse : List (ℕ × Event) → World h → Option (World h)
  | [], w => some w
  | (tick, e) :: rest, w => do
    let w ← e.apply (w.wait tick)
    elapse rest w

/-- What goes before a call. -/
def Choice.elapsed (x : Choice) (w : World h) : Option (World h) :=
  (elapse x.events w).map (·.wait x.tick)

/-- A call that the machine may let fail, without effect. -/
def Choice.fallible {α : Type} (x : Choice) (w : World h) (r : Option (Except IoError α × World h)) :
    Option (Except IoError α × World h) :=
  match x.fault with
  | some e => some (.error e, w)
  | none => r

/-- What a call of thread `who` does; `none` where it must wait. -/
def act (who : ℕ) (x : Choice) : (c : Call h) → World h → Option (Answer c × World h)
  | .rest, w => some ((), w)
  | .guard .., w => some ((), w)
  | .now, w => some (w.now, w)
  | .fetchAdd, w => some (w.counter, { w with counter := w.counter + 1 })
  | .reserve _, w => some (x.flag, w)
  | .pathExists _, w => some (x.flag, w)
  | .canonicalize _, w => x.fallible w (some (.ok x.path, w))
  | .openRead path, w => x.fallible w (some (w.find path, w))
  | .createNew path, w => x.fallible w <|
    if path.slashed then some (.error .isADirectory, w)
    else match w.entries (h.locate path) with
      | some _ => some (.error .fileExists, w)
      | none => if Fresh w.now x.ctime then
          some (.ok w.next, w.addFile (h.locate path) ⟨x.inode, [], x.mtime, x.ctime, .regular⟩)
          else none
  | .read f offset most, w => x.fallible w <|
    if (w.files f).type = .directory then some (.error .isADirectory, w)
    else some (.ok (((w.files f).content.drop offset).take (x.moved most)), w)
  | .write f offset bytes, w => x.fallible w <| if Fresh w.now x.ctime then
      let chunk := bytes.take (x.moved bytes.length)
      some (.ok chunk.length, w.setFile f ⟨(w.files f).inode,
        overwrite (w.files f).content offset chunk, x.mtime, x.ctime, (w.files f).type⟩) else none
  | .sync _, w => x.fallible w (some (.ok (), w))
  | .fstat f, w => x.fallible w (some (.ok (w.metadata f), w))
  | .stat path, w => x.fallible w (some ((w.find path).map w.metadata, w))
  | .fileType path, w => x.fallible w (some ((w.find path).map fun f => (w.files f).type, w))
  | .createDirAll _, w => x.fallible w (some (.ok (), w))
  | .syncDir _, w => x.fallible w (some (.ok (), w))
  | .rename source target, w => x.fallible w <| match w.find source with
    | .error e => some (.error e, w)
    | .ok f =>
      if target.getLast? = some "." then
        some (.error (match w.find target with | .error e => e | .ok _ => .busy), w)
      else if target.slashed then some (.error .notADirectory, w)
      else if w.entries (h.locate target) = some f then some (.ok (), w)
      else if w.isDirectory (h.locate target) then some (.error .isADirectory, w)
      else if Fresh w.now x.ctime then some (.ok (), ((w.setEntry (h.locate source) none).setEntry
        (h.locate target) (some f)).changed f x.ctime) else none
  | .hardLink source target, w => x.fallible w <| match w.find source with
    | .error e => some (.error e, w)
    | .ok f =>
      if target.getLast? = some "." then
        some (.error (match w.find target with | .error e => e | .ok _ => .fileExists), w)
      else match w.entries (h.locate target) with
        | some _ => some (.error .fileExists, w)
        | none =>
          if target.slashed then some (.error .noSuchFile, w)
          else if Fresh w.now x.ctime then
            some (.ok (), (w.setEntry (h.locate target) (some f)).changed f x.ctime) else none
  | .removeFile path, w => x.fallible w <| match w.find path with
    | .error e => some (.error e, w)
    | .ok f =>
      if w.isDirectory (h.locate path) then some (.error .isADirectory, w)
      else if Fresh w.now x.ctime then
        some (.ok (), (w.setEntry (h.locate path) none).changed f x.ctime) else none
  | .lock path, w => match w.locks path with
    | some _ => none
    | none => some ((), { w with locks := fun p => if p = path then some who else w.locks p })
  | .unlock path, w =>
    some ((), { w with locks := fun p => if p = path then none else w.locks p })
  | .cacheGet path stamp, w => some (w.cache.get path stamp, w)
  | .cacheRacyResident path, w => some (w.cache.racyResident path, w)
  | .cacheRefresh path entryStamp after, w =>
    some ((), { w with cache := w.cache.refresh path entryStamp after })
  | .cacheClaim path current, w =>
    let (answer, cache) := w.cache.claim path current w.nextCell
    some (answer, { w with cache, nextCell := w.nextCell + 1 })
  | .cacheInsert path snapshot, w =>
    some ((), { w with cache := w.cache.insert x.pick path snapshot })
  | .cacheSettle path, w => some ((), { w with cache := w.cache.settle path })
  | .cellLock cell, w => match (w.cells cell).holder with
    | some _ => none
    | none => some ((w.cells cell).state, w.setCell cell { w.cells cell with holder := some who })
  | .cellSet cell state, w => some ((), w.setCell cell { w.cells cell with state })
  | .cellUnlock cell, w => some ((), w.setCell cell { w.cells cell with holder := none })

/-! ## What each call can do -/

theorem Choice.fallible_eq_some {α : Type} {x : Choice} {w w' : World h} {r} {a : Except IoError α} :
    x.fallible w r = some (a, w') ↔
      (∃ e, x.fault = some e ∧ a = .error e ∧ w' = w) ∨ (x.fault = none ∧ r = some (a, w')) := by
  unfold Choice.fallible
  rcases x.fault with _ | e
  · simp
  · simp only [Option.some.injEq, Prod.mk.injEq, reduceCtorEq, false_and, or_false]
    constructor
    · rintro ⟨rfl, rfl⟩; exact ⟨e, rfl, rfl, rfl⟩
    · rintro ⟨_, rfl, rfl, rfl⟩; exact ⟨rfl, rfl⟩

section
variable {who : ℕ} {x : Choice} {w w' : World h}

/-- **What is found at a path.** -/
theorem World.find_cases (w : World h) (path : PathBuf) :
    (∃ f, w.entries (h.locate path) = some f ∧ w.find path = .ok f) ∨
      w.entries (h.locate path) = none ∧ w.find path = .error .noSuchFile ∨
      path.slashed = true ∧ w.find path = .error .notADirectory := by
  unfold World.find
  split
  · rename_i hn; exact .inr (.inl ⟨hn, rfl⟩)
  · rename_i f hf
    split_ifs with hs
    · exact .inr (.inr ⟨hs.1, rfl⟩)
    · exact .inl ⟨f, hf, rfl⟩

theorem World.find_eq_ok {w : World h} {path : PathBuf} {f : ℕ} (hf : w.find path = .ok f) :
    w.entries (h.locate path) = some f := by
  rcases w.find_cases path with ⟨g, hg, he⟩ | ⟨-, he⟩ | ⟨-, he⟩ <;> rw [he] at hf <;> cases hf
  exact hg

theorem World.find_of_entry {w : World h} {path : PathBuf} {f : ℕ} (hs : path.slashed = false)
    (hf : w.entries (h.locate path) = some f) : w.find path = .ok f := by
  simp [World.find, hf, hs]

theorem World.find_of_none {w : World h} {path : PathBuf} (hn : w.entries (h.locate path) = none) :
    w.find path = .error .noSuchFile := by
  simp [World.find, hn]

/-- What a call about the file of a path can fail with, where the file is there. -/
def Choice.Refuses (x : Choice) (path : PathBuf) (e : IoError) : Prop :=
  x.fault = some e ∨ path.slashed = true ∧ e = .notADirectory

/-- Only the machine says that there is no file. -/
theorem Choice.Refuses.fault_of_notFound {x : Choice} {path : PathBuf} {e : IoError}
    (hx : x.Refuses path e) (he : e.kind = .notFound) : x.fault = some e := by
  rcases hx with hx | ⟨-, rfl⟩
  · exact hx
  · cases he

/-- A call that answers about the file of a path. -/
theorem fallible_find {α : Type} {path : PathBuf} {answer : ℕ → α} {a : Except IoError α}
    (ha : x.fallible w (some ((w.find path).map answer, w)) = some (a, w')) :
    w' = w ∧ ((∃ e, x.Refuses path e ∧ a = .error e) ∨
      (∃ f, w.entries (h.locate path) = some f ∧ a = .ok (answer f)) ∨
      w.entries (h.locate path) = none ∧ a = .error .noSuchFile) := by
  rcases Choice.fallible_eq_some.1 ha with ⟨e, hx, rfl, rfl⟩ | ⟨-, ha⟩
  · exact ⟨rfl, .inl ⟨e, .inl hx, rfl⟩⟩
  · cases ha
    rcases w.find_cases path with ⟨f, hf, he⟩ | ⟨hn, he⟩ | ⟨hs, he⟩
    · rw [he]; exact ⟨rfl, .inr (.inl ⟨f, hf, rfl⟩)⟩
    · rw [he]; exact ⟨rfl, .inr (.inr ⟨hn, rfl⟩)⟩
    · rw [he]; exact ⟨rfl, .inl ⟨_, .inr ⟨hs, rfl⟩, rfl⟩⟩

theorem act_openRead {path : PathBuf} {a : Except IoError ℕ}
    (ha : act who x (.openRead path) w = some (a, w')) :
    w' = w ∧ ((∃ e, x.Refuses path e ∧ a = .error e) ∨
      (∃ f, w.entries (h.locate path) = some f ∧ a = .ok f) ∨
      w.entries (h.locate path) = none ∧ a = .error .noSuchFile) := by
  have hfind : x.fallible w (some ((w.find path).map id, w)) = some (a, w') := by rwa [Except.map_id]
  exact fallible_find hfind

theorem act_stat {path : PathBuf} {a : Except IoError Metadata}
    (ha : act who x (.stat path) w = some (a, w')) :
    w' = w ∧ ((∃ e, x.Refuses path e ∧ a = .error e) ∨
      (∃ f, w.entries (h.locate path) = some f ∧ a = .ok (w.metadata f)) ∨
      w.entries (h.locate path) = none ∧ a = .error .noSuchFile) :=
  fallible_find ha

theorem act_read {f offset most : ℕ} {a : Except IoError Bytes}
    (ha : act who x (.read f offset most) w = some (a, w')) :
    w' = w ∧ ((∃ e, x.fault = some e ∧ a = .error e) ∨
      (w.files f).type = .directory ∧ a = .error .isADirectory ∨
      a = .ok (((w.files f).content.drop offset).take (x.moved most))) := by
  rcases Choice.fallible_eq_some.1 ha with ⟨e, hx, rfl, rfl⟩ | ⟨-, ha⟩
  · exact ⟨rfl, .inl ⟨e, hx, rfl⟩⟩
  · split_ifs at ha with hd
    · cases ha; exact ⟨rfl, .inr (.inl ⟨hd, rfl⟩)⟩
    · cases ha; exact ⟨rfl, .inr (.inr rfl)⟩

theorem act_fileType {path : PathBuf} {a : Except IoError FileType}
    (ha : act who x (.fileType path) w = some (a, w')) :
    w' = w ∧ ((∃ e, x.Refuses path e ∧ a = .error e) ∨
      (∃ f, w.entries (h.locate path) = some f ∧ a = .ok (w.files f).type) ∨
      w.entries (h.locate path) = none ∧ a = .error .noSuchFile) :=
  fallible_find ha

theorem act_fstat {f : ℕ} {a : Except IoError Metadata} (ha : act who x (.fstat f) w = some (a, w')) :
    w' = w ∧ ((∃ e, x.fault = some e ∧ a = .error e) ∨ a = .ok (w.metadata f)) := by
  rcases Choice.fallible_eq_some.1 ha with ⟨e, hx, rfl, rfl⟩ | ⟨-, ha⟩
  · exact ⟨rfl, .inl ⟨e, hx, rfl⟩⟩
  · cases ha; exact ⟨rfl, .inr rfl⟩

theorem act_createNew {path : PathBuf} {a : Except IoError ℕ}
    (ha : act who x (.createNew path) w = some (a, w')) :
    (∃ e, a = .error e ∧ w' = w) ∨ (w.entries (h.locate path) = none ∧ Fresh w.now x.ctime ∧
      a = .ok w.next ∧ w' = w.addFile (h.locate path) ⟨x.inode, [], x.mtime, x.ctime, .regular⟩) := by
  rcases Choice.fallible_eq_some.1 ha with ⟨e, -, rfl, rfl⟩ | ⟨-, ha⟩
  · exact .inl ⟨e, rfl, rfl⟩
  · split at ha
    · cases ha; exact .inl ⟨_, rfl, rfl⟩
    · split at ha
      · cases ha; exact .inl ⟨_, rfl, rfl⟩
      · rename_i hf
        split_ifs at ha with hc
        cases ha; exact .inr ⟨hf, hc, rfl, rfl⟩

theorem act_write {f offset : ℕ} {bytes : Bytes} {a : Except IoError ℕ}
    (ha : act who x (.write f offset bytes) w = some (a, w')) :
    (∃ e, a = .error e ∧ w' = w) ∨ (Fresh w.now x.ctime ∧
      a = .ok (bytes.take (x.moved bytes.length)).length ∧
      w' = w.setFile f ⟨(w.files f).inode, overwrite (w.files f).content offset
        (bytes.take (x.moved bytes.length)), x.mtime, x.ctime, (w.files f).type⟩) := by
  rcases Choice.fallible_eq_some.1 ha with ⟨e, -, rfl, rfl⟩ | ⟨-, ha⟩
  · exact .inl ⟨e, rfl, rfl⟩
  · split_ifs at ha with hc
    cases ha; exact .inr ⟨hc, rfl, rfl⟩

theorem act_rename {source target : PathBuf} {a : Except IoError Unit}
    (ha : act who x (.rename source target) w = some (a, w')) :
    (∃ e, a = .error e ∧ w' = w) ∨ ∃ f, w.entries (h.locate source) = some f ∧ a = .ok () ∧
      (w.entries (h.locate target) = some f ∧ w' = w ∨
        w.entries (h.locate target) ≠ some f ∧ Fresh w.now x.ctime ∧
          w' = ((w.setEntry (h.locate source) none).setEntry (h.locate target) (some f)).changed f
            x.ctime) := by
  rcases Choice.fallible_eq_some.1 ha with ⟨e, -, rfl, rfl⟩ | ⟨-, ha⟩
  · exact .inl ⟨e, rfl, rfl⟩
  · split at ha
    · cases ha; exact .inl ⟨_, rfl, rfl⟩
    · rename_i f hf
      have hf := World.find_eq_ok hf
      split_ifs at ha with hdot hslash hs hd hc
      · cases ha; exact .inl ⟨_, rfl, rfl⟩
      · cases ha; exact .inl ⟨_, rfl, rfl⟩
      · cases ha; exact .inr ⟨f, hf, rfl, .inl ⟨hs, rfl⟩⟩
      · cases ha; exact .inl ⟨_, rfl, rfl⟩
      · cases ha; exact .inr ⟨f, hf, rfl, .inr ⟨hs, hc, rfl⟩⟩

theorem act_hardLink {source target : PathBuf} {a : Except IoError Unit}
    (ha : act who x (.hardLink source target) w = some (a, w')) :
    (∃ e, a = .error e ∧ w' = w) ∨ ∃ f, w.entries (h.locate source) = some f ∧
      w.entries (h.locate target) = none ∧ a = .ok () ∧ Fresh w.now x.ctime ∧
      w' = (w.setEntry (h.locate target) (some f)).changed f x.ctime := by
  rcases Choice.fallible_eq_some.1 ha with ⟨e, -, rfl, rfl⟩ | ⟨-, ha⟩
  · exact .inl ⟨e, rfl, rfl⟩
  · split at ha
    · cases ha; exact .inl ⟨_, rfl, rfl⟩
    · rename_i f hf
      split at ha
      · cases ha; exact .inl ⟨_, rfl, rfl⟩
      · split at ha
        · cases ha; exact .inl ⟨_, rfl, rfl⟩
        · rename_i ht
          split_ifs at ha with hslash hc
          · cases ha; exact .inl ⟨_, rfl, rfl⟩
          · cases ha; exact .inr ⟨f, World.find_eq_ok hf, ht, rfl, hc, rfl⟩

theorem act_removeFile {path : PathBuf} {a : Except IoError Unit}
    (ha : act who x (.removeFile path) w = some (a, w')) :
    (∃ e, a = .error e ∧ w' = w) ∨ ∃ f, w.entries (h.locate path) = some f ∧ a = .ok () ∧
      Fresh w.now x.ctime ∧ w' = (w.setEntry (h.locate path) none).changed f x.ctime := by
  rcases Choice.fallible_eq_some.1 ha with ⟨e, -, rfl, rfl⟩ | ⟨-, ha⟩
  · exact .inl ⟨e, rfl, rfl⟩
  · split at ha
    · cases ha; exact .inl ⟨_, rfl, rfl⟩
    · rename_i f hf
      split_ifs at ha with hd hc
      · cases ha; exact .inl ⟨_, rfl, rfl⟩
      · cases ha; exact .inr ⟨f, World.find_eq_ok hf, rfl, hc, rfl⟩

theorem act_cellLock {cell : ℕ} {a : InflightState h.contentId}
    (ha : act who x (.cellLock cell) w = some (a, w')) : (w.cells cell).holder = none ∧
      a = (w.cells cell).state ∧ w' = w.setCell cell { w.cells cell with holder := some who } := by
  unfold act at ha
  simp only at ha
  split at ha
  · cases ha
  · rename_i hl; cases ha; exact ⟨hl, rfl, rfl⟩

theorem act_cacheClaim {path : PathBuf} {current : Option FileStamp} {a : Snapshot h.contentId ⊕ ℕ}
    (ha : act who x (.cacheClaim path current) w = some (a, w')) :
    a = (w.cache.claim path current w.nextCell).1 ∧
      w' = { w with
        cache := (w.cache.claim path current w.nextCell).2, nextCell := w.nextCell + 1 } := by
  cases ha
  exact ⟨rfl, rfl⟩

theorem act_lock {path : PathBuf} {a : Unit} (ha : act who x (.lock path) w = some (a, w')) :
    w.locks path = none ∧
      w' = { w with locks := fun p => if p = path then some who else w.locks p } := by
  unfold act at ha
  simp only at ha
  split at ha
  · cases ha
  · rename_i hl; cases ha; exact ⟨hl, rfl⟩

end

/-! ## Steps -/

/-- A call that was made: by whom, what the machine chose, its answer, and the world before what
    went before it, when it was made, and after. -/
structure Did (h : Host) where
  who : ℕ
  choice : Choice
  call : Call h
  answer : Answer call
  was : World h
  before : World h
  after : World h

/-- The world, and the calls made so far, the latest first. -/
structure State (h : Host) where
  world : World h
  trace : List (Did h)

/-- Which choices the machine has at which calls. -/
abbrev Rules (h : Host) := State h → Call h → Choice → Bool

/-- One call of thread `who`, as `x` decides. -/
def step (rules : Rules h) (who : ℕ) (x : Choice) (c : Call h) (s : State h) :
    Option (Answer c × State h) :=
  if rules s c x then
    (x.elapsed s.world).bind fun w =>
      (act who x c w).map fun r => (r.1, ⟨r.2, ⟨who, x, c, r.1, s.world, w, r.2⟩ :: s.trace⟩)
  else none

/-- **What a step is**: time and others, then the call, recorded. -/
theorem step_eq_some {rules : Rules h} {who : ℕ} {x : Choice} {c : Call h} {s s' : State h}
    {answer : Answer c} : step rules who x c s = some (answer, s') ↔
      rules s c x = true ∧ ∃ w, x.elapsed s.world = some w ∧
        act who x c w = some (answer, s'.world) ∧
        s'.trace = ⟨who, x, c, answer, s.world, w, s'.world⟩ :: s.trace := by
  obtain ⟨w', t'⟩ := s'
  unfold step
  constructor
  · intro hs
    split_ifs at hs with hr
    rw [Option.bind_eq_some_iff] at hs
    obtain ⟨w, hw, hs⟩ := hs
    rw [Option.map_eq_some_iff] at hs
    obtain ⟨⟨a, w₁⟩, ha, hs⟩ := hs
    cases hs
    exact ⟨hr, w, hw, ha, rfl⟩
  · rintro ⟨hr, w, hw, ha, ht⟩
    simp only at ha ht
    rw [if_pos hr, hw, Option.bind_some, ha, ht]
    rfl

end

/-- A call, and what follows it. -/
theorem wp_call {h : Host} {ε α : Type} {rules : Rules h} {who : ℕ} {s : State h}
    {Q : Exec ε α → State h → Prop} {c : Call h} {k : Answer c → Proc (Call h) Answer ε α}
    (hk : ∀ x w a s', rules s c x = true → x.elapsed s.world = some w →
      act who x c w = some (a, s'.world) →
      s'.trace = ⟨who, x, c, a, s.world, w, s'.world⟩ :: s.trace →
      (k a).wp (step rules who) Q s') :
    (Proc.ask c >>= k).wp (step rules who) Q s := by
  refine Proc.wp_bind.2 (Proc.wp_ask.2 fun x a s' hs => ?_)
  obtain ⟨hr, w, hw, ha, ht⟩ := step_eq_some.1 hs
  exact hk x w a s' hr hw ha ht

/-! ## Operations -/

/-- A function of the server: it makes calls, and returns, fails or panics. -/
abbrev Op (h : Host) (ε : Type) : Type → Type := Proc (Call h) Answer ε

namespace Op
variable {h : Host} {ε : Type}

def rest : Op h ε Unit := Proc.ask Call.rest
def guard (path : PathBuf) (stamp : FileStamp) (contentId : SnapshotId) : Op h ε Unit :=
  Proc.ask (Call.guard path stamp contentId)
def now : Op h ε ℤ := Proc.ask Call.now
def fetchAdd : Op h ε ℕ := Proc.ask Call.fetchAdd
def reserve (bytes : ℕ) : Op h ε Bool := Proc.ask (Call.reserve bytes)
def pathExists (path : PathBuf) : Op h ε Bool := Proc.ask (Call.pathExists path)
def canonicalize (path : PathBuf) : Op h ε (Except IoError PathBuf) :=
  Proc.ask (Call.canonicalize path)
def openRead (path : PathBuf) : Op h ε (Except IoError ℕ) := Proc.ask (Call.openRead path)
def createNew (path : PathBuf) : Op h ε (Except IoError ℕ) := Proc.ask (Call.createNew path)
def read (f offset most : ℕ) : Op h ε (Except IoError Bytes) := Proc.ask (Call.read f offset most)
def write (f offset : ℕ) (bytes : Bytes) : Op h ε (Except IoError ℕ) :=
  Proc.ask (Call.write f offset bytes)
def sync (f : ℕ) : Op h ε (Except IoError Unit) := Proc.ask (Call.sync f)
def fstat (f : ℕ) : Op h ε (Except IoError Metadata) := Proc.ask (Call.fstat f)
def stat (path : PathBuf) : Op h ε (Except IoError Metadata) := Proc.ask (Call.stat path)
def fileType (path : PathBuf) : Op h ε (Except IoError FileType) := Proc.ask (Call.fileType path)
def createDirAll (path : PathBuf) : Op h ε (Except IoError Unit) := Proc.ask (Call.createDirAll path)
def syncDir (path : PathBuf) : Op h ε (Except IoError Unit) := Proc.ask (Call.syncDir path)
def rename (source target : PathBuf) : Op h ε (Except IoError Unit) :=
  Proc.ask (Call.rename source target)
def hardLink (source target : PathBuf) : Op h ε (Except IoError Unit) :=
  Proc.ask (Call.hardLink source target)
def removeFile (path : PathBuf) : Op h ε (Except IoError Unit) := Proc.ask (Call.removeFile path)
def lock (path : PathBuf) : Op h ε Unit := Proc.ask (Call.lock path.components)
def unlock (path : PathBuf) : Op h ε Unit := Proc.ask (Call.unlock path.components)
def cacheGet (path : PathBuf) (stamp : Option FileStamp) : Op h ε (Option (Snapshot h.contentId)) :=
  Proc.ask (Call.cacheGet path.components stamp)
def cacheRacyResident (path : PathBuf) : Op h ε (Option (Snapshot h.contentId × FileStamp)) :=
  Proc.ask (Call.cacheRacyResident path.components)
def cacheRefresh (path : PathBuf) (entryStamp after : FileStamp) : Op h ε Unit :=
  Proc.ask (Call.cacheRefresh path.components entryStamp after)
def cacheClaim (path : PathBuf) (current : Option FileStamp) :
    Op h ε (Snapshot h.contentId ⊕ ℕ) := Proc.ask (Call.cacheClaim path.components current)
def cacheInsert (path : PathBuf) (snapshot : Snapshot h.contentId) : Op h ε Unit :=
  Proc.ask (Call.cacheInsert path.components snapshot)
def cacheSettle (path : PathBuf) : Op h ε Unit := Proc.ask (Call.cacheSettle path.components)
def cellLock (cell : ℕ) : Op h ε (InflightState h.contentId) := Proc.ask (Call.cellLock cell)
def cellSet (cell : ℕ) (state : InflightState h.contentId) : Op h ε Unit :=
  Proc.ask (Call.cellSet cell state)
def cellUnlock (cell : ℕ) : Op h ε Unit := Proc.ask (Call.cellUnlock cell)

/-- `FileStamp::from_metadata`: the clock is read after the metadata. -/
def fromMetadata (metadata : Metadata) : Op h ε FileStamp := do
  let capturedAt ← now
  pure (FileStamp.fromMetadata metadata capturedAt)

end Op

/-! ## A machine to try things on -/

/-- Identities spell their contents; directories are told apart by their depth. -/
def Host.sample : Host where
  contentId bytes := ⟨BitVec.ofNat 128 (bytes.foldl (fun n b => 256 * n + b.toNat) 1)⟩
  directory path := path.foldl (fun depth c => if c = ".." then depth - 1 else depth + 1) 0
  workingDirectory := ["w"]
  processId := 7
  device := 1
  joinError := "task panicked"

/-- The clock is at zero, where choices leave it, and a path leads to a file, or not. -/
def World.sample (path : PathBuf) (content : Option Bytes) : World Host.sample where
  now := 0
  files _ := ⟨1, content.getD [], ⟨0, 0⟩, ⟨0, 0⟩, .regular⟩
  next := 1
  entries loc := if loc = Host.sample.locate path then content.map fun _ => 0 else none
  counter := 0
  locks _ := none
  cache := .withCapacity (fun _ => 0) 1024
  cells _ := ⟨.pending, none⟩
  nextCell := 0

end Hashline
