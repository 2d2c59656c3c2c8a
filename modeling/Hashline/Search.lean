/-
  Searching files: the strict-text policy, the section of one file with
  matches, and the response under one match budget.
-/
import Hashline.Lib.Budget
import Hashline.Path
import Hashline.Read

namespace Hashline

open Machine

variable {contentId : Bytes → SnapshotId}

/-! ## The text policy -/

/-- Whether grep was explicitly given one file or is traversing a tree. -/
inductive GrepTarget where
  | explicitFile
  | treeEntry
  deriving DecidableEq, Repr

/-- Strict-text decision for a grep input. -/
inductive GrepText where
  | search (text : Str)
  | skipBinary
  | skipInvalidUtf8
  deriving DecidableEq

def classifyGrepText (bytes : Bytes) (target : GrepTarget) : Exec ContractError GrepText :=
  match validateText bytes with
  | .ok text => .ok (.search text)
  | .error (.err (.nulFile byte)) =>
    if target = .treeEntry then .ok .skipBinary else Exec.fail (.nulFile byte)
  | .error (.err (.invalidUtf8 validUpTo)) =>
    if target = .treeEntry then .ok .skipInvalidUtf8 else Exec.fail (.invalidUtf8 validUpTo)
  | .error error => .error error

/-! ## Matching lines -/

/-- What the search engine does with one haystack: the line of each match it reports, in order, and
    whether it stopped at a NUL; `none` where it fails. -/
abbrev Matcher := Bytes → Option (List ℕ × Bool)

/-- `MatchLineSink::matched`. -/
def matched (lines : List ℕ) (number : ℕ) : List ℕ :=
  if lines.getLast? = some number then lines else lines ++ [number]

def matchLines (matcher : Matcher) (content : Bytes) : Option (List ℕ) :=
  match matcher content with
  | none => none
  | some (reported, binary) => if binary then none else some (reported.foldl matched [])

/-! ## One section -/

inductive GrepLineKind where
  | isMatch
  | context
  deriving DecidableEq, Repr

/-- One position-bearing output line. -/
structure GrepLine where
  position : Position
  kind : GrepLineKind
  content : Bytes

def GrepLine.render (line : GrepLine) : Bytes :=
  let separator := match line.kind with | .isMatch => ":" | .context => "-"
  utf8 (line.position.display ++ separator) ++ line.content

/-- One window, merged into the last span where they touch. -/
def pushSpan (spans : List (ℕ × ℕ)) (start end_ : ℕ) : List (ℕ × ℕ) :=
  match spans.getLast? with
  | some last =>
    if start ≤ last.2 then spans.dropLast ++ [(last.1, max last.2 end_)]
    else spans ++ [(start, end_)]
  | none => [(start, end_)]

/-- The lines shown for the matches, as spans of line indices. -/
def includedSpans (matchLines : List ℕ) (before after : ℕ) : List (ℕ × ℕ) :=
  matchLines.foldl (fun spans lineNo =>
    let idx := lineNo - 1
    pushSpan spans (idx - before) (saturatingAdd (saturatingAdd idx after) 1)) []

/-- The lines a search can match: a line feed at the end starts no line of its own. -/
def Snapshot.searchable (snapshot : Snapshot contentId) : ℕ :=
  if snapshot.bytes = [] ∨ snapshot.bytes.getLast? = some lf then snapshot.lineCount - 1
  else snapshot.lineCount

/-- Per-file search result. -/
structure FileHit where
  rel : PathBuf
  header : Bytes
  body : Bytes
  matches_ : ℕ
  deriving DecidableEq

/-- `.ok().flatten()?`. -/
def okFlatten {ε α : Type} : Exec ε (Option α) → Exec Unit α
  | .ok (some a) => .ok a
  | .error .panic => Exec.panic
  | _ => Exec.fail ()

/-- Where the line ends, for `render_hit`. -/
def hitEnd (granted : Bool) (snapshot : Snapshot contentId) (lineNo : ℕ) : Exec Unit ℕ :=
  if lineNo < snapshot.lineCount then okFlatten (snapshot.lineStart granted (lineNo + 1))
  else .ok snapshot.byteLen

/-- The position and the content of one line, as the loop of `render_hit` computes them. -/
def hitRow (granted : Bool) (snapshot : Snapshot contentId) (lineNo : ℕ) : Exec Unit ContextLine := do
  let startByte ← okFlatten (snapshot.lineStart granted lineNo)
  let endByte ← hitEnd granted snapshot lineNo
  let raw := snapshot.bytes
  let contentEnd :=
    if endByte > startByte ∧ raw[endByte - 1]? = some lf then
      let contentEnd := endByte - 1
      if contentEnd > startByte ∧ raw[contentEnd - 1]? = some cr then contentEnd - 1 else contentEnd
    else endByte
  let content ← Exec.expect (Utf8.get raw startByte contentEnd)
  let position ← Exec.okOr () (Position.ofParts lineNo startByte)
  .ok ⟨position, content⟩

theorem requireLineStart_mapErr (granted : Bool) (snapshot : Snapshot contentId) (line : ℕ) :
    (snapshot.requireLineStart granted line).mapErr (fun _ => ()) =
      okFlatten (snapshot.lineStart granted line) := by
  rw [Snapshot.requireLineStart]
  rcases snapshot.lineStart granted line with (_ | _) | (_ | _) <;> rfl

theorem lineEnd_mapErr (granted : Bool) (snapshot : Snapshot contentId) (line : ℕ) :
    (lineEnd granted snapshot line).mapErr (fun _ => ()) = hitEnd granted snapshot line := by
  unfold lineEnd hitEnd
  split_ifs
  · exact requireLineStart_mapErr granted snapshot (line + 1)
  · rfl

/-- **The loop of a search computes the row a page shows.** -/
theorem hitRow_eq (granted : Bool) (snapshot : Snapshot contentId) (lineNo : ℕ) :
    hitRow granted snapshot lineNo = (pageRow granted snapshot lineNo).mapErr fun _ => () := by
  rw [pageRow, Exec.mapErr_bind, requireLineStart_mapErr, hitRow]
  refine bind_congr (m := Exec Unit) fun startByte => ?_
  rw [Exec.mapErr_bind, lineEnd_mapErr]
  refine bind_congr (m := Exec Unit) fun endByte => ?_
  rw [Exec.mapErr_bind, displayLineContent, Exec.mapErr_expect, contentEnd]
  refine bind_congr (m := Exec Unit) fun content => ?_
  rw [Exec.mapErr_bind, requirePosition, Exec.mapErr_okOr]
  rfl

section
variable (granted : Bool) (snapshot : Snapshot contentId)

/-- The lines of one span; `matched` are the matches that are not yet behind. A failure, `None` in
    the source, leaves the file out. -/
def renderSpan : List ℕ → List ℕ → Exec Unit (Bytes × List ℕ)
  | [], matched => .ok ([], matched)
  | lineNo :: lines, matched => do
    let row ← hitRow granted snapshot lineNo
    let matched := matched.dropWhile (· < lineNo)
    let kind := if matched.head? = some lineNo then .isMatch else .context
    let (rest, matched) ← renderSpan lines matched
    .ok ((GrepLine.mk row.position kind row.content).render ++ lf :: rest, matched)

/-- The spans, with a mark between any two. -/
def renderSpans : List (ℕ × ℕ) → List ℕ → Exec Unit Bytes
  | [], _ => .ok []
  | span :: spans, matched => do
    let (text, matched) ← renderSpan granted snapshot
      (List.range' (span.1 + 1) (span.2 - span.1)) matched
    let rest ← renderSpans spans matched
    .ok (text ++ (if spans = [] then [] else utf8 "--\n") ++ rest)

end

/-- `to_string_lossy` of a relative path. -/
def PathBuf.relative (path : PathBuf) : String := "/".intercalate path

/-- What one search is about, the same for every file. -/
structure SearchContext where
  matcher : Matcher
  root : PathBuf
  before : ℕ
  after : ℕ
  quitThreshold : ℕ
  mode : GrepOutputMode

section
variable (contentId) (quote : String → String) (granted : Bool) (ctx : SearchContext)

def renderHit (bytes : Bytes) (rel : PathBuf) (matched : List ℕ) : Exec Unit FileHit :=
  if ctx.mode ≠ .content then .ok ⟨rel, [], [], matched.length⟩
  else do
    let snapshot : Snapshot contentId ← (Snapshot.fromValidatedBytes bytes).mapErr fun _ => ()
    let _ ← (snapshot.offsets granted).mapErr fun _ => ()
    let spans := (includedSpans matched ctx.before ctx.after).map fun span =>
      (span.1, min span.2 snapshot.searchable)
    let header ← (SnapshotHeader.new rel.relative snapshot.id snapshot.lineCount
      snapshot.byteLen).mapErr fun _ => ()
    let body ← renderSpans granted snapshot spans matched
    .ok ⟨rel, header.render quote, body, matched.length⟩

/-- `explicit_read_error`. -/
def explicitReadError (path : PathBuf) (source : IoError) : ProtocolError :=
  match source.kind with
  | .notFound => .new .notFound s!"File not found: {path.display}"
  | .permissionDenied =>
    .new .permissionDenied s!"Permission denied reading {path.display}: {source.text}"
  | _ => .new .io s!"Failed to read {path.display}: {source.text}"

/-- What the search of one file comes to; a skip is counted where it happens. -/
inductive Searched where
  | hit (hit : FileHit)
  | nothing
  | skipBinary
  | skipInvalidUtf8
  deriving DecidableEq

/-- The section of a text whose matching lines are known; where there is none, the file is simply not
    reported. -/
def searchText (bytes : Bytes) (rel : PathBuf) : Option (List ℕ) → Exec ProtocolError Searched
  | none => .ok .nothing
  | some [] => .ok .nothing
  | some matched => match renderHit contentId quote granted ctx bytes rel matched with
    | .ok hit => .ok (.hit hit)
    | .error (.err ()) => .ok .nothing
    | .error .panic => Exec.panic

/-- `search_file`, on what reading the file gave. -/
def searchFile (path rel : PathBuf) (target : GrepTarget) :
    Except IoError Bytes → Exec ProtocolError Searched
  | .error source => match target with
    | .explicitFile => Exec.fail (explicitReadError path source)
    | .treeEntry => .ok .nothing
  | .ok bytes => do
    match ← (classifyGrepText bytes target).mapErr .ofContract with
    | .skipBinary => .ok .skipBinary
    | .skipInvalidUtf8 => .ok .skipInvalidUtf8
    | .search text => searchText contentId quote granted ctx bytes rel (matchLines ctx.matcher text.bytes)

end

/-! ## The response -/

/-- Terminal counters of a grep response. -/
structure GrepSummary where
  matches_ : ℕ
  truncated : Bool
  skippedBinary : ℕ
  skippedInvalidUtf8 : ℕ
  deriving DecidableEq

def GrepSummary.render (s : GrepSummary) : Bytes :=
  utf8 (s!"[hashline matches={s.matches_} truncated={s.truncated} " ++
    s!"skipped_binary={s.skippedBinary} skipped_invalid_utf8={s.skippedInvalidUtf8}]")

/-- The loop of `assemble_output` from `shown` matches on: the hits it writes, the matches shown in
    the end, and whether it broke off. -/
def takeHits (maxMatches : ℕ) : ℕ → List FileHit → List FileHit × ℕ × Bool
  | shown, [] => ([], shown, false)
  | shown, hit :: hits =>
    if shown ≥ maxMatches then ([], shown, true)
    else
      let (reported, shown, truncated) := takeHits maxMatches (saturatingAdd shown hit.matches_) hits
      (hit :: reported, shown, truncated)

/-- What one hit adds to the output so far. -/
def pushHit (mode : GrepOutputMode) (out : Bytes) (hit : FileHit) : Bytes :=
  match mode with
  | .content => out ++ (if out = [] then [] else [lf]) ++ hit.header ++ lf :: hit.body
  | .filesWithMatches => out ++ utf8 (hit.rel.relative ++ "\n")
  | .count => out ++ utf8 s!"{hit.rel.relative}: {hit.matches_}\n"

/-- What a response says: the files it reports and the counters. -/
structure Report where
  reported : List FileHit
  summary : GrepSummary
  deriving DecidableEq

def report (hits : List FileHit) (maxMatches skippedBinary skippedInvalidUtf8 : ℕ) : Report :=
  let (reported, shown, truncated) := takeHits maxMatches 0 hits
  ⟨reported, ⟨shown, truncated, skippedBinary, skippedInvalidUtf8⟩⟩

/-- The response as text. -/
def Report.render (mode : GrepOutputMode) (r : Report) : Bytes :=
  let out := r.reported.foldl (pushHit mode) []
  out ++ (if out ≠ [] ∧ mode = .content then [lf] else []) ++ r.summary.render

def assembleOutput (mode : GrepOutputMode) (hits : List FileHit)
    (maxMatches skippedBinary skippedInvalidUtf8 : ℕ) : Bytes :=
  (report hits maxMatches skippedBinary skippedInvalidUtf8).render mode

/-! ## A text with matches has a section -/

section
variable (snapshot : Snapshot contentId)

theorem renderSpan_eq_ok {lines : List ℕ} (matched : List ℕ)
    (h : ∀ n ∈ lines, n ≠ 0 ∧ n ≤ snapshot.lineCount) :
    ∃ r, renderSpan true snapshot lines matched = .ok r := by
  induction lines generalizing matched with
  | nil => exact ⟨_, rfl⟩
  | cons n lines ih =>
    obtain ⟨hn, hl⟩ := h n List.mem_cons_self
    obtain ⟨row, hrow, -⟩ := pageRow_eq snapshot hn hl
    obtain ⟨r, hr⟩ := ih (matched.dropWhile (· < n))
      fun m hm => h m (List.mem_cons_of_mem _ hm)
    rw [renderSpan, hitRow_eq, hrow, Exec.mapErr, Exec.ok_bind]
    simp only [hr]
    exact ⟨_, rfl⟩

theorem renderSpans_eq_ok {spans : List (ℕ × ℕ)} (matched : List ℕ)
    (h : ∀ span ∈ spans, span.2 ≤ snapshot.lineCount) :
    ∃ body, renderSpans true snapshot spans matched = .ok body := by
  induction spans generalizing matched with
  | nil => exact ⟨_, rfl⟩
  | cons span spans ih =>
    have hspan := h span List.mem_cons_self
    obtain ⟨⟨text, later⟩, hr⟩ := renderSpan_eq_ok snapshot matched
      fun n (hn : n ∈ List.range' (span.1 + 1) (span.2 - span.1)) => by
        rw [List.mem_range'_1] at hn; omega
    obtain ⟨body, hbody⟩ := ih later fun s hs => h s (List.mem_cons_of_mem _ hs)
    rw [renderSpans, hr, Exec.ok_bind]
    simp only [hbody]
    exact ⟨_, rfl⟩

theorem Snapshot.searchable_le : snapshot.searchable ≤ snapshot.lineCount := by
  unfold Snapshot.searchable; split_ifs <;> omega

end

section
variable (contentId) (quote : String → String) (ctx : SearchContext)

/-- **A text with matches is reported**, in every mode with the same path and count. -/
theorem renderHit_eq_ok {bytes : Bytes} (h : IsText bytes) (rel : PathBuf) (matched : List ℕ) :
    ∃ hit, renderHit contentId quote true ctx bytes rel matched = .ok hit ∧ hit.rel = rel ∧
      hit.matches_ = matched.length := by
  unfold renderHit
  split_ifs
  · exact ⟨_, rfl, rfl, rfl⟩
  · have hsnap : (Snapshot.fromValidatedBytes bytes : Exec SnapshotError (Snapshot contentId)) = _ :=
      Snapshot.fromValidatedBytes_eq h
    rw [hsnap, Exec.mapErr, Exec.ok_bind]
    set snapshot : Snapshot contentId := .ofText ⟨bytes, h⟩ none with hs
    obtain ⟨offsets, ho, -⟩ := snapshot.offsets_granted
    have hspans : ∀ span ∈ (includedSpans matched ctx.before ctx.after).map fun span =>
        (span.1, min span.2 snapshot.searchable), span.2 ≤ snapshot.lineCount := by
      intro span hspan
      obtain ⟨s, -, rfl⟩ := List.mem_map.1 hspan
      exact (Nat.min_le_right _ _).trans snapshot.searchable_le
    obtain ⟨body, hbody⟩ := renderSpans_eq_ok snapshot matched hspans
    rw [ho, Exec.mapErr, Exec.ok_bind, snapshot.header_new, Exec.mapErr, Exec.ok_bind, hbody]
    exact ⟨_, rfl, rfl, rfl⟩

end

/-! ## The loop is a budget -/

theorem takeHits_eq {maxMatches : ℕ} (h : maxMatches ≤ u64Max) (hits : List FileHit) : ∀ n,
    takeHits maxMatches (min n u64Max) hits =
      (Budget.spend FileHit.matches_ maxMatches n hits,
        min (n + Budget.total FileHit.matches_ (Budget.spend FileHit.matches_ maxMatches n hits)) u64Max,
        decide (Budget.spend FileHit.matches_ maxMatches n hits ≠ hits)) := by
  induction hits with
  | nil => intro n; simp [takeHits, Budget.spend]
  | cons hit hits ih =>
    intro n
    rw [takeHits, Budget.spend]
    by_cases hn : maxMatches ≤ n
    · rw [if_pos (by omega), if_pos hn]; simp
    · have hsat : saturatingAdd (min n u64Max) hit.matches_ = min (n + hit.matches_) u64Max := by
        rw [saturatingAdd]; omega
      rw [if_neg (by omega), if_neg hn, hsat, ih]
      simp [Nat.add_assoc]

/-- **What a response reports**: the first hits, until the budget is used up. -/
theorem report_eq {maxMatches : ℕ} (h : maxMatches ≤ u64Max) (hits : List FileHit) (b u : ℕ) :
    report hits maxMatches b u =
      ⟨Budget.spend FileHit.matches_ maxMatches 0 hits,
        min (Budget.total FileHit.matches_ (Budget.spend FileHit.matches_ maxMatches 0 hits)) u64Max,
        decide (Budget.spend FileHit.matches_ maxMatches 0 hits ≠ hits), b, u⟩ := by
  have htake := takeHits_eq h hits 0
  rw [Nat.min_eq_left (Nat.zero_le _), Nat.zero_add] at htake
  rw [report, htake]

end Hashline
