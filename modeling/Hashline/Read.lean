/-
  Read pages: rendering a page of a snapshot, resuming from a cursor, and
  following the cursors to the end.
-/
import Hashline.Snapshot
import Hashline.Versioned

namespace Hashline

open Machine

variable {contentId : Bytes → SnapshotId}

/-! ## Pages -/

/-- What one read answers: the header, the rows, and the cursor of the next page. -/
structure Page where
  header : SnapshotHeader
  rows : List ContextLine
  footer : Option PageCursor

/-- The text of a string. -/
def utf8 (s : String) : Bytes := s.toUTF8.toList

theorem toList_loop (bs : ByteArray) (i : ℕ) (r : List UInt8) :
    ByteArray.toList.loop bs i r = r.reverse ++ bs.data.toList.drop i := by
  fun_induction ByteArray.toList.loop bs i r with
  | case1 i r h ih =>
    have hi : i < bs.data.toList.length := by simpa using h
    have hget : bs.get! i = bs.data.toList[i] := by
      rw [Array.getElem_toList]
      exact getElem!_pos bs.data i (by simpa using h)
    rw [ih, List.reverse_cons, List.append_assoc, List.drop_eq_getElem_cons hi, hget]; rfl
  | case2 i r h =>
    rw [List.drop_eq_nil_of_le (by simpa using h), List.append_nil]

theorem utf8_eq (s : String) : utf8 s = s.toByteArray.data.toList := by
  rw [utf8, ByteArray.toList, toList_loop]; simp

theorem length_utf8 (s : String) : (utf8 s).length = s.utf8ByteSize := by rw [utf8_eq]; simp

theorem utf8_append (s t : String) : utf8 (s ++ t) = utf8 s ++ utf8 t := by
  rw [utf8_eq, utf8_eq, utf8_eq, String.toByteArray_append]; simp

/-- The canonical section header, with the path in JSON quotes. -/
def SnapshotHeader.render (quote : String → String) (h : SnapshotHeader) : Bytes :=
  utf8 (s!"[hashline snapshot={h.snapshot.display} lines={h.lines} bytes={h.bytes} " ++
    s!"path={quote h.path}]")

def PageCursor.renderFooter (c : PageCursor) : Bytes :=
  utf8 s!"[hashline next snapshot={c.snapshot.display} position={c.next.display}]"

/-- `LINE@BYTE|CONTENT`. -/
def renderReadLine (row : ContextLine) : Bytes :=
  utf8 (row.position.display ++ "|") ++ row.content

/-- The page as text, one line feed between its parts. -/
def Page.render (quote : String → String) (page : Page) : Bytes :=
  page.header.render quote ++ page.rows.flatMap (fun row => lf :: renderReadLine row) ++
    match page.footer with
    | some cursor => lf :: cursor.renderFooter
    | none => []

/-- Display content of one line, without a line feed and one carriage return before it. -/
def displayLineContent {ε : Type} (text : Bytes) (start end_ : ℕ) : Exec ε Bytes :=
  Exec.expect (Utf8.get text start (contentEnd text start end_))

/-- `line_start(line)?.ok_or(AddressInvariant)?`. -/
def Snapshot.requireLineStart (granted : Bool) (snapshot : Snapshot contentId) (line : ℕ) :
    Exec SnapshotError ℕ := do
  let start ← snapshot.lineStart granted line
  Exec.okOr (.offsets .addressInvariant) start

/-- `Position::new`, whose refusal is an address error here. -/
def requirePosition (line byte : ℕ) : Exec SnapshotError Position :=
  Exec.okOr (.offsets .addressInvariant) (Position.ofParts line byte)

/-- Where the line ends: where the next one starts, or the end of the file. -/
def lineEnd (granted : Bool) (snapshot : Snapshot contentId) (line : ℕ) : Exec SnapshotError ℕ :=
  if line < snapshot.lineCount then snapshot.requireLineStart granted (line + 1)
  else .ok snapshot.byteLen

/-- One row of a page. -/
def pageRow (granted : Bool) (snapshot : Snapshot contentId) (line : ℕ) :
    Exec SnapshotError ContextLine := do
  let startByte ← snapshot.requireLineStart granted line
  let endByte ← lineEnd granted snapshot line
  let content ← displayLineContent snapshot.bytes startByte endByte
  let position ← requirePosition line startByte
  .ok ⟨position, content⟩

/-- The cursor of the page after `line`. -/
def pageCursor (granted : Bool) (snapshot : Snapshot contentId) (line : ℕ) :
    Exec SnapshotError PageCursor := do
  let nextByte ← snapshot.requireLineStart granted (line + 1)
  let next ← requirePosition (line + 1) nextByte
  .ok ⟨snapshot.id, next⟩

/-- `render_snapshot_page`, before the page is laid out as text. -/
def snapshotPage (granted : Bool) (snapshot : Snapshot contentId) (path : String)
    (startLine : ℕ) (limit : ℕ) : Exec SnapshotError Page := do
  let lineCount := snapshot.lineCount
  let header ← (SnapshotHeader.new path snapshot.id lineCount snapshot.byteLen).mapErr .contract
  let _ ← snapshot.offsets granted
  let startLine := max startLine 1
  if startLine > lineCount then .ok ⟨header, [], none⟩
  else
    let limit := max limit 1
    let endLineInclusive := min (saturatingAdd startLine limit - 1) lineCount
    let rows ← (List.range' startLine (endLineInclusive + 1 - startLine)).mapM
      (pageRow granted snapshot)
    if endLineInclusive < lineCount then do
      let cursor ← pageCursor granted snapshot endLineInclusive
      .ok ⟨header, rows, some cursor⟩
    else .ok ⟨header, rows, none⟩

def renderSnapshotPage (quote : String → String) (granted : Bool) (snapshot : Snapshot contentId)
    (path : String) (startLine limit : ℕ) : Exec SnapshotError Bytes := do
  let page ← snapshotPage granted snapshot path startLine limit
  .ok (page.render quote)

/-! ## Reading from a cursor -/

def validateCursorOnSnapshot (granted : Bool) (snapshot : Snapshot contentId) (path : String)
    (cursor : PageCursor) : Exec ProtocolError ℕ :=
  if cursor.snapshot = snapshot.id ∧
      (snapshot.validateBoundary granted cursor.next).isOk then .ok cursor.next.line
  else do
    let position ← validateReferenceCursor path snapshot.bytes snapshot.id cursor
    .ok position.line

/-- The line at which the page of a read starts. -/
def pageStart (granted : Bool) (snapshot : Snapshot contentId) (input : ReadRequest) :
    Exec ProtocolError ℕ :=
  match input.cursor with
  | some cursor => validateCursorOnSnapshot granted snapshot input.path cursor
  | none => .ok ((input.startLine.map UInt64.toNat).getD 1)

/-- `read::run` on the snapshot it loaded. -/
def readSnapshot (granted : Bool) (snapshot : Snapshot contentId) (input : ReadRequest) :
    Exec ProtocolError Page := do
  input.validate.mapErr .ofContract
  let startLine ← pageStart granted snapshot input
  if startLine > snapshot.lineCount then
    match input.cursor with
    | some cursor => Exec.fail (.ofContract (.invalidPosition cursor.next))
    | none => do
      let header ← (SnapshotHeader.new input.path snapshot.id snapshot.lineCount
        snapshot.byteLen).mapErr .ofContract
      .ok ⟨header, [], none⟩
  else
    (snapshotPage granted snapshot input.path startLine input.limit.toNat).mapErr
      (snapshotProtocolError "read" input.path)

/-- The request for the page a footer names. -/
def nextRequest (path : String) (limit : UInt16) (cursor : PageCursor) : ReadRequest :=
  ⟨path, limit, some cursor, none⟩

/-- A client that follows footers for at most `fuel` pages, page `i` with `limits i`: the pages it
    got, and whether the last one had no footer. -/
def followFooters (granted : Bool) (snapshot : Snapshot contentId) (path : String)
    (limits : ℕ → UInt16) : ℕ → ℕ → ReadRequest → Exec ProtocolError (List Page × Bool)
  | 0, _, _ => .ok ([], false)
  | fuel + 1, i, request => do
    let page ← readSnapshot granted snapshot request
    match page.footer with
    | none => .ok ([page], true)
    | some cursor => do
      let (pages, finished) ←
        followFooters granted snapshot path limits fuel (i + 1)
          (nextRequest path (limits (i + 1)) cursor)
      .ok (page :: pages, finished)

/-! ## One page -/

/-- What is seen of a row. -/
def ContextLine.view (row : ContextLine) : ℕ × ℕ × Bytes :=
  (row.position.line, row.position.byte, row.content)

/-- The row of logical line `line`, counted from one. -/
def lineView (bytes : Bytes) (line : ℕ) : ℕ × ℕ × Bytes :=
  (line, lineStart bytes (line - 1), displayed bytes (line - 1))

/-- The cursor at the start of logical line `line`. -/
def PageCursor.At (snapshot : Snapshot contentId) (line : ℕ) (cursor : PageCursor) : Prop :=
  cursor.snapshot = snapshot.id ∧ cursor.next.line = line ∧
    cursor.next.byte = lineStart snapshot.bytes (line - 1)

/-- A page that shows the lines `first, …, last` and names the next line when there is one. -/
structure Page.Shows (snapshot : Snapshot contentId) (first last : ℕ) (page : Page) : Prop where
  rows : page.rows.map ContextLine.view =
    (List.range' first (last + 1 - first)).map (lineView snapshot.bytes)
  more : last < snapshot.lineCount → ∃ cursor, page.footer = some cursor ∧
    cursor.At snapshot (last + 1)
  done : last = snapshot.lineCount → page.footer = none

section
variable (snapshot : Snapshot contentId)

theorem requireLineStart_eq {line : ℕ} (h : line ≠ 0) (hl : line ≤ snapshot.lineCount) :
    snapshot.requireLineStart true line = .ok (lineStart snapshot.bytes (line - 1)) := by
  rcases snapshot.lineStart_eq true h hl with ⟨-, hs⟩ | ⟨hf, -⟩
  · rw [Snapshot.requireLineStart, hs]; rfl
  · cases hf

theorem requirePosition_eq {line byte : ℕ} (h : line ≠ 0) (hl : line ≤ u64Max) (hb : byte ≤ u64Max) :
    requirePosition line byte = .ok ⟨line, byte, h, hl, hb⟩ := by
  rw [requirePosition, Position.ofParts, dif_pos ⟨h, hl, hb⟩]; rfl

/-- Lines and bytes of a snapshot fit `u64`. -/
theorem Snapshot.fits : snapshot.lineCount + 1 ≤ u64Max ∧ snapshot.bytes.length ≤ u64Max := by
  have hu := add_two_le_u64Max snapshot.isText.size
  have hc := lineCount_le snapshot.bytes
  rw [← snapshot.lineCount_eq'] at hc
  omega

theorem pageRow_eq {line : ℕ} (h : line ≠ 0) (hl : line ≤ snapshot.lineCount) :
    ∃ row, pageRow true snapshot line = .ok row ∧ row.view = lineView snapshot.bytes line := by
  obtain ⟨k, rfl⟩ : ∃ k, line = k + 1 := ⟨line - 1, by omega⟩
  have hk : k < lineCount snapshot.bytes := by rw [← snapshot.lineCount_eq']; omega
  have hfits := snapshot.fits
  have hstart := lineStart_le snapshot.bytes k
  have hend : lineEnd true snapshot (k + 1) = .ok (lineStart snapshot.bytes (k + 1)) := by
    unfold lineEnd
    split_ifs with hlt
    · rw [requireLineStart_eq snapshot (by omega) (by omega), Nat.add_sub_cancel]
    · rw [snapshot.byteLen_eq, show k + 1 = lineCount snapshot.bytes by
        rw [← snapshot.lineCount_eq']; omega, lineStart_lineCount]; rfl
  have hpos : requirePosition (k + 1) (lineStart snapshot.bytes k) = .ok _ :=
    requirePosition_eq (by omega) (by omega) (by omega)
  refine ⟨⟨⟨k + 1, lineStart snapshot.bytes k, by omega, by omega, by omega⟩,
    displayed snapshot.bytes k⟩, ?_, rfl⟩
  rw [pageRow, requireLineStart_eq snapshot h hl, hend, Nat.add_sub_cancel]
  show (do
    let content ← displayLineContent snapshot.bytes (lineStart snapshot.bytes k)
      (lineStart snapshot.bytes (k + 1))
    let position ← requirePosition (k + 1) (lineStart snapshot.bytes k)
    Except.ok (⟨position, content⟩ : ContextLine)) = _
  rw [displayLineContent, get_line snapshot.isText.utf8 hk, hpos]; rfl

theorem pageCursor_eq {line : ℕ} (hl : line < snapshot.lineCount) :
    ∃ cursor, pageCursor true snapshot line = .ok cursor ∧ cursor.At snapshot (line + 1) := by
  have hfits := snapshot.fits
  have hstart := lineStart_le snapshot.bytes line
  refine ⟨⟨snapshot.id, ⟨line + 1, lineStart snapshot.bytes line, by omega, by omega, by omega⟩⟩,
    ?_, rfl, rfl, rfl⟩
  rw [pageCursor, requireLineStart_eq snapshot (by omega) (by omega), Nat.add_sub_cancel]
  show (requirePosition _ _ >>= fun next => _) = _
  rw [requirePosition_eq (by omega) (by omega) (by omega)]; rfl

/-- **A page shows its lines.** -/
theorem snapshotPage_shows (path : String) {first limit : ℕ} (h1 : 1 ≤ first)
    (hc : first ≤ snapshot.lineCount) (hl : 1 ≤ limit) (hmax : limit ≤ maxPageLines) :
    ∃ page, snapshotPage true snapshot path first limit = .ok page ∧
      page.Shows snapshot first (min (first + limit - 1) snapshot.lineCount) := by
  have hfits := snapshot.fits
  have hsize := snapshot.isText.size
  have hheader : (SnapshotHeader.new path snapshot.id snapshot.lineCount snapshot.byteLen).mapErr
      SnapshotError.contract = .ok ⟨path, snapshot.id, snapshot.lineCount, snapshot.byteLen⟩ :=
    Exec.mapErr_eq_ok.2 (snapshot.header_new path)
  have hsat : saturatingAdd first limit = first + limit := saturatingAdd_of_le (by
    have hcount := lineCount_le snapshot.bytes
    rw [← snapshot.lineCount_eq'] at hcount
    simp only [maxFileBytes, i64Max, u64Max, maxPageLines] at *; omega)
  obtain ⟨offsets, hoffsets, -⟩ := snapshot.offsets_granted
  set last := min (first + limit - 1) snapshot.lineCount with hlast
  obtain ⟨rows, hrows, hviews⟩ := Exec.mapM_view (pageRow true snapshot)
    ContextLine.view (lineView snapshot.bytes) (List.range' first (last + 1 - first))
    fun line hline => by
      rw [List.mem_range'_1] at hline
      exact pageRow_eq snapshot (by omega) (by omega)
  have hrun : snapshotPage true snapshot path first limit =
      if last < snapshot.lineCount then do
        let cursor ← pageCursor true snapshot last
        .ok ⟨⟨path, snapshot.id, snapshot.lineCount, snapshot.byteLen⟩, rows, some cursor⟩
      else .ok ⟨⟨path, snapshot.id, snapshot.lineCount, snapshot.byteLen⟩, rows, none⟩ := by
    rw [snapshotPage, hheader, hoffsets]
    simp only [Exec.ok_bind, Nat.max_eq_left h1, Nat.max_eq_left hl, hsat, ← hlast]
    rw [if_neg (by omega), hrows]; rfl
  rw [hrun]
  split_ifs with hmore
  · obtain ⟨cursor, hcursor, hat⟩ := pageCursor_eq snapshot hmore
    rw [hcursor]
    exact ⟨_, rfl, hviews, fun _ => ⟨cursor, rfl, hat⟩, fun h => absurd h (by omega)⟩
  · exact ⟨_, rfl, hviews, fun h => absurd h hmore, fun _ => rfl⟩

/-- **A cursor at a line resumes there.** -/
theorem validateCursorOnSnapshot_eq (path : String) {line : ℕ} {cursor : PageCursor}
    (h : cursor.At snapshot line) (hl : line ≤ snapshot.lineCount) :
    validateCursorOnSnapshot true snapshot path cursor = .ok line := by
  obtain ⟨hid, rfl, hb⟩ := h
  rw [validateCursorOnSnapshot, snapshot.validateBoundary_lineStart hl hb, if_pos ⟨hid, rfl⟩]

/-- The requests of a chain that start at `line`. -/
def ReadRequest.StartsAt (request : ReadRequest) (line : ℕ) : Prop :=
  (request.cursor = none ∧ (request.startLine.map UInt64.toNat).getD 1 = line) ∨
    ∃ cursor, request.cursor = some cursor ∧ cursor.At snapshot line ∧ request.startLine = none

/-- A request that starts at a line of the snapshot is answered with a page from there. -/
theorem readSnapshot_shows {request : ReadRequest} {line : ℕ} (hs : request.StartsAt snapshot line)
    (h1 : 1 ≤ line) (hc : line ≤ snapshot.lineCount) (hl : 1 ≤ request.limit.toNat)
    (hmax : request.limit.toNat ≤ maxPageLines) :
    ∃ page, readSnapshot true snapshot request = .ok page ∧
      page.Shows snapshot line (min (line + request.limit.toNat - 1) snapshot.lineCount) := by
  obtain ⟨page, hpage, hshows⟩ := snapshotPage_shows snapshot request.path h1 hc hl hmax
  refine ⟨page, ?_, hshows⟩
  have hlimit : ¬(request.limit = 0 ∨ request.limit.toNat > maxPageLines) := by
    rintro (h | h)
    · rw [h] at hl; exact absurd hl (by decide)
    · omega
  have hvalid : request.validate = .ok () := by
    rw [ReadRequest.validate, if_neg hlimit]
    rcases hs with ⟨hcur, hline⟩ | ⟨cursor, hcur, -, hnone⟩
    · rw [if_neg, if_neg (by simp [hcur])]
      intro h0; rw [h0] at hline
      simp only [Option.map_some, Option.getD_some] at hline
      exact absurd hline (by show (0 : ℕ) ≠ line; omega)
    · rw [if_neg (by simp [hnone]), if_neg (by simp [hnone])]
  have hstart : pageStart true snapshot request = .ok line := by
    unfold pageStart
    rcases hs with ⟨hcur, hline⟩ | ⟨cursor, hcur, hat, -⟩
    · rw [hcur]; exact congrArg _ hline
    · rw [hcur]; exact validateCursorOnSnapshot_eq snapshot request.path hat hc
  rw [readSnapshot, hvalid, hstart]
  show (if line > snapshot.lineCount then _ else _) = _
  rw [if_neg (by omega), hpage]; rfl

/-! ## The whole chain -/

/-- A page of a complete chain: it shows some lines, and has a footer exactly when lines remain, a
    cursor that is accepted and resumes at the line after the last one shown. -/
def Page.Resumes (path : String) (page : Page) : Prop :=
  ∃ first last, first ≤ last ∧ last ≤ snapshot.lineCount ∧ page.Shows snapshot first last ∧
    (page.footer = none ↔ last = snapshot.lineCount) ∧
    ∀ cursor ∈ page.footer, cursor.At snapshot (last + 1) ∧
      validateCursorOnSnapshot true snapshot path cursor = .ok (last + 1)

theorem Page.Shows.resumes {page : Page} {first last : ℕ} (h : page.Shows snapshot first last)
    (hle : first ≤ last) (hl : last ≤ snapshot.lineCount) (path : String) :
    page.Resumes snapshot path := by
  refine ⟨first, last, hle, hl, h, ⟨fun hn => ?_, h.done⟩, fun cursor hc => ?_⟩
  · by_contra hne
    obtain ⟨cursor, hc, -⟩ := h.more (by omega)
    rw [hn] at hc; cases hc
  · rw [Option.mem_def] at hc
    have hlt : last < snapshot.lineCount := by
      by_contra hnl
      rw [h.done (by omega)] at hc; cases hc
    obtain ⟨cursor', hc', hat⟩ := h.more hlt
    rw [hc] at hc'; cases hc'
    exact ⟨hat, validateCursorOnSnapshot_eq snapshot path hat hlt⟩

/-- The lines up to `last`, and those after it. -/
theorem range'_append_range' {first last count : ℕ} (h : first ≤ last + 1) (hl : last ≤ count) :
    List.range' first (last + 1 - first) ++ List.range' (last + 1) (count + 1 - (last + 1)) =
      List.range' first (count + 1 - first) := by
  have happend := List.range'_append_1 (s := first) (m := last + 1 - first)
    (n := count + 1 - (last + 1))
  rw [show first + (last + 1 - first) = last + 1 by omega, show last + 1 - first +
    (count + 1 - (last + 1)) = count + 1 - first by omega] at happend
  exact happend

/-- From any line, following the footers shows the rest of the file. -/
theorem followFooters_from (path : String) (limits : ℕ → UInt16)
    (hlimits : ∀ i, 1 ≤ (limits i).toNat ∧ (limits i).toNat ≤ maxPageLines) :
    ∀ (fuel i line : ℕ) (request : ReadRequest), request.StartsAt snapshot line → 1 ≤ line →
      line ≤ snapshot.lineCount → request.limit = limits i → snapshot.lineCount < line + fuel →
      ∃ pages, followFooters true snapshot path limits fuel i request = .ok (pages, true) ∧
        (pages.flatMap Page.rows).map ContextLine.view =
          (List.range' line (snapshot.lineCount + 1 - line)).map (lineView snapshot.bytes) ∧
        ∀ page ∈ pages, page.Resumes snapshot path
  | 0, _, _, _, _, _, _, _, hf => by omega
  | fuel + 1, i, line, request, hs, h1, hc, hlim, hf => by
    obtain ⟨hl, hmax⟩ := hlimits i
    rw [← hlim] at hl hmax
    obtain ⟨page, hpage, hshows⟩ := readSnapshot_shows snapshot hs h1 hc hl hmax
    set last := min (line + request.limit.toNat - 1) snapshot.lineCount with hlast
    have hres := hshows.resumes snapshot (by omega) (by omega) path
    by_cases hmore : last < snapshot.lineCount
    · obtain ⟨cursor, hfoot, hat⟩ := hshows.more hmore
      obtain ⟨pages, hpages, hrows, hall⟩ := followFooters_from path limits hlimits fuel (i + 1)
        (last + 1) (nextRequest path (limits (i + 1)) cursor) (.inr ⟨cursor, rfl, hat, rfl⟩)
        (by omega) (by omega) rfl (by omega)
      refine ⟨page :: pages, ?_, ?_, List.forall_mem_cons.2 ⟨hres, hall⟩⟩
      · rw [followFooters, hpage]
        show (match page.footer with
          | none => _
          | some cursor => _) = _
        rw [hfoot]
        show (followFooters true snapshot path limits fuel (i + 1)
          (nextRequest path (limits (i + 1)) cursor) >>= fun r => _) = _
        rw [hpages]; rfl
      · -- the rows of this page, then those of the rest
        rw [List.flatMap_cons, List.map_append, hshows.rows, hrows, ← List.map_append]
        rw [range'_append_range' (by omega) (by omega)]
    · have hend : last = snapshot.lineCount := by omega
      refine ⟨[page], ?_, ?_, by simpa using hres⟩
      · rw [followFooters, hpage]
        show (match page.footer with
          | none => _
          | some cursor => _) = _
        rw [hshows.done hend]
      · rw [List.flatMap_singleton, hshows.rows, hend]

/-- **Pagination loses and repeats nothing.** From any start line, with any page limits, following
    the footers ends, and shows every line from there on once, in order. -/
theorem followFooters_complete (path : String) (limits : ℕ → UInt16)
    (hlimits : ∀ i, 1 ≤ (limits i).toNat ∧ (limits i).toNat ≤ maxPageLines) (line : UInt64)
    (h1 : 1 ≤ line.toNat) (hc : line.toNat ≤ snapshot.lineCount) :
    ∃ pages, followFooters true snapshot path limits snapshot.lineCount 0
        ⟨path, limits 0, none, some line⟩ = .ok (pages, true) ∧
      (pages.flatMap Page.rows).map ContextLine.view =
        (List.range' line.toNat (snapshot.lineCount + 1 - line.toNat)).map
          (lineView snapshot.bytes) ∧
      ∀ page ∈ pages, page.Resumes snapshot path :=
  followFooters_from snapshot path limits hlimits _ 0 line.toNat _ (.inl ⟨rfl, rfl⟩) h1 hc rfl
    (by omega)

end

/-- A text of two lines, the second without a terminator. -/
def twoLines : Snapshot fun _ => ⟨0⟩ := .ofText ⟨[97, 10, 98], by decide⟩ none

theorem followFooters_twoLines : ∃ pages,
    followFooters true twoLines "f" (fun _ => 1) twoLines.lineCount 0 ⟨"f", 1, none, some 1⟩ =
      .ok (pages, true) ∧
    (pages.flatMap Page.rows).map ContextLine.view =
      (List.range' 1 (twoLines.lineCount + 1 - 1)).map (lineView twoLines.bytes) ∧
    ∀ page ∈ pages, page.Resumes twoLines "f" :=
  followFooters_complete twoLines "f" (fun _ => 1) (fun _ => by decide) 1 (by decide) (by decide)

end Hashline
