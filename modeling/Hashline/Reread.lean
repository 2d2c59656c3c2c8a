/-
  A read, an edit of what it showed, and a read of what that made: the rows are
  those that were shown, with each operation done on whole rows.
-/
import Hashline.Engine
import Hashline.Lossless

namespace Hashline

open Machine

variable {contentId : Bytes → SnapshotId}

/-! ## The lines of an edited text -/

/-- Empty, or ended by a line feed. -/
def WholeLines (content : Bytes) : Prop := content = [] ∨ content.getLast? = some lf

instance (content : Bytes) : Decidable (WholeLines content) := inferInstanceAs (Decidable (_ ∨ _))

/-- The lines that an operation puts: with those that follow them in the text, unless it replaces the
    last one. -/
def EditOperation.newLines (count : ℕ) (operation : EditOperation) : List Bytes :=
  if operation.end_.line ≤ count then (lines operation.content).dropLast else lines operation.content

/-- The operation on the lines as they are, one piece each. -/
def EditOperation.onWholeLines (count : ℕ) (operation : EditOperation) : Splice.Op Bytes :=
  operation.onLines.withText (operation.newLines count)

/-- The lines of whole lines end in an empty one. -/
theorem WholeLines.lines_eq {content : Bytes} (h : WholeLines content) :
    ∃ ls, lines content = ls ++ [[]] ∧ ∀ l ∈ ls, Lines.Ended lf l := by
  obtain ⟨ls, l, hls, hended, hl⟩ := Lines.split_ends lf content
  refine ⟨ls, ?_, hended⟩
  rw [lines, hls]
  rcases l.eq_nil_or_concat with rfl | ⟨l, b, rfl⟩
  · rfl
  -- else the last byte is no line feed
  have hlast : content.getLast? = some b := by
    rw [← Lines.flatten_split lf content, hls, List.flatten_append, List.flatten_singleton,
      List.concat_eq_append, ← List.append_assoc, List.getLast?_concat]
  rcases h with rfl | h
  · cases hlast
  · rw [hlast, Option.some.injEq] at h
    subst h
    exact absurd (by simp) hl

section
variable {source : Bytes} {operations : List EditOperation}

theorem flatten_newLines {o : EditOperation} {count : ℕ} (h : o.end_.line ≤ count → WholeLines o.content) :
    (o.newLines count).flatten = o.content := by
  unfold EditOperation.newLines
  split_ifs with hle
  · obtain ⟨ls, hls, -⟩ := (h hle).lines_eq
    have hflat := flatten_lines o.content
    rw [hls, List.flatten_append, List.flatten_singleton, List.append_nil] at hflat
    rw [hls, List.dropLast_concat, hflat]
  · exact flatten_lines _

/-- The operation on whole lines of a resolved edit. -/
def ValidatedEdit.onWholeLines (count : ℕ) (v : ValidatedEdit) : Splice.Op Bytes :=
  v.onLines.withText (if v.endOrdinal + 1 ≤ count then (lines v.content).dropLast else lines v.content)

theorem resolved_onWholeLines (operations : List EditOperation) (index count : ℕ) :
    (resolved index operations).map (ValidatedEdit.onWholeLines count) =
      operations.map (EditOperation.onWholeLines count) := by
  have hof : ∀ o i, (ValidatedEdit.of o i).onWholeLines count = o.onWholeLines count := by
    intro o i
    have hline : o.end_.line - 1 + 1 = o.end_.line := Nat.succ_pred o.end_.line_ne
    rw [ValidatedEdit.onWholeLines, EditOperation.onWholeLines, EditOperation.newLines]
    simp only [ValidatedEdit.of, hline]
    rfl
  rw [resolved, List.map_map]
  conv_rhs => rw [← List.zipIdx_map_fst index operations, List.map_map]
  exact List.map_congr_left fun o _ => hof o.1 o.2

/-- In the order of the splice the operations on whole lines are one sweep. -/
theorem edited_onWholeLines (hr : Resolves source operations)
    (hc : operations.Pairwise fun o p => ¬Splice.Clash o.onLines p.onLines) (count : ℕ)
    {ls : List (List Bytes)} (hls : ls.length = lineCount source) :
    Splice.edited ls (operations.map (EditOperation.onWholeLines count)) =
      Splice.sweep ls 0 ((sorted (resolved 0 operations)).map (ValidatedEdit.onWholeLines count)) ∧
    ((sorted (resolved 0 operations)).map (ValidatedEdit.onWholeLines count)).Pairwise Splice.After := by
  have hc' : (resolved 0 operations).Pairwise fun a b => ¬Splice.Clash a.onLines b.onLines := by
    rwa [resolved_pairwise (R := fun a b => ¬Splice.Clash a b)]
  have hpw : ((sorted (resolved 0 operations)).map (ValidatedEdit.onWholeLines count)).Pairwise
      Splice.After := by
    have hafter := sorted_after hr.fits hc'
    rw [List.pairwise_map] at hafter ⊢
    exact hafter
  have hfits : ∀ o ∈ (sorted (resolved 0 operations)).map (ValidatedEdit.onWholeLines count),
      o.first ≤ o.last ∧ o.last ≤ ls.length := by
    intro o ho
    obtain ⟨v, hv, rfl⟩ := List.mem_map.1 ho
    have hf := hr.fits v ((sorted_perm _).mem_iff.1 hv)
    exact ⟨hf.le, hls ▸ hf.le_count⟩
  refine ⟨?_, hpw⟩
  rw [Splice.sweep_zero hpw hfits, ← resolved_onWholeLines operations 0 count]
  refine Splice.edited_congr ls ((sorted_perm _).symm.map _) (fun i => ?_) fun i => ?_
  · rw [List.filter_map, List.filter_map]
    exact congrArg _ (sorted_insertsAt (resolved_indices _ _) i).symm
  · refine Splice.filter_replacesAt_perm ((sorted_perm _).symm.map _) (fun o ho => ?_) ?_ i
    · obtain ⟨v, hv, rfl⟩ := List.mem_map.1 ho
      exact (hr.fits v hv).le
    · rw [List.pairwise_map]
      exact hc'

/-- What an operation puts is whole lines, or ends as a text does where it replaces the last line. -/
theorem newLines_ends {o : EditOperation} {count : ℕ} (hle : o.end_.line ≤ count + 1)
    (hw : o.end_.line ≤ count → WholeLines o.content) :
    o.end_.line ≤ count ∧ (∀ l ∈ o.newLines count, Lines.Ended lf l) ∨
      o.end_.line = count + 1 ∧ Lines.Ends (Lines.Ended lf) (lf ∉ ·) (o.newLines count) := by
  unfold EditOperation.newLines
  split_ifs with h
  · obtain ⟨ls, hls, hended⟩ := (hw h).lines_eq
    refine .inl ⟨h, fun l hl => ?_⟩
    rw [hls, List.dropLast_concat] at hl
    exact hended l hl
  · exact .inr ⟨by omega, Lines.split_ends lf _⟩

/-- The edit on whole lines, put together, is the edit. -/
theorem edited_eq_flatten
    (hw : ∀ o ∈ operations, o.end_.line ≤ lineCount source → WholeLines o.content) :
    edited source operations = (Splice.edited ((lines source).map fun l => [l])
      (operations.map (EditOperation.onWholeLines (lineCount source)))).flatten := by
  rw [← Splice.edited_withText List.flatten rfl fun _ _ => List.flatten_append, edited, List.map_map,
    List.map_map]
  congr 1
  · rw [List.map_congr_left (g := id) fun l _ => by simp, List.map_id]
  · refine List.map_congr_left fun o ho => ?_
    show o.onLines = o.onLines.withText (o.newLines (lineCount source)).flatten
    rw [flatten_newLines (hw o ho)]
    rfl

/-- The edit on whole lines ends as a text does. -/
theorem ends_edited (hr : Resolves source operations)
    (hc : operations.Pairwise fun o p => ¬Splice.Clash o.onLines p.onLines)
    (hs : ∀ o ∈ operations, o.start.line ≤ lineCount source)
    (hw : ∀ o ∈ operations, o.end_.line ≤ lineCount source → WholeLines o.content) :
    Lines.Ends (Lines.Ended lf) (lf ∉ ·) (Splice.edited ((lines source).map fun l => [l])
      (operations.map (EditOperation.onWholeLines (lineCount source)))) := by
  set count := lineCount source with hcount
  obtain ⟨init, l, hlines, hinit, hl⟩ := Lines.split_ends lf source
  have hlen : count = init.length + 1 := by
    rw [hcount, lineCount, lines, hlines, List.length_append]
    rfl
  obtain ⟨hsweep, hafter⟩ := edited_onWholeLines hr hc count
    (show ((lines source).map fun l => [l]).length = lineCount source by rw [List.length_map]; rfl)
  rw [hsweep, lines, hlines, List.map_append]
  refine Splice.sweep_ends (P := Lines.Ended lf) (Q := (lf ∉ ·)) (fun xs hxs x hx => ?_) hl _ 0 hafter
    (fun op hop => ?_) (Nat.zero_le _)
  · obtain ⟨y, hy, rfl⟩ := List.mem_map.1 hxs
    rw [List.mem_singleton.1 hx]
    exact hinit y hy
  have hmem : op ∈ (resolved 0 operations).map (ValidatedEdit.onWholeLines count) := by
    rwa [((sorted_perm _).map _).mem_iff] at hop
  rw [resolved_onWholeLines] at hmem
  obtain ⟨o, ho, rfl⟩ := List.mem_map.1 hmem
  obtain ⟨-, -, hend, hle⟩ := hr o ho
  have hstart := hs o ho
  have hpos := o.start.line_ne
  have hnew := newLines_ends (show o.end_.line ≤ count + 1 by have := hend.line_le; omega) (hw o ho)
  rw [List.length_map]
  refine ⟨Nat.zero_le _, ?_, ?_, ?_⟩
  · exact Nat.sub_le_sub_right hle 1
  · show o.start.line - 1 ≤ init.length
    omega
  · refine hnew.imp (And.imp_left fun h => ?_) (And.imp_left fun h => ?_)
    · show o.end_.line - 1 ≤ init.length
      omega
    · show o.end_.line - 1 = init.length + 1
      omega

/-- **The lines of an edited text** are the lines of the text with the operations done on whole lines:
    no operation starts after the last line, and what is put before a line is whole lines. -/
theorem lines_edited (hr : Resolves source operations)
    (hc : operations.Pairwise fun o p => ¬Splice.Clash o.onLines p.onLines)
    (hs : ∀ o ∈ operations, o.start.line ≤ lineCount source)
    (hw : ∀ o ∈ operations, o.end_.line ≤ lineCount source → WholeLines o.content) :
    lines (edited source operations) = Splice.edited ((lines source).map fun l => [l])
      (operations.map (EditOperation.onWholeLines (lineCount source))) := by
  rw [edited_eq_flatten hw, lines, Lines.split_flatten (ends_edited hr hc hs hw)]

end

/-! ## What a client sees of it -/

/-- The rows of a read, without their positions. -/
def shownRows (pages : List Page) : List Bytes := (pages.flatMap Page.rows).map (·.content)

/-- The operation on rows. -/
def EditOperation.onRows (count : ℕ) (operation : EditOperation) : Splice.Op Bytes :=
  operation.onLines.withText ((operation.newLines count).map stripTerminator)

/-- The position of a row. -/
def OfRow (pages : List Page) (p : Position) : Prop := ∃ row ∈ pages.flatMap Page.rows, row.position = p

/-- The position after the last row, from the header. -/
def OfEnd (pages : List Page) (p : Position) : Prop :=
  ∀ page ∈ pages, p.line = page.header.lines + 1 ∧ p.byte = page.header.bytes

/-- A request that a client makes of what it was shown: rows are replaced, or lines put before a row,
    by whole lines unless the last row is replaced, and no two operations clash. -/
structure MadeOf (pages : List Page) (request : EditRequest) : Prop where
  snapshot : ∀ page ∈ pages, request.snapshot = page.header.snapshot
  count : 1 ≤ request.edits.length ∧ request.edits.length ≤ maxEditOperations
  start : ∀ o ∈ request.edits, OfRow pages o.start
  end_ : ∀ o ∈ request.edits, OfRow pages o.end_ ∧ WholeLines o.content ∨ OfEnd pages o.end_
  ordered : ∀ o ∈ request.edits, o.start.line ≤ o.end_.line
  contents : ∀ o ∈ request.edits, (0 : UInt8) ∉ o.content
  apart : request.edits.Pairwise fun o p => ¬Splice.Clash o.onLines p.onLines

/-- The pages show all of the bytes: every line once and in order, under headers that tell of them. -/
structure ShowAll (contentId : Bytes → SnapshotId) (bytes : Bytes) (pages : List Page) : Prop where
  rows : (pages.flatMap Page.rows).map ContextLine.view =
    (List.range' 1 (lineCount bytes)).map (lineView bytes)
  ne_nil : pages ≠ []
  headers : ∀ page ∈ pages, page.header.snapshot = contentId bytes ∧
    page.header.lines = lineCount bytes ∧ page.header.bytes = bytes.length

theorem CompleteRead.showAll {granted : Bool} {snapshot : Snapshot contentId} {path : String}
    {pages : List Page} (h : CompleteRead granted snapshot path pages) :
    ShowAll contentId snapshot.bytes pages := by
  obtain ⟨hrows, hne, hall⟩ := h.shown
  refine ⟨by rw [hrows, snapshot.lineCount_eq'], hne, fun page hp => ?_⟩
  rw [(hall page hp).1]
  exact ⟨snapshot.id_eq, snapshot.lineCount_eq', snapshot.byteLen_eq⟩

namespace ShowAll
variable {bytes : Bytes} {pages : List Page} (h : ShowAll contentId bytes pages)
include h

theorem shownRows_eq : shownRows pages = (lines bytes).map stripTerminator := by
  have hview := congrArg (List.map fun v : ℕ × ℕ × Bytes => v.2.2) h.rows
  rw [List.map_map, List.map_map] at hview
  refine hview.trans (List.ext_getElem ?_ fun k hk hk' => ?_)
  · rw [List.length_map, List.length_map, List.length_range', lineCount]
  · rw [List.getElem_map, List.getElem_map, List.getElem_range', Function.comp_apply]
    show displayed bytes (1 + 1 * k - 1) = _
    rw [List.length_map] at hk'
    rw [one_mul, Nat.add_sub_cancel_left, displayed, lineAt, List.getElem?_eq_getElem hk', Option.getD_some]

theorem length_shownRows : (shownRows pages).length = lineCount bytes := by
  rw [h.shownRows_eq, List.length_map, lineCount]

/-- The positions that are shown are where the lines start. -/
theorem ofRow_iff {p : Position} : OfRow pages p ↔
    ∃ k < lineCount bytes, p.line = k + 1 ∧ p.byte = lineStart bytes k := by
  have hrow : ∀ q : ℕ × ℕ × Bytes, q ∈ (pages.flatMap Page.rows).map ContextLine.view ↔
      ∃ k < lineCount bytes, q = lineView bytes (k + 1) := by
    intro q
    rw [h.rows, List.mem_map]
    simp only [List.mem_range'_1]
    constructor
    · rintro ⟨line, hline, rfl⟩
      exact ⟨line - 1, by omega, by rw [Nat.sub_add_cancel hline.1]⟩
    · rintro ⟨k, hk, rfl⟩
      exact ⟨k + 1, by omega, rfl⟩
  constructor
  · rintro ⟨row, hmem, rfl⟩
    obtain ⟨k, hk, hview⟩ := (hrow row.view).1 (List.mem_map_of_mem hmem)
    rw [ContextLine.view, lineView, Prod.mk.injEq, Prod.mk.injEq] at hview
    exact ⟨k, hk, hview.1, hview.2.1⟩
  · rintro ⟨k, hk, hline, hbyte⟩
    obtain ⟨row, hmem, hview⟩ := List.mem_map.1 ((hrow _).2 ⟨k, hk, rfl⟩)
    rw [ContextLine.view, lineView, Prod.mk.injEq, Prod.mk.injEq] at hview
    exact ⟨row, hmem, Position.ext (hview.1.trans hline.symm) (hview.2.1.trans hbyte.symm)⟩

theorem ofEnd_iff {p : Position} : OfEnd pages p ↔ p.line = lineCount bytes + 1 ∧ p.byte = bytes.length := by
  constructor
  · intro hp
    obtain ⟨page, rest, rfl⟩ := List.exists_cons_of_ne_nil h.ne_nil
    obtain ⟨-, hlines, hbytes⟩ := h.headers page List.mem_cons_self
    rw [← hlines, ← hbytes]
    exact hp page List.mem_cons_self
  · intro hp page hmem
    obtain ⟨-, hlines, hbytes⟩ := h.headers page hmem
    rw [hlines, hbytes]
    exact hp

end ShowAll

section
variable {bytes : Bytes} {pages : List Page} {request : EditRequest} (h : ShowAll contentId bytes pages)
  (hm : MadeOf pages request)
include h hm

theorem MadeOf.resolves : Resolves bytes request.edits := by
  refine fun o ho => ⟨hm.contents o ho, .inl (h.ofRow_iff.1 (hm.start o ho)), ?_, hm.ordered o ho⟩
  rcases hm.end_ o ho with ⟨hrow, -⟩ | hend
  · exact .inl (h.ofRow_iff.1 hrow)
  · exact .inr (h.ofEnd_iff.1 hend)

theorem MadeOf.accepts (htext : IsText bytes) (hsize : (edited bytes request.edits).length ≤ maxFileBytes) :
    Accepts bytes request.edits := by
  obtain ⟨hcovered, hinside⟩ := pairwise_not_clash_iff.1 hm.apart
  exact ⟨hm.count, htext, fun o ho => (hm.resolves h o ho).2, hm.contents, hcovered, hinside, hsize⟩

theorem MadeOf.snapshot_eq : request.snapshot = contentId bytes := by
  obtain ⟨page, rest, rfl⟩ := List.exists_cons_of_ne_nil h.ne_nil
  rw [hm.snapshot page List.mem_cons_self, (h.headers page List.mem_cons_self).1]

/-- The rows of the edited text. -/
theorem MadeOf.rows_edited : (lines (edited bytes request.edits)).map stripTerminator =
    Splice.edited ((shownRows pages).map fun row => [row])
      (request.edits.map (EditOperation.onRows (shownRows pages).length)) := by
  have hstart : ∀ o ∈ request.edits, o.start.line ≤ lineCount bytes := by
    intro o ho
    obtain ⟨k, hk, hline, -⟩ := h.ofRow_iff.1 (hm.start o ho)
    omega
  have hwhole : ∀ o ∈ request.edits, o.end_.line ≤ lineCount bytes → WholeLines o.content := by
    intro o ho hle
    rcases hm.end_ o ho with ⟨-, hw⟩ | hend
    · exact hw
    · have := (h.ofEnd_iff.1 hend).1
      omega
  have hmap := Splice.edited_withText (List.map stripTerminator) rfl (fun _ _ => List.map_append)
    ((lines bytes).map fun l => [l])
    (request.edits.map (EditOperation.onWholeLines (lineCount bytes)))
  rw [lines_edited (hm.resolves h) hm.apart hstart hwhole, ← hmap, h.length_shownRows, h.shownRows_eq,
    List.map_map, List.map_map, List.map_map]
  rfl

end

/-- **A client edits what it reads**: a request made of the rows of a complete read is accepted, and a
    complete read of what it makes shows the rows with each operation done on them. -/
theorem reread_edited {granted granted' granted'' : Bool} {snapshot : Snapshot contentId} {path path' : String}
    {pages : List Page} {request : EditRequest} (h : CompleteRead granted snapshot path pages)
    (hm : MadeOf pages request) (hsize : (edited snapshot.bytes request.edits).length ≤ maxFileBytes) :
    ∃ out, applyEditsFast granted' snapshot request = .ok out ∧
      ∀ (snapshot' : Snapshot contentId) (pages' : List Page), snapshot'.bytes = out →
        CompleteRead granted'' snapshot' path' pages' →
        shownRows pages' = Splice.edited ((shownRows pages).map fun row => [row])
          (request.edits.map (EditOperation.onRows (shownRows pages).length)) := by
  refine ⟨edited snapshot.bytes request.edits, ?_, fun snapshot' pages' hbytes h' => ?_⟩
  · exact applyEditsFast_eq_ok.2 ⟨(hm.snapshot_eq h.showAll).trans snapshot.id_eq.symm,
      applyReferenceEdits_eq_ok.2 ⟨hm.accepts h.showAll snapshot.isText hsize, rfl⟩⟩
  · rw [h'.showAll.shownRows_eq, hbytes, hm.rows_edited h.showAll]

/-! ### Both rows are replaced -/

/-- Where the rows start, and the end. -/
def firstRow : Position := ⟨1, 0, by decide, by decide, by decide⟩

def secondRow : Position := ⟨2, 2, by decide, by decide, by decide⟩

def endOfRows : Position := ⟨3, 3, by decide, by decide, by decide⟩

/-- The first row by two lines, and the last, which no line feed ends. -/
def twoRowsRequest : EditRequest where
  filePath := "f"
  snapshot := ⟨0⟩
  edits := [
    .replace firstRow secondRow ⟨[120, 10, 121, 10], by decide⟩,
    .replace secondRow endOfRows ⟨[122], by decide⟩]

example : Splice.edited [[[97]], [[98]]] (twoRowsRequest.edits.map (EditOperation.onRows 2)) =
    [[120], [121], [122]] := by decide

theorem twoRowsRequest_madeOf {path : String} {pages : List Page} (h : CompleteRead true twoLines path pages) :
    MadeOf pages twoRowsRequest := by
  have hfirst : OfRow pages firstRow := h.showAll.ofRow_iff.2 ⟨0, by decide⟩
  have hsecond : OfRow pages secondRow := h.showAll.ofRow_iff.2 ⟨1, by decide⟩
  have hend : OfEnd pages endOfRows := h.showAll.ofEnd_iff.2 (by decide)
  refine ⟨fun page hp => ?_, by decide, ?_, ?_, by decide, by decide, ?_⟩
  · rw [(h.shown.2.2 page hp).1]
    rfl
  · exact List.forall_mem_cons.2 ⟨hfirst, List.forall_mem_singleton.2 hsecond⟩
  · exact List.forall_mem_cons.2 ⟨.inl ⟨hsecond, by decide⟩, List.forall_mem_singleton.2 (.inr hend)⟩
  · refine List.pairwise_cons.2 ⟨List.forall_mem_singleton.2 ?_, List.pairwise_singleton _ _⟩
    rw [Splice.Clash, Splice.exists_covers_iff]
    decide

theorem reread_edited_twoRows : ∃ pages, CompleteRead true twoLines "f" pages ∧
    ∃ out, applyEditsFast true twoLines twoRowsRequest = .ok out ∧
      ∀ (snapshot' : Snapshot fun _ => ⟨0⟩) (pages' : List Page), snapshot'.bytes = out →
        CompleteRead true snapshot' "f" pages' →
        shownRows pages' = Splice.edited ((shownRows pages).map fun row => [row])
          (twoRowsRequest.edits.map (EditOperation.onRows (shownRows pages).length)) := by
  obtain ⟨pages, h⟩ := completeRead_exists twoLines "f"
  exact ⟨pages, h, reread_edited h (twoRowsRequest_madeOf h) (by decide)⟩

end Hashline
