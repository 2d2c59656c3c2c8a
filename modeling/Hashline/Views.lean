/-
  The views of one line: in a page, in a section of a search, and in the context
  of a conflict.
-/
import Hashline.Addressing
import Hashline.Decoded
import Hashline.Engine
import Hashline.Payload

namespace Hashline

open Machine

variable {contentId : Bytes → SnapshotId}

/-! ## Every view shows the same row -/

/-- A row is what is seen of it. -/
theorem ContextLine.view_inj {row row' : ContextLine} (h : row.view = row'.view) : row = row' := by
  obtain ⟨⟨line, byte, hne, hl, hb⟩, content⟩ := row
  obtain ⟨⟨line', byte', hne', hl', hb'⟩, content'⟩ := row'
  obtain ⟨rfl, hrest⟩ := Prod.mk.inj h
  obtain ⟨rfl, rfl⟩ := Prod.mk.inj hrest
  rfl

/-- Every view of line `n` shows the row. -/
structure SeenAlike (snapshot : Snapshot contentId) (n : ℕ) (row : ContextLine) : Prop where
  position : row.position.line = n ∧ row.position.byte = lineStart snapshot.bytes (n - 1)
  content : row.content = displayed snapshot.bytes (n - 1)
  /-- The loops over the two tables of lines, and that of a search. -/
  computed : pageRow true snapshot n = .ok row ∧ hitRow true snapshot n = .ok row ∧
    contextLine snapshot.bytes (referenceLineStarts snapshot.bytes) n = .ok row
  pages : ∀ granted path first limit page,
    snapshotPage granted snapshot path first limit = .ok page →
    ∀ r ∈ page.rows, r.position.line = n → r = row
  sections : ∀ quote granted ctx rel matched hit sec, ctx.mode = .content →
    renderHit contentId quote granted ctx snapshot.bytes rel matched = .ok hit →
    Renders quote sec hit → ∀ line, .row line ∈ sec.items → line.position.line = n →
    (⟨line.position, line.content⟩ : ContextLine) = row
  contexts : ∀ centre context, referenceContext snapshot.bytes centre = .ok context →
    ∀ r ∈ context, r.position.line = n → r = row
  boundary : resolveBoundary true snapshot row.position = .ok (n - 1, row.position.byte)
  reference : validateReferencePosition snapshot.bytes row.position = .ok ()

section
variable (snapshot : Snapshot contentId) {n : ℕ}

theorem resolveBoundary_eq {snapshot : Snapshot contentId} {p : Position}
    (h : Boundary snapshot.bytes p) (hl : p.line ≤ snapshot.lineCount) :
    resolveBoundary true snapshot p = .ok (p.line - 1, p.byte) := by
  have hstart := h.byte_eq
  have hne := p.line_ne
  rcases snapshot.lineStart_eq true p.line_ne hl with ⟨-, hs⟩ | ⟨htrue, -⟩
  · rw [resolveBoundary, if_pos hl, hs]
    show (if _ ≠ p.byte then _ else _) = _
    rw [if_neg (not_not.2 hstart.symm), (Exec.sub_eq_ok (c := p.line - 1)).2 ⟨by omega, rfl⟩]
    rfl
  · cases htrue

theorem seenAlike (h : 1 ≤ n) (hn : n ≤ lineCount snapshot.bytes) :
    ∃ row, SeenAlike snapshot n row := by
  have hcount : snapshot.lineCount = lineCount snapshot.bytes := snapshot.lineCount_eq'
  obtain ⟨row, hrow, hview⟩ := pageRow_eq snapshot (Nat.ne_of_gt h) (hn.trans_eq hcount.symm)
  obtain ⟨row', hcontext, hview'⟩ := contextLine_eq snapshot.isText h hn
  obtain rfl := ContextLine.view_inj (hview'.trans hview.symm)
  have hline : row'.position.line = n := congrArg Prod.fst hview
  have hbyte : row'.position.byte = lineStart snapshot.bytes (n - 1) := congrArg (·.2.1) hview
  have hsame : ∀ {r : ContextLine} {m : ℕ}, r.view = lineView snapshot.bytes m →
      r.position.line = n → r = row' := by
    intro r m hr hrn
    have hm : r.position.line = m := congrArg Prod.fst hr
    rw [← hm, hrn] at hr
    exact ContextLine.view_inj (hr.trans hview.symm)
  have hboundary : Boundary snapshot.bytes row'.position :=
    .inl ⟨n - 1, by omega, by omega, hbyte⟩
  refine ⟨row', ⟨hline, hbyte⟩, congrArg (·.2.2) hview, ⟨hrow, ?_, hcontext⟩, ?_, ?_, ?_, ?_, ?_⟩
  · rw [hitRow_eq, hrow]
    rfl
  · intro granted path first limit page hpage r hr hrn
    obtain ⟨m, -, -, hrview⟩ := (snapshotPage_ok hpage).2.2 r hr
    exact hsame hrview hrn
  · intro quote granted ctx rel matched hit sec hmode hok hsec line hmem hln
    obtain ⟨sec', hsec', -, hviews⟩ := renderHit_ok hmode snapshot.isText hok
    rw [hsec.items_unique hsec'] at hmem
    obtain ⟨m, -, -, hlview⟩ := hviews line hmem
    exact hsame hlview hln
  · intro centre context hctx r hr hrn
    obtain ⟨context', hctx', -, hrows⟩ := referenceContext_eq snapshot.isText centre
    cases hctx.symm.trans hctx'
    obtain ⟨m, -, -, hrview⟩ := hrows r hr
    exact hsame hrview hrn
  · have hresolve := resolveBoundary_eq hboundary (by omega)
    rwa [hline] at hresolve
  · exact (Snapshot.validateReferencePosition_eq_ok snapshot).2 hboundary

end

/-- **All views of a line agree**, each shows it at a boundary, and a context is the lines from two
    above its centre to two below. -/
theorem views_agree (snapshot : Snapshot contentId) :
    (∀ n, 1 ≤ n → n ≤ lineCount snapshot.bytes → ∃ row, SeenAlike snapshot n row) ∧
    ∀ centre, ∃ context, referenceContext snapshot.bytes centre = .ok context ∧
      context.map ContextLine.view = (List.range' (contextFirst snapshot.bytes centre)
        (contextLast snapshot.bytes centre + 1 - contextFirst snapshot.bytes centre)).map
          (lineView snapshot.bytes) ∧
      context.length ≤ conflictContextLines ∧
      ∀ requested header message,
        (∃ e, ProtocolError.snapshotConflict requested header context message = .ok e) ∧
        ∃ e, ProtocolError.alreadyExists header context message = .ok e := by
  refine ⟨fun n h hn => seenAlike snapshot h hn, fun centre => ?_⟩
  obtain ⟨context, hcontext, hwindow⟩ := referenceContext_window snapshot.isText centre
  obtain ⟨context', hcontext', hlen, -⟩ := referenceContext_eq snapshot.isText centre
  cases hcontext.symm.trans hcontext'
  refine ⟨context, hcontext, hwindow, hlen, fun requested header message => ⟨?_, ?_⟩⟩
  · rw [ProtocolError.snapshotConflict, if_neg (Nat.not_lt.2 hlen)]
    exact ⟨_, rfl⟩
  · rw [ProtocolError.alreadyExists, if_neg (Nat.not_lt.2 hlen)]
    exact ⟨_, rfl⟩

end Hashline
