/-
  What a client reads off a response: the paths of a listing, one a line, and
  the sections of a search.
-/
import Hashline.Listed
import Hashline.Sections

namespace Hashline

open Machine

variable {contentId : Bytes → SnapshotId}

/-- The lines of a response. -/
def clientLines (text : Bytes) : List Bytes := text.splitOn lf

/-! ## Summaries -/

theorem toString_bool_inj {b b' : Bool} (h : toString b = toString b') : b = b' := by
  cases b <;> cases b' <;> first | rfl | exact absurd h (by decide)

/-- A truth value is written without the space that follows it. -/
theorem space_notMem_bool (b : Bool) : 32 ∉ utf8 (toString b) := by
  cases b
  all_goals
    rw [utf8_eq_flatMap]
    decide

theorem bool_inj {b b' : Bool} {x y : Bytes}
    (h : utf8 (toString b) ++ 32 :: x = utf8 (toString b') ++ 32 :: y) : b = b' ∧ x = y := by
  obtain ⟨hb, hx⟩ := Lines.append_cons_inj (space_notMem_bool b) (space_notMem_bool b') h
  exact ⟨toString_bool_inj (utf8_inj hb), hx⟩

theorem GrepSummary.render_eq (s : GrepSummary) : s.render =
    utf8 "[hashline matches=" ++ (utf8 (toString s.matches_) ++ 32 :: (utf8 "truncated=" ++
      (utf8 (toString s.truncated) ++ 32 :: (utf8 "skipped_binary=" ++
        (utf8 (toString s.skippedBinary) ++ 32 :: (utf8 "skipped_invalid_utf8=" ++
          (utf8 (toString s.skippedInvalidUtf8) ++ 93 :: []))))))) := by
  have hs : ∀ s : String, toString s = s := fun _ => rfl
  have hspace : ∀ s : String, utf8 (" " ++ s) = 32 :: utf8 s :=
    utf8_singleton_append (c := ' ') (by decide)
  have hend : utf8 "]" = [93] := by rw [utf8_eq_flatMap]; rfl
  rw [← hend, ← List.cons_append, ← List.cons_append, ← List.cons_append, ← hspace, ← hspace,
    ← hspace, render]
  simp only [← utf8_append, hs, String.append_assoc]
  rfl

theorem GrepSummary.render_inj {s s' : GrepSummary} (h : s.render = s'.render) : s = s' := by
  obtain ⟨m, t, b, u⟩ := s
  obtain ⟨m', t', b', u'⟩ := s'
  rw [render_eq, render_eq, List.append_cancel_left_eq] at h
  obtain ⟨rfl, h⟩ := number_inj (by decide) h
  rw [List.append_cancel_left_eq] at h
  obtain ⟨rfl, h⟩ := bool_inj h
  rw [List.append_cancel_left_eq] at h
  obtain ⟨rfl, h⟩ := number_inj (by decide) h
  rw [List.append_cancel_left_eq] at h
  obtain ⟨rfl, -⟩ := number_inj (by decide) h
  rfl

theorem lf_notMem_bool (b : Bool) : lf ∉ utf8 (toString b) := by
  cases b <;> exact lf_notMem_utf8 (by decide)

theorem GrepSummary.lf_notMem (s : GrepSummary) : lf ∉ s.render := by
  rw [render_eq]
  simp only [List.mem_append, List.mem_cons, not_or]
  exact ⟨lf_notMem_utf8 (by decide), lf_notMem_number _, by decide, lf_notMem_utf8 (by decide),
    lf_notMem_bool _, by decide, lf_notMem_utf8 (by decide), lf_notMem_number _, by decide,
    lf_notMem_utf8 (by decide), lf_notMem_number _, by decide, by simp⟩

theorem GlobSummary.render_eq (s : GlobSummary) : s.render =
    utf8 "[hashline files=" ++ (utf8 (toString s.files) ++ 32 :: (utf8 "truncated=" ++
      (utf8 (toString s.truncated) ++ utf8 "]"))) := by
  have hs : ∀ s : String, toString s = s := fun _ => rfl
  have hspace : ∀ s : String, utf8 (" " ++ s) = 32 :: utf8 s :=
    utf8_singleton_append (c := ' ') (by decide)
  rw [← List.cons_append, ← hspace, render]
  simp only [← utf8_append, hs, String.append_assoc]
  rfl

theorem GlobSummary.render_inj {s s' : GlobSummary} (h : s.render = s'.render) : s = s' := by
  obtain ⟨f, t⟩ := s
  obtain ⟨f', t'⟩ := s'
  rw [render_eq, render_eq, List.append_cancel_left_eq] at h
  obtain ⟨rfl, h⟩ := number_inj (by decide) h
  rw [List.append_cancel_left_eq, List.append_cancel_right_eq] at h
  obtain rfl := toString_bool_inj (utf8_inj h)
  rfl

theorem GlobSummary.lf_notMem (s : GlobSummary) : lf ∉ s.render := by
  rw [render_eq]
  simp only [List.mem_append, List.mem_cons, not_or]
  exact ⟨lf_notMem_utf8 (by decide), lf_notMem_number _, by decide, lf_notMem_utf8 (by decide),
    lf_notMem_bool _, lf_notMem_utf8 (by decide)⟩

/-! ## One path a line -/

theorem lf_mem_utf8 {s : String} : lf ∈ utf8 s ↔ '\n' ∈ s.toList := by
  constructor
  · intro hm
    by_contra hno
    exact lf_notMem_utf8 hno hm
  · intro hm
    rw [utf8_eq_flatMap, List.mem_flatMap]
    exact ⟨'\n', hm, by decide⟩

/-- The line of a file in count mode. -/
def countLine (path : String) (count : ℕ) : Bytes := utf8 s!"{path}: {count}"

theorem countLine_eq (path : String) (count : ℕ) :
    countLine path count = utf8 path ++ 58 :: 32 :: utf8 (toString count) := by
  have hs : ∀ s : String, toString s = s := fun _ => rfl
  have hspace : ∀ s : String, utf8 (" " ++ s) = 32 :: utf8 s :=
    utf8_singleton_append (c := ' ') (by decide)
  have hcolon : ∀ s : String, utf8 (":" ++ s) = 58 :: utf8 s :=
    utf8_singleton_append (c := ':') (by decide)
  rw [← hspace, ← hcolon, ← utf8_append, countLine]
  simp only [hs, String.append_assoc]
  rfl

/-- Path and count are read back: the last space stands before the count. -/
theorem countLine_inj {path path' : String} {count count' : ℕ}
    (h : countLine path count = countLine path' count') : path = path' ∧ count = count' := by
  have hspace : ∀ n, (32 : UInt8) ∉ (utf8 (toString n)).reverse := fun n hm =>
    absurd (digit_of_mem_utf8 (List.mem_reverse.1 hm)).1 (by decide)
  rw [countLine_eq, countLine_eq] at h
  have hreverse := congrArg List.reverse h
  simp only [List.reverse_append, List.reverse_cons, List.append_assoc, List.singleton_append] at hreverse
  obtain ⟨hcount, hpath⟩ := Lines.append_cons_inj (hspace count) (hspace count') hreverse
  obtain ⟨-, hpath⟩ := List.cons.inj hpath
  exact ⟨utf8_inj (List.reverse_injective hpath), toString_inj (utf8_inj (List.reverse_injective hcount))⟩

theorem lf_mem_countLine {path : String} {count : ℕ} :
    lf ∈ countLine path count ↔ '\n' ∈ path.toList := by
  rw [countLine_eq, List.mem_append, lf_mem_utf8]
  refine or_iff_left fun hm => ?_
  rw [List.mem_cons, List.mem_cons] at hm
  rcases hm with hm | hm | hm
  · exact absurd hm (by decide)
  · exact absurd hm (by decide)
  · exact lf_notMem_number count hm

section
variable {α : Type} {line : α → Bytes} {items items' : List α} {summary summary' : Bytes}

/-- A client reads the lines off a text exactly when none of them has a line feed. -/
theorem clientLines_iff (hsummary : lf ∉ summary) :
    clientLines ((items.flatMap fun item => line item ++ [lf]) ++ summary) =
      items.map line ++ [summary] ↔ ∀ item ∈ items, lf ∉ line item := by
  have h : ((items.map line).flatMap (· ++ [lf]) ++ summary).splitOn lf = items.map line ++ [summary] ↔
      ∀ l ∈ items.map line, lf ∉ l := Lines.splitOn_lines hsummary
  rw [List.flatMap_map, List.forall_mem_map] at h
  exact h

theorem lines_inj (hsummary : lf ∉ summary) (hsummary' : lf ∉ summary')
    (h : ∀ item ∈ items, lf ∉ line item) (h' : ∀ item ∈ items', lf ∉ line item)
    (he : (items.flatMap fun item => line item ++ [lf]) ++ summary =
      (items'.flatMap fun item => line item ++ [lf]) ++ summary') :
    items.map line = items'.map line ∧ summary = summary' := by
  have hlines := (clientLines_iff hsummary).2 h
  rw [he, (clientLines_iff hsummary').2 h'] at hlines
  obtain ⟨hmap, hlast⟩ := List.append_inj' hlines rfl
  exact ⟨hmap.symm, (List.cons.inj hlast).1.symm⟩

end

theorem utf8_lf : utf8 "\n" = [lf] := by rw [utf8_eq_flatMap]; rfl

theorem Listing.render_eq (l : Listing) :
    l.render = (l.entries.flatMap fun entry => utf8 entry.path ++ [lf]) ++ l.summary.render := by
  rw [render]
  simp only [utf8_append, utf8_lf]

theorem Report.render_files (r : Report) : r.render .filesWithMatches =
    (r.reported.flatMap fun hit => utf8 hit.rel.relative ++ [lf]) ++ r.summary.render := by
  rw [render_lines (by decide) (fun found => utf8 (found.1.relative ++ "\n")) (fun _ _ => rfl),
    List.flatMap_map]
  simp only [utf8_append, utf8_lf, FileHit.found]

theorem Report.render_counts (r : Report) : r.render .count =
    (r.reported.flatMap fun hit => countLine hit.rel.relative hit.matches_ ++ [lf]) ++
      r.summary.render := by
  have hs : ∀ s : String, toString s = s := fun _ => rfl
  rw [render_lines (by decide) (fun found => utf8 s!"{found.1.relative}: {found.2}\n")
    (fun _ _ => rfl), List.flatMap_map]
  simp [utf8_append, utf8_lf, FileHit.found, countLine, hs]

/-- No reported path has a line feed. -/
def Listing.Plain (l : Listing) : Prop := ∀ entry ∈ l.entries, '\n' ∉ entry.path.toList

def Report.PlainPaths (r : Report) : Prop := ∀ hit ∈ r.reported, '\n' ∉ hit.rel.relative.toList

/-- **Path listings are read back by their lines exactly when no path has a line feed**; those tell
    different files, and different counts, apart. -/
theorem path_listings_recovered (l : Listing) (r : Report) :
    (clientLines l.render = l.entries.map (fun entry => utf8 entry.path) ++ [l.summary.render] ↔
      l.Plain) ∧
    (clientLines (r.render .filesWithMatches) =
      r.reported.map (fun hit => utf8 hit.rel.relative) ++ [r.summary.render] ↔ r.PlainPaths) ∧
    (clientLines (r.render .count) =
      r.reported.map (fun hit => countLine hit.rel.relative hit.matches_) ++ [r.summary.render] ↔
        r.PlainPaths) ∧
    (∀ l' : Listing, l.Plain → l'.Plain → l.render = l'.render →
      l.entries.map GlobEntry.path = l'.entries.map GlobEntry.path ∧ l.summary = l'.summary) ∧
    (∀ r' : Report, r.PlainPaths → r'.PlainPaths →
      r.render .filesWithMatches = r'.render .filesWithMatches →
      r.reported.map (fun hit => hit.rel.relative) = r'.reported.map (fun hit => hit.rel.relative) ∧
        r.summary = r'.summary) ∧
    ∀ r' : Report, r.PlainPaths → r'.PlainPaths → r.render .count = r'.render .count →
      r.reported.map (fun hit => (hit.rel.relative, hit.matches_)) =
        r'.reported.map (fun hit => (hit.rel.relative, hit.matches_)) ∧ r.summary = r'.summary := by
  have hpath : ∀ s : String, lf ∉ utf8 s ↔ '\n' ∉ s.toList := fun s => not_congr lf_mem_utf8
  have hcount : ∀ (s : String) n, lf ∉ countLine s n ↔ '\n' ∉ s.toList :=
    fun s n => not_congr lf_mem_countLine
  refine ⟨?_, ?_, ?_, fun l' h h' he => ?_, fun r' h h' he => ?_, fun r' h h' he => ?_⟩
  · rw [l.render_eq, clientLines_iff l.summary.lf_notMem]
    simp only [hpath, Listing.Plain]
  · rw [r.render_files, clientLines_iff r.summary.lf_notMem]
    simp only [hpath, Report.PlainPaths]
  · rw [r.render_counts, clientLines_iff r.summary.lf_notMem]
    simp only [hcount, Report.PlainPaths]
  · rw [l.render_eq, l'.render_eq] at he
    obtain ⟨hlines, hsummary⟩ := lines_inj l.summary.lf_notMem l'.summary.lf_notMem
      (fun entry hentry => (hpath _).2 (h entry hentry))
      (fun entry hentry => (hpath _).2 (h' entry hentry)) he
    refine ⟨List.map_injective_iff.2 (fun _ _ => utf8_inj) ?_, GlobSummary.render_inj hsummary⟩
    rw [List.map_map, List.map_map]
    exact hlines
  · rw [r.render_files, r'.render_files] at he
    obtain ⟨hlines, hsummary⟩ := lines_inj r.summary.lf_notMem r'.summary.lf_notMem
      (fun hit hhit => (hpath _).2 (h hit hhit)) (fun hit hhit => (hpath _).2 (h' hit hhit)) he
    refine ⟨List.map_injective_iff.2 (fun _ _ => utf8_inj) ?_, GrepSummary.render_inj hsummary⟩
    rw [List.map_map, List.map_map]
    exact hlines
  · rw [r.render_counts, r'.render_counts] at he
    obtain ⟨hlines, hsummary⟩ := lines_inj r.summary.lf_notMem r'.summary.lf_notMem
      (fun hit hhit => (hcount _ _).2 (h hit hhit)) (fun hit hhit => (hcount _ _).2 (h' hit hhit)) he
    have hinj : Function.Injective fun p : String × ℕ => countLine p.1 p.2 := by
      rintro ⟨path, n⟩ ⟨path', n'⟩ heq
      obtain ⟨rfl, rfl⟩ := countLine_inj heq
      rfl
    refine ⟨List.map_injective_iff.2 hinj ?_, GrepSummary.render_inj hsummary⟩
    rw [List.map_map, List.map_map]
    exact hlines

theorem listing_of_before {entries : List GlobEntry} (h : entries.Pairwise GlobEntry.Before)
    (maxResults : ℕ) : listing entries maxResults = ⟨entries.take maxResults,
      ⟨(entries.take maxResults).length, decide (entries.length > maxResults)⟩⟩ := by
  rw [listing, sort_of_before h]

/-- Where one string of two lines ends, and the next begins, is not seen. -/
theorem two_lines_congr {x y x' y' : String}
    (h : x ++ "\n" ++ (y ++ "\n") = x' ++ "\n" ++ (y' ++ "\n")) (summary : Bytes) :
    ([x, y].flatMap fun line => utf8 line ++ [lf]) ++ summary =
      ([x', y'].flatMap fun line => utf8 line ++ [lf]) ++ summary := by
  have htext : ∀ x y : String, ([x, y].flatMap fun line => utf8 line ++ [lf]) =
      utf8 (x ++ "\n" ++ (y ++ "\n")) := by
    intro x y
    simp [utf8_append, utf8_lf]
  rw [htext, htext, h]

/-- Two files, the first with a line feed in its name, or the second. -/
theorem path_listings_ambiguous :
    (∃ entries entries' : List GlobEntry,
      (listing entries 1000).entries.map GlobEntry.path ≠
        (listing entries' 1000).entries.map GlobEntry.path ∧
      (listing entries 1000).render = (listing entries' 1000).render) ∧
    (∃ hits hits' : List FileHit,
      (report hits 200 0 0).reported.map (fun hit => hit.rel.relative) ≠
        (report hits' 200 0 0).reported.map (fun hit => hit.rel.relative) ∧
      assembleOutput .filesWithMatches hits 200 0 0 = assembleOutput .filesWithMatches hits' 200 0 0) ∧
    ∃ hits hits' : List FileHit,
      (report hits 200 0 0).reported.map (fun hit => hit.rel.relative) ≠
        (report hits' 200 0 0).reported.map (fun hit => hit.rel.relative) ∧
      assembleOutput .count hits 200 0 0 = assembleOutput .count hits' 200 0 0 := by
  refine ⟨⟨[⟨"a\nb", 2⟩, ⟨"c", 1⟩], [⟨"a", 2⟩, ⟨"b\nc", 1⟩], ?_, ?_⟩,
    ⟨[⟨["a\nb"], [], [], 1⟩, ⟨["c"], [], [], 1⟩], [⟨["a"], [], [], 1⟩, ⟨["b\nc"], [], [], 1⟩],
      by decide, ?_⟩,
    ⟨[⟨["a: 1\nb"], [], [], 1⟩, ⟨["c"], [], [], 1⟩],
      [⟨["a"], [], [], 1⟩, ⟨["b: 1\nc"], [], [], 1⟩], by decide, ?_⟩⟩
  · rw [listing_of_before (by simp [GlobEntry.Before]), listing_of_before (by simp [GlobEntry.Before])]
    decide
  · rw [listing_of_before (by simp [GlobEntry.Before]), listing_of_before (by simp [GlobEntry.Before]),
      Listing.render_eq, Listing.render_eq]
    exact two_lines_congr (x := "a\nb") (y := "c") (by decide) (GlobSummary.render ⟨2, false⟩)
  · rw [assembleOutput, assembleOutput, Report.render_files, Report.render_files]
    exact two_lines_congr (x := "a\nb") (y := "c") (by decide) (GrepSummary.render ⟨2, false, 0, 0⟩)
  · rw [assembleOutput, assembleOutput, Report.render_counts, Report.render_counts]
    exact two_lines_congr (x := "a: 1\nb: 1") (y := "c: 1") (by decide)
      (GrepSummary.render ⟨2, false, 0, 0⟩)

/-! ## Sections -/

/-- A line below the header of a section. -/
inductive GrepItem where
  | row (line : GrepLine)
  | separator

def GrepItem.render : GrepItem → Bytes
  | row line => line.render
  | separator => utf8 "--"

/-- What a section says. -/
structure GrepSection where
  header : SnapshotHeader
  items : List GrepItem

/-- The hit is the text of the section, whose rows show no line feed. -/
structure Renders (quote : String → String) (sec : GrepSection) (hit : FileHit) : Prop where
  header : hit.header = sec.header.render quote
  body : hit.body = sec.items.flatMap fun item => item.render ++ [lf]
  plain : ∀ line, .row line ∈ sec.items → lf ∉ line.content

/-- A hit of `render_hit` in content mode, for some text. -/
def RenderedHit (contentId : Bytes → SnapshotId) (quote : String → String) (hit : FileHit) : Prop :=
  ∃ granted ctx bytes rel matched, ctx.mode = .content ∧ IsText bytes ∧
    renderHit contentId quote granted ctx bytes rel matched = .ok hit

/-! ### What is rendered -/

section
variable (snapshot : Snapshot contentId)

/-- The rows of a span, for any list of matches. -/
theorem renderSpan_items {ns matched later : List ℕ} {text : Bytes}
    (hns : ∀ n ∈ ns, n ≠ 0 ∧ n ≤ snapshot.lineCount)
    (h : renderSpan true snapshot ns matched = .ok (text, later)) :
    ∃ rows : List GrepLine, text = rows.flatMap (fun row => row.render ++ [lf]) ∧
      rows.map (fun row => (row.position.line, row.position.byte, row.content)) =
        ns.map (lineView snapshot.bytes) := by
  induction ns generalizing matched text with
  | nil =>
    cases h
    exact ⟨[], rfl, rfl⟩
  | cons n ns ih =>
    obtain ⟨hn, hl⟩ := hns n List.mem_cons_self
    obtain ⟨row, hrow, hview⟩ := pageRow_eq snapshot hn hl
    rw [renderSpan, hitRow_eq, hrow, Exec.mapErr, Exec.ok_bind] at h
    obtain ⟨⟨rest, later'⟩, hrest, h⟩ := Exec.bind_eq_ok.1 h
    cases h
    obtain ⟨rows, hbody, hviews⟩ := ih (fun m hm => hns m (List.mem_cons_of_mem _ hm)) hrest
    refine ⟨⟨row.position, if (matched.dropWhile (· < n)).head? = some n then .isMatch else .context,
      row.content⟩ :: rows, ?_, ?_⟩
    · rw [List.flatMap_cons, ← hbody, List.append_assoc, List.singleton_append]
    · rw [List.map_cons, List.map_cons, hviews, ← hview]
      rfl

/-- The rows of all spans, with a separator between any two. -/
theorem renderSpans_items {spans : List (ℕ × ℕ)} {matched : List ℕ} {body : Bytes}
    (hspans : ∀ span ∈ spans, span.2 ≤ snapshot.lineCount)
    (h : renderSpans true snapshot spans matched = .ok body) :
    ∃ items : List GrepItem, body = items.flatMap (fun item => item.render ++ [lf]) ∧
      ∀ line, .row line ∈ items → ∃ n, n ≠ 0 ∧ n ≤ snapshot.lineCount ∧
        (line.position.line, line.position.byte, line.content) = lineView snapshot.bytes n := by
  induction spans generalizing matched body with
  | nil =>
    cases h
    exact ⟨[], rfl, fun line hline => by cases hline⟩
  | cons span spans ih =>
    have hspan := hspans span List.mem_cons_self
    have hns : ∀ n ∈ List.range' (span.1 + 1) (span.2 - span.1), n ≠ 0 ∧ n ≤ snapshot.lineCount := by
      intro n hn
      rw [List.mem_range'_1] at hn
      omega
    obtain ⟨⟨text, later⟩, htext, h⟩ := Exec.bind_eq_ok.1 h
    obtain ⟨rest, hrest, h⟩ := Exec.bind_eq_ok.1 h
    cases h
    obtain ⟨rows, hrows, hviews⟩ := renderSpan_items snapshot hns htext
    obtain ⟨items, hitems, hviews'⟩ := ih (fun s hs => hspans s (List.mem_cons_of_mem _ hs)) hrest
    have hmark : (if spans = [] then [] else utf8 "--\n") =
        (if spans = [] then [] else [GrepItem.separator]).flatMap fun item => item.render ++ [lf] := by
      split_ifs
      · rfl
      · rw [List.flatMap_cons, List.flatMap_nil, List.append_nil, GrepItem.render, ← utf8_lf,
          ← utf8_append]
        rfl
    refine ⟨rows.map .row ++ ((if spans = [] then [] else [.separator]) ++ items), ?_, ?_⟩
    · rw [List.flatMap_append, List.flatMap_append, ← hitems, ← hmark, List.flatMap_map, hrows,
        List.append_assoc]
      rfl
    · intro line hline
      rw [List.mem_append, List.mem_append] at hline
      rcases hline with hline | hline | hline
      · obtain ⟨row, hrow, heq⟩ := List.mem_map.1 hline
        cases heq
        have hmem := List.mem_map_of_mem
          (f := fun row : GrepLine => (row.position.line, row.position.byte, row.content)) hrow
        rw [hviews] at hmem
        obtain ⟨n, hn, hview⟩ := List.mem_map.1 hmem
        exact ⟨n, (hns n hn).1, (hns n hn).2, hview.symm⟩
      · split_ifs at hline
        · cases hline
        · rw [List.mem_singleton] at hline
          cases hline
      · exact hviews' line hline

end

/-- Where the parts of a hit come from. -/
theorem renderHit_ok {quote : String → String} {granted : Bool} {ctx : SearchContext} {bytes : Bytes}
    {rel : PathBuf} {matched : List ℕ} {hit : FileHit} (hmode : ctx.mode = .content)
    (ht : IsText bytes) (h : renderHit contentId quote granted ctx bytes rel matched = .ok hit) :
    ∃ sec : GrepSection, Renders quote sec hit ∧
      sec.header = ⟨rel.relative, contentId bytes, lineCount bytes, bytes.length⟩ ∧
      ∀ line, .row line ∈ sec.items → ∃ n, n ≠ 0 ∧ n ≤ lineCount bytes ∧
        (line.position.line, line.position.byte, line.content) = lineView bytes n := by
  set snapshot : Snapshot contentId := .ofText ⟨bytes, ht⟩ none with hsnapshot
  have hcount : snapshot.lineCount = lineCount bytes := snapshot.lineCount_eq'
  have hsnap : (Snapshot.fromValidatedBytes bytes : Exec SnapshotError (Snapshot contentId)) =
    .ok snapshot := Snapshot.fromValidatedBytes_eq ht
  rw [renderHit, if_neg (not_not.2 hmode), hsnap, Exec.mapErr, Exec.ok_bind] at h
  obtain ⟨offsets, hoffsets, h⟩ := Exec.bind_eq_ok.1 h
  obtain rfl : granted = true := by
    rcases snapshot.offsets_eq granted with ⟨rfl, -⟩ | ⟨-, hno⟩
    · rfl
    · rw [hno] at hoffsets
      cases hoffsets
  obtain ⟨header, hheader, h⟩ := Exec.bind_eq_ok.1 h
  obtain ⟨body, hbody, h⟩ := Exec.bind_eq_ok.1 h
  cases h
  obtain rfl := header_eq (Exec.mapErr_eq_ok.1 hheader)
  obtain ⟨items, hitems, hviews⟩ := renderSpans_items snapshot (fun span hspan => by
    obtain ⟨s, -, rfl⟩ := List.mem_map.1 hspan
    exact (Nat.min_le_right _ _).trans snapshot.searchable_le) hbody
  rw [hcount] at hviews
  refine ⟨⟨_, items⟩, ⟨rfl, hitems, fun line hline => ?_⟩, ?_, hviews⟩
  · obtain ⟨n, -, -, hview⟩ := hviews line hline
    have hcontent : line.content = displayed bytes (n - 1) := congrArg (fun v => v.2.2) hview
    rw [hcontent]
    exact lf_notMem_displayed _ _
  · change (⟨rel.relative, contentId bytes, snapshot.lineCount, bytes.length⟩ : SnapshotHeader) = _
    rw [hcount]

/-! ### What is read back -/

theorem GrepLine.render_eq (line : GrepLine) : line.render =
    utf8 (toString line.position.line) ++ 64 :: (utf8 (toString line.position.byte) ++
      (match line.kind with | .isMatch => 58 | .context => 45) :: line.content) := by
  have hs : ∀ s : String, toString s = s := fun _ => rfl
  have hat : ∀ s : String, utf8 ("@" ++ s) = 64 :: utf8 s := utf8_singleton_append (c := '@') (by decide)
  have hcolon : utf8 ":" = [58] := by rw [utf8_eq_flatMap]; rfl
  have hdash : utf8 "-" = [45] := by rw [utf8_eq_flatMap]; rfl
  rcases hkind : line.kind with _ | _
  · dsimp only
    rw [← List.cons_append, ← hat, List.append_cons, ← hcolon, render, hkind, Position.display]
    simp only [← utf8_append, ← List.append_assoc, String.append_assoc, hs]
  · dsimp only
    rw [← List.cons_append, ← hat, List.append_cons, ← hdash, render, hkind, Position.display]
    simp only [← utf8_append, ← List.append_assoc, String.append_assoc, hs]

theorem GrepLine.render_inj {line line' : GrepLine} (h : line.render = line'.render) :
    line = line' := by
  obtain ⟨⟨n, b, hne, hl, hb⟩, kind, content⟩ := line
  obtain ⟨⟨n', b', hne', hl', hb'⟩, kind', content'⟩ := line'
  rw [render_eq, render_eq] at h
  obtain ⟨rfl, h⟩ := number_inj (by decide) h
  have hsep : ∀ k : GrepLineKind, ¬(48 ≤ (match k with | .isMatch => (58 : UInt8) | .context => 45).toNat ∧
      (match k with | .isMatch => (58 : UInt8) | .context => 45).toNat ≤ 57) := by
    intro k
    cases k <;> decide
  obtain ⟨hbyte, hkind, rfl⟩ := Lines.append_cons_inj_of
    (p := fun b : UInt8 => 48 ≤ b.toNat ∧ b.toNat ≤ 57) (fun _ hm => digit_of_mem_utf8 hm)
    (fun _ hm => digit_of_mem_utf8 hm) (hsep kind) (hsep kind') h
  obtain rfl : b = b' := toString_inj (utf8_inj hbyte)
  obtain rfl : kind = kind' := by
    cases kind <;> cases kind' <;> first | rfl | exact absurd hkind (by decide)
  rfl

theorem isRow_render (line : GrepLine) : isRow line.render = true := by
  obtain ⟨b, bs, hb⟩ := List.exists_cons_of_ne_nil (toString_ne_nil line.position.line)
  have hdigit := digit_of_mem_utf8 (hb ▸ List.mem_cons_self : b ∈ utf8 (toString line.position.line))
  rw [isRow, GrepLine.render_eq, hb]
  simpa using hdigit

theorem utf8_separator : utf8 "--" = [45, 45] := by rw [utf8_eq_flatMap]; rfl

theorem GrepItem.render_inj {item item' : GrepItem} (h : item.render = item'.render) :
    item = item' := by
  have hrow : ∀ line : GrepLine, line.render ≠ utf8 "--" := by
    intro line he
    have hdigit := isRow_render line
    rw [he, utf8_separator] at hdigit
    exact absurd hdigit (by decide)
  cases item with
  | row line =>
    cases item' with
    | row line' => rw [GrepLine.render_inj h]
    | separator => exact absurd h (hrow line)
  | separator =>
    cases item' with
    | row line' => exact absurd h.symm (hrow line')
    | separator => rfl

theorem GrepItem.render_ne_nil (item : GrepItem) : item.render ≠ [] := by
  cases item with
  | row line =>
    intro he
    have hdigit := isRow_render line
    rw [show line.render = [] from he] at hdigit
    exact absurd hdigit (by decide)
  | separator =>
    rw [render, utf8_separator]
    exact List.cons_ne_nil _ _

/-- The lines of a section. -/
def GrepSection.lines (quote : String → String) (sec : GrepSection) : List Bytes :=
  sec.header.render quote :: sec.items.map GrepItem.render

section
variable {quote : String → String}

theorem GrepSection.lines_inj (hinj : Function.Injective quote) {sec sec' : GrepSection}
    (h : sec.lines quote = sec'.lines quote) : sec = sec' := by
  obtain ⟨header, items⟩ := sec
  obtain ⟨header', items'⟩ := sec'
  obtain ⟨hheader, hitems⟩ := List.cons.inj h
  rw [GrepSection.mk.injEq]
  exact ⟨SnapshotHeader.render_inj hinj hheader,
    List.map_injective_iff.2 (fun _ _ => GrepItem.render_inj) hitems⟩

/-- No line of a section is empty, as the lines between sections are. -/
theorem GrepSection.nil_notMem_lines (sec : GrepSection) : [] ∉ sec.lines quote := by
  rw [lines, List.mem_cons, not_or]
  constructor
  · intro he
    have hhead : utf8 "[hashline snapshot=" = 91 :: utf8 "hashline snapshot=" :=
      utf8_singleton_append (c := '[') (by decide) "hashline snapshot="
    rw [SnapshotHeader.render_eq, hhead] at he
    cases he
  · intro hm
    obtain ⟨item, -, he⟩ := List.mem_map.1 hm
    exact item.render_ne_nil he

theorem Renders.lf_notMem_items {sec : GrepSection} {hit : FileHit} (h : Renders quote sec hit) :
    ∀ item ∈ sec.items, lf ∉ item.render := by
  intro item hitem
  cases item with
  | row row =>
    rw [GrepItem.render, GrepLine.render_eq]
    simp only [List.mem_append, List.mem_cons, not_or]
    refine ⟨lf_notMem_number _, by decide, lf_notMem_number _, ?_, h.plain row hitem⟩
    cases row.kind <;> decide
  | separator =>
    rw [GrepItem.render, utf8_separator]
    decide

/-- The rows and separators of a section are read off its body. -/
theorem Renders.items_unique {sec sec' : GrepSection} {hit : FileHit} (h : Renders quote sec hit)
    (h' : Renders quote sec' hit) : sec.items = sec'.items := by
  have hmap := Lines.groups_inj h.lf_notMem_items h'.lf_notMem_items (h.body.symm.trans h'.body)
  exact List.map_injective_iff.2 (fun _ _ => GrepItem.render_inj) hmap

theorem Renders.lf_notMem (hquote : ∀ s, '\n' ∉ (quote s).toList) {sec : GrepSection} {hit : FileHit}
    (h : Renders quote sec hit) : ∀ line ∈ sec.lines quote, lf ∉ line := by
  intro line hline
  rcases List.mem_cons.1 hline with rfl | hline
  · exact sec.header.lf_notMem hquote
  · obtain ⟨item, hitem, rfl⟩ := List.mem_map.1 hline
    exact h.lf_notMem_items item hitem

theorem Renders.text {sec : GrepSection} {hit : FileHit} (h : Renders quote sec hit) :
    hit.header ++ lf :: hit.body = (sec.lines quote).flatMap (· ++ [lf]) := by
  rw [h.header, h.body, GrepSection.lines, List.flatMap_cons, List.flatMap_map, List.append_assoc,
    List.singleton_append]

theorem Renders.unique (hinj : Function.Injective quote) {sec sec' : GrepSection} {hit : FileHit}
    (h : Renders quote sec hit) (h' : Renders quote sec' hit) : sec = sec' := by
  obtain ⟨header, items⟩ := sec
  obtain ⟨header', items'⟩ := sec'
  rw [GrepSection.mk.injEq]
  exact ⟨SnapshotHeader.render_inj hinj (h.header.symm.trans h'.header), h.items_unique h'⟩

/-- The lines of sections, each of them ended by an empty line. -/
theorem sections_text {secs : List GrepSection} {hits : List FileHit}
    (h : List.Forall₂ (Renders quote) secs hits) :
    [lf].intercalate (hits.map fun hit => hit.header ++ lf :: hit.body) ++
      (if hits = [] then [] else [lf]) =
    (secs.flatMap fun sec => sec.lines quote ++ [[]]).flatMap (· ++ [lf]) := by
  induction h with
  | nil => rfl
  | @cons sec hit secs hits hsec hrest ih =>
    rw [List.flatMap_cons, List.flatMap_append, List.flatMap_append, ← hsec.text, ← ih]
    cases hits with
    | nil => simp
    | cons hit' hits => simp [List.intercalate_cons_cons]

theorem sections_plain (hquote : ∀ s, '\n' ∉ (quote s).toList) {secs : List GrepSection}
    {hits : List FileHit} (h : List.Forall₂ (Renders quote) secs hits) :
    ∀ sec ∈ secs, ∀ line ∈ sec.lines quote, lf ∉ line := by
  induction h with
  | nil => exact fun sec hsec => by cases hsec
  | cons hfirst _ ih => exact List.forall_mem_cons.2 ⟨hfirst.lf_notMem hquote, ih⟩

/-- **The lines of a response in content mode**: each section, an empty line after it, and the
    summary. -/
theorem clientLines_content (hquote : ∀ s, '\n' ∉ (quote s).toList) {r : Report}
    {secs : List GrepSection} (h : List.Forall₂ (Renders quote) secs r.reported) :
    clientLines (r.render .content) =
      (secs.flatMap fun sec => sec.lines quote ++ [[]]) ++ [r.summary.render] := by
  have hrender : r.render .content =
      (secs.flatMap fun sec => sec.lines quote ++ [[]]).flatMap (· ++ [lf]) ++ r.summary.render := by
    rw [← sections_text h, Report.render, foldl_pushHit_sections]
    by_cases hnil : r.reported = []
    · simp [hnil]
    · rw [if_neg hnil, if_pos ⟨fun he => hnil ((intercalate_sections_eq_nil _).1 he), rfl⟩]
  rw [clientLines, hrender, Lines.splitOn_lines r.summary.lf_notMem]
  intro line hline
  obtain ⟨sec, hsec, hline⟩ := List.mem_flatMap.1 hline
  rcases List.mem_append.1 hline with hline | hline
  · exact sections_plain hquote h sec hsec line hline
  · rw [List.mem_singleton.1 hline]
    exact List.not_mem_nil

/-- Every hit of a response is the text of a section. -/
theorem exists_sections {hits : List FileHit}
    (h : ∀ hit ∈ hits, ∃ sec, Renders quote sec hit) :
    ∃ secs, List.Forall₂ (Renders quote) secs hits := by
  induction hits with
  | nil => exact ⟨[], .nil⟩
  | cons hit hits ih =>
    obtain ⟨sec, hsec⟩ := h hit List.mem_cons_self
    obtain ⟨secs, hsecs⟩ := ih fun hit hhit => h hit (List.mem_cons_of_mem _ hhit)
    exact ⟨sec :: secs, .cons hsec hsecs⟩

theorem sections_unique (hinj : Function.Injective quote)
    {secs : List GrepSection} {hits : List FileHit} (h : List.Forall₂ (Renders quote) secs hits) :
    ∀ {secs'}, List.Forall₂ (Renders quote) secs' hits → secs' = secs := by
  induction h with
  | nil => rintro _ ⟨⟩; rfl
  | cons hfirst _ ih =>
    rintro _ (_ | ⟨hfirst', hrest'⟩)
    rw [hfirst'.unique hinj hfirst, ih hrest']

/-- The hits a response reports are among the hits. -/
theorem mem_reported {hits : List FileHit} {cap b u : ℕ} {hit : FileHit}
    (h : hit ∈ (report hits cap b u).reported) : hit ∈ hits := by
  have hsub : ∀ (hits : List FileHit) shown, (takeHits cap shown hits).1 ⊆ hits := by
    intro hits
    induction hits with
    | nil => exact fun shown => List.Subset.refl _
    | cons first hits ih =>
      intro shown
      rw [takeHits]
      split_ifs
      · exact List.nil_subset _
      · exact List.cons_subset_cons _ (ih _)
  exact hsub hits 0 h

/-- **A response in content mode is uniquely decodable**: its text determines the sections, with
    their headers, rows and separators, and the summary. -/
theorem assembleOutput_decodable (hinj : Function.Injective quote)
    (hquote : ∀ s, '\n' ∉ (quote s).toList) {hits hits' : List FileHit}
    (h : ∀ hit ∈ hits, RenderedHit contentId quote hit)
    (h' : ∀ hit ∈ hits', RenderedHit contentId quote hit) {cap b u cap' b' u' : ℕ}
    (he : assembleOutput .content hits cap b u = assembleOutput .content hits' cap' b' u') :
    (report hits cap b u).summary = (report hits' cap' b' u').summary ∧
    ∃ secs, List.Forall₂ (Renders quote) secs (report hits cap b u).reported ∧
      List.Forall₂ (Renders quote) secs (report hits' cap' b' u').reported ∧
      ∀ secs', List.Forall₂ (Renders quote) secs' (report hits cap b u).reported → secs' = secs := by
  have hexists : ∀ {hits : List FileHit} {cap b u},
      (∀ hit ∈ hits, RenderedHit contentId quote hit) →
      ∃ secs, List.Forall₂ (Renders quote) secs (report hits cap b u).reported := by
    intro hits cap b u hall
    refine exists_sections fun hit hhit => ?_
    obtain ⟨granted, ctx, bytes, rel, matched, hmode, ht, hok⟩ := hall hit (mem_reported hhit)
    obtain ⟨sec, hsec, -⟩ := renderHit_ok hmode ht hok
    exact ⟨sec, hsec⟩
  obtain ⟨secs, hsecs⟩ : ∃ secs, List.Forall₂ (Renders quote) secs (report hits cap b u).reported :=
    hexists h
  obtain ⟨secs', hsecs'⟩ :
      ∃ secs, List.Forall₂ (Renders quote) secs (report hits' cap' b' u').reported := hexists h'
  have hlines := clientLines_content hquote hsecs
  rw [← assembleOutput, he, assembleOutput, clientLines_content hquote hsecs'] at hlines
  obtain ⟨hgroups, hsummary⟩ := List.append_inj' hlines rfl
  have hmap := Lines.groups_inj (fun sec _ => sec.nil_notMem_lines)
    (fun sec _ => sec.nil_notMem_lines) hgroups
  have hsame : secs' = secs :=
    List.map_injective_iff.2 (fun _ _ => GrepSection.lines_inj hinj) hmap
  rw [hsame] at hsecs'
  exact ⟨(GrepSummary.render_inj (List.cons.inj hsummary).1).symm, secs, hsecs, hsecs',
    fun _ hother => sections_unique hinj hsecs hother⟩

end

/-- Rows, a separator, a header and a summary, in the lines of a file. -/
def lookalike : Bytes :=
  utf8 ("1@0|a\n--\n\n[hashline snapshot=0 lines=1 bytes=2 path=\"b\"]\n1@0|b\n\n" ++
    "[hashline matches=2 truncated=false skipped_binary=0 skipped_invalid_utf8=0]\n")

/-- Two sections of such lines are not the one section whose lines look like them. -/
theorem assembleOutput_decodable_lookalike :
    ∃ first second whole, RenderedHit (fun _ => ⟨0⟩) jsonString first ∧
      RenderedHit (fun _ => ⟨0⟩) jsonString second ∧ RenderedHit (fun _ => ⟨0⟩) jsonString whole ∧
      (∃ secs, List.Forall₂ (Renders jsonString) secs [first, second] ∧
        ∀ secs', List.Forall₂ (Renders jsonString) secs' [first, second] → secs' = secs) ∧
      assembleOutput .content [first, second] 200 0 0 ≠ assembleOutput .content [whole] 200 0 0 := by
  let ctx : SearchContext := ⟨fun _ => none, [], 0, 0, 0, .content⟩
  have ht : IsText lookalike := by
    rw [lookalike, utf8_eq]; decide +kernel
  have hrender : ∀ (rel : PathBuf) (matched : List ℕ), ∃ hit,
      RenderedHit (fun _ => ⟨0⟩) jsonString hit ∧ hit.matches_ = matched.length := by
    intro rel matched
    obtain ⟨hit, hok, -, hcount⟩ := renderHit_eq_ok (fun _ => ⟨0⟩) jsonString ctx ht rel matched
    exact ⟨hit, ⟨true, ctx, lookalike, rel, matched, rfl, ht, hok⟩, hcount⟩
  obtain ⟨first, hfirst, hcount⟩ := hrender ["a"] [1, 5]
  obtain ⟨second, hsecond, -⟩ := hrender ["b"] [2, 4, 7]
  obtain ⟨whole, hwhole, -⟩ := hrender ["a"] [1, 2, 3, 4, 5, 6, 7]
  have htwo : ∀ hit ∈ [first, second], RenderedHit (fun _ => ⟨0⟩) jsonString hit :=
    List.forall_mem_cons.2 ⟨hfirst, List.forall_mem_singleton.2 hsecond⟩
  have hreported : (report [first, second] 200 0 0).reported = [first, second] := by
    have hroom : ¬saturatingAdd 0 first.matches_ ≥ 200 := by rw [hcount]; decide
    simp [report, takeHits, hroom]
  refine ⟨first, second, whole, hfirst, hsecond, hwhole, ?_, fun he => ?_⟩
  · obtain ⟨-, secs, hsecs, -, hunique⟩ := assembleOutput_decodable jsonString_injective
      lf_notMem_jsonString htwo htwo (Eq.refl (assembleOutput .content [first, second] 200 0 0))
    rw [hreported] at hsecs hunique
    exact ⟨secs, hsecs, hunique⟩
  · obtain ⟨-, secs, hsecs, hsecs', -⟩ := assembleOutput_decodable jsonString_injective
      lf_notMem_jsonString htwo (List.forall_mem_singleton.2 hwhole) he
    have hwhole : (report [whole] 200 0 0).reported = [whole] := rfl
    rw [hreported] at hsecs
    rw [hwhole] at hsecs'
    exact absurd (hsecs.length_eq.symm.trans hsecs'.length_eq) (by simp)

end Hashline
