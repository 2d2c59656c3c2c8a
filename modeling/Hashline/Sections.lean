/-
  The section of one file: which of its lines a search shows, and where the
  marks between them stand.
-/
import Hashline.Grep
import Hashline.Lib.Spans

namespace Hashline

open Machine

variable {contentId : Bytes → SnapshotId} {bytes : Bytes} {matched : List ℕ} {before after : ℕ}

/-! ## What a section shows -/

/-- How many lines a search can match: a last line without a byte is none. -/
def searchableCount (bytes : Bytes) : ℕ :=
  if bytes = [] ∨ bytes.getLast? = some lf then lineCount bytes - 1 else lineCount bytes

def GrepLine.line (row : GrepLine) : ℕ := row.position.line

/-- The mark before rows that come after line `n`, where a line is left out. -/
def mark (n : ℕ) : List GrepLine → Bytes
  | [] => []
  | row :: _ => if n + 1 < row.line then utf8 "--\n" else []

/-- The rows of a section as text. -/
def layOut : List GrepLine → Bytes
  | [] => []
  | row :: rows => row.render ++ [lf] ++ mark row.line rows ++ layOut rows

/-- Line `n` is at most `before` lines above or `after` lines below a match. -/
def Near (matched : List ℕ) (before after n : ℕ) : Prop :=
  ∃ m ∈ matched, m ≤ n + before ∧ n ≤ m + after

instance : DecidablePred (Near matched before after) :=
  fun n => inferInstanceAs (Decidable (∃ m ∈ matched, m ≤ n + before ∧ n ≤ m + after))

/-- The rows of the section of `bytes`, whose matches are `matched`. -/
structure Section (bytes : Bytes) (matched : List ℕ) (before after : ℕ) (rows : List GrepLine) :
    Prop where
  /-- The searchable lines near a match, once each and in order. -/
  lines : rows.map GrepLine.line =
    (List.range' 1 (searchableCount bytes)).filter fun n => Near matched before after n
  positions : ∀ row ∈ rows, Boundary bytes row.position ∧
    row.position.byte = lineStart bytes (row.line - 1)
  contents : ∀ row ∈ rows, row.content = displayed bytes (row.line - 1)
  kinds : ∀ row ∈ rows, row.kind = .isMatch ↔ row.line ∈ matched
  matches_ : rows.countP (fun row => row.kind = .isMatch) = matched.length
  /-- A mark between two rows exactly where a searchable line between them is not shown. -/
  marks : ∀ pre row row' post, rows = pre ++ row :: row' :: post →
    (mark row.line (row' :: post) = utf8 "--\n" ↔ ∃ n, row.line < n ∧ n < row'.line ∧
      n ≤ searchableCount bytes ∧ n ∉ rows.map GrepLine.line)

/-! ## The rows of the spans -/

/-- What is seen of a row. -/
def GrepLine.view (row : GrepLine) : ℕ × ℕ × GrepLineKind × Bytes :=
  (row.position.line, row.position.byte, row.kind, row.content)

/-- The row of line `n`. -/
def grepView (bytes : Bytes) (matched : List ℕ) (n : ℕ) : ℕ × ℕ × GrepLineKind × Bytes :=
  (n, lineStart bytes (n - 1), if n ∈ matched then .isMatch else .context, displayed bytes (n - 1))

/-- The lines of a span of line indices. -/
def spanLines (span : ℕ × ℕ) : List ℕ := List.range' (span.1 + 1) (span.2 - span.1)

theorem map_line_of_views {rows : List GrepLine} {ns : List ℕ}
    (h : rows.map GrepLine.view = ns.map (grepView bytes matched)) :
    rows.map GrepLine.line = ns := by
  have := congrArg (List.map Prod.fst) h
  rw [List.map_map, List.map_map] at this
  rw [← List.map_id ns]
  exact this

/-- In a list in order, what is dropped before `n` is what is below it. -/
theorem dropWhile_lt (hm : matched.Pairwise (· < ·)) (n : ℕ) :
    matched.dropWhile (· < n) = matched.filter (n ≤ ·) := by
  induction matched with
  | nil => rfl
  | cons m ms ih =>
    obtain ⟨hlt, hms⟩ := List.pairwise_cons.1 hm
    by_cases hn : m < n
    · rw [List.dropWhile_cons_of_pos (by simpa using hn), ih hms,
        List.filter_cons_of_neg (by simpa using hn)]
    · rw [List.dropWhile_cons_of_neg (by simpa using hn), eq_comm, List.filter_eq_self]
      intro x hx
      rcases List.mem_cons.1 hx with rfl | hx
      · simpa using hn
      · have := hlt x hx
        simp only [decide_eq_true_eq]
        omega

/-- The first match that is not behind is at `n` exactly when `n` is a match. -/
theorem head_filter (hm : matched.Pairwise (· < ·)) (n : ℕ) :
    (matched.filter (n ≤ ·)).head? = some n ↔ n ∈ matched := by
  constructor
  · intro h
    exact List.mem_of_mem_filter (List.mem_of_mem_head? h)
  · intro h
    have hmem : n ∈ matched.filter (n ≤ ·) := List.mem_filter.2 ⟨h, by simp⟩
    rcases hf : matched.filter (n ≤ ·) with _ | ⟨m, ms⟩
    · rw [hf] at hmem; cases hmem
    · rw [hf] at hmem
      have hsort := hm.filter (n ≤ ·)
      have hle := (List.mem_filter.1 (hf ▸ List.mem_cons_self : m ∈ matched.filter (n ≤ ·))).2
      rw [hf] at hsort
      rw [decide_eq_true_iff] at hle
      rcases List.mem_cons.1 hmem with rfl | hn
      · rfl
      · have := (List.pairwise_cons.1 hsort).1 n hn
        omega

section
variable (snapshot : Snapshot contentId)

/-- **The rows of one span**: the matches behind are dropped as the lines go on. -/
theorem renderSpan_rows (hm : matched.Pairwise (· < ·)) (ns : List ℕ) : ∀ k,
    (∀ n ∈ ns, k ≤ n ∧ n ≠ 0 ∧ n ≤ snapshot.lineCount) → ns.Pairwise (· < ·) →
    ∃ (rows : List GrepLine) (k' : ℕ), renderSpan true snapshot ns (matched.filter (k ≤ ·)) =
        .ok (rows.flatMap fun row => row.render ++ [lf], matched.filter (k' ≤ ·)) ∧
      rows.map GrepLine.view = ns.map (grepView snapshot.bytes matched) ∧
      ∀ b, k ≤ b → (∀ n ∈ ns, n ≤ b) → k' ≤ b := by
  induction ns with
  | nil => exact fun k _ _ => ⟨[], k, rfl, rfl, fun b hb _ => hb⟩
  | cons n ns ih =>
    intro k hb hs
    obtain ⟨hk, hn, hl⟩ := hb n List.mem_cons_self
    obtain ⟨hlt, hs⟩ := List.pairwise_cons.1 hs
    obtain ⟨row, hrow, hview⟩ := pageRow_eq snapshot hn hl
    obtain ⟨rows, k', hrows, hviews, hk'⟩ := ih n
      (fun m hm' => ⟨(hlt m hm').le, (hb m (List.mem_cons_of_mem _ hm')).2⟩) hs
    have hdrop : (matched.filter (k ≤ ·)).dropWhile (· < n) = matched.filter (n ≤ ·) := by
      rw [dropWhile_lt (hm.filter _), List.filter_filter]
      refine List.filter_congr fun m _ => ?_
      rw [Bool.eq_iff_iff, Bool.and_eq_true, decide_eq_true_iff, decide_eq_true_iff]
      omega
    refine ⟨⟨row.position, if n ∈ matched then .isMatch else .context, row.content⟩ :: rows, k',
      ?_, ?_, ?_⟩
    · rw [renderSpan, hitRow_eq, hrow, Exec.mapErr, Exec.ok_bind]
      simp only [hdrop, head_filter hm, hrows, Exec.ok_bind, List.flatMap_cons,
        List.append_assoc, List.singleton_append]
    · rw [List.map_cons, List.map_cons, hviews]
      obtain ⟨h₁, h₂, h₃⟩ : row.position.line = n ∧
          row.position.byte = lineStart snapshot.bytes (n - 1) ∧
          row.content = displayed snapshot.bytes (n - 1) := by
        simpa [ContextLine.view, lineView] using hview
      simp only [GrepLine.view, grepView, h₁, h₂, h₃]
    · intro b _ hall
      exact hk' b (hall n List.mem_cons_self) fun m hm' => hall m (List.mem_cons_of_mem _ hm')

/-- Rows of consecutive lines have no mark between them. -/
theorem layOut_run (rest : List GrepLine) : ∀ (rows : List GrepLine) (a : ℕ),
    rows.map GrepLine.line = List.range' a (rows.length) → rows ≠ [] →
    layOut (rows ++ rest) = rows.flatMap (fun row => row.render ++ [lf]) ++
      mark (a + rows.length - 1) rest ++ layOut rest
  | [], _, _, hne => absurd rfl hne
  | [row], a, h, _ => by
    obtain rfl : row.line = a := by simpa using h
    simp [layOut]
  | row :: row' :: rows, a, h, _ => by
    rw [List.length_cons, List.range'_succ, List.map_cons, List.cons.injEq] at h
    obtain ⟨hrow, h⟩ := h
    have hrow' : row'.line = a + 1 := by
      rw [List.length_cons, List.range'_succ, List.map_cons, List.cons.injEq] at h
      exact h.1
    have ih := layOut_run rest (row' :: rows) (a + 1) h (List.cons_ne_nil _ _)
    have hmark : mark row.line (row' :: rows ++ rest) = [] := if_neg (by omega)
    have hlast : a + (row :: row' :: rows).length - 1 = a + 1 + (row' :: rows).length - 1 := by
      simp only [List.length_cons]; omega
    calc layOut (row :: (row' :: rows ++ rest))
        = row.render ++ [lf] ++ [] ++ layOut (row' :: rows ++ rest) := by rw [layOut, hmark]
      _ = row.render ++ [lf] ++ ((row' :: rows).flatMap (fun row => row.render ++ [lf]) ++
            mark (a + 1 + (row' :: rows).length - 1) rest ++ layOut rest) := by
          rw [List.append_nil, ih]
      _ = _ := by rw [hlast]; simp only [List.flatMap_cons, List.append_assoc]

/-- **The rows of all spans**, with the mark where one span ends and the next has not begun. -/
theorem renderSpans_rows (hm : matched.Pairwise (· < ·)) (spans : List (ℕ × ℕ)) : ∀ k,
    (∀ s ∈ spans, k ≤ s.1 + 1 ∧ s.1 < s.2 ∧ s.2 ≤ snapshot.lineCount) →
    spans.Pairwise (fun a b => a.2 < b.1) →
    ∃ rows, renderSpans true snapshot spans (matched.filter (k ≤ ·)) = .ok (layOut rows) ∧
      rows.map GrepLine.view = (spans.flatMap spanLines).map (grepView snapshot.bytes matched) := by
  induction spans with
  | nil => exact fun k _ _ => ⟨[], rfl, rfl⟩
  | cons s spans ih =>
    intro k hb hs
    obtain ⟨hk, hlt, hle⟩ := hb s List.mem_cons_self
    obtain ⟨hapart, hs⟩ := List.pairwise_cons.1 hs
    obtain ⟨rows, k', hrows, hviews, hk'⟩ := renderSpan_rows snapshot hm (spanLines s) k
      (fun n hn => by
        rw [spanLines, List.mem_range'_1] at hn
        omega) List.pairwise_lt_range'
    obtain ⟨rest, hrest, hrests⟩ := ih k' (fun t ht => ⟨hk' _ (by have := hapart t ht; omega)
      (fun n hn => by
        have := hapart t ht
        rw [spanLines, List.mem_range'_1] at hn
        omega), (hb t (List.mem_cons_of_mem _ ht)).2⟩) hs
    have hlines := map_line_of_views hviews
    have hlen : rows.length = s.2 - s.1 := by
      simpa [spanLines] using congrArg List.length hlines
    have hrun := layOut_run rest rows (s.1 + 1) (by rw [hlines, hlen]; rfl)
      (by rintro rfl; rw [List.length_nil] at hlen; omega)
    refine ⟨rows ++ rest, ?_, ?_⟩
    · rw [renderSpans, ← spanLines, hrows, Exec.ok_bind]
      simp only [hrest, Exec.ok_bind]
      rw [hrun]
      cases spans with
      | nil =>
        have hnil : rest = [] := by simpa using hrests
        rw [hnil]; rfl
      | cons t spans =>
        -- the first row of the rest is the first line of the next span
        have htlt := (hb t (by simp)).2.1
        have ht := hapart t List.mem_cons_self
        have hhead := congrArg List.head? (map_line_of_views hrests)
        rw [List.flatMap_cons, spanLines, show t.2 - t.1 = t.2 - t.1 - 1 + 1 by omega,
          List.range'_succ, List.cons_append, List.head?_cons] at hhead
        rcases rest with _ | ⟨row', rest⟩
        · cases hhead
        · have hline : row'.line = t.1 + 1 := by simpa using hhead
          rw [if_neg (List.cons_ne_nil _ _), mark, if_pos (by omega)]
    · rw [List.map_append, hviews, hrests, List.flatMap_cons, List.map_append]

end

/-! ## The spans are the lines near a match -/

theorem Snapshot.searchable_eq (snapshot : Snapshot contentId) :
    snapshot.searchable = searchableCount snapshot.bytes := by
  rw [Snapshot.searchable, searchableCount, snapshot.lineCount_eq']

theorem searchableCount_le (bytes : Bytes) : searchableCount bytes ≤ lineCount bytes := by
  unfold searchableCount; split_ifs <;> omega

/-- The window of a match, as the loop of `included_spans` computes it. -/
def window (before after lineNo : ℕ) : ℕ × ℕ :=
  let idx := lineNo - 1
  (idx - before, saturatingAdd (saturatingAdd idx after) 1)

theorem includedSpans_eq_merge :
    includedSpans matched before after = Spans.merge (matched.map (window before after)) := by
  rw [Spans.merge, List.foldl_map]
  rfl

/-- Where nothing overflows, the windows of the matches are merged. -/
theorem includedSpans_eq (h : ∀ m ∈ matched, 1 ≤ m ∧ m + after ≤ u64Max) :
    includedSpans matched before after =
      Spans.merge (matched.map fun m => (m - 1 - before, m + after)) := by
  rw [includedSpans_eq_merge]
  refine congrArg Spans.merge (List.map_congr_left fun m hm => ?_)
  obtain ⟨h1, hle⟩ := h m hm
  simp only [window]
  rw [saturatingAdd_of_le (a := m - 1) (by omega), saturatingAdd_of_le (by omega),
    show m - 1 + after + 1 = m + after by omega]

theorem flatMap_spanLines (spans : List (ℕ × ℕ)) :
    spans.flatMap spanLines = (Spans.members spans).map (1 + ·) := by
  rw [Spans.members, List.map_flatMap]
  refine Splice.flatMap_congr fun s _ => ?_
  rw [spanLines, List.map_add_range', Nat.add_comm]

section
variable {n : ℕ} (hs : ∀ m ∈ matched, 1 ≤ m ∧ m ≤ n)
include hs

theorem start_lt {m : ℕ} (hm : m ∈ matched) : m - 1 - before < n := by
  have := hs m hm
  omega

theorem merged_windows (hm : matched.Pairwise (· < ·)) (before after : ℕ) :
    Spans.Merged (matched.map fun m => (m - 1 - before, m + after))
      (Spans.merge (matched.map fun m => (m - 1 - before, m + after))) := by
  refine Spans.merge_merged ?_ fun w hw => ?_
  · rw [List.pairwise_map]
    refine hm.imp fun hlt => ?_
    simp only
    omega
  · obtain ⟨m, hm, rfl⟩ := List.mem_map.1 hw
    have := hs m hm
    simp only
    omega

/-- The spans of the windows, cut off after the last line. -/
theorem clip_windows (hm : matched.Pairwise (· < ·)) (before after : ℕ) :
    let spans := Spans.clip n (Spans.merge (matched.map fun m => (m - 1 - before, m + after)))
    spans.Pairwise (fun a b => a.2 < b.1) ∧ (∀ s ∈ spans, s.1 < s.2 ∧ s.2 ≤ n) ∧
      ∀ i, Spans.Holds spans i ↔ i < n ∧ Near matched before after (i + 1) := by
  have hmerged := merged_windows hs hm before after
  obtain ⟨hapart, hholds, hfilled⟩ :=
    hmerged.clip (List.forall_mem_map.2 fun m hmem => start_lt hs hmem)
  refine ⟨hapart, hfilled, fun i => ?_⟩
  rw [hholds]
  refine and_congr_right fun _ => ?_
  simp only [Spans.Holds, List.mem_map, Near]
  constructor
  · rintro ⟨_, ⟨m, hm, rfl⟩, h₁, h₂⟩
    exact ⟨m, hm, by omega, by omega⟩
  · rintro ⟨m, hm, h₁, h₂⟩
    have := hs m hm
    exact ⟨_, ⟨m, hm, rfl⟩, by omega, by omega⟩

/-- **The lines of the spans, cut off after the last**, are those near a match. -/
theorem flatMap_spanLines_clip (hm : matched.Pairwise (· < ·)) (before after : ℕ) :
    let spans := Spans.clip n (Spans.merge (matched.map fun m => (m - 1 - before, m + after)))
    spans.Pairwise (fun a b => a.2 < b.1) ∧ (∀ s ∈ spans, s.1 < s.2 ∧ s.2 ≤ n) ∧
      spans.flatMap spanLines = (List.range' 1 n).filter fun k => Near matched before after k := by
  obtain ⟨hapart, hfilled, hnear⟩ := clip_windows hs hm before after
  refine ⟨hapart, hfilled, ?_⟩
  rw [flatMap_spanLines, Spans.members_eq_filter hapart hnear, List.range'_eq_map_range,
    List.filter_map]
  simp [Function.comp_def, Nat.add_comm]

end

/-! ## Windows cut off before they are merged -/

/-- `included_spans` for one who knows that there are `n` lines: each window is cut off there before
    it is merged. -/
def includedSpansBelow (n : ℕ) (matchLines : List ℕ) (before after : ℕ) : List (ℕ × ℕ) :=
  matchLines.foldl (fun spans lineNo =>
    let idx := lineNo - 1
    pushSpan spans (idx - before) (min (saturatingAdd (saturatingAdd idx after) 1) n)) []

theorem includedSpansBelow_eq_merge {n : ℕ} : includedSpansBelow n matched before after =
    Spans.merge (Spans.clip n (matched.map (window before after))) := by
  rw [Spans.merge, Spans.clip, List.foldl_map, List.foldl_map]
  rfl

section
variable {n : ℕ} (hs : ∀ m ∈ matched, 1 ≤ m ∧ m ≤ n)
include hs

theorem includedSpansBelow_eq :
    includedSpansBelow n matched before after = Spans.clip n (includedSpans matched before after) := by
  rw [includedSpansBelow_eq_merge, includedSpans_eq_merge]
  exact Spans.merge_clip (List.forall_mem_map.2 fun m hm => (start_lt hs hm).le)

/-- Where a sum saturates, the window is cut off anyway. -/
theorem clip_window (hn : n ≤ u64Max) : Spans.clip n (matched.map (window before after)) =
    Spans.clip n (matched.map fun m => (m - 1 - before, m + after)) := by
  rw [Spans.clip, Spans.clip, List.map_map, List.map_map]
  refine List.map_congr_left fun m hm => ?_
  have := hs m hm
  simp only [Function.comp_apply, window, saturatingAdd, Prod.mk.injEq, true_and]
  omega

theorem clip_includedSpans (hn : n ≤ u64Max) : Spans.clip n (includedSpans matched before after) =
    Spans.clip n (Spans.merge (matched.map fun m => (m - 1 - before, m + after))) := by
  rw [← includedSpansBelow_eq hs, includedSpansBelow_eq_merge, clip_window hs hn]
  exact Spans.merge_clip (List.forall_mem_map.2 fun m hm => (start_lt hs hm).le)

end

/-- In a list in order, no element is above the last. -/
theorem le_of_le_last {n : ℕ} (hm : matched.Pairwise (· < ·)) (hlast : ∀ m ∈ matched.getLast?, m ≤ n) :
    ∀ m ∈ matched, m ≤ n := by
  rcases matched.eq_nil_or_concat' with rfl | ⟨init, last, rfl⟩
  · simp
  · have hle : last ≤ n := hlast last (by simp)
    intro m hmem
    rcases List.mem_append.1 hmem with hmem | hmem
    · exact ((List.pairwise_append.1 hm).2.2 m hmem last (by simp)).le.trans hle
    · exact (List.mem_singleton.1 hmem).trans_le hle

/-- **Cutting the spans off after they are merged does no harm**, for any number of lines that fits a
    `usize`: they are not empty, ascend, and leave a line between any two; they have exactly the lines
    near a match; and they are what windows come to that are cut off beforehand. -/
theorem clip_harmless {n : ℕ} (hm : matched.Pairwise (· < ·)) (hpos : ∀ m ∈ matched, 1 ≤ m)
    (hlast : ∀ m ∈ matched.getLast?, m ≤ n) (hn : n ≤ u64Max) (before after : ℕ) :
    let spans := (includedSpans matched before after).map fun span => (span.1, min span.2 n)
    (∀ span ∈ spans, span.1 < span.2) ∧
      spans.Pairwise (fun a b => a.2 < b.1 ∧ ¬Spans.Holds spans a.2) ∧
      (∀ i, Spans.Holds spans i ↔ i < n ∧ Near matched before after (i + 1)) ∧
      spans = includedSpansBelow n matched before after := by
  have hle := le_of_le_last hm hlast
  have hs : ∀ m ∈ matched, 1 ≤ m ∧ m ≤ n := fun m hmem => ⟨hpos m hmem, hle m hmem⟩
  intro spans
  have hspans : spans =
      Spans.clip n (Spans.merge (matched.map fun m => (m - 1 - before, m + after))) :=
    clip_includedSpans hs hn
  obtain ⟨hapart, hfilled, hnear⟩ := clip_windows hs hm before after
  rw [← hspans] at hapart hfilled hnear
  have hfilled' : ∀ span ∈ spans, span.1 < span.2 := fun span hspan => (hfilled span hspan).1
  refine ⟨hfilled', ?_, hnear, (includedSpansBelow_eq hs).symm⟩
  exact hapart.imp_of_mem fun ha _ hab => ⟨hab, Spans.not_holds_end hapart hfilled' ha⟩

/-- Matches at three of ten lines, the first two with touching windows, the last at the end. -/
theorem clip_harmless_three :
    let spans := (includedSpans [2, 4, 10] 1 1).map fun span => (span.1, min span.2 10)
    (∀ span ∈ spans, span.1 < span.2) ∧
      spans.Pairwise (fun a b => a.2 < b.1 ∧ ¬Spans.Holds spans a.2) ∧
      (∀ i, Spans.Holds spans i ↔ i < 10 ∧ Near [2, 4, 10] 1 1 (i + 1)) ∧
      spans = includedSpansBelow 10 [2, 4, 10] 1 1 :=
  clip_harmless (by decide) (by decide) (by simp) (by decide) 1 1

/-! ## A section shows exactly the right lines -/

section
variable {rows : List GrepLine}

theorem view_of_mem {ns : List ℕ} (h : rows.map GrepLine.view = ns.map (grepView bytes matched))
    {row : GrepLine} (hrow : row ∈ rows) :
    row.line ∈ ns ∧ row.view = grepView bytes matched row.line := by
  have hmem := List.mem_map_of_mem (f := GrepLine.view) hrow
  rw [h, List.mem_map] at hmem
  obtain ⟨n, hn, hv⟩ := hmem
  have hline : n = row.line := congrArg Prod.fst hv
  rw [← hline]
  exact ⟨hn, hv.symm⟩

/-- In rows in order, a mark stands where a line is left out. -/
theorem mark_iff {n : ℕ} {pre post : List GrepLine} {row row' : GrepLine}
    (hsort : ((pre ++ row :: row' :: post).map GrepLine.line).Pairwise (· < ·)) (hle : row'.line ≤ n) :
    mark row.line (row' :: post) = utf8 "--\n" ↔ ∃ k, row.line < k ∧ k < row'.line ∧ k ≤ n ∧
      k ∉ (pre ++ row :: row' :: post).map GrepLine.line := by
  have hne : utf8 "--\n" ≠ [] := by
    intro he
    have hlen := congrArg List.length he
    rw [length_utf8] at hlen
    exact absurd hlen (by decide)
  rw [List.map_append, List.map_cons, List.map_cons, List.pairwise_append, List.pairwise_cons,
    List.pairwise_cons] at hsort
  obtain ⟨-, ⟨hrow, hrow', -⟩, hpre⟩ := hsort
  have hlt := hrow row'.line List.mem_cons_self
  have hnone : ∀ k, row.line < k → k < row'.line →
      k ∉ (pre ++ row :: row' :: post).map GrepLine.line := by
    intro k h₁ h₂ hmem
    rw [List.map_append, List.map_cons, List.map_cons, List.mem_append, List.mem_cons,
      List.mem_cons] at hmem
    rcases hmem with hmem | rfl | rfl | hmem
    · have := hpre k hmem row.line List.mem_cons_self
      omega
    · omega
    · omega
    · have := hrow' k hmem
      omega
  rw [mark]
  split_ifs with hgap
  · simp only [true_iff]
    exact ⟨row.line + 1, by omega, hgap, by omega, hnone _ (by omega) hgap⟩
  · refine ⟨fun he => absurd he.symm hne, ?_⟩
    rintro ⟨k, h₁, h₂, -⟩
    omega


/-- As many rows as there are matches show a match. -/
theorem countP_isMatch {ns : List ℕ} (hsort : ns.Pairwise (· < ·))
    (h : rows.map GrepLine.view = ns.map (grepView bytes matched))
    (hm : matched.Pairwise (· < ·)) (hsub : ∀ m ∈ matched, m ∈ ns) :
    rows.countP (fun row => row.kind = .isMatch) = matched.length := by
  have hkind : ∀ row ∈ rows, decide (row.kind = .isMatch) = decide (row.line ∈ matched) := by
    intro row hrow
    have hk : row.kind = if row.line ∈ matched then .isMatch else .context :=
      congrArg (fun v => v.2.2.1) (view_of_mem h hrow).2
    rw [hk]
    by_cases hmem : row.line ∈ matched <;> simp [hmem]
  have hfilter : ns.filter (· ∈ matched) = matched := by
    refine (hsort.filter _).eq_of_mem_iff hm fun n => ?_
    rw [List.mem_filter, decide_eq_true_iff]
    exact ⟨And.right, fun hn => ⟨hsub n hn, hn⟩⟩
  calc rows.countP (fun row => row.kind = .isMatch)
      = rows.countP (fun row => row.line ∈ matched) := List.countP_congr fun row hrow => by
        rw [hkind row hrow]
    _ = (rows.map GrepLine.line).countP (· ∈ matched) := by rw [List.countP_map]; rfl
    _ = (ns.filter (· ∈ matched)).length := by
        rw [map_line_of_views h, List.countP_eq_length_filter]
    _ = matched.length := by rw [hfilter]

theorem section_of_views (hm : matched.Pairwise (· < ·))
    (hs : ∀ m ∈ matched, 1 ≤ m ∧ m ≤ searchableCount bytes)
    (h : rows.map GrepLine.view = ((List.range' 1 (searchableCount bytes)).filter fun n =>
      Near matched before after n).map (grepView bytes matched)) :
    Section bytes matched before after rows := by
  have hlines := map_line_of_views h
  have hsort : (rows.map GrepLine.line).Pairwise (· < ·) := by
    rw [hlines]
    exact .filter _ List.pairwise_lt_range'
  have hrange : ∀ row ∈ rows, 1 ≤ row.line ∧ row.line ≤ searchableCount bytes := by
    intro row hrow
    have hmem := (List.mem_filter.1 (view_of_mem h hrow).1).1
    rw [List.mem_range'_1] at hmem
    omega
  refine ⟨hlines, fun row hrow => ?_, fun row hrow => ?_, fun row hrow => ?_, ?_, ?_⟩
  · have hb : row.position.byte = lineStart bytes (row.line - 1) :=
      congrArg (fun v => v.2.1) (view_of_mem h hrow).2
    have hle := searchableCount_le bytes
    have hr := hrange row hrow
    exact ⟨.inl ⟨row.line - 1, by omega, (Nat.sub_add_cancel hr.1).symm, hb⟩, hb⟩
  · exact congrArg (fun v => v.2.2.2) (view_of_mem h hrow).2
  · have hk : row.kind = if row.line ∈ matched then .isMatch else .context :=
      congrArg (fun v => v.2.2.1) (view_of_mem h hrow).2
    rw [hk]
    by_cases hmem : row.line ∈ matched <;> simp [hmem]
  · refine countP_isMatch (.filter _ List.pairwise_lt_range') h hm fun m hmem => ?_
    have := hs m hmem
    rw [List.mem_filter, List.mem_range'_1, decide_eq_true_iff]
    exact ⟨by omega, m, hmem, by omega, by omega⟩
  · rintro pre row row' post rfl
    exact mark_iff hsort (hrange row' (by simp)).2

end

section
variable (contentId) (quote : String → String) (ctx : SearchContext)

/-- **A section shows exactly the right lines**: those near a match, once each and in order, a match
    as such, each at the start of its line, with a mark wherever a line is left out. -/
theorem renderHit_section (hmode : ctx.mode = .content)
    (ha : ctx.after ≤ maxContextLines) (ht : IsText bytes) (rel : PathBuf)
    (hm : matched.Pairwise (· < ·)) (hs : ∀ m ∈ matched, 1 ≤ m ∧ m ≤ searchableCount bytes) :
    ∃ hit rows, renderHit contentId quote true ctx bytes rel matched = .ok hit ∧ hit.rel = rel ∧
      hit.header = SnapshotHeader.render quote
        ⟨rel.relative, contentId bytes, lineCount bytes, bytes.length⟩ ∧
      hit.body = layOut rows ∧ Section bytes matched ctx.before ctx.after rows ∧
      rows.countP (fun row => row.kind = .isMatch) = hit.matches_ := by
  set snapshot : Snapshot contentId := .ofText ⟨bytes, ht⟩ none with hsnapshot
  have hbytes : snapshot.bytes = bytes := rfl
  have hcount : snapshot.lineCount = lineCount bytes := snapshot.lineCount_eq'
  have hle := searchableCount_le bytes
  have hsize := ht.size
  have hlines := lineCount_le bytes
  have hfit : ∀ m ∈ matched, 1 ≤ m ∧ m + ctx.after ≤ u64Max := by
    intro m hmem
    have := hs m hmem
    simp only [maxFileBytes, i64Max, u64Max, maxContextLines] at *
    omega
  obtain ⟨hapart, hfilled, hspans⟩ := flatMap_spanLines_clip hs hm ctx.before ctx.after
  obtain ⟨offsets, ho, -⟩ := snapshot.offsets_granted
  have hheader : SnapshotHeader.new rel.relative snapshot.id snapshot.lineCount snapshot.byteLen =
      .ok ⟨rel.relative, contentId bytes, lineCount bytes, bytes.length⟩ := by
    rw [snapshot.header_new, hcount]
    rfl
  have hall : matched.filter (0 ≤ ·) = matched := List.filter_eq_self.2 fun _ _ => by simp
  obtain ⟨rows, hrows, hviews⟩ := renderSpans_rows snapshot hm _ 0 (fun s hs' => ⟨Nat.zero_le _,
    (hfilled s hs').1, (hfilled s hs').2.trans (by rw [hcount]; exact hle)⟩) hapart
  rw [hspans, hbytes] at hviews
  have hsection := section_of_views hm hs hviews
  refine ⟨⟨rel, _, layOut rows, matched.length⟩, rows, ?_, rfl, rfl, rfl, hsection,
    hsection.matches_⟩
  rw [renderHit, if_neg (not_not.2 hmode)]
  have hsnap : (Snapshot.fromValidatedBytes bytes : Exec SnapshotError (Snapshot contentId)) =
    .ok snapshot := Snapshot.fromValidatedBytes_eq ht
  rw [hsnap, Exec.mapErr, Exec.ok_bind, ho, Exec.mapErr, Exec.ok_bind, hheader, Exec.mapErr,
    Exec.ok_bind, includedSpans_eq hfit, snapshot.searchable_eq, hbytes]
  rw [hall] at hrows
  change renderSpans true snapshot (Spans.clip _ _) matched >>= _ = _
  rw [hrows]
  rfl

end

/-- The second of two lines, with one line of context above it. -/
theorem renderHit_section_second :
    ∃ hit rows, renderHit (fun _ => ⟨0⟩) id true ⟨fun _ => none, [], 1, 0, 0, .content⟩
        [97, 10, 98, 10] ["f"] [2] = .ok hit ∧ hit.rel = ["f"] ∧
      hit.header = SnapshotHeader.render id
        ⟨PathBuf.relative ["f"], ⟨0⟩, lineCount [97, 10, 98, 10], [97, 10, 98, 10].length⟩ ∧
      hit.body = layOut rows ∧ Section [97, 10, 98, 10] [2] 1 0 rows ∧
      rows.countP (fun row => row.kind = .isMatch) = hit.matches_ :=
  renderHit_section (fun _ => ⟨0⟩) id ⟨fun _ => none, [], 1, 0, 0, .content⟩ rfl (by decide)
    (by decide) ["f"] (by decide) (by decide)

/-! ## Three modes, one budget -/

/-- A file that matches: its text and the lines, in order. -/
structure MatchedFile where
  rel : PathBuf
  bytes : Bytes
  matched : List ℕ
  isText : IsText bytes
  ascending : matched.Pairwise (· < ·)
  searchable : ∀ m ∈ matched, 1 ≤ m ∧ m ≤ searchableCount bytes
  nonempty : matched ≠ []

def MatchedFile.count (file : MatchedFile) : ℕ := file.matched.length

section
variable (contentId) (quote : String → String) (ctx : SearchContext)

/-- The hits of the files in one mode; a file whose section cannot be rendered is left out. -/
def hitsIn (mode : GrepOutputMode) (files : List MatchedFile) : List FileHit :=
  files.filterMap fun file => (renderHit contentId quote true { ctx with mode := mode } file.bytes
    file.rel file.matched).toOption

/-- What a response in one mode says. -/
def reportIn (mode : GrepOutputMode) (files : List MatchedFile) (cap b u : ℕ) : Report :=
  report (hitsIn contentId quote ctx mode files) cap b u

/-- The three modes on the same files report the first `n` of them, alike. -/
structure ModesAgree (files : List MatchedFile) (cap b u n : ℕ) : Prop where
  enough : cap ≤ Budget.total MatchedFile.count (files.take n) ∨ n = files.length
  shortest : ∀ k < n, Budget.total MatchedFile.count (files.take k) < cap
  reported : ∀ mode, (reportIn contentId quote ctx mode files cap b u).reported.map FileHit.found =
    (files.take n).map fun file => (file.rel, file.count)
  /-- One summary; `usize` holds the sum for every cap up to half of what it holds. -/
  summary : ∀ mode, (reportIn contentId quote ctx mode files cap b u).summary =
    ⟨min (Budget.total MatchedFile.count (files.take n)) u64Max, decide (n < files.length), b, u⟩
  fits : cap ≤ i64Max → Budget.total MatchedFile.count (files.take n) ≤ u64Max
  /-- A section has as many rows with a match as the count says. -/
  sections : List.Forall₂ (fun file hit => hit.rel = file.rel ∧ ∃ rows, hit.body = layOut rows ∧
      Section file.bytes file.matched ctx.before ctx.after rows ∧
      rows.countP (fun row => row.kind = .isMatch) = file.count)
    (files.take n) (reportIn contentId quote ctx .content files cap b u).reported
  paths : assembleOutput .filesWithMatches (hitsIn contentId quote ctx .filesWithMatches files) cap b u =
    ((files.take n).flatMap fun file => utf8 (file.rel.relative ++ "\n")) ++
      (reportIn contentId quote ctx .content files cap b u).summary.render
  counts : assembleOutput .count (hitsIn contentId quote ctx .count files) cap b u =
    ((files.take n).flatMap fun file => utf8 s!"{file.rel.relative}: {file.count}\n") ++
      (reportIn contentId quote ctx .content files cap b u).summary.render
  content : assembleOutput .content (hitsIn contentId quote ctx .content files) cap b u =
    [lf].intercalate ((reportIn contentId quote ctx .content files cap b u).reported.map
      fun hit => hit.header ++ lf :: hit.body) ++ (if n = 0 then [] else [lf]) ++
      (reportIn contentId quote ctx .content files cap b u).summary.render

/-- No file is left out. -/
theorem forall₂_hitsIn (mode : GrepOutputMode) (files : List MatchedFile) :
    List.Forall₂ (fun file hit => renderHit contentId quote true { ctx with mode := mode } file.bytes
      file.rel file.matched = .ok hit) files (hitsIn contentId quote ctx mode files) := by
  induction files with
  | nil => exact .nil
  | cons file files ih =>
    obtain ⟨hit, hhit, -⟩ := renderHit_eq_ok contentId quote { ctx with mode := mode } file.isText
      file.rel file.matched
    rw [hitsIn, List.filterMap_cons_some (b := hit) (by rw [hhit]; rfl)]
    exact .cons hhit ih

theorem found_hitsIn (mode : GrepOutputMode) (files : List MatchedFile) :
    (hitsIn contentId quote ctx mode files).map FileHit.found =
      files.map fun file => (file.rel, file.count) := by
  have h := forall₂_hitsIn contentId quote ctx mode files
  generalize hitsIn contentId quote ctx mode files = hits at h
  induction h with
  | nil => rfl
  | @cons file hit files hits hhit _ ih =>
    obtain ⟨hit', hhit', hrel, hcount⟩ := renderHit_eq_ok contentId quote
      { ctx with mode := mode } file.isText file.rel file.matched
    cases hhit.symm.trans hhit'
    rw [List.map_cons, List.map_cons, ih]
    exact congrArg (· :: _) (Prod.ext hrel hcount)

/-- How many of the files are reported. -/
def reportedCount (cap : ℕ) (files : List MatchedFile) : ℕ :=
  (Budget.spend MatchedFile.count cap 0 files).length

theorem take_reportedCount (cap : ℕ) (files : List MatchedFile) :
    files.take (reportedCount cap files) = Budget.spend MatchedFile.count cap 0 files :=
  (List.prefix_iff_eq_take.1 (Budget.spend_initial MatchedFile.count cap 0 files)).symm

/-- What is taken of the hits is what is taken of the files. -/
theorem spend_hitsIn (mode : GrepOutputMode) (files : List MatchedFile) (cap : ℕ) :
    Budget.spend FileHit.matches_ cap 0 (hitsIn contentId quote ctx mode files) =
      (hitsIn contentId quote ctx mode files).take (reportedCount cap files) ∧
    (Budget.spend FileHit.matches_ cap 0 (hitsIn contentId quote ctx mode files)).map FileHit.found =
      (files.take (reportedCount cap files)).map fun file => (file.rel, file.count) := by
  have hfound := found_hitsIn contentId quote ctx mode files
  set hits := hitsIn contentId quote ctx mode files with hhits
  have hspend : (Budget.spend FileHit.matches_ cap 0 hits).map FileHit.found =
      (Budget.spend MatchedFile.count cap 0 files).map fun file => (file.rel, file.count) :=
    calc (Budget.spend (Prod.snd ∘ FileHit.found) cap 0 hits).map FileHit.found
        = Budget.spend Prod.snd cap 0 (hits.map FileHit.found) := Budget.map_spend _ _ _
      _ = Budget.spend Prod.snd cap 0 (files.map fun file => (file.rel, file.count)) := by rw [hfound]
      _ = _ := (Budget.map_spend (fun file => (file.rel, file.count)) 0 files).symm
  have hlen : (Budget.spend FileHit.matches_ cap 0 hits).length = reportedCount cap files := by
    simpa [reportedCount] using congrArg List.length hspend
  refine ⟨?_, by rw [take_reportedCount, hspend]⟩
  rw [← hlen]
  exact List.prefix_iff_eq_take.1 (Budget.spend_initial FileHit.matches_ cap 0 hits)

/-- The loop of the response, in the modes that write one line for each file. -/
theorem foldl_pushHit_lines (mode : GrepOutputMode) (line : FileMatches → Bytes)
    (h : ∀ out hit, pushHit mode out hit = out ++ line hit.found) (hits : List FileHit) : ∀ out,
    hits.foldl (pushHit mode) out = out ++ (hits.map FileHit.found).flatMap line := by
  induction hits with
  | nil => intro out; simp
  | cons hit hits ih =>
    intro out
    rw [List.foldl_cons, h, ih, List.map_cons, List.flatMap_cons, List.append_assoc]

/-- The response in a mode with one line a file. -/
theorem Report.render_lines {mode : GrepOutputMode} (hmode : mode ≠ .content) (line : FileMatches → Bytes)
    (h : ∀ out hit, pushHit mode out hit = out ++ line hit.found) (r : Report) :
    r.render mode = (r.reported.map FileHit.found).flatMap line ++ r.summary.render := by
  rw [render, foldl_pushHit_lines mode line h, List.nil_append]
  simp [hmode]

/-- The loop of the response in content mode, from a section on. -/
theorem foldl_pushHit_content (hits : List FileHit) : ∀ out, out ≠ [] →
    hits.foldl (pushHit .content) out =
      out ++ hits.flatMap fun hit => lf :: (hit.header ++ lf :: hit.body) := by
  induction hits with
  | nil => intro out _; simp
  | cons hit hits ih =>
    intro out hout
    have hpush : pushHit .content out hit = out ++ lf :: (hit.header ++ lf :: hit.body) := by
      simp [pushHit, hout]
    rw [List.foldl_cons, hpush, ih _ (by simp), List.flatMap_cons, List.append_assoc]

theorem foldl_pushHit_sections (hits : List FileHit) :
    hits.foldl (pushHit .content) [] =
      [lf].intercalate (hits.map fun hit => hit.header ++ lf :: hit.body) := by
  cases hits with
  | nil => rfl
  | cons hit hits =>
    have hpush : pushHit .content [] hit = hit.header ++ lf :: hit.body := by simp [pushHit]
    rw [List.foldl_cons, hpush, foldl_pushHit_content hits _ (by simp), List.map_cons]
    induction hits generalizing hit with
    | nil => simp [List.intercalate]
    | cons hit' hits ih =>
      rw [List.flatMap_cons, List.map_cons, List.intercalate_cons_cons, ← ih hit' (by simp [pushHit])]
      simp

theorem intercalate_sections_eq_nil (hits : List FileHit) :
    [lf].intercalate (hits.map fun hit => hit.header ++ lf :: hit.body) = [] ↔ hits = [] := by
  rw [← foldl_pushHit_sections]
  cases hits with
  | nil => simp
  | cons hit hits =>
    rw [List.foldl_cons, foldl_pushHit_content hits _ (by simp [pushHit])]
    simp [pushHit]

/-- A file has no more matches than `i64Max + 1`. -/
theorem MatchedFile.count_le (file : MatchedFile) : file.count ≤ i64Max + 1 := by
  have hsub : file.matched ⊆ List.range' 1 (searchableCount file.bytes) := by
    intro m hm
    have := file.searchable m hm
    rw [List.mem_range'_1]
    omega
  have hlen := (List.subperm_of_subset (file.ascending.imp Nat.ne_of_lt) hsub).length_le
  rw [List.length_range'] at hlen
  have hle := searchableCount_le file.bytes
  have hlines := lineCount_le file.bytes
  have hsize : file.bytes.length ≤ i64Max := file.isText.size
  rw [MatchedFile.count]
  omega

theorem reportIn_eq (mode : GrepOutputMode) (files : List MatchedFile) (cap : UInt64) (b u : ℕ) :
    reportIn contentId quote ctx mode files cap.toNat b u =
      ⟨(hitsIn contentId quote ctx mode files).take (reportedCount cap.toNat files),
        min (Budget.total MatchedFile.count (files.take (reportedCount cap.toNat files))) u64Max,
        decide (reportedCount cap.toNat files < files.length), b, u⟩ := by
  have hcap : cap.toNat ≤ u64Max := Nat.le_of_lt_succ cap.toNat_lt
  obtain ⟨htake, hfound⟩ := spend_hitsIn contentId quote ctx mode files cap.toNat
  have hlen : (hitsIn contentId quote ctx mode files).length = files.length := by
    simpa using congrArg List.length (found_hitsIn contentId quote ctx mode files)
  have htotal : Budget.total FileHit.matches_ (Budget.spend FileHit.matches_ cap.toNat 0
      (hitsIn contentId quote ctx mode files)) =
        Budget.total MatchedFile.count (files.take (reportedCount cap.toNat files)) := by
    have := congrArg (fun l => (l.map Prod.snd).sum) hfound
    simp only [List.map_map] at this
    exact this
  have hproper : decide (Budget.spend FileHit.matches_ cap.toNat 0
      (hitsIn contentId quote ctx mode files) ≠ hitsIn contentId quote ctx mode files) =
        decide (reportedCount cap.toNat files < files.length) := by
    rw [htake, decide_eq_decide, Ne, List.take_eq_self_iff, hlen, not_le]
  rw [reportIn, report_eq hcap, htotal, hproper, htake]

/-- **The three output modes spend one budget alike**: they report the shortest prefix of the files
    whose matches reach the cap, with the same counts and the same summary. -/
theorem modes_agree (ha : ctx.after ≤ maxContextLines) (files : List MatchedFile) (cap : UInt64)
    (b u : ℕ) : ∃ n ≤ files.length, ModesAgree contentId quote ctx files cap.toNat b u n := by
  have htake := take_reportedCount cap.toNat files
  have hreport := fun mode => reportIn_eq contentId quote ctx mode files cap b u
  have hfound : ∀ mode, (reportIn contentId quote ctx mode files cap.toNat b u).reported.map
      FileHit.found = (files.take (reportedCount cap.toNat files)).map
        fun file => (file.rel, file.count) := by
    intro mode
    obtain ⟨hhits, hspend⟩ := spend_hitsIn contentId quote ctx mode files cap.toNat
    rw [hreport, ← hspend, hhits]
  have hle : reportedCount cap.toNat files ≤ files.length :=
    (Budget.spend_initial MatchedFile.count cap.toNat 0 files).length_le
  refine ⟨reportedCount cap.toNat files, hle, ?_, fun k hk => ?_, hfound, fun mode => ?_, ?_, ?_, ?_,
    ?_, ?_⟩
  · by_cases he : Budget.spend MatchedFile.count cap.toNat 0 files = files
    · exact .inr (congrArg List.length he)
    · have := Budget.spend_ne_self he
      rw [← htake, Nat.zero_add] at this
      exact .inl this
  · simpa using Budget.total_take_lt hk
  · rw [hreport]
  · intro hcap
    rcases hn : reportedCount cap.toNat files with _ | k
    · rw [List.take_zero, Budget.total_nil]; exact Nat.zero_le _
    · have hk : k < files.length := by omega
      have hbefore := Budget.total_take_lt (show k < (Budget.spend MatchedFile.count cap.toNat 0
        files).length by rw [← reportedCount]; omega)
      have hcount := (files[k]).count_le
      have hmax : u64Max = i64Max + i64Max + 1 := by decide
      rw [← List.take_append_getElem hk, Budget.total_append, Budget.total_cons, Budget.total_nil]
      omega
  · rw [hreport]
    refine (List.forall₂_take _ (forall₂_hitsIn contentId quote ctx .content files)).imp
      fun file hit hhit => ?_
    obtain ⟨hit', rows, hhit', hrel, -, hbody, hsection, -⟩ := renderHit_section contentId quote
      { ctx with mode := .content } rfl ha file.isText file.rel file.ascending file.searchable
    cases hhit.symm.trans hhit'
    exact ⟨hrel, rows, hbody, hsection, hsection.matches_⟩
  · rw [assembleOutput, ← reportIn, Report.render_lines (by decide)
      (fun f => utf8 (f.1.relative ++ "\n")) (fun _ _ => rfl), hfound, List.flatMap_map, hreport,
      hreport]
  · rw [assembleOutput, ← reportIn, Report.render_lines (by decide)
      (fun f => utf8 s!"{f.1.relative}: {f.2}\n") (fun _ _ => rfl), hfound, List.flatMap_map,
      hreport, hreport]
  · have hout := foldl_pushHit_sections
      (reportIn contentId quote ctx .content files cap.toNat b u).reported
    have hlen := congrArg List.length (hfound .content)
    rw [List.length_map, List.length_map, List.length_take, Nat.min_eq_left hle] at hlen
    have hempty : reportedCount cap.toNat files = 0 ↔
        (reportIn contentId quote ctx .content files cap.toNat b u).reported = [] := by
      rw [← hlen, List.length_eq_zero_iff]
    rw [assembleOutput, ← reportIn, Report.render, hout]
    congr 2
    by_cases hn : reportedCount cap.toNat files = 0
    · rw [if_pos hn, if_neg fun hne => hne.1 ((intercalate_sections_eq_nil _).2 (hempty.1 hn))]
    · rw [if_neg hn, if_pos ⟨fun he => hn (hempty.2 ((intercalate_sections_eq_nil _).1 he)), rfl⟩]

/-- Three files under a cap of three: the second reaches it, and the third is cut off. -/
theorem modes_agree_cut :
    let first : MatchedFile := ⟨["d", "a"], [97, 10, 98, 10, 97, 10], [1, 3], by decide, by decide,
      by decide, by decide⟩
    let second : MatchedFile := ⟨["d", "b"], [195, 169, 13, 10, 97], [2], by decide, by decide,
      by decide, by decide⟩
    let third : MatchedFile := ⟨["c"], [97, 10], [1], by decide, by decide, by decide, by decide⟩
    let ctx : SearchContext := ⟨fun _ => none, [], 3, 1, 1, .content⟩
    ModesAgree (fun _ => ⟨0⟩) id ctx [first, second, third] (3 : UInt64).toNat 0 0 2 := by
  intro first second third ctx
  obtain ⟨n, hn, h⟩ := modes_agree (fun _ => ⟨0⟩) id ctx (by decide) [first, second, third] 3 0 0
  have hlow : 2 ≤ n := by
    by_contra hlt
    have hreached : ∀ k < 2, ¬3 ≤ Budget.total MatchedFile.count ([first, second, third].take k) := by
      decide
    rcases h.enough with he | he
    · exact hreached n (by omega) he
    · rw [he] at hlt
      exact hlt (by decide)
  have hhigh : n ≤ 2 := by
    by_contra hlt
    exact absurd (h.shortest 2 (by omega)) (by decide)
  rwa [Nat.le_antisymm hhigh hlow] at h

end

end Hashline
