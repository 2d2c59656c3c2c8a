/-
  Complete file text: validation, logical lines and their boundaries, headers
  and context.
-/
import Hashline.Lib.Lines
import Mathlib.Tactic.SplitIfs
import Hashline.Protocol

namespace Hashline

open Machine

def lf : UInt8 := 10
def cr : UInt8 := 13

/-! ## Texts, lines and boundaries -/

/-- Strict, NUL-free UTF-8 within the size limit. -/
structure IsText (bytes : Bytes) : Prop where
  size : bytes.length ≤ maxFileBytes
  nul : (0 : UInt8) ∉ bytes
  utf8 : Utf8.Valid bytes

/-- The logical lines, each with its terminator: one more than there are line feeds. -/
def lines (bytes : Bytes) : List Bytes := Lines.split lf bytes

def lineCount (bytes : Bytes) : ℕ := (lines bytes).length

/-- Where logical line `k` starts, counted from zero; the end where there is no such line. -/
def lineStart (bytes : Bytes) (k : ℕ) : ℕ := Lines.start (lines bytes) k

/-- A line paired with its start, or the line after the last paired with the length. -/
def Boundary (bytes : Bytes) (p : Position) : Prop :=
  (∃ k < lineCount bytes, p.line = k + 1 ∧ p.byte = lineStart bytes k) ∨
    (p.line = lineCount bytes + 1 ∧ p.byte = bytes.length)

/-! ## The slow reference functions -/

def validateText (bytes : Bytes) : Exec ContractError Str := do
  validateFileSize bytes.length
  match nulPosition bytes with
  | some byte => Exec.fail (.nulFile byte)
  | none => match h : Utf8.validUpTo bytes with
    | some n => Exec.fail (.invalidUtf8 n)
    | none => .ok ⟨bytes, Utf8.validUpTo_eq_none.1 h⟩

/-- The loop of `referenceLineStarts` from `index` on. -/
def lineStartsFrom : ℕ → Bytes → List ℕ
  | _, [] => []
  | index, b :: bs =>
    if b = lf then saturatingAdd index 1 :: lineStartsFrom (index + 1) bs
    else lineStartsFrom (index + 1) bs

def referenceLineStarts (text : Bytes) : List ℕ := 0 :: lineStartsFrom 0 text

def boundaryOrdinal (text : Bytes) (starts : List ℕ) (position : Position) :
    Exec ContractError ℕ :=
  let lineCount := starts.length
  if position.line ≤ lineCount then
    if starts[position.line - 1]? = some position.byte then .ok (position.line - 1)
    else Exec.fail (.invalidPosition position)
  else if position.line = saturatingAdd lineCount 1 ∧ position.byte = text.length then
    .ok lineCount
  else Exec.fail (.invalidPosition position)

def validateReferencePosition (bytes : Bytes) (position : Position) : Exec ContractError Unit := do
  let text ← validateText bytes
  let starts := referenceLineStarts text.bytes
  let _ ← boundaryOrdinal text.bytes starts position
  .ok ()

def referenceHeader (path : String) (snapshot : SnapshotId) (bytes : Bytes) :
    Exec ContractError SnapshotHeader := do
  let text ← validateText bytes
  SnapshotHeader.new path snapshot (referenceLineStarts text.bytes).length bytes.length

/-- Drop a line feed at the end of `text[start..end_]`, and a carriage return right before it. -/
def contentEnd (text : Bytes) (start end_ : ℕ) : ℕ :=
  if end_ > start ∧ text[end_ - 1]? = some lf then
    if end_ - 1 > start ∧ text[end_ - 2]? = some cr then end_ - 2 else end_ - 1
  else end_

/-- One round of the loop of `referenceContext`. -/
def contextLine (text : Bytes) (starts : List ℕ) (line : ℕ) : Exec ContractError ContextLine := do
  let index ← Exec.sub line 1
  let start ← Exec.expect starts[index]?
  let rawEnd := starts[index + 1]?.getD text.length
  let content ← Exec.expect (Utf8.get text start (contentEnd text start rawEnd))
  let position ← Exec.expect (Position.ofParts line start)
  .ok ⟨position, content⟩

/-- At most five lines centered on `centerLine`. -/
def referenceContext (bytes : Bytes) (centerLine : ℕ) : Exec ContractError (List ContextLine) := do
  let text ← validateText bytes
  let starts := referenceLineStarts text.bytes
  let center := max 1 (min centerLine starts.length)
  let endLine := min (saturatingAdd center 2) starts.length
  let startLine := max (max (center - 2) 1) (max (endLine - 4) 1)
  (List.range' startLine (endLine + 1 - startLine)).mapM (contextLine text.bytes starts)

/-! ## Validation accepts exactly the texts -/

@[simp] theorem validateText_eq_ok {bytes : Bytes} {text : Str} :
    validateText bytes = .ok text ↔ IsText bytes ∧ text.bytes = bytes := by
  unfold validateText
  rw [Exec.bind_eq_ok]
  constructor
  · rintro ⟨u, hu, h⟩
    rw [validateFileSize_eq_ok] at hu
    split at h
    · cases h
    · rename_i hn
      split at h
      · cases h
      · rename_i hv
        cases h
        exact ⟨⟨hu, nulPosition_eq_none.1 hn, Utf8.validUpTo_eq_none.1 hv⟩, rfl⟩
  · rintro ⟨⟨hs, hn, hv⟩, rfl⟩
    refine ⟨(), validateFileSize_eq_ok.2 hs, ?_⟩
    have hv' := Utf8.validUpTo_eq_none.2 hv
    split
    · rename_i h; rw [nulPosition_eq_none.2 hn] at h; cases h
    · split
      · rename_i h; rw [hv'] at h; cases h
      · rfl

theorem noPanic_validateText (bytes : Bytes) : (validateText bytes).NoPanic := by
  unfold validateText
  refine Exec.noPanic_bind (noPanic_validateFileSize _) fun _ _ => ?_
  split
  · exact Exec.noPanic_fail _
  · split
    · exact Exec.noPanic_fail _
    · exact Exec.noPanic_ok _

theorem noPanic_boundaryOrdinal (text : Bytes) (starts : List ℕ) (position : Position) :
    (boundaryOrdinal text starts position).NoPanic := by
  unfold boundaryOrdinal
  simp only
  split_ifs
  · exact Exec.noPanic_ok _
  · exact Exec.noPanic_fail _
  · exact Exec.noPanic_ok _
  · exact Exec.noPanic_fail _

theorem IsText.validate {bytes : Bytes} (h : IsText bytes) :
    validateText bytes = .ok ⟨bytes, h.utf8⟩ := validateText_eq_ok.2 ⟨h, rfl⟩

theorem validateText_nul {bytes : Bytes} (h : bytes.length ≤ maxFileBytes) {byte : ℕ}
    (hn : nulPosition bytes = some byte) : validateText bytes = Exec.fail (.nulFile byte) := by
  rw [validateText, (validateFileSize_eq_ok (u := ())).2 h, Exec.ok_bind, hn]

theorem validateText_invalid {bytes : Bytes} (h : bytes.length ≤ maxFileBytes)
    (hn : nulPosition bytes = none) {n : ℕ} (hv : Utf8.validUpTo bytes = some n) :
    validateText bytes = Exec.fail (.invalidUtf8 n) := by
  rw [validateText, (validateFileSize_eq_ok (u := ())).2 h, Exec.ok_bind]
  split
  · rename_i he; rw [hn] at he; cases he
  · split
    · rename_i he; rw [hv] at he; cases he; rfl
    · rename_i he; rw [hv] at he; cases he

/-- **What validation says of bytes that fit**: NUL is found before invalid UTF-8. -/
theorem validateText_cases {bytes : Bytes} (h : bytes.length ≤ maxFileBytes) :
    ((0 : UInt8) ∈ bytes ∧ ∃ byte, validateText bytes = Exec.fail (.nulFile byte)) ∨
    ((0 : UInt8) ∉ bytes ∧ ¬Utf8.Valid bytes ∧
      ∃ n, validateText bytes = Exec.fail (.invalidUtf8 n)) ∨
    ∃ ht : IsText bytes, validateText bytes = .ok ⟨bytes, ht.utf8⟩ := by
  rcases hn : nulPosition bytes with _ | byte
  · have h0 := nulPosition_eq_none.1 hn
    by_cases hv : Utf8.Valid bytes
    · exact .inr (.inr ⟨⟨h, h0, hv⟩, IsText.validate ⟨h, h0, hv⟩⟩)
    · obtain ⟨n, hn'⟩ : ∃ n, Utf8.validUpTo bytes = some n :=
        Option.ne_none_iff_exists'.1 fun he => hv (Utf8.validUpTo_eq_none.1 he)
      exact .inr (.inl ⟨h0, hv, n, validateText_invalid h hn hn'⟩)
  · have h0 : (0 : UInt8) ∈ bytes := by
      by_contra h0; rw [nulPosition_eq_none.2 h0] at hn; cases hn
    exact .inl ⟨h0, byte, validateText_nul h hn⟩

/-- A size within the limit is far from the end of the address space. -/
theorem add_two_le_u64Max {n : ℕ} (h : n ≤ maxFileBytes) : n + 2 ≤ u64Max := by
  simp only [maxFileBytes, i64Max, u64Max] at h ⊢; omega

/-! ## The lines of a text -/

/-- Pieces that end in an ASCII byte are cut at character boundaries. -/
theorem valid_pieces {l : Bytes} : ∀ ls : List Bytes, (∀ x ∈ ls, ∃ y, x = y ++ [lf]) →
    Utf8.Valid (ls.flatten ++ l) → (∀ x ∈ ls, Utf8.Valid x) ∧ Utf8.Valid l
  | [], _, h => ⟨by simp, h⟩
  | x :: ls, hls, h => by
    obtain ⟨y, rfl⟩ := hls x List.mem_cons_self
    have hs : (((y ++ [lf]) :: ls).flatten ++ l : Bytes) = y ++ lf :: (ls.flatten ++ l) := by simp
    rw [hs] at h
    obtain ⟨hx, hrest⟩ := h.split_ascii (by decide)
    obtain ⟨hxs, hl⟩ := valid_pieces ls (fun x hx => hls x (List.mem_cons_of_mem _ hx)) hrest
    exact ⟨List.forall_mem_cons.2 ⟨hx, hxs⟩, hl⟩

/-- **The lines of well-formed UTF-8 are well-formed.** -/
theorem valid_of_mem_lines {bytes : Bytes} (h : Utf8.Valid bytes) : ∀ l ∈ lines bytes,
    Utf8.Valid l := by
  obtain ⟨ls, l, hs, -, hls⟩ := Lines.split_spec lf bytes
  have hflat := Lines.flatten_split lf bytes
  rw [hs, List.flatten_append, List.flatten_singleton] at hflat
  rw [← hflat] at h
  obtain ⟨h₁, h₂⟩ := valid_pieces ls (fun x hx => (hls x hx).imp fun y hy => hy.1) h
  intro x hx
  rw [lines, hs, List.mem_append, List.mem_singleton] at hx
  rcases hx with hx | rfl
  · exact h₁ x hx
  · exact h₂

theorem not_mem_of_mem_lines {bytes : Bytes} {b : UInt8} (h : b ∉ bytes) : ∀ l ∈ lines bytes,
    b ∉ l := by
  intro l hl hb
  refine h ?_
  rw [← Lines.flatten_split lf bytes]
  exact List.mem_flatten.2 ⟨l, hl, hb⟩

/-! ## Line starts -/

theorem lineCount_eq (bytes : Bytes) : lineCount bytes = bytes.count lf + 1 :=
  Lines.length_split _

theorem lineCount_pos (bytes : Bytes) : 0 < lineCount bytes := by rw [lineCount_eq]; omega

theorem lineCount_le (bytes : Bytes) : lineCount bytes ≤ bytes.length + 1 := Lines.length_split_le _

@[simp] theorem flatten_lines (bytes : Bytes) : (lines bytes).flatten = bytes :=
  Lines.flatten_split _ _

@[simp] theorem lineStart_zero (bytes : Bytes) : lineStart bytes 0 = 0 := rfl

theorem lineStart_lineCount (bytes : Bytes) : lineStart bytes (lineCount bytes) = bytes.length := by
  rw [lineStart, lineCount, Lines.start_of_length_le _ (Nat.le_refl _), flatten_lines]

theorem lineStart_mono (bytes : Bytes) {j k : ℕ} (h : j ≤ k) :
    lineStart bytes j ≤ lineStart bytes k := Lines.start_mono _ h

theorem lineStart_le (bytes : Bytes) (k : ℕ) : lineStart bytes k ≤ bytes.length := by
  have := Lines.start_le (lines bytes) k; rwa [flatten_lines] at this

/-- The loop of `referenceLineStarts` lists the starts of the lines after the first. -/
theorem lineStartsFrom_eq (bytes : Bytes) : ∀ index, index + bytes.length ≤ u64Max →
    lineStartsFrom index bytes =
      (List.range (bytes.count lf)).map fun k => index + lineStart bytes (k + 1) := by
  unfold lineStart lines
  induction bytes with
  | nil => intro _ _; rfl
  | cons b bs ih =>
    intro index hi
    rw [List.length_cons] at hi
    have hrest := ih (index + 1) (by omega)
    by_cases hb : b = lf
    · subst hb
      rw [lineStartsFrom, if_pos rfl, hrest, Lines.split_cons_sep, List.count_cons_self,
        List.range_succ_eq_map, List.map_cons, List.map_map, saturatingAdd_of_le (by omega)]
      congr 1
      refine List.map_congr_left fun k _ => ?_
      simp only [Function.comp, Lines.start_cons, List.length_singleton]; omega
    · obtain ⟨l, ls, h, h'⟩ := Lines.split_cons_ne hb bs
      rw [lineStartsFrom, if_neg hb, hrest, h, h', List.count_cons_of_ne (by simpa using hb)]
      refine List.map_congr_left fun k _ => ?_
      simp only [Lines.start_cons, List.length_cons]; omega

/-- **The reference vector lists the starts of the logical lines.** -/
theorem referenceLineStarts_eq {bytes : Bytes} (h : bytes.length ≤ maxFileBytes) :
    referenceLineStarts bytes = (List.range (lineCount bytes)).map (lineStart bytes) := by
  have := add_two_le_u64Max h
  rw [referenceLineStarts, lineStartsFrom_eq bytes 0 (by omega), lineCount_eq,
    List.range_succ_eq_map, List.map_cons, List.map_map, lineStart_zero]
  simp only [Nat.zero_add]; rfl

theorem length_referenceLineStarts {bytes : Bytes} (h : bytes.length ≤ maxFileBytes) :
    (referenceLineStarts bytes).length = lineCount bytes := by
  rw [referenceLineStarts_eq h, List.length_map, List.length_range]

theorem referenceLineStarts_getElem? {bytes : Bytes} (h : bytes.length ≤ maxFileBytes) (k : ℕ) :
    (referenceLineStarts bytes)[k]? = if k < lineCount bytes then some (lineStart bytes k) else none := by
  rw [referenceLineStarts_eq h, List.getElem?_map]
  split_ifs with hk
  · rw [List.getElem?_range hk]; rfl
  · rw [List.getElem?_eq_none (by simpa using hk)]; rfl

/-! ## One line -/

/-- Logical line `k`, counted from zero, with its terminator. -/
def lineAt (bytes : Bytes) (k : ℕ) : Bytes := (lines bytes)[k]?.getD []

/-- A line without its terminator: a line feed and a carriage return right before it. -/
def stripTerminator (line : Bytes) : Bytes :=
  if line.getLast? = some lf then
    if line.dropLast.getLast? = some cr then line.dropLast.dropLast else line.dropLast
  else line

/-- What is shown of logical line `k`. -/
def displayed (bytes : Bytes) (k : ℕ) : Bytes := stripTerminator (lineAt bytes k)

theorem lineStart_succ {bytes : Bytes} {k : ℕ} (h : k < lineCount bytes) :
    lineStart bytes (k + 1) = lineStart bytes k + (lineAt bytes k).length := by
  rw [lineStart, Lines.start_succ _ h, lineAt, List.getElem?_eq_getElem h]; rfl

/-- A line in its text, cut out at character boundaries. -/
theorem exists_around_line {bytes : Bytes} (hv : Utf8.Valid bytes) {k : ℕ} (h : k < lineCount bytes) :
    ∃ pre post, bytes = pre ++ lineAt bytes k ++ post ∧ pre.length = lineStart bytes k ∧
      Utf8.Valid pre ∧ Utf8.Valid (lineAt bytes k) := by
  have hline : lineAt bytes k = (lines bytes)[k] := by rw [lineAt, List.getElem?_eq_getElem h]; rfl
  refine ⟨((lines bytes).take k).flatten, ((lines bytes).drop (k + 1)).flatten, ?_, rfl, ?_, ?_⟩
  · conv_lhs => rw [← flatten_lines bytes, ← List.take_append_drop k (lines bytes),
      List.drop_eq_getElem_cons h, List.flatten_append, List.flatten_cons]
    rw [hline, List.append_assoc]
  · exact Utf8.Valid.flatten fun l hl => valid_of_mem_lines hv l (List.mem_of_mem_take hl)
  · rw [hline]; exact valid_of_mem_lines hv _ (List.getElem_mem _)

/-- The terminator of a line is its last line feed, or carriage return and line feed. -/
theorem stripTerminator_append (line : Bytes) : ∃ t, line = stripTerminator line ++ t ∧
    (t = [] ∨ t = [lf] ∨ t = [cr, lf]) := by
  unfold stripTerminator
  split_ifs with h h'
  · refine ⟨[cr, lf], ?_, .inr (.inr rfl)⟩
    conv_lhs => rw [← List.dropLast_append_getLast? _ h, ← List.dropLast_append_getLast? _ h']
    simp
  · exact ⟨[lf], (List.dropLast_append_getLast? _ h).symm, .inr (.inl rfl)⟩
  · exact ⟨[], by simp, .inl rfl⟩

theorem valid_stripTerminator {line : Bytes} (h : Utf8.Valid line) :
    Utf8.Valid (stripTerminator line) := by
  obtain ⟨t, ht, rfl | rfl | rfl⟩ := stripTerminator_append line
  · rw [List.append_nil] at ht; rw [← ht]; exact h
  · rw [ht] at h; exact h.before_ascii (by decide)
  · rw [ht] at h; exact h.before_ascii (by decide)

/-- The content of a line inside a text ends where its terminator begins. -/
theorem contentEnd_eq (pre l post : Bytes) :
    contentEnd (pre ++ l ++ post) pre.length (pre.length + l.length) =
      pre.length + (stripTerminator l).length := by
  have hat : ∀ i < l.length, (pre ++ l ++ post)[pre.length + i]? = l[i]? := fun i hi => by
    rw [List.getElem?_append_left (by rw [List.length_append]; omega),
      List.getElem?_append_right (by omega), Nat.add_sub_cancel_left]
  unfold contentEnd stripTerminator
  rcases Nat.eq_zero_or_pos l.length with h0 | hpos
  · rw [List.length_eq_zero_iff] at h0; subst h0; simp
  have h₁ := hat (l.length - 1) (by omega)
  rw [← List.getLast?_eq_getElem?, show pre.length + (l.length - 1) =
    pre.length + l.length - 1 by omega] at h₁
  rw [h₁]
  by_cases hl : l.getLast? = some lf
  · rw [if_pos ⟨by omega, hl⟩, if_pos hl]
    have h₂ : l.dropLast.getLast? = some cr ↔ pre.length + l.length - 1 > pre.length ∧
        (pre ++ l ++ post)[pre.length + l.length - 2]? = some cr := by
      rw [List.getLast?_eq_getElem?, List.getElem?_dropLast, List.length_dropLast]
      by_cases h2 : 2 ≤ l.length
      · have h₃ := hat (l.length - 2) (by omega)
        rw [show pre.length + (l.length - 2) = pre.length + l.length - 2 by omega] at h₃
        rw [h₃, if_pos (by omega), show l.length - 1 - 1 = l.length - 2 by omega]
        exact ⟨fun h => ⟨by omega, h⟩, And.right⟩
      · rw [if_neg (by omega)]
        exact ⟨fun h => absurd h (by simp), fun h => by omega⟩
    by_cases hc : l.dropLast.getLast? = some cr
    · rw [if_pos (h₂.1 hc), if_pos hc, List.length_dropLast, List.length_dropLast]
      have := (h₂.1 hc).1
      omega
    · rw [if_neg (fun h => hc (h₂.2 h)), if_neg hc, List.length_dropLast]; omega
  · rw [if_neg (fun h => hl h.2), if_neg hl]

/-- **What is shown of a line is a slice at character boundaries.** -/
theorem get_line {bytes : Bytes} (hv : Utf8.Valid bytes) {k : ℕ} (h : k < lineCount bytes) :
    Utf8.get bytes (lineStart bytes k)
      (contentEnd bytes (lineStart bytes k) (lineStart bytes (k + 1))) = some (displayed bytes k) := by
  obtain ⟨pre, post, hb, hpre, hvp, hvl⟩ := exists_around_line hv h
  obtain ⟨t, ht, -⟩ := stripTerminator_append (lineAt bytes k)
  have hend := contentEnd_eq pre (lineAt bytes k) post
  rw [← hb, hpre, ← lineStart_succ h] at hend
  have hb' : bytes = pre ++ displayed bytes k ++ (t ++ post) := by
    rw [displayed, List.append_assoc, ← List.append_assoc _ t, ← ht, ← List.append_assoc]; exact hb
  have hget := Utf8.get_of_valid (z := t ++ post) hvp (valid_stripTerminator hvl)
    (by rw [← displayed, ← hb']; exact hv)
  rw [← displayed, ← hb', hpre] at hget
  rw [hend]; exact hget

/-! ## Boundaries -/

theorem Boundary.line_le {bytes : Bytes} {p : Position} (h : Boundary bytes p) :
    p.line - 1 ≤ lineCount bytes := by
  rcases h with ⟨k, hk, hl, -⟩ | ⟨hl, -⟩ <;> omega

/-- The byte of a boundary is where its line starts. -/
theorem Boundary.byte_eq {bytes : Bytes} {p : Position} (h : Boundary bytes p) :
    p.byte = lineStart bytes (p.line - 1) := by
  rcases h with ⟨k, hk, hl, hb⟩ | ⟨hl, hb⟩
  · rw [hb, hl, Nat.add_sub_cancel]
  · rw [hb, hl, Nat.add_sub_cancel, lineStart_lineCount]

/-- **`boundaryOrdinal` accepts exactly the boundaries.** -/
theorem boundaryOrdinal_eq_ok {bytes : Bytes} (h : bytes.length ≤ maxFileBytes) {p : Position}
    {k : ℕ} : boundaryOrdinal bytes (referenceLineStarts bytes) p = .ok k ↔
      Boundary bytes p ∧ k = p.line - 1 := by
  have hp := p.line_ne
  have hc := lineCount_le bytes
  have hu := add_two_le_u64Max h
  simp only [boundaryOrdinal, length_referenceLineStarts h, referenceLineStarts_getElem? h,
    saturatingAdd_of_le (show lineCount bytes + 1 ≤ u64Max by omega)]
  by_cases hl : p.line ≤ lineCount bytes
  · rw [if_pos hl, if_pos (show p.line - 1 < lineCount bytes by omega)]
    split_ifs with hb
    · rw [Option.some.injEq] at hb
      have hB : Boundary bytes p := .inl ⟨p.line - 1, by omega, by omega, hb.symm⟩
      simp [hB, eq_comm]
    · have hB : ¬Boundary bytes p := fun hB => hb (by rw [hB.byte_eq])
      simp [hB]
  · rw [if_neg hl]
    split_ifs with hb
    · have hB : Boundary bytes p := .inr hb
      simp [hB, hb.1, eq_comm]
    · have hB : ¬Boundary bytes p := by
        rintro (⟨k, hk, hk', -⟩ | hB)
        · omega
        · exact hb hB
      simp [hB]

end Hashline
