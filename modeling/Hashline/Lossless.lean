/-
  What the text of a read tells: the page it lays out, and, once a read is
  complete, every byte of the file.
-/
import Hashline.Path
import Hashline.Read

namespace Hashline

open Machine

/-! ## Text in bytes -/

theorem utf8_eq_flatMap (s : String) : utf8 s = s.toList.flatMap String.utf8EncodeChar := by
  rw [utf8_eq, ← String.utf8Encode_toList, List.utf8Encode]
  simp

theorem utf8_inj {s t : String} (h : utf8 s = utf8 t) : s = t := by
  rw [utf8_eq, utf8_eq, Array.toList_inj] at h
  exact String.toByteArray_inj.1 (ByteArray.ext h)

/-- ASCII text takes one byte a character. -/
theorem flatMap_ascii {l : List Char} (h : ∀ c ∈ l, c.val ≤ 127) :
    l.flatMap String.utf8EncodeChar = l.map fun c => c.val.toUInt8 := by
  induction l with
  | nil => rfl
  | cons c cs ih =>
    have hc := String.utf8EncodeChar_eq_singleton (Char.utf8Size_eq_one_iff.2 (h c List.mem_cons_self))
    rw [List.flatMap_cons, hc, ih fun d hd => h d (List.mem_cons_of_mem _ hd)]
    rfl

theorem mem_utf8_ascii {s : String} (h : ∀ c ∈ s.toList, c.val ≤ 127) {b : UInt8} (hb : b ∈ utf8 s) :
    ∃ c ∈ s.toList, c.val.toNat = b.toNat := by
  rw [utf8_eq_flatMap, flatMap_ascii h] at hb
  obtain ⟨c, hc, rfl⟩ := List.mem_map.1 hb
  refine ⟨c, hc, ?_⟩
  have hle := UInt32.le_iff_toNat_le.1 (h c hc)
  have h127 : (127 : UInt32).toNat = 127 := rfl
  rw [UInt32.toNat_toUInt8, Nat.mod_eq_of_lt (by omega)]

theorem toList_toString (n : ℕ) : (toString n).toList = Nat.toDigits 10 n := by
  simp [toString]

theorem toString_inj {n m : ℕ} (h : toString n = toString m) : n = m := by
  have h := congrArg String.toList h
  rw [toList_toString, toList_toString] at h
  rw [← Nat.ofDigitChars_ten_toDigits (n := n), h, Nat.ofDigitChars_ten_toDigits]

/-- A number is written with digits. -/
theorem digit_of_mem_utf8 {n : ℕ} {b : UInt8} (h : b ∈ utf8 (toString n)) :
    48 ≤ b.toNat ∧ b.toNat ≤ 57 := by
  have hdigit : ∀ c ∈ (toString n).toList, 48 ≤ c.val.toNat ∧ c.val.toNat ≤ 57 := by
    intro c hc
    rw [toList_toString] at hc
    have hd := Nat.isDigit_of_mem_toDigits (by decide) (by decide) hc
    simpa [Char.isDigit, UInt32.le_iff_toNat_le] using hd
  obtain ⟨c, hc, he⟩ := mem_utf8_ascii (fun c hc => UInt32.le_iff_toNat_le.2
    (Nat.le_trans (hdigit c hc).2 (by decide))) h
  rw [← he]
  exact hdigit c hc

theorem toString_ne_nil (n : ℕ) : utf8 (toString n) ≠ [] := by
  intro h
  have hnil : toString n = "" := utf8_inj (h.trans (by rw [utf8_eq_flatMap]; rfl))
  have hdigits := congrArg String.toList hnil
  rw [toList_toString] at hdigits
  exact Nat.toDigits_ne_nil hdigits

/-- A number is read back up to the first byte that is no digit. -/
theorem number_inj {n m : ℕ} {b : UInt8} {x y : Bytes} (hb : b.toNat < 48 ∨ 57 < b.toNat)
    (h : utf8 (toString n) ++ b :: x = utf8 (toString m) ++ b :: y) : n = m ∧ x = y := by
  have hno : ∀ k : ℕ, b ∉ utf8 (toString k) := by
    intro k hk
    have := digit_of_mem_utf8 hk
    omega
  obtain ⟨hn, hx⟩ := Lines.append_cons_inj (hno n) (hno m) h
  exact ⟨toString_inj (utf8_inj hn), hx⟩

/-! ## Identities -/

theorem hexDigit_inj : ∀ a < 16, ∀ b < 16, hexDigit a = hexDigit b → a = b := by
  decide

/-- Numbers with the same hexadecimal digits are equal. -/
theorem eq_of_digits {n a b : ℕ} (ha : a < 16 ^ n) (hb : b < 16 ^ n)
    (h : ∀ k < n, a / 16 ^ k % 16 = b / 16 ^ k % 16) : a = b := by
  induction n generalizing a b with
  | zero => omega
  | succ n ih =>
    have h0 := h 0 n.succ_pos
    rw [Nat.pow_zero, Nat.div_one, Nat.div_one] at h0
    have hdiv : a / 16 = b / 16 := by
      refine ih (by rw [Nat.pow_succ] at ha; omega) (by rw [Nat.pow_succ] at hb; omega) fun k hk => ?_
      have hk := h (k + 1) (by omega)
      rw [Nat.pow_succ', ← Nat.div_div_eq_div_mul, ← Nat.div_div_eq_div_mul] at hk
      exact hk
    omega

theorem SnapshotId.display_inj {s t : SnapshotId} (h : s.display = t.display) : s = t := by
  obtain ⟨a⟩ := s
  obtain ⟨b⟩ := t
  have h := congrArg String.toList h
  rw [display, display, String.toList_ofList, String.toList_ofList, List.map_inj_left] at h
  rw [SnapshotId.mk.injEq, ← BitVec.toNat_inj]
  refine eq_of_digits (n := 32) a.isLt b.isLt fun k hk => ?_
  exact hexDigit_inj _ (Nat.mod_lt _ (by decide)) _ (Nat.mod_lt _ (by decide))
    (h k (by simpa using hk))

theorem hexDigit_ascii : ∀ n < 16, 48 ≤ (hexDigit n).val.toNat ∧ (hexDigit n).val.toNat ≤ 102 := by
  decide

/-- An identity is written with 32 ASCII characters. -/
theorem SnapshotId.hex_of_mem_display {s : SnapshotId} {c : Char} (h : c ∈ s.display.toList) :
    48 ≤ c.val.toNat ∧ c.val.toNat ≤ 102 := by
  rw [display, String.toList_ofList] at h
  obtain ⟨k, -, rfl⟩ := List.mem_map.1 h
  exact hexDigit_ascii _ (Nat.mod_lt _ (by decide))

theorem SnapshotId.display_ascii (s : SnapshotId) : ∀ c ∈ s.display.toList, c.val ≤ 127 := fun c hc =>
  UInt32.le_iff_toNat_le.2 (Nat.le_trans (hex_of_mem_display hc).2 (by decide))

theorem SnapshotId.length_display (s : SnapshotId) : (utf8 s.display).length = 32 := by
  rw [utf8_eq_flatMap, flatMap_ascii s.display_ascii, List.length_map, display, String.toList_ofList]
  simp

theorem SnapshotId.utf8_display_inj {s t : SnapshotId} {x y : Bytes}
    (h : utf8 s.display ++ x = utf8 t.display ++ y) : s = t ∧ x = y := by
  obtain ⟨hid, hx⟩ := List.append_inj h (by rw [length_display, length_display])
  exact ⟨display_inj (utf8_inj hid), hx⟩

/-! ## The parts of a page -/

/-- A separator of one ASCII character. -/
theorem utf8_singleton_append {c : Char} (hc : c.val ≤ 127) (s : String) :
    utf8 (String.singleton c ++ s) = c.val.toUInt8 :: utf8 s := by
  rw [utf8_append, utf8_eq_flatMap (String.singleton c), flatMap_ascii (by simpa using hc)]
  simp

theorem SnapshotHeader.render_eq (quote : String → String) (h : SnapshotHeader) :
    h.render quote = utf8 "[hashline snapshot=" ++ (utf8 h.snapshot.display ++ (utf8 " lines=" ++
      (utf8 (toString h.lines) ++ 32 :: (utf8 "bytes=" ++ (utf8 (toString h.bytes) ++ 32 ::
        (utf8 "path=" ++ (utf8 (quote h.path) ++ utf8 "]"))))))) := by
  have hs : ∀ s : String, toString s = s := fun _ => rfl
  have hspace : ∀ s : String, utf8 (" " ++ s) = 32 :: utf8 s :=
    utf8_singleton_append (c := ' ') (by decide)
  rw [← List.cons_append, ← List.cons_append, ← hspace, ← hspace, render]
  simp only [← utf8_append, hs, String.append_assoc]
  rfl

theorem SnapshotHeader.render_inj {quote : String → String} (hquote : Function.Injective quote)
    {h h' : SnapshotHeader} (he : h.render quote = h'.render quote) : h = h' := by
  obtain ⟨path, id, lines, bytes⟩ := h
  obtain ⟨path', id', lines', bytes'⟩ := h'
  rw [render_eq, render_eq, List.append_cancel_left_eq] at he
  obtain ⟨rfl, he⟩ := SnapshotId.utf8_display_inj he
  rw [List.append_cancel_left_eq] at he
  obtain ⟨rfl, he⟩ := number_inj (by decide) he
  rw [List.append_cancel_left_eq] at he
  obtain ⟨rfl, he⟩ := number_inj (by decide) he
  rw [List.append_cancel_left_eq, List.append_cancel_right_eq] at he
  obtain rfl := hquote (utf8_inj he)
  rfl

theorem PageCursor.renderFooter_eq (c : PageCursor) : c.renderFooter =
    utf8 "[hashline next snapshot=" ++ (utf8 c.snapshot.display ++ (utf8 " position=" ++
      (utf8 (toString c.next.line) ++ 64 :: (utf8 (toString c.next.byte) ++ 93 :: [])))) := by
  have hs : ∀ s : String, toString s = s := fun _ => rfl
  have hat : ∀ s : String, utf8 ("@" ++ s) = 64 :: utf8 s := utf8_singleton_append (c := '@') (by decide)
  have hend : utf8 "]" = [93] := by rw [utf8_eq_flatMap]; rfl
  rw [← List.cons_append, ← hat, ← hend, renderFooter, Position.display]
  simp only [← utf8_append, hs, String.append_assoc]

theorem PageCursor.renderFooter_inj {c c' : PageCursor} (he : c.renderFooter = c'.renderFooter) :
    c = c' := by
  obtain ⟨id, line, byte, hne, hl, hb⟩ := c
  obtain ⟨id', line', byte', hne', hl', hb'⟩ := c'
  rw [renderFooter_eq, renderFooter_eq, List.append_cancel_left_eq] at he
  obtain ⟨rfl, he⟩ := SnapshotId.utf8_display_inj he
  rw [List.append_cancel_left_eq] at he
  obtain ⟨rfl, he⟩ := number_inj (by decide) he
  obtain ⟨rfl, -⟩ := number_inj (by decide) he
  rfl

theorem renderReadLine_eq (row : ContextLine) : renderReadLine row =
    utf8 (toString row.position.line) ++ 64 :: (utf8 (toString row.position.byte) ++ 124 :: row.content) := by
  have hat : ∀ s : String, utf8 ("@" ++ s) = 64 :: utf8 s := utf8_singleton_append (c := '@') (by decide)
  have hbar : utf8 "|" = [124] := by rw [utf8_eq_flatMap]; rfl
  rw [← List.cons_append, ← hat, List.append_cons, ← hbar, renderReadLine, Position.display]
  have hs : ∀ s : String, toString s = s := fun _ => rfl
  simp only [← utf8_append, ← List.append_assoc, String.append_assoc, hs]

theorem renderReadLine_inj {row row' : ContextLine} (he : renderReadLine row = renderReadLine row') :
    row = row' := by
  obtain ⟨⟨line, byte, hne, hl, hb⟩, content⟩ := row
  obtain ⟨⟨line', byte', hne', hl', hb'⟩, content'⟩ := row'
  rw [renderReadLine_eq, renderReadLine_eq] at he
  obtain ⟨rfl, he⟩ := number_inj (by decide) he
  obtain ⟨rfl, rfl⟩ := number_inj (by decide) he
  rfl

/-! ### None of the parts has a line feed -/

/-- A byte below 128 encodes the character of that number. -/
theorem eq_of_mem_utf8EncodeChar {c : Char} {b : UInt8} (h : b ∈ String.utf8EncodeChar c)
    (hb : b.toNat < 128) : c.val.toNat = b.toNat := by
  rw [String.utf8EncodeChar] at h
  split_ifs at h <;> simp only [List.mem_cons, List.not_mem_nil, or_false] at h
  · subst h
    rw [UInt8.toNat_ofNat']
    omega
  · rcases h with rfl | rfl <;> rw [UInt8.toNat_ofNat'] at hb <;> omega
  · rcases h with rfl | rfl | rfl <;> rw [UInt8.toNat_ofNat'] at hb <;> omega
  · rcases h with rfl | rfl | rfl | rfl <;> rw [UInt8.toNat_ofNat'] at hb <;> omega

theorem lf_notMem_utf8 {s : String} (h : '\n' ∉ s.toList) : lf ∉ utf8 s := by
  intro hm
  rw [utf8_eq_flatMap] at hm
  obtain ⟨c, hc, hlf⟩ := List.mem_flatMap.1 hm
  have hval := eq_of_mem_utf8EncodeChar hlf (by decide)
  have hchar : c = '\n' := Char.ext (UInt32.toNat_inj.1 hval)
  exact h (hchar ▸ hc)

theorem lf_notMem_number (n : ℕ) : lf ∉ utf8 (toString n) := fun h =>
  absurd (digit_of_mem_utf8 h).1 (by decide)

theorem lf_notMem_display (s : SnapshotId) : lf ∉ utf8 s.display := by
  refine lf_notMem_utf8 fun h => ?_
  exact absurd (SnapshotId.hex_of_mem_display h).1 (by decide)

theorem SnapshotHeader.lf_notMem {quote : String → String} (hquote : ∀ s, '\n' ∉ (quote s).toList)
    (h : SnapshotHeader) : lf ∉ h.render quote := by
  rw [render_eq]
  simp only [List.mem_append, List.mem_cons, not_or]
  exact ⟨lf_notMem_utf8 (by decide), lf_notMem_display _, lf_notMem_utf8 (by decide),
    lf_notMem_number _, by decide, lf_notMem_utf8 (by decide), lf_notMem_number _, by decide,
    lf_notMem_utf8 (by decide), lf_notMem_utf8 (hquote _), lf_notMem_utf8 (by decide)⟩

theorem PageCursor.lf_notMem (c : PageCursor) : lf ∉ c.renderFooter := by
  rw [renderFooter_eq]
  simp only [List.mem_append, List.mem_cons, not_or]
  exact ⟨lf_notMem_utf8 (by decide), lf_notMem_display _, lf_notMem_utf8 (by decide),
    lf_notMem_number _, by decide, lf_notMem_number _, by decide, by simp⟩

theorem lf_notMem_renderReadLine {row : ContextLine} (h : lf ∉ row.content) :
    lf ∉ renderReadLine row := by
  rw [renderReadLine_eq]
  simp only [List.mem_append, List.mem_cons, not_or]
  exact ⟨lf_notMem_number _, by decide, lf_notMem_number _, by decide, h⟩

/-! ### A row is not taken for a footer -/

/-- A part that starts with a digit. -/
def isRow (part : Bytes) : Bool := part.head?.any fun b => 48 ≤ b.toNat ∧ b.toNat ≤ 57

theorem isRow_renderReadLine (row : ContextLine) : isRow (renderReadLine row) = true := by
  obtain ⟨b, bs, hb⟩ := List.exists_cons_of_ne_nil (toString_ne_nil row.position.line)
  have hdigit := digit_of_mem_utf8 (hb ▸ List.mem_cons_self : b ∈ utf8 (toString row.position.line))
  rw [isRow, renderReadLine_eq, hb]
  simpa using hdigit

theorem isRow_renderFooter (c : PageCursor) : isRow c.renderFooter = false := by
  have hhead : utf8 "[hashline next snapshot=" = 91 :: utf8 "hashline next snapshot=" :=
    utf8_singleton_append (c := '[') (by decide) "hashline next snapshot="
  rw [isRow, PageCursor.renderFooter_eq, hhead]
  rfl

/-! ## The text of a page -/

/-- The rows and the footer of a page, as they are laid out after the header. -/
def Page.parts (page : Page) : List Bytes :=
  page.rows.map renderReadLine ++ page.footer.toList.map PageCursor.renderFooter

theorem Page.render_eq (quote : String → String) (page : Page) :
    page.render quote = page.header.render quote ++ page.parts.flatMap (lf :: ·) := by
  obtain ⟨header, rows, footer⟩ := page
  rw [render, parts, List.flatMap_append, List.append_assoc, List.flatMap_map, List.flatMap_map]
  cases footer with
  | none => simp
  | some cursor => simp

/-- The rows of a page show no line feed. -/
def Page.Plain (page : Page) : Prop := ∀ row ∈ page.rows, lf ∉ row.content

theorem Page.lf_notMem_parts {page : Page} (h : page.Plain) : ∀ part ∈ page.parts, lf ∉ part := by
  intro part hpart
  rw [parts, List.mem_append] at hpart
  rcases hpart with hpart | hpart
  · obtain ⟨row, hrow, rfl⟩ := List.mem_map.1 hpart
    exact lf_notMem_renderReadLine (h row hrow)
  · obtain ⟨cursor, -, rfl⟩ := List.mem_map.1 hpart
    exact cursor.lf_notMem

theorem Page.filter_parts (page : Page) : page.parts.filter isRow = page.rows.map renderReadLine ∧
    (page.parts.filter fun part => !isRow part) = page.footer.toList.map PageCursor.renderFooter := by
  rw [parts, List.filter_append, List.filter_append]
  constructor
  · rw [List.filter_eq_self.2, List.filter_eq_nil_iff.2, List.append_nil]
    · intro part hpart
      obtain ⟨cursor, -, rfl⟩ := List.mem_map.1 hpart
      simp [isRow_renderFooter]
    · intro part hpart
      obtain ⟨row, -, rfl⟩ := List.mem_map.1 hpart
      exact isRow_renderReadLine row
  · rw [List.filter_eq_nil_iff.2, List.filter_eq_self.2, List.nil_append]
    · intro part hpart
      obtain ⟨cursor, -, rfl⟩ := List.mem_map.1 hpart
      simp [isRow_renderFooter]
    · intro part hpart
      obtain ⟨row, -, rfl⟩ := List.mem_map.1 hpart
      simp [isRow_renderReadLine]

/-- **The text of a page determines the page.** -/
theorem Page.render_inj {quote : String → String} (hinj : Function.Injective quote)
    (hquote : ∀ s, '\n' ∉ (quote s).toList) {page page' : Page} (h : page.Plain) (h' : page'.Plain)
    (he : page.render quote = page'.render quote) : page = page' := by
  rw [render_eq, render_eq] at he
  obtain ⟨hheader, hparts⟩ := Lines.join_inj (page.header.lf_notMem hquote)
    (page'.header.lf_notMem hquote) (lf_notMem_parts h) (lf_notMem_parts h') he
  have hrows : page.rows.map renderReadLine = page'.rows.map renderReadLine := by
    rw [← page.filter_parts.1, ← page'.filter_parts.1, hparts]
  have hfooter : page.footer.toList.map PageCursor.renderFooter =
      page'.footer.toList.map PageCursor.renderFooter := by
    rw [← page.filter_parts.2, ← page'.filter_parts.2, hparts]
  have h₁ : page.header = page'.header := SnapshotHeader.render_inj hinj hheader
  have h₂ : page.rows = page'.rows :=
    List.map_injective_iff.2 (fun _ _ => renderReadLine_inj) hrows
  have h₃ : page.footer = page'.footer := by
    rw [← Option.head?_toList (o := page.footer), ← Option.head?_toList (o := page'.footer)]
    rw [List.map_injective_iff.2 (fun _ _ => PageCursor.renderFooter_inj) hfooter]
  cases page
  cases page'
  rw [Page.mk.injEq]
  exact ⟨h₁, h₂, h₃⟩

/-! ## Pages that are read -/

/-- What is shown of a line has no line feed. -/
theorem lf_notMem_displayed (bytes : Bytes) (k : ℕ) : lf ∉ displayed bytes k := by
  rw [displayed, lineAt]
  rcases hline : (lines bytes)[k]? with _ | line
  · simp [stripTerminator]
  obtain ⟨ls, l, hs, hl, hls⟩ := Lines.split_spec lf bytes
  have hmem := List.mem_of_getElem? hline
  rw [lines, hs, List.mem_append, List.mem_singleton] at hmem
  rw [Option.getD_some]
  rcases hmem with hmem | rfl
  · obtain ⟨y, rfl, hy⟩ := hls line hmem
    rw [stripTerminator, if_pos (by simp), List.dropLast_concat]
    split_ifs
    · exact fun h => hy (List.mem_of_mem_dropLast h)
    · exact hy
  · rw [stripTerminator, if_neg]
    · exact hl
    · exact fun h => hl (List.mem_of_getLast? h)

section
variable (snapshot : Snapshot contentId)

/-- The header of a page of a snapshot. -/
def Snapshot.header (path : String) : SnapshotHeader :=
  ⟨path, snapshot.id, snapshot.lineCount, snapshot.byteLen⟩

variable {snapshot} {granted : Bool} {path : String} {page : Page}

theorem header_eq {header : SnapshotHeader}
    (h : SnapshotHeader.new path snapshot.id snapshot.lineCount snapshot.byteLen = .ok header) :
    header = snapshot.header path := by
  unfold SnapshotHeader.new at h
  split_ifs at h
  · cases h
  · obtain ⟨u, -, h⟩ := Exec.bind_eq_ok.1 h
    cases h; rfl

/-- Every row of the page is that of one of the lines. -/
def Page.OfLines (page : Page) (bytes : Bytes) : Prop :=
  ∀ row ∈ page.rows, ∃ line, 1 ≤ line ∧ line ≤ lineCount bytes ∧ row.view = lineView bytes line

theorem Page.OfLines.plain {bytes : Bytes} (h : page.OfLines bytes) : page.Plain := by
  intro row hrow
  obtain ⟨line, -, -, hview⟩ := h row hrow
  have hcontent : row.content = displayed bytes (line - 1) := congrArg (·.2.2) hview
  rw [hcontent]
  exact lf_notMem_displayed _ _

theorem rows_ofLines {first last : ℕ} (h : 1 ≤ first) (hl : last ≤ snapshot.lineCount)
    {rows : List ContextLine}
    (hrows : (List.range' first (last + 1 - first)).mapM (pageRow true snapshot) = .ok rows) :
    ∀ row ∈ rows, ∃ line, 1 ≤ line ∧ line ≤ lineCount snapshot.bytes ∧
      row.view = lineView snapshot.bytes line := by
  obtain ⟨rows', hrows', hviews⟩ := Exec.mapM_view (pageRow true snapshot) ContextLine.view
    (lineView snapshot.bytes) (List.range' first (last + 1 - first)) fun line hline => by
      rw [List.mem_range'_1] at hline
      exact pageRow_eq snapshot (by omega) (by omega)
  rw [hrows] at hrows'
  cases hrows'
  intro row hrow
  obtain ⟨line, hline, hview⟩ := List.mem_map.1 (hviews ▸ List.mem_map_of_mem hrow)
  rw [List.mem_range'_1] at hline
  rw [snapshot.lineCount_eq'] at hl
  exact ⟨line, by omega, by omega, hview.symm⟩

theorem snapshotPage_ok {first limit : ℕ} (h : snapshotPage granted snapshot path first limit = .ok page) :
    granted = true ∧ page.header = snapshot.header path ∧ page.OfLines snapshot.bytes := by
  obtain ⟨header, hheader, h⟩ := Exec.bind_eq_ok.1 h
  obtain rfl := header_eq (Exec.mapErr_eq_ok.1 hheader)
  obtain ⟨offsets, hoffsets, h⟩ := Exec.bind_eq_ok.1 h
  obtain rfl : granted = true := by
    rcases snapshot.offsets_eq granted with ⟨rfl, -⟩ | ⟨-, hno⟩
    · rfl
    · rw [hno] at hoffsets; cases hoffsets
  refine ⟨rfl, ?_⟩
  dsimp only at h
  set last := min (saturatingAdd (max first 1) (max limit 1) - 1) snapshot.lineCount with hlast
  split_ifs at h with hstart hmore
  · cases h
    exact ⟨rfl, by simp [Page.OfLines]⟩
  · obtain ⟨rows, hrows, h⟩ := Exec.bind_eq_ok.1 h
    obtain ⟨cursor, -, h⟩ := Exec.bind_eq_ok.1 h
    cases h
    exact ⟨rfl, rows_ofLines (by omega) (by omega) hrows⟩
  · obtain ⟨rows, hrows, h⟩ := Exec.bind_eq_ok.1 h
    cases h
    exact ⟨rfl, rows_ofLines (by omega) (by omega) hrows⟩

/-- **A page that is read** tells what snapshot it is of. -/
theorem readSnapshot_ok {input : ReadRequest} (h : readSnapshot granted snapshot input = .ok page) :
    page.header = snapshot.header input.path ∧ page.Plain := by
  obtain ⟨u, -, h⟩ := Exec.bind_eq_ok.1 h
  obtain ⟨line, -, h⟩ := Exec.bind_eq_ok.1 h
  split_ifs at h
  · rcases hcursor : input.cursor with _ | cursor
    · rw [hcursor] at h
      obtain ⟨header, hheader, h⟩ := Exec.bind_eq_ok.1 h
      obtain rfl := header_eq (Exec.mapErr_eq_ok.1 hheader)
      cases h
      exact ⟨rfl, by simp [Page.Plain]⟩
    · rw [hcursor] at h
      cases h
  · have hpage := (snapshotPage_ok (Exec.mapErr_eq_ok.1 h)).2
    exact ⟨hpage.1, hpage.2.plain⟩

/-! ## Complete reads -/

theorem limit_of_validate {input : ReadRequest} {u : Unit} (h : input.validate = .ok u) :
    1 ≤ input.limit.toNat ∧ input.limit.toNat ≤ maxPageLines := by
  unfold ReadRequest.validate at h
  split_ifs at h with hlimit
  · cases h
  · cases h
  · cases h
  · rw [not_or, ← UInt16.toNat_inj] at hlimit
    have hzero : input.limit.toNat ≠ 0 := hlimit.1
    omega

/-- A page from a line there is. -/
theorem readSnapshot_from {input : ReadRequest} {line : ℕ} (hs : input.StartsAt snapshot line)
    (h1 : 1 ≤ line) (hc : line ≤ snapshot.lineCount)
    (h : readSnapshot granted snapshot input = .ok page) : 1 ≤ input.limit.toNat ∧
      page.Shows snapshot line (min (line + input.limit.toNat - 1) snapshot.lineCount) := by
  obtain ⟨u, hvalid, hrest⟩ := Exec.bind_eq_ok.1 h
  obtain ⟨hlow, hhigh⟩ := limit_of_validate (Exec.mapErr_eq_ok.1 hvalid)
  obtain ⟨start, hstart, hrest⟩ := Exec.bind_eq_ok.1 hrest
  have hgranted : granted = true := by
    split_ifs at hrest with hbeyond
    · -- beyond the last line no request of the chain starts
      rcases hs with ⟨hcursor, hline⟩ | ⟨cursor, hcursor, -, -⟩
      · rw [pageStart, hcursor] at hstart
        cases hstart
        omega
      · rw [hcursor] at hrest
        cases hrest
    · exact (snapshotPage_ok (Exec.mapErr_eq_ok.1 hrest)).1
  subst hgranted
  obtain ⟨page', hpage', hshows⟩ := readSnapshot_shows snapshot hs h1 hc hlow hhigh
  rw [h] at hpage'
  cases hpage'
  exact ⟨hlow, hshows⟩

/-- Following footers to the end shows the lines from the first request on. -/
theorem followFooters_shown {limits : ℕ → UInt16} {fuel i line : ℕ} {request : ReadRequest}
    {pages : List Page} (hs : request.StartsAt snapshot line) (h1 : 1 ≤ line)
    (hc : line ≤ snapshot.lineCount) (hpath : request.path = path)
    (h : followFooters granted snapshot path limits fuel i request = .ok (pages, true)) :
    (pages.flatMap Page.rows).map ContextLine.view =
        (List.range' line (snapshot.lineCount + 1 - line)).map (lineView snapshot.bytes) ∧
      pages ≠ [] ∧ ∀ page ∈ pages, page.header = snapshot.header path ∧ page.Plain := by
  induction fuel generalizing i line request pages with
  | zero => cases h
  | succ fuel ih =>
    obtain ⟨page, hpage, h⟩ := Exec.bind_eq_ok.1 h
    have hof := readSnapshot_ok hpage
    rw [hpath] at hof
    obtain ⟨hlimit, hshows⟩ := readSnapshot_from hs h1 hc hpage
    set last := min (line + request.limit.toNat - 1) snapshot.lineCount with hlast
    rcases hfooter : page.footer with _ | cursor
    · rw [hfooter] at h
      cases h
      have hend : last = snapshot.lineCount := by
        by_contra hne
        obtain ⟨cursor, hcursor, -⟩ := hshows.more (by omega)
        rw [hfooter] at hcursor; cases hcursor
      refine ⟨?_, by simp, by simpa using hof⟩
      rw [List.flatMap_singleton, hshows.rows, hend]
    · rw [hfooter] at h
      have hlt : last < snapshot.lineCount := by
        by_contra hnl
        rw [hshows.done (by omega)] at hfooter; cases hfooter
      obtain ⟨cursor', hcursor', hat⟩ := hshows.more hlt
      rw [hfooter] at hcursor'
      cases hcursor'
      obtain ⟨⟨rest, finished⟩, hrest, h⟩ := Exec.bind_eq_ok.1 h
      cases h
      obtain ⟨hrows, -, hall⟩ := ih (.inr ⟨cursor, rfl, hat, rfl⟩) (by omega) (by omega) rfl hrest
      refine ⟨?_, by simp, List.forall_mem_cons.2 ⟨hof, hall⟩⟩
      rw [List.flatMap_cons, List.map_append, hshows.rows, hrows, ← List.map_append]
      rw [range'_append_range' (by omega) (by omega)]

end

/-! ### The bytes of a file -/

/-- Terminators of one length are the same. -/
theorem terminator_eq {t t' : Bytes} (h : t = [] ∨ t = [lf] ∨ t = [cr, lf])
    (h' : t' = [] ∨ t' = [lf] ∨ t' = [cr, lf]) (hlen : t.length = t'.length) : t = t' := by
  rcases h with rfl | rfl | rfl <;> rcases h' with rfl | rfl | rfl <;> simp at hlen ⊢

/-- **The rows and the length of a text determine it**: a terminator is as long as the next start
    says. -/
theorem bytes_eq_of_views {b b' : Bytes} (hcount : lineCount b = lineCount b')
    (hlen : b.length = b'.length)
    (hviews : ∀ k < lineCount b, lineView b (k + 1) = lineView b' (k + 1)) : b = b' := by
  have hstart : ∀ k ≤ lineCount b, lineStart b k = lineStart b' k := by
    intro k hk
    rcases Nat.lt_or_eq_of_le hk with hk | rfl
    · exact congrArg (·.2.1) (hviews k hk)
    · rw [lineStart_lineCount, hcount, lineStart_lineCount, hlen]
  have hline : ∀ k < lineCount b, lineAt b k = lineAt b' k := by
    intro k hk
    have hshown : displayed b k = displayed b' k := congrArg (·.2.2) (hviews k hk)
    obtain ⟨t, ht, hterm⟩ := stripTerminator_append (lineAt b k)
    obtain ⟨t', ht', hterm'⟩ := stripTerminator_append (lineAt b' k)
    have hsucc := lineStart_succ hk
    have hsucc' := lineStart_succ (hcount ▸ hk)
    rw [hstart k hk.le, hstart (k + 1) hk, hsucc'] at hsucc
    rw [← displayed] at ht ht'
    rw [ht, ht', hshown]
    congr 1
    refine terminator_eq hterm hterm' ?_
    rw [ht, ht', hshown, List.length_append, List.length_append] at hsucc
    omega
  have hlines : lines b = lines b' := by
    refine List.ext_getElem hcount fun k hk hk' => ?_
    have := hline k hk
    rw [lineAt, lineAt, List.getElem?_eq_getElem hk, List.getElem?_eq_getElem hk'] at this
    exact this
  rw [← flatten_lines b, hlines, flatten_lines]

/-! ### What the texts of a complete read determine -/

/-- The pages of a read of the whole file: one that shows every line, or a chain of cursor pages. -/
def CompleteRead (granted : Bool) (snapshot : Snapshot contentId) (path : String) (pages : List Page) :
    Prop :=
  ∃ (limits : ℕ → UInt16) (fuel : ℕ) (startLine : Option UInt64), (startLine = none ∨ startLine = some 1) ∧
    followFooters granted snapshot path limits fuel 0 ⟨path, limits 0, none, startLine⟩ =
      .ok (pages, true)

theorem CompleteRead.shown {granted : Bool} {snapshot : Snapshot contentId} {path : String}
    {pages : List Page} (h : CompleteRead granted snapshot path pages) :
    (pages.flatMap Page.rows).map ContextLine.view =
        (List.range' 1 snapshot.lineCount).map (lineView snapshot.bytes) ∧
      pages ≠ [] ∧ ∀ page ∈ pages, page.header = snapshot.header path ∧ page.Plain := by
  obtain ⟨limits, fuel, startLine, hstart, h⟩ := h
  have hpos : 1 ≤ snapshot.lineCount := by
    rw [snapshot.lineCount_eq']
    exact lineCount_pos _
  exact followFooters_shown (.inl ⟨rfl, by rcases hstart with rfl | rfl <;> rfl⟩) le_rfl hpos rfl h

/-- The page with the snapshot field blanked, in its header and in its footer. -/
def Page.ignoreSnapshot (page : Page) : Page where
  header := { page.header with snapshot := ⟨0⟩ }
  rows := page.rows
  footer := page.footer.map fun cursor => { cursor with snapshot := ⟨0⟩ }

/-- Lists that agree under one function agree under another it determines. -/
theorem map_eq_of_map_eq {α β γ : Type} {f : α → β} {g : α → γ} {l l' : List α}
    (hfg : ∀ a ∈ l, ∀ a' ∈ l', f a = f a' → g a = g a') (h : l.map f = l'.map f) :
    l.map g = l'.map g := by
  induction l generalizing l' with
  | nil =>
    rw [List.map_nil, eq_comm, List.map_eq_nil_iff] at h
    rw [h]
  | cons a as ih =>
    cases l' with
    | nil => cases h
    | cons b bs =>
      rw [List.map_cons, List.map_cons, List.cons.injEq] at h ⊢
      refine ⟨hfg a List.mem_cons_self b List.mem_cons_self h.1, ih (fun x hx y hy => ?_) h.2⟩
      exact hfg x (List.mem_cons_of_mem _ hx) y (List.mem_cons_of_mem _ hy)

variable {contentId' : Bytes → SnapshotId}

/-- Pages that agree up to the snapshot field have the same rows, counts and all. -/
theorem bytes_eq_of_rows {granted granted' : Bool} {snapshot : Snapshot contentId}
    {snapshot' : Snapshot contentId'} {path path' : String} {pages pages' : List Page}
    (h : CompleteRead granted snapshot path pages) (h' : CompleteRead granted' snapshot' path' pages')
    (he : pages.map Page.ignoreSnapshot = pages'.map Page.ignoreSnapshot) :
    snapshot.bytes = snapshot'.bytes := by
  obtain ⟨hrows, hne, hall⟩ := h.shown
  obtain ⟨hrows', -, hall'⟩ := h'.shown
  have hviews : (pages.flatMap Page.rows).map ContextLine.view =
      (pages'.flatMap Page.rows).map ContextLine.view := by
    have hflat : ∀ ps : List Page, ps.flatMap Page.rows = (ps.map Page.ignoreSnapshot).flatMap Page.rows :=
      fun ps => by rw [List.flatMap_map]; rfl
    rw [hflat, he, ← hflat]
  obtain ⟨page, rest, rfl⟩ := List.exists_cons_of_ne_nil hne
  obtain ⟨page', rest', rfl⟩ : ∃ page' rest', pages' = page' :: rest' := by
    cases pages' with
    | nil => cases he
    | cons page' rest' => exact ⟨page', rest', rfl⟩
  rw [List.map_cons, List.map_cons, List.cons.injEq] at he
  have hheader := congrArg Page.header he.1
  rw [Page.ignoreSnapshot, Page.ignoreSnapshot, (hall page List.mem_cons_self).1,
    (hall' page' List.mem_cons_self).1] at hheader
  have hcount : snapshot.lineCount = snapshot'.lineCount := congrArg SnapshotHeader.lines hheader
  have hlen : snapshot.byteLen = snapshot'.byteLen := congrArg SnapshotHeader.bytes hheader
  rw [snapshot.byteLen_eq, snapshot'.byteLen_eq] at hlen
  rw [hrows, hrows', ← hcount] at hviews
  refine bytes_eq_of_views (by rw [← snapshot.lineCount_eq', hcount, snapshot'.lineCount_eq']) hlen
    fun k hk => List.map_inj_left.1 hviews (k + 1) ?_
  rw [← snapshot.lineCount_eq'] at hk
  rw [List.mem_range'_1]
  omega

/-- **A read is lossless**: a page's text determines the page, and the texts of a complete read
    determine every byte of the file, whatever their snapshot fields say. -/
theorem read_lossless {quote : String → String} (hinj : Function.Injective quote)
    (hquote : ∀ s, '\n' ∉ (quote s).toList) (snapshot : Snapshot contentId)
    (snapshot' : Snapshot contentId') (granted granted' : Bool) :
    (∀ (input input' : ReadRequest) (page page' : Page), readSnapshot granted snapshot input = .ok page →
      readSnapshot granted' snapshot' input' = .ok page' → page.render quote = page'.render quote →
      page = page') ∧
    ∀ (path path' : String) (pages pages' : List Page), CompleteRead granted snapshot path pages →
      CompleteRead granted' snapshot' path' pages' →
      (pages.map (Page.render quote) = pages'.map (Page.render quote) → pages = pages') ∧
      (pages.map (fun page => page.ignoreSnapshot.render quote) =
        pages'.map (fun page => page.ignoreSnapshot.render quote) → snapshot.bytes = snapshot'.bytes) := by
  refine ⟨fun input input' page page' h h' he => ?_, fun path path' pages pages' h h' => ⟨?_, ?_⟩⟩
  · exact Page.render_inj hinj hquote (readSnapshot_ok h).2 (readSnapshot_ok h').2 he
  · intro he
    have hid := map_eq_of_map_eq (g := id) (fun page hp page' hp' hpp => Page.render_inj hinj hquote
      (h.shown.2.2 page hp).2 (h'.shown.2.2 page' hp').2 hpp) he
    rwa [List.map_id, List.map_id] at hid
  · intro he
    refine bytes_eq_of_rows h h' (map_eq_of_map_eq (fun page hp page' hp' hpp => ?_) he)
    exact Page.render_inj hinj hquote (h.shown.2.2 page hp).2 (h'.shown.2.2 page' hp').2 hpp

/-! ### Two files that differ in a terminator -/

/-- JSON's escapes for the characters that need one here. -/
def escapeChar (c : Char) : List Char :=
  if c = '"' then ['\\', '"'] else if c = '\\' then ['\\', '\\'] else if c = '\n' then ['\\', 'n'] else [c]

def jsonString (s : String) : String := String.ofList ('"' :: s.toList.flatMap escapeChar ++ ['"'])

theorem escapeChar_inj {c d : Char} {x y : List Char} (h : escapeChar c ++ x = escapeChar d ++ y) :
    c = d ∧ x = y := by
  unfold escapeChar at h
  split_ifs at h <;> grind

theorem escapeChar_ne_nil (c : Char) : escapeChar c ≠ [] := by
  unfold escapeChar
  split_ifs <;> simp

theorem jsonString_injective : Function.Injective jsonString := by
  have hflat : ∀ xs ys : List Char, xs.flatMap escapeChar = ys.flatMap escapeChar → xs = ys := by
    intro xs
    induction xs with
    | nil =>
      intro ys h
      cases ys with
      | nil => rfl
      | cons d ds =>
        rw [List.flatMap_nil, List.flatMap_cons, eq_comm, List.append_eq_nil_iff] at h
        exact absurd h.1 (escapeChar_ne_nil d)
    | cons c cs ih =>
      intro ys h
      cases ys with
      | nil =>
        rw [List.flatMap_nil, List.flatMap_cons, List.append_eq_nil_iff] at h
        exact absurd h.1 (escapeChar_ne_nil c)
      | cons d ds =>
        rw [List.flatMap_cons, List.flatMap_cons] at h
        obtain ⟨rfl, hrest⟩ := escapeChar_inj h
        rw [ih ds hrest]
  intro s t h
  have h := congrArg String.toList h
  rw [jsonString, jsonString, String.toList_ofList, String.toList_ofList, List.append_cancel_right_eq,
    List.cons.injEq] at h
  exact String.toList_inj.1 (hflat _ _ h.2)

theorem lf_notMem_jsonString (s : String) : '\n' ∉ (jsonString s).toList := by
  rw [jsonString, String.toList_ofList]
  simp only [List.mem_append, List.mem_cons, List.mem_flatMap, List.not_mem_nil, or_false, not_or,
    not_exists, not_and]
  refine ⟨⟨by decide, fun c _ => ?_⟩, by decide⟩
  unfold escapeChar
  split_ifs with h₁ h₂ h₃
  · decide
  · decide
  · decide
  · simpa using Ne.symm h₃

/-- The text of `twoLines` with a carriage return before its line feed. -/
def twoLinesCr : Snapshot fun _ => ⟨0⟩ := .ofText ⟨[97, 13, 10, 98], by decide⟩ none

theorem completeRead_exists (snapshot : Snapshot contentId) (path : String) :
    ∃ pages, CompleteRead true snapshot path pages := by
  have hpos : 1 ≤ snapshot.lineCount := by
    rw [snapshot.lineCount_eq']
    exact lineCount_pos _
  obtain ⟨pages, hpages, -⟩ := followFooters_complete snapshot path (fun _ => 2000) (fun _ => by decide) 1
    (by decide) hpos
  exact ⟨pages, _, _, some 1, .inr rfl, hpages⟩

theorem read_lossless_twoLines : (∃ pages, CompleteRead true twoLines "f" pages) ∧
    (∃ pages, CompleteRead true twoLinesCr "f" pages) ∧
    ¬∃ pages pages', CompleteRead true twoLines "f" pages ∧ CompleteRead true twoLinesCr "f" pages' ∧
      pages.map (fun page => page.ignoreSnapshot.render jsonString) =
        pages'.map (fun page => page.ignoreSnapshot.render jsonString) := by
  refine ⟨completeRead_exists _ _, completeRead_exists _ _, ?_⟩
  rintro ⟨pages, pages', h, h', he⟩
  have hbytes := ((read_lossless jsonString_injective lf_notMem_jsonString twoLines twoLinesCr true true).2
    "f" "f" pages pages' h h').2 he
  exact absurd hbytes (by decide)

end Hashline
