/-
  The tokens clients send back: positions, snapshot identities and write
  preconditions, read from strings.
-/
import Hashline.Lib.Numeral
import Hashline.Lossless
import Mathlib.Computability.RegularExpressions

namespace Hashline

open Machine

/-! ## Parsers -/

def isAsciiDigit (byte : UInt8) : Bool := 48 ≤ byte.toNat ∧ byte.toNat ≤ 57

/-- `byte.is_ascii_digit() || (b'a'..=b'f').contains(&byte)`. -/
def isLowerHex (byte : UInt8) : Bool := isAsciiDigit byte || 97 ≤ byte.toNat ∧ byte.toNat ≤ 102

inductive SnapshotIdParseError where
  | invalidLength
  | invalidCharacter
  deriving DecidableEq, Repr

def SnapshotIdParseError.message : SnapshotIdParseError → String
  | invalidLength => "snapshot ID must contain exactly 32 lowercase hexadecimal characters"
  | invalidCharacter => "snapshot ID contains a character outside [0-9a-f]"

inductive PositionParseError where
  | missingSeparator
  | extraSeparator
  | invalidLine
  | zeroLine
  | lineOverflow
  | invalidByte
  | byteOverflow
  deriving DecidableEq, Repr

def PositionParseError.message : PositionParseError → String
  | missingSeparator => "position must contain one @ separator"
  | extraSeparator => "position must contain exactly one @ separator"
  | invalidLine => "position line must be canonical unsigned decimal"
  | zeroLine => "position line must be at least 1"
  | lineOverflow => "position line exceeds u64"
  | invalidByte => "position byte must be canonical unsigned decimal"
  | byteOverflow => "position byte exceeds u64"

inductive WriteExpectParseError where
  | invalid
  deriving DecidableEq, Repr

def WriteExpectParseError.message : WriteExpectParseError → String
  | invalid => "write expect must be \"absent\" or 32 lowercase hexadecimal characters"

/-- `SNAPSHOT_ID_HEX_LEN`. -/
def snapshotIdHexLen : ℕ := 32

/-- `char::to_digit(16)`. -/
def hexValue (byte : UInt8) : Option ℕ :=
  if isAsciiDigit byte then some (byte.toNat - 48)
  else if 97 ≤ byte.toNat ∧ byte.toNat ≤ 102 then some (byte.toNat - 87)
  else if 65 ≤ byte.toNat ∧ byte.toNat ≤ 70 then some (byte.toNat - 55)
  else none

/-- The digits `u128::from_str_radix(input, 16)` reads: `None` on an overflow, or no digit. -/
def hexLoop (input : Bytes) (value : ℕ) : Option ℕ :=
  input.foldlM (fun value byte => do
    let digit ← hexValue byte
    if 16 * value + digit < 2 ^ 128 then some (16 * value + digit) else none) value

/-- `u128::from_str_radix(input, 16)`, which takes a plus sign first. -/
def u128FromHex : Bytes → Option ℕ
  | [] => none
  | [43] => none
  | 43 :: digits => hexLoop digits 0
  | digits => hexLoop digits 0

def SnapshotId.fromStr (input : String) : Exec SnapshotIdParseError SnapshotId :=
  let bytes := utf8 input
  if bytes.length ≠ snapshotIdHexLen then Exec.fail .invalidLength
  else if ¬bytes.all isLowerHex then Exec.fail .invalidCharacter
  else do
    let value ← Exec.okOr .invalidCharacter (u128FromHex bytes)
    .ok ⟨BitVec.ofNat 128 value⟩

inductive DecimalComponent where
  | line
  | byte
  deriving DecidableEq, Repr

/-- `u64::checked_mul`. -/
def checkedMul (a b : ℕ) : Option ℕ := if a * b ≤ u64Max then some (a * b) else none

/-- The loop of `parse_canonical_decimal`. -/
def decimalLoop (overflow : PositionParseError) (input : Bytes) (value : ℕ) :
    Exec PositionParseError ℕ :=
  input.foldlM (fun value byte => do
    let current ← Exec.okOr overflow (checkedMul value 10)
    let digit ← Exec.sub byte.toNat 48
    Exec.okOr overflow (checkedAdd current digit)) value

def parseCanonicalDecimal (input : Bytes) (component : DecimalComponent) :
    Exec PositionParseError ℕ :=
  let invalid := match component with | .line => .invalidLine | .byte => .invalidByte
  let overflow := match component with | .line => .lineOverflow | .byte => .byteOverflow
  if input = [] ∨ (input.length > 1 ∧ input.head? = some 48) ∨ ¬input.all isAsciiDigit then
    Exec.fail invalid
  else do
    let value ← decimalLoop overflow input 0
    if component = .line ∧ value = 0 then Exec.fail .zeroLine else .ok value

/-- `split_once`. -/
def splitOnce (separator : UInt8) : Bytes → Option (Bytes × Bytes)
  | [] => none
  | byte :: bytes =>
    if byte = separator then some ([], bytes)
    else (splitOnce separator bytes).map fun parts => (byte :: parts.1, parts.2)

def Position.fromStr (input : String) : Exec PositionParseError Position :=
  match splitOnce 64 (utf8 input) with
  | none => Exec.fail .missingSeparator
  | some (line, byte) =>
    if 64 ∈ byte then Exec.fail .extraSeparator
    else do
      let line ← parseCanonicalDecimal line .line
      let byte ← parseCanonicalDecimal byte .byte
      Exec.okOr .zeroLine (Position.ofParts line byte)

def WriteExpect.display : WriteExpect → String
  | absent => "absent"
  | snapshot id => id.display

def WriteExpect.fromStr (input : String) : Exec WriteExpectParseError WriteExpect :=
  if input = "absent" then .ok .absent
  else do
    let id ← (SnapshotId.fromStr input).mapErr fun _ => .invalid
    .ok (.snapshot id)

/-! ## Decimals in bytes -/

/-- The byte of an ASCII character. -/
def asciiByte (c : Char) : UInt8 := c.val.toUInt8

theorem utf8_of_ascii {s : String} (h : ∀ c ∈ s.toList, c.val ≤ 127) :
    utf8 s = s.toList.map asciiByte := by
  rw [utf8_eq_flatMap, flatMap_ascii h]
  rfl

theorem toNat_asciiByte {c : Char} (h : c.toNat ≤ 127) : (asciiByte c).toNat = c.toNat := by
  rw [asciiByte, UInt32.toNat_toUInt8]
  exact Nat.mod_eq_of_lt (Nat.lt_of_le_of_lt h (by decide))

theorem ascii_of_isDigit {c : Char} (h : c.isDigit) : c.val ≤ 127 :=
  UInt32.le_iff_toNat_le.2 (Nat.le_trans (Numeral.digit_bounds h).2 (by decide))

/-- A number is written with the bytes of its digits. -/
theorem utf8_toString (n : ℕ) : utf8 (toString n) = (Nat.toDigits 10 n).map asciiByte := by
  rw [utf8_of_ascii, toList_toString]
  intro c hc
  rw [toList_toString] at hc
  exact ascii_of_isDigit ((Numeral.canonical_toDigits n).digits c hc)

theorem isAsciiDigit_asciiByte {c : Char} (h : c.isDigit) : isAsciiDigit (asciiByte c) = true := by
  have hbounds := Numeral.digit_bounds h
  rw [isAsciiDigit, toNat_asciiByte (by omega)]
  simpa using hbounds

theorem digitChar_byte : ∀ n < 10, n.digitChar.isDigit ∧ (asciiByte n.digitChar).toNat = 48 + n := by
  decide

/-- What each member of a list comes from. -/
theorem exists_map_of_forall {α β : Type} {f : α → β} {P : α → Prop} {bs : List β}
    (h : ∀ b ∈ bs, ∃ a, P a ∧ f a = b) : ∃ as : List α, (∀ a ∈ as, P a) ∧ bs = as.map f := by
  induction bs with
  | nil => exact ⟨[], by simp, rfl⟩
  | cons b bs ih =>
    obtain ⟨a, ha, rfl⟩ := h b List.mem_cons_self
    obtain ⟨as, has, rfl⟩ := ih fun b hb => h b (List.mem_cons_of_mem _ hb)
    exact ⟨a :: as, List.forall_mem_cons.2 ⟨ha, has⟩, rfl⟩

/-- Bytes that are digits are those of characters that are. -/
theorem exists_digits {bs : Bytes} (h : bs.all isAsciiDigit = true) :
    ∃ cs : List Char, (∀ c ∈ cs, c.isDigit) ∧ bs = cs.map asciiByte := by
  refine exists_map_of_forall fun b hb => ?_
  have hdigit : 48 ≤ b.toNat ∧ b.toNat ≤ 57 := of_decide_eq_true (List.all_eq_true.1 h b hb)
  obtain ⟨hc, hn⟩ := digitChar_byte (b.toNat - 48) (by omega)
  exact ⟨_, hc, UInt8.toNat_inj.1 (by rw [hn]; omega)⟩

theorem checkedMul_eq_some {a b c : ℕ} : checkedMul a b = some c ↔ a * b = c ∧ c ≤ u64Max := by
  unfold checkedMul
  split_ifs with h
  · constructor
    · rintro ⟨⟩; exact ⟨rfl, h⟩
    · rintro ⟨rfl, -⟩; rfl
  · constructor
    · rintro ⟨⟩
    · rintro ⟨rfl, h'⟩; exact absurd h' h

/-- **The loop reads a number that fits**, and finds every overflow. -/
theorem decimalLoop_eq_ok {overflow : PositionParseError} {cs : List Char}
    (hcs : ∀ c ∈ cs, c.isDigit) : ∀ {value n : ℕ},
    value ≤ u64Max → (decimalLoop overflow (cs.map asciiByte) value = .ok n ↔
      Nat.ofDigitChars 10 cs value = n ∧ n ≤ u64Max) := by
  induction cs with
  | nil =>
    intro value n hv
    rw [Nat.ofDigitChars_nil, List.map_nil, decimalLoop, List.foldlM_nil]
    constructor
    · rintro ⟨⟩; exact ⟨rfl, hv⟩
    · rintro ⟨rfl, -⟩; rfl
  | cons c cs ih =>
    intro value n hv
    have hbounds := Numeral.digit_bounds (hcs c List.mem_cons_self)
    have hbyte : (asciiByte c).toNat = c.toNat := toNat_asciiByte (by omega)
    have hrest := fun d hd => hcs d (List.mem_cons_of_mem _ hd)
    rw [List.map_cons, decimalLoop, List.foldlM_cons, Nat.ofDigitChars_cons]
    have hle := Numeral.le_ofDigitChars cs (10 * value + (c.toNat - '0'.toNat))
    simp only [Exec.bind_eq_ok, Exec.okOr_eq_ok, Exec.sub_eq_ok, checkedMul_eq_some,
      checkedAdd_eq_some, hbyte]
    constructor
    · rintro ⟨a, ⟨b, ⟨rfl, hb⟩, d, ⟨-, rfl⟩, rfl, ha⟩, hloop⟩
      rw [Nat.mul_comm]
      exact (ih hrest ha).1 hloop
    · rintro ⟨hn, hfit⟩
      have hzero : '0'.toNat = 48 := rfl
      have hnext : 10 * value + (c.toNat - 48) ≤ u64Max := by omega
      refine ⟨10 * value + (c.toNat - 48), ⟨value * 10, ⟨rfl, by omega⟩, c.toNat - 48,
        ⟨by omega, rfl⟩, by omega, hnext⟩, (ih hrest hnext).2 ⟨hn, hfit⟩⟩

/-- What the first check of `parse_canonical_decimal` lets through. -/
theorem canonical_bytes {cs : List Char} (hcs : ∀ c ∈ cs, c.isDigit) :
    ¬(cs.map asciiByte = [] ∨
      ((cs.map asciiByte).length > 1 ∧ (cs.map asciiByte).head? = some 48) ∨
      ¬(cs.map asciiByte).all isAsciiDigit) ↔ Numeral.Canonical cs := by
  have hall : (cs.map asciiByte).all isAsciiDigit = true := by
    rw [List.all_map, List.all_eq_true]
    exact fun c hc => isAsciiDigit_asciiByte (hcs c hc)
  have hhead : (cs.map asciiByte).head? = some 48 ↔ cs.head? = some '0' := by
    cases cs with
    | nil => simp
    | cons c cs =>
      have hbounds := Numeral.digit_bounds (hcs c List.mem_cons_self)
      simp only [List.map_cons, List.head?_cons, Option.some.injEq]
      rw [← UInt8.toNat_inj, toNat_asciiByte (by omega), ← Char.toNat_inj]
      rfl
  simp only [hall, hhead, not_true, or_false, List.map_eq_nil_iff, List.length_map, not_or, not_and]
  constructor
  · rintro ⟨hne, hlead⟩
    refine ⟨hne, hcs, fun hz => ?_⟩
    have hpos := List.length_pos_of_ne_nil hne
    by_contra hlen
    exact hlead (by omega) hz
  · intro h
    refine ⟨h.ne_nil, fun hlen hz => ?_⟩
    have := h.leading hz
    omega

/-- **What the parser of decimals accepts**: a number that fits as it is written, and for a line no
    zero. -/
theorem parseCanonicalDecimal_eq_ok {input : Bytes} {component : DecimalComponent} {n : ℕ} :
    parseCanonicalDecimal input component = .ok n ↔
      input = utf8 (toString n) ∧ n ≤ u64Max ∧ (component = .line → n ≠ 0) := by
  unfold parseCanonicalDecimal
  dsimp only
  constructor
  · intro h
    split_ifs at h with hbad
    · cases h
    obtain ⟨value, hloop, h⟩ := Exec.bind_eq_ok.1 h
    split_ifs at h with hzero
    · cases h
    cases h
    obtain ⟨cs, hcs, rfl⟩ : ∃ cs : List Char, (∀ c ∈ cs, c.isDigit) ∧ input = cs.map asciiByte := by
      refine exists_digits ?_
      by_contra hnot
      exact hbad (.inr (.inr hnot))
    obtain ⟨hvalue, hfit⟩ := (decimalLoop_eq_ok hcs (Nat.zero_le _)).1 hloop
    have hcanonical := ((canonical_bytes hcs).1 hbad).eq_toDigits
    rw [Numeral.value, hvalue] at hcanonical
    refine ⟨by rw [utf8_toString, ← hcanonical], hfit, fun hl hz => hzero ⟨hl, hz⟩⟩
  · rintro ⟨rfl, hfit, hline⟩
    have hcanonical := Numeral.canonical_toDigits n
    rw [utf8_toString, if_neg ((canonical_bytes hcanonical.digits).2 hcanonical)]
    have hloop : ∀ overflow, decimalLoop overflow ((Nat.toDigits 10 n).map asciiByte) 0 = .ok n :=
      fun overflow => (decimalLoop_eq_ok hcanonical.digits (Nat.zero_le _)).2
        ⟨Numeral.value_toDigits n, hfit⟩
    rw [hloop, Exec.ok_bind, if_neg fun h => hline h.1 h.2]

/-! ## Positions -/

theorem splitOnce_eq_some {separator : UInt8} {bytes before after : Bytes} :
    splitOnce separator bytes = some (before, after) ↔
      bytes = before ++ separator :: after ∧ separator ∉ before := by
  induction bytes generalizing before with
  | nil => simp [splitOnce]
  | cons b bs ih =>
    rw [splitOnce]
    by_cases hb : b = separator
    · subst hb
      rw [if_pos rfl]
      constructor
      · rintro ⟨⟩; simp
      · rintro ⟨h, hnot⟩
        cases before with
        | nil => cases h; rfl
        | cons c before =>
          cases h
          exact absurd List.mem_cons_self hnot
    · rw [if_neg hb, Option.map_eq_some_iff]
      constructor
      · rintro ⟨⟨x, y⟩, hxy, ⟨⟩⟩
        obtain ⟨rfl, hnot⟩ := ih.1 hxy
        exact ⟨rfl, by simpa [Ne.symm hb] using hnot⟩
      · rintro ⟨h, hnot⟩
        cases before with
        | nil => cases h; exact absurd rfl hb
        | cons c before =>
          cases h
          exact ⟨(before, after), ih.2 ⟨rfl, fun hm => hnot (List.mem_cons_of_mem _ hm)⟩, rfl⟩

theorem at_notMem_number (n : ℕ) : 64 ∉ utf8 (toString n) := fun h =>
  absurd (digit_of_mem_utf8 h).2 (by decide)

theorem Position.utf8_display (p : Position) :
    utf8 p.display = utf8 (toString p.line) ++ 64 :: utf8 (toString p.byte) := by
  have hs : ∀ s : String, toString s = s := fun _ => rfl
  have hat : ∀ s : String, utf8 ("@" ++ s) = 64 :: utf8 s := utf8_singleton_append (c := '@') (by decide)
  rw [← hat, ← utf8_append, display]
  simp only [hs, String.append_assoc]

/-- **A position is read exactly from how it is written.** -/
theorem Position.fromStr_eq_ok {input : String} {p : Position} :
    fromStr input = .ok p ↔ input = p.display := by
  rw [fromStr]
  constructor
  · intro h
    rcases hsplit : splitOnce 64 (utf8 input) with _ | ⟨line, byte⟩
    · rw [hsplit] at h
      cases h
    · rw [hsplit] at h
      dsimp only at h
      split_ifs at h with hextra
      · cases h
      obtain ⟨hinput, -⟩ := splitOnce_eq_some.1 hsplit
      obtain ⟨l, hl, hrest⟩ := Exec.bind_eq_ok.1 h
      obtain ⟨b, hb, hparts⟩ := Exec.bind_eq_ok.1 hrest
      obtain ⟨rfl, -, -⟩ := parseCanonicalDecimal_eq_ok.1 hl
      obtain ⟨rfl, -, -⟩ := parseCanonicalDecimal_eq_ok.1 hb
      rw [Exec.okOr_eq_ok, ofParts] at hparts
      split_ifs at hparts
      cases hparts
      exact utf8_inj (by rw [hinput, Position.utf8_display])
  · rintro rfl
    have hsplit : splitOnce 64 (utf8 p.display) =
        some (utf8 (toString p.line), utf8 (toString p.byte)) :=
      splitOnce_eq_some.2 ⟨p.utf8_display, at_notMem_number _⟩
    rw [hsplit]
    dsimp only
    rw [if_neg (at_notMem_number _), parseCanonicalDecimal_eq_ok.2 ⟨rfl, p.line_le, fun _ => p.line_ne⟩,
      Exec.ok_bind, parseCanonicalDecimal_eq_ok.2 ⟨rfl, p.byte_le, fun h => by cases h⟩, Exec.ok_bind,
      ofParts, dif_pos ⟨p.line_ne, p.line_le, p.byte_le⟩]
    rfl

/-! ### The published pattern -/

/-- A class of characters. -/
def oneOf (cs : List Char) : RegularExpression Char := cs.foldr (fun c r => .char c + r) 0

def digits : List Char := ['0', '1', '2', '3', '4', '5', '6', '7', '8', '9']

/-- `[1-9][0-9]*`. -/
def positivePattern : RegularExpression Char := oneOf digits.tail * (oneOf digits).star

/-- `0|[1-9][0-9]*`. -/
def numberPattern : RegularExpression Char := .char '0' + positivePattern

/-- `POSITION_PATTERN`: `^[1-9][0-9]*@(0|[1-9][0-9]*)$`. -/
def positionPattern : RegularExpression Char := positivePattern * .char '@' * numberPattern

theorem mem_oneOf {cs w : List Char} : w ∈ (oneOf cs).matches' ↔ ∃ c ∈ cs, w = [c] := by
  induction cs with
  | nil => exact ⟨fun h => h.elim, fun ⟨_, h, _⟩ => by cases h⟩
  | cons c cs ih =>
    rw [oneOf, List.foldr_cons, RegularExpression.matches'_add, Language.mem_add, ← oneOf, ih,
      List.exists_mem_cons_iff]
    rfl

theorem mem_star_oneOf {cs w : List Char} : w ∈ (oneOf cs).star.matches' ↔ ∀ c ∈ w, c ∈ cs := by
  rw [RegularExpression.matches'_star, Language.mem_kstar]
  constructor
  · rintro ⟨ws, rfl, hws⟩ c hc
    obtain ⟨v, hv, hc⟩ := List.mem_flatten.1 hc
    obtain ⟨d, hd, rfl⟩ := mem_oneOf.1 (hws v hv)
    rw [List.mem_singleton] at hc
    exact hc ▸ hd
  · intro h
    have hw : w = (w.map fun c => [c]).flatten := by
      rw [← List.flatMap_def, List.flatMap_singleton']
    refine ⟨w.map fun c => [c], hw, fun v hv => ?_⟩
    obtain ⟨c, hc, rfl⟩ := List.mem_map.1 hv
    exact mem_oneOf.2 ⟨c, h c hc, rfl⟩

theorem mem_digits {c : Char} : c ∈ digits ↔ c.isDigit := by
  have hdigit : ∀ n < 10, n.digitChar ∈ digits := by decide
  have hall : digits.all Char.isDigit = true := by decide
  refine ⟨List.all_eq_true.1 hall c, fun h => ?_⟩
  have hbounds := Numeral.digit_bounds h
  rw [← Numeral.digitChar_toNat h]
  exact hdigit _ (by omega)

theorem mem_digits_tail {c : Char} : c ∈ digits.tail ↔ c.isDigit ∧ c ≠ '0' := by
  have htail : (digits.tail.all fun d => d ≠ '0') = true := by decide
  rw [← mem_digits]
  refine ⟨fun h => ⟨List.mem_of_mem_tail h, ?_⟩, fun ⟨hc, hne⟩ => ?_⟩
  · simpa using List.all_eq_true.1 htail c h
  rcases List.mem_cons.1 hc with h | h
  · exact absurd h hne
  · exact h

theorem mem_positivePattern {w : List Char} :
    w ∈ positivePattern.matches' ↔ Numeral.Canonical w ∧ w.head? ≠ some '0' := by
  rw [positivePattern, RegularExpression.matches'_mul, Language.mem_mul]
  constructor
  · rintro ⟨first, hfirst, rest, hrest, rfl⟩
    obtain ⟨c, hc, rfl⟩ := mem_oneOf.1 hfirst
    obtain ⟨hdigit, hzero⟩ := mem_digits_tail.1 hc
    have hne : ([c] ++ rest).head? ≠ some '0' := by simpa using hzero
    refine ⟨⟨by simp, ?_, fun h => absurd h hne⟩, hne⟩
    rw [List.singleton_append, List.forall_mem_cons]
    exact ⟨hdigit, fun d hd => mem_digits.1 (mem_star_oneOf.1 hrest d hd)⟩
  · rintro ⟨h, hne⟩
    rcases w with _ | ⟨c, cs⟩
    · exact absurd rfl h.ne_nil
    · have hdigits := List.forall_mem_cons.1 h.digits
      refine ⟨[c], mem_oneOf.2 ⟨c, mem_digits_tail.2 ⟨hdigits.1, ?_⟩, rfl⟩, cs,
        mem_star_oneOf.2 fun d hd => mem_digits.2 (hdigits.2 d hd), rfl⟩
      simpa using hne

theorem mem_numberPattern {w : List Char} : w ∈ numberPattern.matches' ↔ Numeral.Canonical w := by
  rw [numberPattern, RegularExpression.matches'_add, Language.mem_add, mem_positivePattern]
  constructor
  · rintro (h | h)
    · obtain rfl : w = ['0'] := h
      exact Numeral.canonical_toDigits 0
    · exact h.1
  · intro h
    by_cases hz : w.head? = some '0'
    · left
      have hlen := h.leading hz
      rcases w with _ | ⟨c, cs⟩
      · cases hz
      · rw [List.length_cons, Nat.add_eq_right, List.length_eq_zero_iff] at hlen
        cases hz
        rw [hlen]
        rfl
    · exact .inr ⟨h, hz⟩

theorem Position.toList_display (p : Position) :
    p.display.toList = Nat.toDigits 10 p.line ++ '@' :: Nat.toDigits 10 p.byte := by
  have hs : ∀ s : String, toString s = s := fun _ => rfl
  simp [display, hs]

theorem length_toDigits_le {n : ℕ} (h : n ≤ u64Max) : (Nat.toDigits 10 n).length ≤ 20 := by
  rw [Nat.length_toDigits_le_iff (by decide) (by decide)]
  exact Nat.lt_of_le_of_lt h (by decide)

/-- **Positions have one canonical form**: what is accepted is what the pattern says, up to the
    largest numbers, and how the position is written. -/
theorem Position.token_canonical :
    (∀ p : Position, fromStr p.display = .ok p) ∧
    (∀ s : String, (∃ p, fromStr s = .ok p) ↔
      ∃ line ∈ positivePattern.matches', ∃ byte ∈ numberPattern.matches',
        s.toList = line ++ '@' :: byte ∧ Numeral.value line ≤ u64Max ∧ Numeral.value byte ≤ u64Max) ∧
    (∀ s p, fromStr s = .ok p → p.display = s ∧ s.toList ∈ positionPattern.matches' ∧
      3 ≤ s.length ∧ s.length ≤ 41) ∧
    ∀ s t p, fromStr s = .ok p → fromStr t = .ok p → s = t := by
  have hpattern : ∀ p : Position, Nat.toDigits 10 p.line ∈ positivePattern.matches' := fun p =>
    mem_positivePattern.2 ⟨Numeral.canonical_toDigits _,
      Numeral.head_toDigits _ (Nat.pos_of_ne_zero p.line_ne)⟩
  have hnumber : ∀ n, Nat.toDigits 10 n ∈ numberPattern.matches' := fun n =>
    mem_numberPattern.2 (Numeral.canonical_toDigits n)
  refine ⟨fun p => fromStr_eq_ok.2 rfl, fun s => ⟨?_, ?_⟩, ?_, ?_⟩
  · rintro ⟨p, hp⟩
    obtain rfl := fromStr_eq_ok.1 hp
    refine ⟨_, hpattern p, _, hnumber p.byte, p.toList_display, ?_, ?_⟩
    · rw [Numeral.value_toDigits]; exact p.line_le
    · rw [Numeral.value_toDigits]; exact p.byte_le
  · rintro ⟨line, hline, byte, hbyte, hs, hl, hb⟩
    obtain ⟨hcanonical, hzero⟩ := mem_positivePattern.1 hline
    have hcanonical' := mem_numberPattern.1 hbyte
    have hne : Numeral.value line ≠ 0 := by
      intro h0
      rw [hcanonical.eq_toDigits, h0] at hzero
      exact hzero rfl
    let p : Position := ⟨Numeral.value line, Numeral.value byte, hne, hl, hb⟩
    refine ⟨p, fromStr_eq_ok.2 (String.toList_inj.1 ?_)⟩
    rw [hs, p.toList_display, ← hcanonical.eq_toDigits, ← hcanonical'.eq_toDigits]
  · intro s p hp
    obtain rfl := fromStr_eq_ok.1 hp
    have hline := length_toDigits_le p.line_le
    have hbyte := length_toDigits_le p.byte_le
    have hline' := Nat.length_toDigits_pos (b := 10) (n := p.line)
    have hbyte' := Nat.length_toDigits_pos (b := 10) (n := p.byte)
    have hlength : p.display.length =
        (Nat.toDigits 10 p.line).length + ((Nat.toDigits 10 p.byte).length + 1) := by
      rw [← String.length_toList, p.toList_display, List.length_append, List.length_cons]
    refine ⟨rfl, ?_, by omega, by omega⟩
    rw [p.toList_display, positionPattern, RegularExpression.matches'_mul,
      RegularExpression.matches'_mul, Language.mem_mul]
    refine ⟨Nat.toDigits 10 p.line ++ ['@'], ?_, _, hnumber p.byte, by simp⟩
    exact Language.mem_mul.2 ⟨_, hpattern p, ['@'], rfl, rfl⟩
  · intro s t p hs ht
    rw [fromStr_eq_ok.1 hs, fromStr_eq_ok.1 ht]

/-! ## Snapshot identities -/

/-- A lowercase digit in bytes. -/
def hexByte (n : ℕ) : UInt8 := asciiByte (hexDigit n)

theorem hexValue_hexByte : ∀ n < 16, hexValue (hexByte n) = some n ∧ isLowerHex (hexByte n) = true ∧
    hexByte n ≠ 43 := by
  decide

theorem exists_hexByte {b : UInt8} (h : isLowerHex b = true) : ∃ n, n < 16 ∧ hexByte n = b := by
  have hbytes : ∀ n < 16, (hexByte n).toNat = if n < 10 then 48 + n else 87 + n := by decide
  rcases Bool.or_eq_true_iff.1 h with h | h
  · have hdigit : 48 ≤ b.toNat ∧ b.toNat ≤ 57 := of_decide_eq_true h
    refine ⟨b.toNat - 48, by omega, UInt8.toNat_inj.1 ?_⟩
    rw [hbytes _ (by omega), if_pos (by omega)]
    omega
  · have hletter : 97 ≤ b.toNat ∧ b.toNat ≤ 102 := by simpa using h
    refine ⟨b.toNat - 87, by omega, UInt8.toNat_inj.1 ?_⟩
    rw [hbytes _ (by omega), if_neg (by omega)]
    omega

theorem le_read (ds : List ℕ) (a : ℕ) : a ≤ Numeral.read 16 ds a := by
  rw [Numeral.read_eq]
  exact Nat.le_trans (Nat.le_mul_of_pos_left a (Nat.pow_pos (by decide))) (Nat.le_add_right _ _)

/-- The loop reads what fits. -/
theorem hexLoop_digits {ds : List ℕ} (hds : ∀ d ∈ ds, d < 16) : ∀ {value},
    Numeral.read 16 ds value < 2 ^ 128 →
    hexLoop (ds.map hexByte) value = some (Numeral.read 16 ds value) := by
  induction ds with
  | nil => intro value _; rfl
  | cons d ds ih =>
    intro value hfit
    obtain ⟨hvalue, -, -⟩ := hexValue_hexByte d (hds d List.mem_cons_self)
    rw [Numeral.read_cons] at hfit ⊢
    have hnext : 16 * value + d < 2 ^ 128 := Nat.lt_of_le_of_lt (le_read _ _) hfit
    rw [List.map_cons, hexLoop, List.foldlM_cons, hvalue]
    change (if 16 * value + d < 2 ^ 128 then _ else _ : Option ℕ).bind _ = _
    rw [if_pos hnext]
    exact ih (fun e he => hds e (List.mem_cons_of_mem _ he)) hfit

theorem u128FromHex_digits {ds : List ℕ} (hds : ∀ d ∈ ds, d < 16) (hlen : ds.length = 32) :
    u128FromHex (ds.map hexByte) = some (Numeral.read 16 ds 0) := by
  have hfit : Numeral.read 16 ds 0 < 2 ^ 128 := by
    have hlt := Numeral.read_lt hds
    rw [hlen] at hlt
    exact hlt
  rw [← hexLoop_digits hds hfit]
  rcases ds with _ | ⟨d, ds⟩
  · cases hlen
  · obtain ⟨-, -, hsign⟩ := hexValue_hexByte d (hds d List.mem_cons_self)
    rw [List.map_cons]
    unfold u128FromHex
    split
    · rename_i h; cases h
    · rename_i h
      exact absurd (List.cons.inj h).1 hsign
    · rename_i h
      exact absurd (List.cons.inj h).1 hsign
    · rfl

/-- The digits of an identity. -/
def SnapshotId.digits (id : SnapshotId) : List ℕ := Numeral.fixed 16 32 id.value.toNat

theorem SnapshotId.digits_lt (id : SnapshotId) : ∀ d ∈ id.digits, d < 16 := by
  intro d hd
  obtain ⟨k, -, rfl⟩ := List.mem_map.1 hd
  exact Nat.mod_lt _ (by decide)

theorem SnapshotId.toList_display (id : SnapshotId) : id.display.toList = id.digits.map hexDigit := by
  rw [display, String.toList_ofList, digits, Numeral.fixed, List.map_map]
  rfl

theorem SnapshotId.utf8_display (id : SnapshotId) : utf8 id.display = id.digits.map hexByte := by
  rw [utf8_of_ascii id.display_ascii, toList_display, List.map_map]
  rfl

/-- The identity digits are read as has these digits. -/
theorem SnapshotId.digits_read {ds : List ℕ} (hds : ∀ d ∈ ds, d < 16) (hlen : ds.length = 32) :
    SnapshotId.digits ⟨BitVec.ofNat 128 (Numeral.read 16 ds 0)⟩ = ds := by
  have hlt : Numeral.read 16 ds 0 < 2 ^ 128 := by
    have hlt := Numeral.read_lt hds
    rw [hlen] at hlt
    exact hlt
  rw [digits, BitVec.toNat_ofNat, Nat.mod_eq_of_lt hlt, ← hlen, Numeral.fixed_read hds]

/-- **An identity is read exactly from how it is written.** -/
theorem SnapshotId.fromStr_eq_ok {input : String} {id : SnapshotId} :
    fromStr input = .ok id ↔ input = id.display := by
  unfold fromStr
  dsimp only
  constructor
  · intro h
    split_ifs at h with hlen hall
    · cases h
    · obtain ⟨ds, hds, hinput⟩ := exists_map_of_forall fun b hb =>
        exists_hexByte (List.all_eq_true.1 (by simpa using hall) b hb)
      have hlength : ds.length = 32 := by
        rw [← List.length_map (f := hexByte), ← hinput]
        simpa [snapshotIdHexLen] using hlen
      rw [hinput, u128FromHex_digits hds hlength] at h
      cases h
      refine utf8_inj ?_
      rw [utf8_display, digits_read hds hlength, hinput]
    · cases h
  · rintro rfl
    have hall : (utf8 id.display).all isLowerHex = true := by
      rw [utf8_display, List.all_map, List.all_eq_true]
      exact fun d hd => (hexValue_hexByte d (id.digits_lt d hd)).2.1
    have hfull : 16 ^ 32 * 0 + id.value.toNat % 16 ^ 32 = id.value.toNat := by
      rw [Nat.mul_zero, Nat.zero_add]
      exact Nat.mod_eq_of_lt id.value.isLt
    have hlen : (utf8 id.display).length = snapshotIdHexLen := id.length_display
    rw [if_neg (not_not.2 hlen), if_neg (not_not.2 hall), utf8_display,
      u128FromHex_digits id.digits_lt (by rw [digits, Numeral.length_fixed]), digits,
      Numeral.read_fixed, hfull]
    change Except.ok (⟨BitVec.ofNat 128 id.value.toNat⟩ : SnapshotId) = _
    rw [BitVec.ofNat_toNat, BitVec.setWidth_eq]

/-! ### Preconditions -/

theorem WriteExpect.fromStr_eq_ok {input : String} {expect : WriteExpect} :
    fromStr input = .ok expect ↔ input = expect.display := by
  have hlength : ∀ id : SnapshotId, "absent" ≠ id.display := by
    intro id h
    have hlen := id.length_display
    rw [← h, length_utf8] at hlen
    exact absurd hlen (by decide)
  unfold fromStr
  split_ifs with habsent
  · rw [habsent]
    cases expect with
    | absent => exact ⟨fun _ => rfl, fun _ => rfl⟩
    | snapshot id =>
      refine ⟨fun h => ?_, fun h => absurd h (hlength id)⟩
      cases h
  · rw [Exec.bind_eq_ok]
    constructor
    · rintro ⟨id, hid, ⟨⟩⟩
      exact SnapshotId.fromStr_eq_ok.1 (Exec.mapErr_eq_ok.1 hid)
    · rintro rfl
      cases expect with
      | absent => exact absurd rfl habsent
      | snapshot id => exact ⟨id, Exec.mapErr_eq_ok.2 (SnapshotId.fromStr_eq_ok.2 rfl), rfl⟩

/-- `[0-9a-f]`. -/
def lowerHexDigits : List Char := digits ++ ['a', 'b', 'c', 'd', 'e', 'f']

theorem mem_lowerHexDigits {c : Char} : c ∈ lowerHexDigits ↔ ∃ n, n < 16 ∧ hexDigit n = c := by
  have hdigits : lowerHexDigits = (List.range 16).map hexDigit := by decide
  rw [hdigits, List.mem_map]
  simp only [List.mem_range]

/-- The texts of 32 bytes that are lowercase digits are the written identities. -/
theorem SnapshotId.exists_display {s : String} :
    (∃ id : SnapshotId, s = id.display) ↔ (utf8 s).length = 32 ∧ ∀ c ∈ s.toList, c ∈ lowerHexDigits := by
  constructor
  · rintro ⟨id, rfl⟩
    refine ⟨id.length_display, fun c hc => ?_⟩
    rw [toList_display] at hc
    obtain ⟨d, hd, rfl⟩ := List.mem_map.1 hc
    exact mem_lowerHexDigits.2 ⟨d, id.digits_lt d hd, rfl⟩
  · rintro ⟨hlen, hall⟩
    obtain ⟨ds, hds, hs⟩ := exists_map_of_forall fun c hc => mem_lowerHexDigits.1 (hall c hc)
    have hascii : ∀ c ∈ s.toList, c.val ≤ 127 := by
      intro c hc
      obtain ⟨n, hn, rfl⟩ := mem_lowerHexDigits.1 (hall c hc)
      exact UInt32.le_iff_toNat_le.2 (Nat.le_trans (hexDigit_ascii n hn).2 (by decide))
    rw [utf8_of_ascii hascii, List.length_map, hs, List.length_map] at hlen
    refine ⟨⟨BitVec.ofNat 128 (Numeral.read 16 ds 0)⟩, String.toList_inj.1 ?_⟩
    rw [toList_display, digits_read hds hlen, hs]

/-- **Identities and preconditions have one form on the wire**, and the word for an absent file is
    no identity. -/
theorem WriteExpect.tokens_canonical :
    (∀ id : SnapshotId, id.display.length = 32 ∧ (∀ c ∈ id.display.toList, c ∈ lowerHexDigits) ∧
      SnapshotId.fromStr id.display = .ok id) ∧
    (∀ s : String, (∃ id, SnapshotId.fromStr s = .ok id) ↔
      (utf8 s).length = 32 ∧ ∀ c ∈ s.toList, c ∈ lowerHexDigits) ∧
    (∀ s id, SnapshotId.fromStr s = .ok id → id.display = s) ∧
    (∀ s : String, (∃ expect, fromStr s = .ok expect) ↔
      s = "absent" ∨ (utf8 s).length = 32 ∧ ∀ c ∈ s.toList, c ∈ lowerHexDigits) ∧
    (∀ s expect, fromStr s = .ok expect ↔ expect.display = s) ∧
    ∀ s id, ¬(absent.display = s ∧ (snapshot id).display = s) := by
  refine ⟨fun id => ⟨?_, (SnapshotId.exists_display.1 ⟨id, rfl⟩).2, SnapshotId.fromStr_eq_ok.2 rfl⟩,
    fun s => ?_, fun s id h => (SnapshotId.fromStr_eq_ok.1 h).symm, fun s => ?_,
    fun s expect => fromStr_eq_ok.trans eq_comm, ?_⟩
  · rw [← String.length_toList, SnapshotId.toList_display, List.length_map, SnapshotId.digits,
      Numeral.length_fixed]
  · simp only [SnapshotId.fromStr_eq_ok, SnapshotId.exists_display]
  · simp only [fromStr_eq_ok]
    rw [← SnapshotId.exists_display]
    constructor
    · rintro ⟨expect, rfl⟩
      cases expect with
      | absent => exact .inl rfl
      | snapshot id => exact .inr ⟨id, rfl⟩
    · rintro (rfl | ⟨id, rfl⟩)
      · exact ⟨absent, rfl⟩
      · exact ⟨snapshot id, rfl⟩
  · rintro s id ⟨habsent, hid⟩
    have h := (fromStr_eq_ok.2 habsent.symm).symm.trans (fromStr_eq_ok.2 hid.symm)
    cases h

end Hashline
