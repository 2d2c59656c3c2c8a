/-
  Snapshots: validated bytes with their identity, and compact line offsets
  that are built when first used.
-/
import Hashline.Stamp
import Hashline.Text

namespace Hashline

open Machine

/-! ## Validated text -/

/-- Owned text that has passed the complete file policy. -/
structure ValidatedText where
  bytes : Bytes
  isText : IsText bytes

instance (bytes : Bytes) : Decidable (IsText bytes) :=
  decidable_of_iff (bytes.length ≤ maxFileBytes ∧ (0 : UInt8) ∉ bytes ∧ Utf8.Valid bytes)
    ⟨fun h => ⟨h.1, h.2.1, h.2.2⟩, fun h => ⟨h.size, h.nul, h.utf8⟩⟩

theorem isText_nil : IsText [] := by decide

namespace ValidatedText

def tryFromBytes (bytes : Bytes) : Exec ContractError ValidatedText :=
  if hs : bytes.length ≤ maxFileBytes then
    match hn : nulPosition bytes with
    | some byte => Exec.fail (.nulFile byte)
    | none => match hv : Utf8.validUpTo bytes with
      | some n => Exec.fail (.invalidUtf8 n)
      | none => .ok ⟨bytes, hs, nulPosition_eq_none.1 hn, Utf8.validUpTo_eq_none.1 hv⟩
  else Exec.fail (.fileTooLarge bytes.length)

/-- `from_bytes_unchecked`: bytes that are no text break its contract, here a panic. -/
def fromBytesUnchecked {ε : Type} (bytes : Bytes) : Exec ε ValidatedText :=
  if h : IsText bytes then .ok ⟨bytes, h⟩ else Exec.panic

@[simp] theorem tryFromBytes_eq_ok {bytes : Bytes} {text : ValidatedText} :
    tryFromBytes bytes = .ok text ↔ text.bytes = bytes := by
  obtain ⟨tb, ht⟩ := text
  constructor
  · unfold tryFromBytes
    split
    · split
      · simp
      · split
        · simp
        · rintro ⟨⟩; rfl
    · simp
  · rintro rfl
    have hn := nulPosition_eq_none.2 ht.nul
    have hv := Utf8.validUpTo_eq_none.2 ht.utf8
    rw [tryFromBytes, dif_pos ht.size]
    split
    · rename_i h; rw [hn] at h; cases h
    · split
      · rename_i h; rw [hv] at h; cases h
      · rfl

theorem tryFromBytes_nul {bytes : Bytes} (h : bytes.length ≤ maxFileBytes) {byte : ℕ}
    (hn : nulPosition bytes = some byte) : tryFromBytes bytes = Exec.fail (.nulFile byte) := by
  rw [tryFromBytes, dif_pos h]
  split
  · rename_i he; rw [hn] at he; cases he; rfl
  · rename_i he; rw [hn] at he; cases he

theorem tryFromBytes_invalid {bytes : Bytes} (h : bytes.length ≤ maxFileBytes)
    (hn : nulPosition bytes = none) {n : ℕ} (hv : Utf8.validUpTo bytes = some n) :
    tryFromBytes bytes = Exec.fail (.invalidUtf8 n) := by
  rw [tryFromBytes, dif_pos h]
  split
  · rename_i he; rw [hn] at he; cases he
  · split
    · rename_i he; rw [hv] at he; cases he; rfl
    · rename_i he; rw [hv] at he; cases he

theorem noPanic_tryFromBytes {bytes : Bytes} : (tryFromBytes bytes).NoPanic := by
  unfold tryFromBytes
  split
  · split
    · exact Exec.noPanic_fail _
    · split
      · exact Exec.noPanic_fail _
      · exact Exec.noPanic_ok _
  · exact Exec.noPanic_fail _

end ValidatedText

/-! ## Line offsets -/

/-- Storage width of the offsets. -/
inductive OffsetKind where
  | u32
  | u64
  deriving DecidableEq, Repr

def OffsetKind.forByteLen (byteLen : ℕ) : OffsetKind := if byteLen ≤ u32Max then u32 else u64

/-- Failure while materializing line offsets. -/
inductive OffsetError where
  | capacity (lines : ℕ)
  | offsetWidth (offset : ℕ) (kind : OffsetKind)
  | lineCountMismatch (expected actual : ℕ)
  | addressInvariant
  deriving DecidableEq, Repr

inductive LineOffsets where
  | u32 (offsets : List UInt32)
  | u64 (offsets : List UInt64)
  deriving DecidableEq

/-- `memchr_iter(b'\n', ..)`, the first byte being at `index`. -/
def newlinePositions : ℕ → Bytes → List ℕ
  | _, [] => []
  | index, b :: bs =>
    if b = lf then index :: newlinePositions (index + 1) bs else newlinePositions (index + 1) bs

/-- `u32::try_from`. -/
def toU32 (n : ℕ) : Option UInt32 := if n ≤ u32Max then some (UInt32.ofNat n) else none

/-- `u64::try_from`. -/
def toU64 (n : ℕ) : Option UInt64 := if n ≤ u64Max then some (UInt64.ofNat n) else none

/-- One arm of `build_with_kind`: `granted` tells whether the allocator grants the vector. -/
def offsetVector {β : Type} (zero : β) (convert : ℕ → Option β) (granted : Bool) (text : Bytes)
    (lineCount : ℕ) (kind : OffsetKind) : Exec OffsetError (List β) :=
  if granted then do
    let rest ← (newlinePositions 0 text).mapM fun newline => do
      let start ← Exec.okOr (.offsetWidth newline kind) (checkedAdd newline 1)
      Exec.okOr (.offsetWidth start kind) (convert start)
    let offsets := zero :: rest
    if offsets.length ≠ lineCount then Exec.fail (.lineCountMismatch lineCount offsets.length)
    else .ok offsets
  else Exec.fail (.capacity lineCount)

namespace LineOffsets

def buildWithKind (granted : Bool) (text : Bytes) (lineCount : ℕ) :
    OffsetKind → Exec OffsetError LineOffsets
  | .u32 => do .ok (.u32 (← offsetVector 0 toU32 granted text lineCount .u32))
  | .u64 => do .ok (.u64 (← offsetVector 0 toU64 granted text lineCount .u64))

def build (granted : Bool) (text : Bytes) (lineCount byteLen : ℕ) : Exec OffsetError LineOffsets :=
  buildWithKind granted text lineCount (OffsetKind.forByteLen byteLen)

def get : LineOffsets → ℕ → Option ℕ
  | u32 offsets, index => offsets[index]?.map UInt32.toNat
  | u64 offsets, index => offsets[index]?.map UInt64.toNat

end LineOffsets

/-! ## Snapshots -/

inductive IoErrorKind where
  | notFound
  | permissionDenied
  | alreadyExists
  | interrupted
  | other
  deriving DecidableEq, Repr

/-- An operating-system error: its kind and its text. -/
structure IoError where
  kind : IoErrorKind
  text : String
  deriving DecidableEq, Repr

/-- Errors raised while constructing or addressing a snapshot. -/
inductive SnapshotError where
  | io (operation path : String) (source : IoError)
  | contract (error : ContractError)
  | concurrentModification (path : String)
  | allocation (bytes : ℕ)
  | lineCountOverflow
  | offsets (error : OffsetError)
  deriving DecidableEq

/-- An I/O error of the kind that says there is no file. -/
def SnapshotError.isNotFound : SnapshotError → Bool
  | .io _ _ source => source.kind = .notFound
  | _ => false

namespace OffsetError

def display : OffsetError → String
  | capacity lines => s!"could not reserve offsets for {lines} logical lines"
  | offsetWidth offset .u32 => s!"byte offset {offset} does not fit U32 line metadata"
  | offsetWidth offset .u64 => s!"byte offset {offset} does not fit U64 line metadata"
  | lineCountMismatch expected actual =>
    s!"expected {expected} line offsets but materialized {actual}"
  | addressInvariant => "validated line offset is outside the addressable text"

end OffsetError

/-- `snapshot_protocol_error`: the taxonomy error of a failed snapshot operation. -/
def snapshotProtocolError (operation path : String) : SnapshotError → ProtocolError
  | .contract error => .ofContract error
  | .io ioOperation ioPath source =>
    .new (if source.kind = .notFound then .notFound else .io)
      s!"Failed to {ioOperation} {ioPath}: {source.text}"
  | .concurrentModification changed =>
    .new .io s!"file changed during both snapshot read attempts: {changed}"
  | .allocation bytes => .new .io
      s!"Failed to {operation} {path}: could not reserve {bytes} bytes for snapshot text"
  | .lineCountOverflow =>
    .new .io s!"Failed to {operation} {path}: snapshot logical line count overflowed"
  | .offsets error => .new .io s!"Failed to {operation} {path}: {error.display}"

/-- Validated bytes, their identity under `contentId`, and the metadata derived from them. -/
structure Snapshot (contentId : Bytes → SnapshotId) where
  text : ValidatedText
  id : SnapshotId
  stamp : Option FileStamp
  byteLen : ℕ
  lineCount : ℕ
  id_eq : id = contentId text.bytes
  byteLen_eq : byteLen = text.bytes.length
  lineCount_eq : lineCount = text.bytes.count lf + 1

namespace Snapshot
variable {contentId : Bytes → SnapshotId}

def bytes (s : Snapshot contentId) : Bytes := s.text.bytes

def fromValidatedWithStamp (text : ValidatedText) (stamp : Option FileStamp) :
    Exec SnapshotError (Snapshot contentId) :=
  match h : checkedAdd (text.bytes.count lf) 1 with
  | none => Exec.fail .lineCountOverflow
  | some lineCount => .ok
    { text, stamp, lineCount
      id := contentId text.bytes
      byteLen := text.bytes.length
      id_eq := rfl
      byteLen_eq := rfl
      lineCount_eq := (checkedAdd_eq_some.1 h).1.symm }

def fromValidated (text : ValidatedText) : Exec SnapshotError (Snapshot contentId) :=
  fromValidatedWithStamp text none

def fromBytes (bytes : Bytes) : Exec SnapshotError (Snapshot contentId) := do
  let text ← (ValidatedText.tryFromBytes bytes).mapErr .contract
  fromValidated text

def fromValidatedBytes (bytes : Bytes) : Exec SnapshotError (Snapshot contentId) := do
  (validateFileSize bytes.length).mapErr .contract
  let text ← ValidatedText.fromBytesUnchecked bytes
  fromValidated text

def withStamp (s : Snapshot contentId) (stamp : FileStamp) : Snapshot contentId :=
  { s with stamp := some stamp }

/-- The offsets, as the first use builds them and later uses find them: `granted` is what the
    allocator answered that first use. -/
def offsets (granted : Bool) (s : Snapshot contentId) : Exec SnapshotError LineOffsets :=
  (LineOffsets.build granted s.bytes s.lineCount s.byteLen).mapErr .offsets

def lineStart (granted : Bool) (s : Snapshot contentId) (line : ℕ) :
    Exec SnapshotError (Option ℕ) :=
  match checkedSub line 1 with
  | none => .ok none
  | some index => do
    let offsets ← s.offsets granted
    .ok (offsets.get index)

def boundaryOrdinal (granted : Bool) (s : Snapshot contentId) (position : Position) :
    Exec SnapshotError ℕ := do
  let offsets ← s.offsets granted
  if position.line ≤ s.lineCount then
    let index ← Exec.okOr (.offsets .addressInvariant) (checkedSub position.line 1)
    if offsets.get index = some position.byte then .ok index
    else Exec.fail (.contract (.invalidPosition position))
  else if checkedAdd s.lineCount 1 = some position.line ∧ position.byte = s.byteLen then
    .ok s.lineCount
  else Exec.fail (.contract (.invalidPosition position))

def validateBoundary (granted : Bool) (s : Snapshot contentId) (position : Position) :
    Exec SnapshotError Unit := do
  let _ ← s.boundaryOrdinal granted position
  .ok ()

theorem isText (s : Snapshot contentId) : IsText s.bytes := s.text.isText

theorem lineCount_eq' (s : Snapshot contentId) : s.lineCount = Hashline.lineCount s.bytes := by
  rw [Hashline.lineCount_eq]; exact s.lineCount_eq

end Snapshot

/-! ## What the offsets hold -/

theorem newlinePositions_eq (bytes : Bytes) : ∀ index, index + bytes.length ≤ u64Max →
    (newlinePositions index bytes).map (· + 1) = lineStartsFrom index bytes := by
  induction bytes with
  | nil => intro _ _; rfl
  | cons b bs ih =>
    intro index h
    rw [List.length_cons] at h
    rw [newlinePositions, lineStartsFrom]
    split_ifs
    · rw [List.map_cons, ih _ (by omega), saturatingAdd_of_le (by omega)]
    · exact ih _ (by omega)

theorem newlinePositions_lt (bytes : Bytes) : ∀ index, ∀ p ∈ newlinePositions index bytes,
    p < index + bytes.length := by
  induction bytes with
  | nil => intro _ p hp; cases hp
  | cons b bs ih =>
    intro index p hp
    rw [newlinePositions] at hp
    rw [List.length_cons]
    split_ifs at hp
    · rcases List.mem_cons.1 hp with rfl | hp
      · omega
      · have := ih _ p hp; omega
    · have := ih _ p hp; omega

/-- A granted vector that is wide enough holds the reference starts. -/
theorem offsetVector_eq {β : Type} (of : ℕ → β) (convert : ℕ → Option β) (toNat : β → ℕ)
    (kind : OffsetKind) {text : Bytes} (hs : text.length ≤ maxFileBytes)
    (hc : ∀ n ≤ text.length, convert n = some (of n)) (ht : ∀ n ≤ text.length, toNat (of n) = n) :
    ∃ offsets, offsetVector (of 0) convert true text (lineCount text) kind = .ok offsets ∧
      offsets.map toNat = referenceLineStarts text := by
  have hu := add_two_le_u64Max hs
  have hstarts := newlinePositions_eq text 0 (by omega)
  have hmap : (newlinePositions 0 text).mapM (fun newline => do
      let start ← Exec.okOr (OffsetError.offsetWidth newline kind) (checkedAdd newline 1)
      Exec.okOr (.offsetWidth start kind) (convert start)) =
      .ok ((newlinePositions 0 text).map fun p => of (p + 1)) := by
    refine Exec.mapM_eq_ok fun p hp => ?_
    have hlt := newlinePositions_lt text 0 p hp
    rw [checkedAdd, if_pos (by omega)]
    show Exec.okOr _ (convert (p + 1)) = _
    rw [hc (p + 1) (by omega)]; rfl
  refine ⟨of 0 :: (newlinePositions 0 text).map fun p => of (p + 1), ?_, ?_⟩
  · have hlen : (newlinePositions 0 text).length + 1 = lineCount text := by
      rw [← length_referenceLineStarts hs, referenceLineStarts, ← hstarts, List.length_cons,
        List.length_map]
    rw [offsetVector, if_pos rfl, hmap]
    show (if (of 0 :: (newlinePositions 0 text).map fun p => of (p + 1)).length ≠ lineCount text then _
      else _) = _
    rw [if_neg (by rw [List.length_cons, List.length_map, hlen]; simp)]
  · rw [List.map_cons, List.map_map, ht 0 (Nat.zero_le _), referenceLineStarts, ← hstarts]
    congr 1
    refine List.map_congr_left fun p hp => ?_
    have hlt := newlinePositions_lt text 0 p hp
    exact ht _ (by omega)

theorem toU32_eq {n : ℕ} (h : n ≤ u32Max) :
    toU32 n = some (UInt32.ofNat n) ∧ (UInt32.ofNat n).toNat = n := by
  refine ⟨by rw [toU32, if_pos h], ?_⟩
  simp only [u32Max] at h
  rw [UInt32.toNat_ofNat']; omega

theorem toU64_eq {n : ℕ} (h : n ≤ u64Max) :
    toU64 n = some (UInt64.ofNat n) ∧ (UInt64.ofNat n).toNat = n := by
  refine ⟨by rw [toU64, if_pos h], ?_⟩
  simp only [u64Max] at h
  rw [UInt64.toNat_ofNat']; omega

/-- **Built offsets are the reference starts**, in either width. -/
theorem LineOffsets.build_granted {text : Bytes} (hs : text.length ≤ maxFileBytes) :
    ∃ offsets, LineOffsets.build true text (lineCount text) text.length = .ok offsets ∧
      ∀ index, offsets.get index = (referenceLineStarts text)[index]? := by
  have hu := add_two_le_u64Max hs
  unfold LineOffsets.build OffsetKind.forByteLen
  split_ifs with h32
  · obtain ⟨offsets, hv, hm⟩ := offsetVector_eq UInt32.ofNat toU32 UInt32.toNat .u32 hs
      (fun n hn => (toU32_eq (by omega)).1)
      fun n hn => (toU32_eq (by omega)).2
    refine ⟨.u32 offsets, ?_, fun index => ?_⟩
    · rw [LineOffsets.buildWithKind]; exact congrArg (· >>= _) hv
    · rw [LineOffsets.get, ← hm, List.getElem?_map]
  · obtain ⟨offsets, hv, hm⟩ := offsetVector_eq UInt64.ofNat toU64 UInt64.toNat .u64 hs
      (fun n hn => (toU64_eq (by omega)).1)
      fun n hn => (toU64_eq (by omega)).2
    refine ⟨.u64 offsets, ?_, fun index => ?_⟩
    · rw [LineOffsets.buildWithKind]; exact congrArg (· >>= _) hv
    · rw [LineOffsets.get, ← hm, List.getElem?_map]

theorem LineOffsets.build_refused {text : Bytes} {n m : ℕ} :
    LineOffsets.build false text n m = Exec.fail (.capacity n) := by
  unfold LineOffsets.build; cases OffsetKind.forByteLen m <;> rfl

namespace Snapshot
variable {contentId : Bytes → SnapshotId} (s : Snapshot contentId)

/-- **The offsets of a snapshot**: the reference starts, unless the allocator refuses. -/
theorem offsets_eq (granted : Bool) :
    (granted = true ∧ ∃ offsets, s.offsets granted = .ok offsets ∧
      ∀ index, offsets.get index = (referenceLineStarts s.bytes)[index]?) ∨
    (granted = false ∧ s.offsets granted = Exec.fail (.offsets (.capacity s.lineCount))) := by
  cases granted with
  | true =>
    obtain ⟨offsets, ho, hg⟩ := LineOffsets.build_granted s.isText.size
    refine .inl ⟨rfl, offsets, ?_, hg⟩
    rw [Snapshot.offsets, s.lineCount_eq', s.byteLen_eq]
    exact Exec.mapErr_eq_ok.2 ho
  | false => exact .inr ⟨rfl, by rw [Snapshot.offsets, LineOffsets.build_refused]; rfl⟩

/-- Where the allocator answers they can be built. -/
theorem offsets_granted : ∃ offsets, s.offsets true = .ok offsets ∧
    ∀ index, offsets.get index = (referenceLineStarts s.bytes)[index]? := by
  rcases s.offsets_eq true with ⟨-, hoffsets⟩ | ⟨h, -⟩
  · exact hoffsets
  · cases h

theorem lineStart_eq (granted : Bool) {line : ℕ} (h : line ≠ 0) (hl : line ≤ s.lineCount) :
    (granted = true ∧ s.lineStart granted line =
      .ok (some (Hashline.lineStart s.bytes (line - 1)))) ∨
    (granted = false ∧ ∃ e, s.lineStart granted line = Exec.fail e) := by
  have hsub : checkedSub line 1 = some (line - 1) := checkedSub_eq_some.2 ⟨by omega, rfl⟩
  rcases s.offsets_eq granted with ⟨rfl, offsets, ho, hg⟩ | ⟨rfl, ho⟩
  · refine .inl ⟨rfl, ?_⟩
    rw [Snapshot.lineStart, hsub, ho]
    show Except.ok (offsets.get (line - 1)) = _
    rw [hg, referenceLineStarts_getElem? s.isText.size, if_pos (by rw [← s.lineCount_eq']; omega)]
  · exact .inr ⟨rfl, _, by rw [Snapshot.lineStart, hsub, ho]; rfl⟩

/-- The start of a logical line is a boundary of the snapshot. -/
theorem validateBoundary_lineStart {p : Position} (hl : p.line ≤ s.lineCount)
    (hb : p.byte = Hashline.lineStart s.bytes (p.line - 1)) :
    s.validateBoundary true p = .ok () := by
  have hp := p.line_ne
  obtain ⟨offsets, ho, hg⟩ := s.offsets_granted
  have hget : offsets.get (p.line - 1) = some p.byte := by
    rw [hg, referenceLineStarts_getElem? s.isText.size, hb,
      if_pos (by rw [← s.lineCount_eq']; omega)]
  have hord : s.boundaryOrdinal true p = .ok (p.line - 1) := by
    rw [Snapshot.boundaryOrdinal, ho]
    show (if p.line ≤ s.lineCount then _ else _) = _
    rw [if_pos hl, checkedSub_eq_some.2 ⟨by omega, rfl⟩]
    show (if offsets.get (p.line - 1) = some p.byte then _ else _) = _
    rw [if_pos hget]
  rw [Snapshot.validateBoundary, hord]; rfl

/-- The header of a snapshot can be made. -/
theorem header_new (path : String) : SnapshotHeader.new path s.id s.lineCount s.byteLen =
    .ok ⟨path, s.id, s.lineCount, s.byteLen⟩ := by
  have hpos : s.lineCount ≠ 0 := by
    have hcount := lineCount_pos s.bytes
    rw [← s.lineCount_eq'] at hcount
    omega
  rw [SnapshotHeader.new, if_neg hpos]
  refine Exec.bind_eq_ok.2 ⟨(), validateFileSize_eq_ok.2 ?_, rfl⟩
  rw [s.byteLen_eq]
  exact s.isText.size

/-- The snapshot of a text. -/
def ofText (text : ValidatedText) (stamp : Option FileStamp) : Snapshot contentId where
  text := text
  id := contentId text.bytes
  stamp := stamp
  byteLen := text.bytes.length
  lineCount := text.bytes.count lf + 1
  id_eq := rfl
  byteLen_eq := rfl
  lineCount_eq := rfl

/-- No text has too many lines. -/
theorem fromValidatedWithStamp_eq (text : ValidatedText) (stamp : Option FileStamp) :
    fromValidatedWithStamp text stamp = .ok (ofText text stamp : Snapshot contentId) := by
  have hu := add_two_le_u64Max text.isText.size
  have hc := List.count_le_length (a := lf) (l := text.bytes)
  have h := (checkedAdd_eq_some (a := text.bytes.count lf) (b := 1)).2 ⟨rfl, by omega⟩
  unfold fromValidatedWithStamp
  split
  · rename_i h'; rw [h] at h'; cases h'
  · rename_i n h'
    rw [h] at h'; cases h'; rfl

theorem fromBytes_eq {bytes : Bytes} (h : IsText bytes) :
    fromBytes bytes = .ok (ofText ⟨bytes, h⟩ none : Snapshot contentId) := by
  have ht : ValidatedText.tryFromBytes bytes = .ok ⟨bytes, h⟩ :=
    ValidatedText.tryFromBytes_eq_ok.2 rfl
  rw [fromBytes, ht]
  exact fromValidatedWithStamp_eq _ _

/-- **On a text the unsafe constructor is the checked one.** -/
theorem fromValidatedBytes_eq {bytes : Bytes} (h : IsText bytes) :
    fromValidatedBytes bytes = .ok (ofText ⟨bytes, h⟩ none : Snapshot contentId) := by
  rw [fromValidatedBytes, (validateFileSize_eq_ok (u := ())).2 h.size,
    ValidatedText.fromBytesUnchecked, dif_pos h]
  exact fromValidatedWithStamp_eq _ _

end Snapshot

end Hashline
