/-
  Addressing a snapshot: its lines, boundaries and slices are those of the
  reference model, whichever width its offsets have.
-/
import Hashline.Snapshot

namespace Hashline

open Machine

/-! ## Slices -/

/-- What lies between two line starts is cut out at character boundaries. -/
theorem get_between {bytes : Bytes} (hv : Utf8.Valid bytes) {j k : ℕ} (h : j ≤ k) :
    Utf8.get bytes (lineStart bytes j) (lineStart bytes k) =
      some ((bytes.take (lineStart bytes k)).drop (lineStart bytes j)) := by
  have hlines := valid_of_mem_lines hv
  have htake := Lines.take_flatten (lines bytes) h
  set pre := ((lines bytes).take j).flatten with hpre
  set mid := (((lines bytes).take k).drop j).flatten with hmid
  set post := ((lines bytes).drop k).flatten with hpost
  have hbytes : bytes = pre ++ mid ++ post := by
    rw [← htake, hpost, ← List.flatten_append, List.take_append_drop, flatten_lines]
  have hvpre : Utf8.Valid pre :=
    Utf8.Valid.flatten fun l hl => hlines l (List.mem_of_mem_take hl)
  have hvmid : Utf8.Valid mid :=
    Utf8.Valid.flatten fun l hl => hlines l (List.mem_of_mem_take (List.mem_of_mem_drop hl))
  have hj : lineStart bytes j = pre.length := rfl
  have hk : lineStart bytes k = pre.length + mid.length := by
    rw [lineStart, Lines.start, htake, List.length_append]
  have hget := Utf8.get_of_valid hvpre hvmid (by rw [← hbytes]; exact hv)
  rw [← hbytes] at hget
  rw [hj, hk, hget]
  conv_rhs => rw [hbytes]
  rw [← List.length_append, List.take_left, List.drop_left]

namespace Snapshot
variable {contentId : Bytes → SnapshotId}

/-- The exact text between two boundaries. -/
def slice (granted : Bool) (s : Snapshot contentId) (start end_ : Position) :
    Exec SnapshotError Bytes := do
  let startOrdinal ← s.boundaryOrdinal granted start
  let endOrdinal ← s.boundaryOrdinal granted end_
  if startOrdinal > endOrdinal then Exec.fail (.contract (.reversedRange start end_))
  else Exec.okOr (.offsets .addressInvariant) (Utf8.get s.bytes start.byte end_.byte)

section
variable (s : Snapshot contentId)

/-- **The offsets decide boundaries as the reference starts do.** -/
theorem boundaryOrdinal_eq (p : Position) : s.boundaryOrdinal true p =
    (Hashline.boundaryOrdinal s.bytes (referenceLineStarts s.bytes) p).mapErr .contract := by
  have hp := p.line_ne
  have hu := add_two_le_u64Max s.isText.size
  have hcount := lineCount_le s.bytes
  have hlen := length_referenceLineStarts s.isText.size
  obtain ⟨offsets, ho, hg⟩ := s.offsets_granted
  rw [Snapshot.boundaryOrdinal, ho]
  simp only [Exec.ok_bind, Hashline.boundaryOrdinal, hlen, hg, s.lineCount_eq']
  split_ifs with hline h₁ h₂ h₃ h₄
  · rw [checkedSub_eq_some.2 ⟨by omega, rfl⟩]
    simp only [Exec.okOr, Exec.ok_bind, if_pos h₁]; rfl
  · rw [checkedSub_eq_some.2 ⟨by omega, rfl⟩]
    simp only [Exec.okOr, Exec.ok_bind, if_neg h₁]; rfl
  · rfl
  · rw [checkedAdd_eq_some.2 ⟨rfl, by omega⟩, Option.some.injEq, s.byteLen_eq] at h₂
    exact absurd ⟨by rw [saturatingAdd_of_le (by omega)]; exact h₂.1.symm, h₂.2⟩ h₃
  · rw [saturatingAdd_of_le (by omega)] at h₄
    refine absurd ⟨?_, by rw [s.byteLen_eq]; exact h₄.2⟩ h₂
    rw [checkedAdd_eq_some.2 ⟨rfl, by omega⟩, h₄.1]
  · rfl

/-- **`validate_boundary` is the reference check.** -/
theorem validateBoundary_eq (p : Position) :
    s.validateBoundary true p = (validateReferencePosition s.bytes p).mapErr .contract := by
  rw [Snapshot.validateBoundary, boundaryOrdinal_eq, validateReferencePosition, s.isText.validate]
  show _ = Exec.mapErr _ (Hashline.boundaryOrdinal s.bytes (referenceLineStarts s.bytes) p >>= _)
  rcases Hashline.boundaryOrdinal s.bytes (referenceLineStarts s.bytes) p with (_ | _) | _ <;> rfl

/-- What the reference check answers, by boundaries. -/
theorem boundaryOrdinal_cases (p : Position) :
    (Boundary s.bytes p ∧ s.boundaryOrdinal true p = .ok (p.line - 1) ∧
      validateReferencePosition s.bytes p = .ok ()) ∨
    (¬Boundary s.bytes p ∧ s.boundaryOrdinal true p = Exec.fail (.contract (.invalidPosition p)) ∧
      validateReferencePosition s.bytes p = Exec.fail (.invalidPosition p)) := by
  have hrun : ∀ r, Hashline.boundaryOrdinal s.bytes (referenceLineStarts s.bytes) p = r →
      s.boundaryOrdinal true p = r.mapErr .contract ∧
      validateReferencePosition s.bytes p = r >>= fun _ => .ok () := fun r hr => by
    refine ⟨by rw [boundaryOrdinal_eq, hr], ?_⟩
    rw [validateReferencePosition, s.isText.validate]
    show (Hashline.boundaryOrdinal s.bytes (referenceLineStarts s.bytes) p >>= _) = _
    rw [hr]
  by_cases hB : Boundary s.bytes p
  · exact .inl ⟨hB, hrun _ ((boundaryOrdinal_eq_ok s.isText.size).2 ⟨hB, rfl⟩)⟩
  · refine .inr ⟨hB, hrun (Exec.fail (.invalidPosition p)) ?_⟩
    have hno : ∀ k, Hashline.boundaryOrdinal s.bytes (referenceLineStarts s.bytes) p ≠ .ok k :=
      fun k hk => hB ((boundaryOrdinal_eq_ok s.isText.size).1 hk).1
    unfold Hashline.boundaryOrdinal at hno ⊢
    simp only at hno ⊢
    split_ifs at hno ⊢ <;> first | rfl | exact absurd rfl (hno _)

theorem validateReferencePosition_eq_ok {p : Position} :
    validateReferencePosition s.bytes p = .ok () ↔ Boundary s.bytes p := by
  rcases s.boundaryOrdinal_cases p with ⟨hB, -, h⟩ | ⟨hB, -, h⟩
  · exact ⟨fun _ => hB, fun _ => h⟩
  · rw [h]; exact ⟨fun he => absurd he Exec.fail_ne_ok, fun hB' => absurd hB' hB⟩

/-- **A slice between ordered boundaries** is the bytes there. -/
theorem slice_eq {p q : Position} (hp : Boundary s.bytes p) (hq : Boundary s.bytes q)
    (h : p.line ≤ q.line) : s.slice true p q = .ok ((s.bytes.take q.byte).drop p.byte) := by
  rcases s.boundaryOrdinal_cases p with ⟨-, hop, -⟩ | ⟨hno, -⟩
  · rcases s.boundaryOrdinal_cases q with ⟨-, hoq, -⟩ | ⟨hno, -⟩
    · rw [slice, hop, hoq]
      simp only [Exec.ok_bind]
      rw [if_neg (by omega), hp.byte_eq, hq.byte_eq,
        get_between s.isText.utf8 (Nat.sub_le_sub_right h 1)]
      rfl
    · exact absurd hq hno
  · exact absurd hp hno

theorem slice_reversed {p q : Position} (hp : Boundary s.bytes p) (hq : Boundary s.bytes q)
    (h : q.line < p.line) : s.slice true p q = Exec.fail (.contract (.reversedRange p q)) := by
  have hq1 := q.line_ne
  rcases s.boundaryOrdinal_cases p with ⟨-, hop, -⟩ | ⟨hno, -⟩
  · rcases s.boundaryOrdinal_cases q with ⟨-, hoq, -⟩ | ⟨hno, -⟩
    · rw [slice, hop, hoq]
      simp only [Exec.ok_bind]
      rw [if_pos (by omega)]
    · exact absurd hq hno
  · exact absurd hp hno

theorem slice_start {p q : Position} (hp : ¬Boundary s.bytes p) :
    s.slice true p q = Exec.fail (.contract (.invalidPosition p)) := by
  rcases s.boundaryOrdinal_cases p with ⟨h, -⟩ | ⟨-, hop, -⟩
  · exact absurd h hp
  · rw [slice, hop]; rfl

theorem slice_end {p q : Position} (hp : Boundary s.bytes p) (hq : ¬Boundary s.bytes q) :
    s.slice true p q = Exec.fail (.contract (.invalidPosition q)) := by
  rcases s.boundaryOrdinal_cases p with ⟨-, hop, -⟩ | ⟨hno, -⟩
  · rcases s.boundaryOrdinal_cases q with ⟨h, -⟩ | ⟨-, hoq, -⟩
    · exact absurd h hq
    · rw [slice, hop, hoq]; rfl
  · exact absurd hp hno

/-- **`line_start` lists the reference starts**, from line one on. -/
theorem lineStart_getElem? (line : ℕ) : s.lineStart true line =
    .ok (if line = 0 then none else (referenceLineStarts s.bytes)[line - 1]?) := by
  obtain ⟨offsets, ho, hg⟩ := s.offsets_granted
  unfold Snapshot.lineStart
  split_ifs with h0
  · subst h0; rfl
  · rw [checkedSub_eq_some.2 ⟨by omega, rfl⟩, ho]
    exact congrArg _ (hg (line - 1))

end

/-! ## Errors that do not occur -/

/-- If the offsets are to blame, then for want of memory. -/
def OnlyCapacity {α : Type} (r : Exec SnapshotError α) : Prop :=
  ∀ e, r = Exec.fail (.offsets e) → ∃ lines, e = .capacity lines

theorem OnlyCapacity.bind {α β : Type} {x : Exec SnapshotError α} {f : α → Exec SnapshotError β}
    (hx : OnlyCapacity x) (hf : ∀ a, x = .ok a → OnlyCapacity (f a)) : OnlyCapacity (x >>= f) := by
  intro e he
  rcases x with (e' | _) | a
  · cases he; exact hx e rfl
  · cases he
  · exact hf a rfl e he

section
variable (s : Snapshot contentId) (granted : Bool)

theorem onlyCapacity_offsets : OnlyCapacity (s.offsets granted) := by
  intro e he
  rcases s.offsets_eq granted with ⟨-, offsets, ho, -⟩ | ⟨-, ho⟩
  · rw [ho] at he; cases he
  · rw [ho] at he; cases he; exact ⟨_, rfl⟩

theorem onlyCapacity_lineStart (line : ℕ) : OnlyCapacity (s.lineStart granted line) := by
  unfold Snapshot.lineStart
  rcases checkedSub line 1 with _ | index
  · intro e he; cases he
  · exact (s.onlyCapacity_offsets granted).bind fun _ _ e he => by cases he

theorem onlyCapacity_boundaryOrdinal (p : Position) :
    OnlyCapacity (s.boundaryOrdinal granted p) := by
  cases granted with
  | true =>
    intro e he
    rcases s.boundaryOrdinal_cases p with ⟨-, ho, -⟩ | ⟨-, ho, -⟩ <;> rw [ho] at he <;> cases he
  | false =>
    intro e he
    rcases s.offsets_eq false with ⟨h, -⟩ | ⟨-, ho⟩
    · cases h
    · rw [Snapshot.boundaryOrdinal, ho] at he; cases he; exact ⟨_, rfl⟩

theorem onlyCapacity_slice (p q : Position) : OnlyCapacity (s.slice granted p q) := by
  refine (s.onlyCapacity_boundaryOrdinal granted p).bind fun i hi => ?_
  refine (s.onlyCapacity_boundaryOrdinal granted q).bind fun j hj => ?_
  cases granted with
  | true =>
    have hrun : s.slice true p q = if i > j then Exec.fail (.contract (.reversedRange p q))
        else Exec.okOr (.offsets .addressInvariant) (Utf8.get s.bytes p.byte q.byte) := by
      rw [slice, hi, hj]; rfl
    rw [← hrun]
    intro e he
    rcases s.boundaryOrdinal_cases p with ⟨hp, -⟩ | ⟨-, ho, -⟩
    · rcases s.boundaryOrdinal_cases q with ⟨hq, -⟩ | ⟨-, ho, -⟩
      · rcases Nat.lt_or_ge q.line p.line with hlt | hle
        · rw [s.slice_reversed hp hq hlt] at he; cases he
        · rw [s.slice_eq hp hq hle] at he; cases he
      · rw [ho] at hj; cases hj
    · rw [ho] at hi; cases hi
  | false =>
    rcases s.offsets_eq false with ⟨h, -⟩ | ⟨-, ho⟩
    · cases h
    · rw [Snapshot.boundaryOrdinal, ho] at hi; cases hi

end

/-! ## Refinement -/

/-- A snapshot that answers as the reference model does. -/
structure Refines (s : Snapshot contentId) : Prop where
  lineCount : s.lineCount = (referenceLineStarts s.bytes).length
  lineStart : ∀ line ≤ u64Max, s.lineStart true line =
    .ok (if line = 0 then none else (referenceLineStarts s.bytes)[line - 1]?)
  validateBoundary : ∀ p, s.validateBoundary true p =
    (validateReferencePosition s.bytes p).mapErr .contract
  slice : ∀ p q, validateReferencePosition s.bytes p = .ok () →
    validateReferencePosition s.bytes q = .ok () → p.line ≤ q.line →
    s.slice true p q = .ok ((s.bytes.take q.byte).drop p.byte)
  reversed : ∀ p q, validateReferencePosition s.bytes p = .ok () →
    validateReferencePosition s.bytes q = .ok () → q.line < p.line →
    s.slice true p q = Exec.fail (.contract (.reversedRange p q))
  invalidStart : ∀ p q, validateReferencePosition s.bytes p ≠ .ok () →
    s.slice true p q = Exec.fail (.contract (.invalidPosition p))
  invalidEnd : ∀ p q, validateReferencePosition s.bytes p = .ok () →
    validateReferencePosition s.bytes q ≠ .ok () →
    s.slice true p q = Exec.fail (.contract (.invalidPosition q))
  unreachable : ∀ granted, OnlyCapacity (s.offsets granted) ∧
    (∀ line, OnlyCapacity (s.lineStart granted line)) ∧
    (∀ p, OnlyCapacity (s.validateBoundary granted p)) ∧
    ∀ p q, OnlyCapacity (s.slice granted p q)
  tables : s.byteLen ≤ u32Max → ∃ a b,
    LineOffsets.buildWithKind true s.bytes s.lineCount .u32 = .ok (.u32 a) ∧
    LineOffsets.buildWithKind true s.bytes s.lineCount .u64 = .ok (.u64 b) ∧
    a.map UInt32.toNat = b.map UInt64.toNat

/-- Both widths hold the reference starts where both can. -/
theorem tables_agree (s : Snapshot contentId) (h : s.byteLen ≤ u32Max) : ∃ a b,
    LineOffsets.buildWithKind true s.bytes s.lineCount .u32 = .ok (.u32 a) ∧
    LineOffsets.buildWithKind true s.bytes s.lineCount .u64 = .ok (.u64 b) ∧
    a.map UInt32.toNat = b.map UInt64.toNat := by
  have hs := s.isText.size
  have hu := add_two_le_u64Max hs
  rw [s.byteLen_eq] at h
  obtain ⟨a, ha, hma⟩ := offsetVector_eq UInt32.ofNat toU32 UInt32.toNat .u32 hs
    (fun n hn => (toU32_eq (Nat.le_trans hn h)).1) fun n hn => (toU32_eq (Nat.le_trans hn h)).2
  obtain ⟨b, hb, hmb⟩ := offsetVector_eq UInt64.ofNat toU64 UInt64.toNat .u64 hs
    (fun n hn => (toU64_eq (by omega)).1) fun n hn => (toU64_eq (by omega)).2
  refine ⟨a, b, ?_, ?_, by rw [hma, hmb]⟩
  · rw [LineOffsets.buildWithKind, s.lineCount_eq']; exact congrArg (· >>= _) ha
  · rw [LineOffsets.buildWithKind, s.lineCount_eq']; exact congrArg (· >>= _) hb

theorem refines (s : Snapshot contentId) : s.Refines where
  lineCount := by rw [length_referenceLineStarts s.isText.size, s.lineCount_eq']
  lineStart line _ := s.lineStart_getElem? line
  validateBoundary := s.validateBoundary_eq
  slice p q hp hq h := s.slice_eq (s.validateReferencePosition_eq_ok.1 hp)
    (s.validateReferencePosition_eq_ok.1 hq) h
  reversed p q hp hq h := s.slice_reversed (s.validateReferencePosition_eq_ok.1 hp)
    (s.validateReferencePosition_eq_ok.1 hq) h
  invalidStart p q hp := s.slice_start fun hB => hp (s.validateReferencePosition_eq_ok.2 hB)
  invalidEnd p q hp hq := s.slice_end (s.validateReferencePosition_eq_ok.1 hp)
    fun hB => hq (s.validateReferencePosition_eq_ok.2 hB)
  unreachable granted := ⟨s.onlyCapacity_offsets granted, s.onlyCapacity_lineStart granted,
    fun p => (s.onlyCapacity_boundaryOrdinal granted p).bind fun _ _ e he => (by cases he),
    s.onlyCapacity_slice granted⟩
  tables := s.tables_agree

/-- The owned validation is the reference validation, down to the offset of an error. -/
theorem tryFromBytes_eq_fail {bytes : Bytes} {e : ContractError}
    (h : validateText bytes = Exec.fail e) : ValidatedText.tryFromBytes bytes = Exec.fail e := by
  by_cases hs : bytes.length ≤ maxFileBytes
  · rcases hn : nulPosition bytes with _ | byte
    · rcases hv : Utf8.validUpTo bytes with _ | n
      · have htext : IsText bytes := ⟨hs, nulPosition_eq_none.1 hn, Utf8.validUpTo_eq_none.1 hv⟩
        rw [htext.validate] at h; cases h
      · rw [validateText_invalid hs hn hv] at h
        cases h
        exact ValidatedText.tryFromBytes_invalid hs hn hv
    · rw [validateText_nul hs hn] at h
      cases h
      exact ValidatedText.tryFromBytes_nul hs hn
  · rw [validateText, validateFileSize, if_pos (by omega)] at h
    rw [ValidatedText.tryFromBytes, dif_neg hs]
    cases h; rfl

/-- **Snapshot refines the reference model**: it is made of exactly the texts, with the reference's
    error otherwise, and then answers as the reference does. -/
theorem fromBytes_refines (bytes : Bytes) :
    ((∃ s : Snapshot contentId, fromBytes bytes = .ok s) ↔ ∃ text, validateText bytes = .ok text) ∧
    (∀ e, validateText bytes = Exec.fail e →
      (fromBytes bytes : Exec SnapshotError (Snapshot contentId)) = Exec.fail (.contract e)) ∧
    ∀ s : Snapshot contentId, fromBytes bytes = .ok s → s.bytes = bytes ∧ s.Refines := by
  have hok : ∀ s : Snapshot contentId, fromBytes bytes = .ok s → s.bytes = bytes := by
    intro s hs
    rw [fromBytes, Exec.bind_eq_ok] at hs
    obtain ⟨text, ht, hs⟩ := hs
    rw [Exec.mapErr_eq_ok, ValidatedText.tryFromBytes_eq_ok] at ht
    rw [fromValidated, fromValidatedWithStamp_eq] at hs
    cases hs; exact ht
  refine ⟨⟨?_, ?_⟩, fun e he => ?_, fun s hs => ⟨hok s hs, s.refines⟩⟩
  · rintro ⟨s, hs⟩
    exact ⟨_, IsText.validate (hok s hs ▸ s.isText)⟩
  · rintro ⟨text, ht⟩
    exact ⟨_, fromBytes_eq (validateText_eq_ok.1 ht).1⟩
  · rw [fromBytes, tryFromBytes_eq_fail he]; rfl

end Snapshot

end Hashline
