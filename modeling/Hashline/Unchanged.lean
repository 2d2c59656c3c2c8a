/-
  A path whose object stays as it is: what calls on it answer, and what loading
  it, or reading it whole, then comes to.
-/
import Hashline.Lib.Dialogue
import Hashline.NoPanic
import Hashline.Quiet

namespace Hashline

open Machine

variable {h : Host} {ε α : Type}

/-! ## Text that is none -/

/-- The code of bytes that are no text: too many come first, then NUL, then invalid UTF-8. -/
def textCode (bytes : Bytes) : ErrorCode :=
  if maxFileBytes < bytes.length then .fileTooLarge
  else if (0 : UInt8) ∈ bytes then .binaryFile
  else .invalidUtf8

theorem validateFileSize_code (bytes : Bytes) (hl : maxFileBytes < bytes.length) :
    validateFileSize bytes.length = Exec.fail (.fileTooLarge bytes.length) ∧
      textCode bytes = .fileTooLarge := by
  rw [validateFileSize, textCode, if_pos hl, if_pos hl]
  exact ⟨rfl, rfl⟩

theorem textCode_nul {bytes : Bytes} (hl : bytes.length ≤ maxFileBytes) (h0 : (0 : UInt8) ∈ bytes) :
    textCode bytes = .binaryFile := by
  rw [textCode, if_neg (by omega), if_pos h0]

theorem textCode_invalid {bytes : Bytes} (hl : bytes.length ≤ maxFileBytes)
    (h0 : (0 : UInt8) ∉ bytes) : textCode bytes = .invalidUtf8 := by
  rw [textCode, if_neg (by omega), if_neg h0]

/-- The validator of the protocol refuses bytes by their code. -/
theorem validateText_code {bytes : Bytes} (ht : ¬IsText bytes) :
    (validateText bytes).Meets (fun _ => False) fun e => e.code = textCode bytes := by
  by_cases hl : bytes.length ≤ maxFileBytes
  · rcases validateText_cases hl with ⟨h0, byte, he⟩ | ⟨h0, -, n, he⟩ | ⟨ht', -⟩
    · rw [he, textCode_nul hl h0]; rfl
    · rw [he, textCode_invalid hl h0]; rfl
    · exact absurd ht' ht
  · obtain ⟨he, hc⟩ := validateFileSize_code bytes (by omega)
    rw [validateText, he, hc]; rfl

/-- The validator of snapshots refuses them alike. -/
theorem ValidatedText.tryFromBytes_code {bytes : Bytes} (ht : ¬IsText bytes) :
    (tryFromBytes bytes).Meets (fun _ => False) fun e => e.code = textCode bytes := by
  by_cases hl : bytes.length ≤ maxFileBytes
  · rcases hn : nulPosition bytes with _ | byte
    · have h0 := nulPosition_eq_none.1 hn
      rcases hv : Utf8.validUpTo bytes with _ | n
      · exact absurd ⟨hl, h0, Utf8.validUpTo_eq_none.1 hv⟩ ht
      · rw [tryFromBytes_invalid hl hn hv, textCode_invalid hl h0]; rfl
    · have h0 : (0 : UInt8) ∈ bytes := by
        by_contra h0
        rw [nulPosition_eq_none.2 h0] at hn
        cases hn
      rw [tryFromBytes_nul hl hn, textCode_nul hl h0]; rfl
  · rw [tryFromBytes, dif_neg hl, (validateFileSize_code bytes (by omega)).2]; rfl

/-! ## Objects -/

/-- What a path can lead to: `hidden` is what stands in a directory that may not be searched, `special`
    an object that cannot be opened as a file, `denied` a file that may not be, and `barred` what is
    no directory, named with a slash behind it. -/
inductive Object where
  | missing
  | hidden
  | directory
  | special
  | denied
  | barred
  | regular (bytes : Bytes)
  deriving DecidableEq

namespace Object

/-- No load of it succeeds. -/
def Unloadable : Object → Prop
  | regular bytes => ¬IsText bytes
  | _ => True

/-- The code that a load of it fails with. -/
def loadCode : Object → ErrorCode
  | missing => .notFound
  | hidden | directory | special | denied | barred => .io
  | regular bytes => textCode bytes

/-- How it refuses to be opened. -/
def openKind : Object → Option IoErrorKind
  | missing => some .notFound
  | hidden | denied => some .permissionDenied
  | special | barred => some .other
  | directory | regular _ => none

/-- How it refuses to be looked at. -/
def statKind : Object → Option IoErrorKind
  | missing => some .notFound
  | hidden => some .permissionDenied
  | barred => some .other
  | directory | special | denied | regular _ => none

/-- The file of a path; no file is longer than its length can say. -/
def Is (file : File) (path : PathBuf) : Object → Prop
  | missing => False
  | hidden => True
  | directory => file.type = .directory ∧ file.content.length ≤ maxFileBytes
  | special => file.type = .other ∧ path.slashed = false
  | denied => file.type = .regular ∧ path.slashed = false
  | barred => file.type ≠ .directory ∧ path.slashed = true
  | regular bytes => (file.type = .regular ∧ path.slashed = false) ∧ file.content = bytes ∧
      bytes.length ≤ maxVecBytes

/-- The object a path leads to. -/
def At (object : Object) (w : World h) (path : PathBuf) : Prop :=
  match w.fileAt (h.locate path) with
  | none => object = missing
  | some file => object.Is file path

/-- The failures of the machine are those of the object. -/
def Allows (object : Object) (path : PathBuf) (x : Choice) : Call h → Prop
  | .openRead p => p = path → (∀ e, x.fault = some e → object.openKind = some e.kind) ∧
      (object = hidden ∨ object = special ∨ object = denied → x.fault ≠ none)
  | .stat p | .fileType p => p = path → (∀ e, x.fault = some e → object.statKind = some e.kind) ∧
      (object = hidden → x.fault ≠ none)
  | .fstat _ | .read .. => x.fault = none
  | .reserve _ => x.flag = true
  | _ => True

end Object

/-- The name keeps its file, and the file what it is. -/
structure World.Keeps (w₀ w : World h) (loc : Loc) : Prop where
  entries : w.entries loc = w₀.entries loc
  file : ∀ f, w₀.entries loc = some f → w.files f = w₀.files f

/-- The cache is what it was. -/
theorem Event.cache_eq {w w' : World h} {e : Event} (he : e.apply w = some w') :
    w'.cache = w.cache ∧ w'.cells = w.cells ∧ w'.nextCell = w.nextCell := by
  cases e with
  | rewrite loc content mtime ctime =>
    rw [Event.apply, Option.bind_eq_bind, Option.bind_eq_some_iff] at he
    obtain ⟨f, -, he⟩ := he
    split_ifs at he
    cases he; exact ⟨rfl, rfl, rfl⟩
  | replace loc file =>
    rw [Event.apply] at he
    split_ifs at he
    cases he; exact ⟨rfl, rfl, rfl⟩
  | remove loc => cases he; exact ⟨rfl, rfl, rfl⟩

theorem elapse_cache_eq : ∀ (events : List (ℕ × Event)) {w w' : World h},
    elapse events w = some w' →
      w'.cache = w.cache ∧ w'.cells = w.cells ∧ w'.nextCell = w.nextCell
  | [], w, w', he => by cases he; exact ⟨rfl, rfl, rfl⟩
  | (tick, e) :: rest, w, w', he => by
    rw [elapse, Option.bind_eq_bind, Option.bind_eq_some_iff] at he
    obtain ⟨w₁, h₁, he⟩ := he
    obtain ⟨hc₁, hl₁, hn₁⟩ := Event.cache_eq h₁
    obtain ⟨hc₂, hl₂, hn₂⟩ := elapse_cache_eq rest he
    exact ⟨hc₂.trans hc₁, hl₂.trans hl₁, hn₂.trans hn₁⟩

/-- Others do not touch the cache. -/
theorem Choice.elapsed_cache_eq {x : Choice} {w w' : World h} (he : x.elapsed w = some w') :
    w'.cache = w.cache ∧ w'.cells = w.cells ∧ w'.nextCell = w.nextCell := by
  rw [Choice.elapsed, Option.map_eq_some_iff] at he
  obtain ⟨w₁, h₁, rfl⟩ := he
  have hcache := elapse_cache_eq _ h₁
  exact hcache

theorem World.Keeps.refl (w : World h) (loc : Loc) : World.Keeps w w loc := ⟨rfl, fun _ _ => rfl⟩

theorem World.Keeps.trans {w w' w'' : World h} {loc : Loc} (h₁ : World.Keeps w w' loc)
    (h₂ : World.Keeps w' w'' loc) : World.Keeps w w'' loc :=
  ⟨h₂.entries.trans h₁.entries, fun f hf =>
    (h₂.file f (by rw [h₁.entries]; exact hf)).trans (h₁.file f hf)⟩

/-- The object is as it was, and the cache has no snapshot of it. -/
structure Still (path : PathBuf) (w₀ w : World h) : Prop where
  keeps : World.Keeps w₀ w (h.locate path)
  entry : w.cache.entry path.components = none

/-- Calls that change nothing, but for the one a check begins with. -/
def Call.Looks : Call h → Prop
  | .guard .. => False
  | c => c.Inert

/-- Those, and calls that look into the cache. -/
def Call.Calm : Call h → Prop
  | .cacheGet .. | .cacheRacyResident _ => True
  | c => c.Looks

theorem Call.Looks.inert {c : Call h} (hc : c.Looks) : c.Inert := by
  cases c <;> first | exact hc | exact hc.elim

theorem act_calm {who : ℕ} {x : Choice} {c : Call h} {w w' : World h} {a : Answer c}
    (hc : c.Calm) (ha : act who x c w = some (a, w')) : w' = w := by
  cases c with
  | cacheGet | cacheRacyResident => cases ha; rfl
  | _ =>
    refine act_inert (Call.Looks.inert ?_) ha
    exact hc

/-- What others do leaves the object as it is, and no call fails but as it must. -/
structure Object.Stays (object : Object) (path : PathBuf) (rules : Rules h) : Prop where
  keeps : ∀ {s c x w}, rules s c x = true → x.elapsed s.world = some w →
    World.Keeps s.world w (h.locate path)
  allows : ∀ {s c x}, rules s c x = true → object.Allows path x c

/-! ## What calls answer -/

namespace Object
variable (object : Object) (path : PathBuf) (w₀ : World h)

/-- What a call on the object that `w₀` shows can answer. -/
def Says : (c : Call h) → Answer c → Prop
  | .openRead p, a => p = path → (∃ e, a = .error e ∧ object.openKind = some e.kind) ∨
      object.openKind = none ∧ ∃ f, w₀.entries (h.locate path) = some f ∧ a = .ok f
  | .stat p, a => p = path → (∃ e, a = .error e ∧ object.statKind = some e.kind) ∨
      object.statKind = none ∧ ∃ f, w₀.entries (h.locate path) = some f ∧ a = .ok (w₀.metadata f)
  | .fileType p, a => p = path → (∃ e, a = .error e ∧ object.statKind = some e.kind) ∨
      object.statKind = none ∧ ∃ f, w₀.entries (h.locate path) = some f ∧ a = .ok (w₀.files f).type
  | .fstat f, a => w₀.entries (h.locate path) = some f → a = .ok (w₀.metadata f)
  | .read f offset most, a => w₀.entries (h.locate path) = some f →
      if (w₀.files f).type = .directory then a = .error .isADirectory
      else 0 < most → ∃ n, 0 < n ∧ n ≤ most ∧ a = .ok (((w₀.files f).content.drop offset).take n)
  | .reserve _, a => a = true
  | .cacheGet p _, a | .cacheRacyResident p, a => p = path.components → a = none
  | _, _ => True

def dialogue : Dialogue (Call h) Answer := ⟨Call.Calm, object.Says path w₀⟩

/-- Calls that do not look into the cache. -/
def reading : Dialogue (Call h) Answer := ⟨Call.Looks, object.Says path w₀⟩

variable {object path w₀}

theorem within_of_reading {V : α → Prop} {E : ε → Prop} {x : Op h ε α}
    (hx : x.Within (object.reading path w₀) V E) : x.Within (object.dialogue path w₀) V E := by
  refine hx.lift (fun c hc => ?_) fun _ _ _ ha => ha
  cases c <;> first | exact hc | exact hc.elim

theorem At.missing_of_none {w : World h} (hat : object.At w path)
    (hn : w.entries (h.locate path) = none) : object = missing := by
  simpa [At, World.fileAt, hn] using hat

theorem At.file {w : World h} {f : ℕ} (hat : object.At w path)
    (hf : w.entries (h.locate path) = some f) : object.Is (w.files f) path := by
  simpa [At, World.fileAt, hf] using hat

/-- What a call about the file of the path answers, where the machine fails as the object does. -/
theorem find_of_keeps {γ : Type} (hat : object.At w₀ path) {x : Choice} {w w' : World h}
    (hk : World.Keeps w₀ w (h.locate path)) {kind : Option IoErrorKind}
    (hfault : ∀ e, x.fault = some e → kind = some e.kind)
    (hhidden : object = hidden → x.fault ≠ none)
    (hmissing : object = missing → kind = some .notFound)
    (hbarred : object = barred → kind = some .other)
    {answer : ℕ → γ} {a : Except IoError γ}
    (ha : x.fallible w (some ((w.find path).map answer, w)) = some (a, w')) :
    (∃ e, a = .error e ∧ kind = some e.kind) ∨
      x.fault = none ∧ object ≠ barred ∧
        ∃ f, w₀.entries (h.locate path) = some f ∧ a = .ok (answer f) := by
  rcases Choice.fallible_eq_some.1 ha with ⟨e, he, rfl, -⟩ | ⟨hno, ha⟩
  · exact .inl ⟨e, rfl, hfault e he⟩
  cases ha
  rcases hn : w₀.entries (h.locate path) with _ | f
  · rw [World.find_of_none (by rw [hk.entries, hn])]
    exact .inl ⟨_, rfl, hmissing (hat.missing_of_none hn)⟩
  · have his := hat.file hn
    have hf : w.entries (h.locate path) = some f := by rw [hk.entries, hn]
    by_cases hb : object = barred
    · subst hb
      have hfind : w.find path = .error .notADirectory := by
        simp [World.find, hf, hk.file f hn, his.1, his.2]
      rw [hfind]
      exact .inl ⟨_, rfl, hbarred rfl⟩
    · refine .inr ⟨hno, hb, f, rfl, ?_⟩
      have hfind : w.find path = .ok f := by
        cases object with
        | missing => exact his.elim
        | hidden => exact absurd hno (hhidden rfl)
        | directory => simp [World.find, hf, hk.file f hn, his.1]
        | special | denied => exact World.find_of_entry his.2 hf
        | barred => exact absurd rfl hb
        | regular bytes => exact World.find_of_entry his.1.2 hf
      rw [hfind]
      rfl

/-- What is there, neither hidden nor barred, can be looked at. -/
theorem At.statKind_eq_none (hat : object.At w₀ path) {f : ℕ}
    (hf : w₀.entries (h.locate path) = some f) (hb : object ≠ barred) (hh : object ≠ hidden) :
    object.statKind = none := by
  cases object with
  | missing => exact (hat.file hf).elim
  | hidden => exact absurd rfl hh
  | barred => exact absurd rfl hb
  | directory | special | denied | regular _ => rfl

/-- What a call that looks at the path answers. -/
theorem looked_of_keeps {γ : Type} (hat : object.At w₀ path) {x : Choice} {w w' : World h}
    (hk : World.Keeps w₀ w (h.locate path))
    (hfault : ∀ e, x.fault = some e → object.statKind = some e.kind)
    (hhidden : object = hidden → x.fault ≠ none) {answer : ℕ → γ} {a : Except IoError γ}
    (ha : x.fallible w (some ((w.find path).map answer, w)) = some (a, w')) :
    (∃ e, a = .error e ∧ object.statKind = some e.kind) ∨
      object.statKind = none ∧ ∃ f, w₀.entries (h.locate path) = some f ∧ a = .ok (answer f) := by
  rcases find_of_keeps hat hk hfault hhidden (fun he => by rw [he]; rfl) (fun he => by rw [he]; rfl)
    ha with hr | ⟨hno, hb, f, hf, rfl⟩
  · exact .inl hr
  · exact .inr ⟨hat.statKind_eq_none hf hb fun he => hhidden he hno, f, hf, rfl⟩

/-- What a call answers where the object is as it was. -/
theorem says_of_keeps (hat : object.At w₀ path) {who : ℕ} {x : Choice} {c : Call h}
    {a : Answer c} {w w' : World h} (hk : World.Keeps w₀ w (h.locate path))
    (hallows : object.Allows path x c) (ha : act who x c w = some (a, w')) (hc : c.Looks) :
    object.Says path w₀ c a := by
  have hmeta : ∀ f, w₀.entries (h.locate path) = some f → w.metadata f = w₀.metadata f := by
    intro f hf
    rw [World.metadata, World.metadata, hk.file f hf]
  cases c with
  | openRead p =>
    rintro rfl
    obtain ⟨hfault, hmust⟩ := hallows rfl
    have hfind : x.fallible w (some ((w.find p).map id, w)) = some (a, w') := by rwa [Except.map_id]
    rcases find_of_keeps hat hk hfault (fun he => hmust (.inl he)) (fun he => by rw [he]; rfl)
      (fun he => by rw [he]; rfl) hfind with hr | ⟨hno, hb, f, hf, rfl⟩
    · exact .inl hr
    · have his := hat.file hf
      refine .inr ⟨?_, f, hf, rfl⟩
      cases object with
      | missing => exact his.elim
      | hidden => exact absurd hno (hmust (.inl rfl))
      | special => exact absurd hno (hmust (.inr (.inl rfl)))
      | denied => exact absurd hno (hmust (.inr (.inr rfl)))
      | barred => exact absurd rfl hb
      | directory | regular bytes => rfl
  | stat p =>
    rintro rfl
    obtain ⟨hfault, hmust⟩ := hallows rfl
    rcases looked_of_keeps hat hk hfault hmust ha with hr | ⟨hlooked, f, hf, rfl⟩
    · exact .inl hr
    · exact .inr ⟨hlooked, f, hf, by rw [hmeta f hf]⟩
  | fileType p =>
    rintro rfl
    obtain ⟨hfault, hmust⟩ := hallows rfl
    rcases looked_of_keeps hat hk hfault hmust ha with hr | ⟨hlooked, f, hf, rfl⟩
    · exact .inl hr
    · exact .inr ⟨hlooked, f, hf, by rw [hk.file f hf]⟩
  | fstat f =>
    intro hf
    rcases Choice.fallible_eq_some.1 ha with ⟨e, he, -, -⟩ | ⟨-, ha⟩
    · rw [show x.fault = none from hallows] at he; cases he
    · cases ha; rw [hmeta f hf]
  | read f offset most =>
    intro hf
    rcases Choice.fallible_eq_some.1 ha with ⟨e, he, -, -⟩ | ⟨-, ha⟩
    · rw [show x.fault = none from hallows] at he; cases he
    · rw [hk.file f hf] at ha
      split_ifs at ha ⊢ with hd
      · cases ha; rfl
      · cases ha
        exact fun hm => ⟨x.moved most, by rw [Choice.moved]; omega, Nat.min_le_right _ _, rfl⟩
  | reserve n => cases ha; exact hallows
  | cacheGet | cacheRacyResident => exact hc.elim
  | _ => trivial

/-- **A call on an object that stays answers what the object says.** -/
theorem Stays.answers {rules : Rules h} (hstays : object.Stays path rules)
    (hat : object.At w₀ path) {who : ℕ} {x : Choice} {c : Call h} {a : Answer c}
    {s s' : State h} (hs : Still path w₀ s.world) (hst : step rules who x c s = some (a, s'))
    (hc : c.Calm) : object.Says path w₀ c a ∧ Still path w₀ s'.world := by
  obtain ⟨hr, w, hw, ha, -⟩ := step_eq_some.1 hst
  have hk : World.Keeps w₀ w (h.locate path) := hs.keeps.trans (hstays.keeps hr hw)
  have hnone : w.cache.entry path.components = none := by
    rw [(Choice.elapsed_cache_eq hw).1]
    exact hs.entry
  have hw' : s'.world = w := act_calm hc ha
  refine ⟨?_, by rw [hw']; exact ⟨hk, hnone⟩⟩
  cases c with
  | cacheGet p stamp =>
    rintro rfl
    have hget : w.cache.get path.components stamp = none := by simp [SnapshotCache.get, hnone]
    exact (congrArg Prod.fst (Option.some.inj ha)).symm.trans hget
  | cacheRacyResident p =>
    rintro rfl
    have hresident : w.cache.racyResident path.components = none := by simp [SnapshotCache.racyResident, hnone]
    exact (congrArg Prod.fst (Option.some.inj ha)).symm.trans hresident
  | _ => exact says_of_keeps hat hk (hstays.allows hr) ha hc

/-! ## Reading it whole -/

section
variable {f : ℕ} {E : ε → Prop}

/-- **`read_to_end` answers the bytes up to the limit**, or that there are none to read. -/
theorem readToEnd_reading (hf : w₀.entries (h.locate path) = some f) {limit : ℕ} :
    ∀ (rounds : ℕ) {bytes : Bytes}, bytes <+: (w₀.files f).content → bytes.length ≤ limit →
      limit ≤ bytes.length + rounds → (w₀.files f).type ≠ .directory →
      (readToEnd f limit rounds bytes : Op h ε _).Within (object.reading path w₀)
        (fun r => r = .ok ((w₀.files f).content.take limit)) E
  | 0, bytes, hb, hl, hr, _ => by
    have hlim : limit = bytes.length := by omega
    show Except.ok bytes = _
    rw [hlim, ← List.prefix_iff_eq_take.1 hb]
  | rounds + 1, bytes, hb, hl, hr, hd => by
    rw [readToEnd]
    split_ifs with hlim
    · have hlim : limit = bytes.length := by omega
      show Except.ok bytes = _
      rw [hlim, ← List.prefix_iff_eq_take.1 hb]
    · refine Proc.within_call trivial fun a ha => ?_
      have ha := ha hf
      rw [if_neg hd] at ha
      obtain ⟨n, hn, hmost, rfl⟩ := ha (by omega)
      obtain ⟨hgrow, hend⟩ := prefix_read hb hn
      have hchunk : (((w₀.files f).content.drop bytes.length).take n).length ≤ n :=
        List.length_take_le _ _
      show Proc.Within _ _ _ (if ((w₀.files f).content.drop bytes.length).take n = [] then _ else _)
      split_ifs with hc
      · show Except.ok bytes = _
        rw [← hend hc, List.take_of_length_le hl]
      · have hpos := List.length_pos_of_ne_nil hc
        refine readToEnd_reading hf rounds hgrow ?_ ?_ hd <;> rw [List.length_append] <;> omega

/-- **`fs::read` answers the bytes of a file**, and of what cannot be opened its refusal. -/
theorem fsRead_reading (hat : object.At w₀ path) (hd : object ≠ directory) :
    (fsRead path : Op h ε _).Within (object.reading path w₀) (fun r =>
      (∃ e, r = .error e ∧ object.openKind = some e.kind) ∨ ∃ bytes, object = regular bytes ∧
        r = .ok bytes) E := by
  refine Proc.within_call trivial fun a ha => ?_
  rcases ha rfl with ⟨e, rfl, hk⟩ | ⟨hk, f, hf, rfl⟩
  · exact .inl ⟨e, rfl, hk⟩
  · have his := hat.file hf
    cases object with
    | missing | hidden | special | denied | barred => cases hk
    | directory => exact absurd rfl hd
    | regular bytes =>
      obtain ⟨⟨htype, -⟩, hbytes, hlen⟩ := his
      refine Proc.within_call trivial fun a ha => ?_
      cases (ha hf : a = _)
      refine Proc.within_call trivial fun granted hg => ?_
      cases (hg : granted = true)
      have hread : (readToEnd f (maxVecBytes + 1) (maxVecBytes + 1) [] : Op h ε _).Within
          ((regular bytes).reading path w₀)
          (fun r => r = .ok ((w₀.files f).content.take (maxVecBytes + 1))) E :=
        readToEnd_reading hf _ List.nil_prefix (Nat.zero_le _) (by rw [List.length_nil]; omega)
          (by rw [htype]; decide)
      refine hread.bind fun r hr => ?_
      subst hr
      rw [hbytes, List.take_of_length_le (by omega)]
      show Proc.Within _ _ _ (if maxVecBytes < bytes.length then _ else _)
      rw [if_neg (by omega)]
      exact .inr ⟨bytes, rfl, rfl⟩

end

/-! ## Loading it -/

/-- The error has the code that a load of the object fails with. -/
def FailsAs (object : Object) (e : SnapshotError) : Prop :=
  ∀ operation p, (snapshotProtocolError operation p e).code = object.loadCode

theorem failsAs_io {p : PathBuf} {operation : String} {e : IoError}
    (hk : object.openKind = some e.kind) : object.FailsAs (Snapshot.ioError p operation e) := by
  intro _ _
  show (if e.kind = .notFound then ErrorCode.notFound else .io) = _
  cases object with
  | missing | hidden | special | denied | barred => rw [← Option.some.inj hk]; rfl
  | directory | regular bytes => cases hk

theorem failsAs_contract {bytes : Bytes} {e : ContractError} (he : e.code = textCode bytes) :
    (regular bytes).FailsAs (.contract e) := fun _ _ => he

/-- It cannot be loaded, and the error has its code. -/
def Fails (object : Object) (e : SnapshotError) : Prop := object.Unloadable ∧ object.FailsAs e

/-- It is a text, which the bytes are. -/
def Holds (object : Object) (bytes : Bytes) : Prop := object = regular bytes ∧ IsText bytes

/-- The read loop answers the content, or that there are no bytes to read. -/
theorem readLoop_reading {f : ℕ} (hf : w₀.entries (h.locate path) = some f)
    (hat : object.At w₀ path) (hfits : (w₀.files f).content.length ≤ maxFileBytes) :
    ∀ (rounds : ℕ) {capacity : ℕ} {bytes : Bytes}, bytes <+: (w₀.files f).content →
      (w₀.files f).content.length < bytes.length + rounds →
      (Snapshot.readLoop path f rounds capacity bytes : Op h _ _).Within (object.reading path w₀)
        (fun r => object ≠ directory ∧ r = (w₀.files f).content) object.Fails
  | 0, capacity, bytes, hb, hr => by
    have := hb.length_le
    omega
  | rounds + 1, capacity, bytes, hb, hr => by
    refine Proc.within_call trivial fun a ha => ?_
    have ha := ha hf
    split_ifs at ha with hd
    · subst ha
      have his := hat.file hf
      cases object with
      | missing => exact his.elim
      | hidden | directory => exact ⟨trivial, fun _ _ => rfl⟩
      | special | denied => rw [his.1] at hd; cases hd
      | barred => exact absurd hd his.1
      | regular bytes => rw [his.1.1] at hd; cases hd
    · obtain ⟨n, hn, -, rfl⟩ := ha (by decide)
      obtain ⟨hgrow, hend⟩ := prefix_read hb hn
      have hdir : object ≠ directory := by
        rintro rfl
        exact hd (hat.file hf).1
      show Proc.Within _ _ _ (if ((w₀.files f).content.drop bytes.length).take n = [] then _ else _)
      split_ifs with hc
      · exact ⟨hdir, hend hc⟩
      · have hpos := List.length_pos_of_ne_nil hc
        have hlen := hgrow.length_le
        have hgrown : ∀ capacity, (Snapshot.growBy capacity bytes
            (((w₀.files f).content.drop bytes.length).take n) : Op h _ _).Within
              (object.reading path w₀) Anything object.Fails := by
          intro capacity
          rw [List.length_append] at hlen
          rw [Snapshot.growBy, (validateFileSize_eq_ok (u := ())).2 (by omega)]
          show Proc.Within _ _ _ (if _ then _ else _)
          split_ifs
          · refine Proc.within_call trivial fun granted hg => ?_
            cases (hg : granted = true)
            trivial
          · trivial
        refine (hgrown capacity).bind fun capacity _ => readLoop_reading hf hat hfits rounds hgrow ?_
        rw [List.length_append]
        omega

/-- Bytes that are a text are the candidate, when all is read and nothing has changed, and others are
    refused. -/
theorem judge_reading {bytes : Bytes} {f : ℕ} (hat : (regular bytes).At w₀ path)
    (hf : w₀.entries (h.locate path) = some f) (t t' : ℤ) :
    (Snapshot.judge path (.fromMetadata (w₀.metadata f) t) (.fromMetadata (w₀.metadata f) t') bytes :
      Op h _ _).Within ((regular bytes).reading path w₀)
        (fun c => ∃ text stamp, c = some (text, stamp) ∧ text.bytes = bytes) (regular bytes).Fails := by
  obtain ⟨-, hbytes, -⟩ := hat.file hf
  have hstamp : (Snapshot.pathStamp path : Op h _ _).Within ((regular bytes).reading path w₀)
      (fun stamp => ∃ t'', stamp = some (.fromMetadata (w₀.metadata f) t''))
      (regular bytes).Fails := by
    refine Proc.within_call trivial fun a ha => ?_
    rcases ha rfl with ⟨e, -, hk⟩ | ⟨-, g, hg, rfl⟩
    · cases hk
    · rw [hf] at hg
      cases hg
      exact ⟨trivial, fun now _ => ⟨now, rfl⟩⟩
  have hconfirmed : (Snapshot.confirmed path (.fromMetadata (w₀.metadata f) t') bytes :
      Op h _ _).Within ((regular bytes).reading path w₀) (fun b => b = true)
        (regular bytes).Fails := by
    unfold Snapshot.confirmed
    split_ifs
    · refine (fsRead_reading hat (by simp)).bind fun r hr => ?_
      rcases hr with ⟨e, -, hk⟩ | ⟨_, heq, rfl⟩
      · cases hk
      · cases heq
        exact decide_eq_true rfl
    · rfl
  refine hstamp.bind fun stamp hst => ?_
  obtain ⟨t'', rfl⟩ := hst
  have hsame : (FileStamp.fromMetadata (w₀.metadata f) t !=
      FileStamp.fromMetadata (w₀.metadata f) t' ||
      some (FileStamp.fromMetadata (w₀.metadata f) t'') !=
        some (FileStamp.fromMetadata (w₀.metadata f) t') ||
      decide (bytes.length ≠ (FileStamp.fromMetadata (w₀.metadata f) t').len)) = false := by
    have hlen : bytes.length = (FileStamp.fromMetadata (w₀.metadata f) t').len := by
      rw [← hbytes]; rfl
    simp [bne, hlen]
  rw [if_neg (by rw [hsame]; decide)]
  refine hconfirmed.bind fun b hb => ?_
  subst hb
  have htext : (ValidatedText.tryFromBytes bytes).Meets (·.bytes = bytes)
      fun e => ¬IsText bytes ∧ e.code = textCode bytes := by
    by_cases ht : IsText bytes
    · have hok : ValidatedText.tryFromBytes bytes = .ok ⟨bytes, ht⟩ :=
        ValidatedText.tryFromBytes_eq_ok.2 rfl
      rw [hok]
      rfl
    · exact (ValidatedText.tryFromBytes_code ht).mono (fun _ h => h.elim) fun _ he => ⟨ht, he⟩
  refine Proc.Within.bind (V := (·.bytes = bytes)) ?_ fun text hb => ⟨text, _, rfl, hb⟩
  exact htext.mapErr fun e he => ⟨he.1, failsAs_contract he.2⟩

/-- A candidate is the text. -/
theorem readCandidate_reading (hat : object.At w₀ path) :
    (Snapshot.readCandidate path : Op h _ _).Within (object.reading path w₀)
      (fun c => ∃ text stamp, c = some (text, stamp) ∧ object.Holds text.bytes) object.Fails := by
  refine Proc.within_call trivial fun a ha => ?_
  rcases ha rfl with ⟨e, rfl, hk⟩ | ⟨hk, f, hf, rfl⟩
  · refine ⟨?_, failsAs_io hk⟩
    cases object with
    | regular bytes => cases hk
    | _ => trivial
  refine Proc.within_call trivial fun a ha => ?_
  cases (ha hf : a = _)
  refine Proc.within_call (c := Call.now) trivial fun before _ => ?_
  show Proc.Within _ _ _ (Snapshot.readStamped path f (.fromMetadata (w₀.metadata f) before))
  unfold Snapshot.readStamped
  by_cases hfits : (w₀.files f).content.length ≤ maxFileBytes
  · rw [show (FileStamp.fromMetadata (w₀.metadata f) before).len = (w₀.files f).content.length from
      rfl, (validateFileSize_eq_ok (u := ())).2 hfits]
    refine Proc.within_call trivial fun granted hg => ?_
    cases (hg : granted = true)
    refine (readLoop_reading hf hat hfits _ List.nil_prefix ?_).bind fun bytes hr => ?_
    · rw [List.length_nil]; omega
    obtain ⟨hdir, rfl⟩ := hr
    refine Proc.within_call trivial fun a ha => ?_
    cases (ha hf : a = _)
    refine Proc.within_call (c := Call.now) trivial fun after _ => ?_
    cases object with
    | missing | hidden | special | denied | barred => cases hk
    | directory => exact absurd rfl hdir
    | regular bytes =>
      rw [(hat.file hf).2.1]
      refine (judge_reading hat hf before after).mono (fun c hc => ?_) fun _ he => he
      obtain ⟨text, stamp, rfl, rfl⟩ := hc
      exact ⟨text, stamp, rfl, rfl, text.isText⟩
  · have hfail := validateFileSize_code (w₀.files f).content (by omega)
    rw [show (FileStamp.fromMetadata (w₀.metadata f) before).len = (w₀.files f).content.length from
      rfl, hfail.1]
    cases object with
    | missing | hidden | special | denied | barred => cases hk
    | directory => exact absurd (hat.file hf).2 hfits
    | regular bytes =>
      rw [(hat.file hf).2.1] at hfail hfits ⊢
      exact ⟨fun ht => hfits ht.size, failsAs_contract hfail.2.symm⟩

/-- **A load of an object that stays answers the text it is**, or fails with its code. -/
theorem load_reading (hat : object.At w₀ path) :
    (Snapshot.load path : Op h _ _).Within (object.reading path w₀)
      (fun snapshot => object.Holds snapshot.bytes) object.Fails := by
  refine Proc.within_call trivial fun _ _ => ?_
  refine (readCandidate_reading hat).bind fun c hc => ?_
  obtain ⟨text, stamp, rfl, hholds⟩ := hc
  show Exec.Meets _ _ (Snapshot.fromValidatedWithStamp text (some stamp))
  rw [Snapshot.fromValidatedWithStamp_eq]
  exact hholds

/-- A load of an object that is no text fails with the code of the object. -/
theorem load_within (hu : object.Unloadable) (hat : object.At w₀ path) :
    (Snapshot.load path : Op h _ _).Within (object.dialogue path w₀) (fun _ => False)
      object.FailsAs := by
  refine within_of_reading ((load_reading hat).mono (fun snapshot hs => ?_) fun _ he => he.2)
  obtain ⟨rfl, ht⟩ := hs
  exact hu ht

/-! ## Finding it in the cache -/

theorem currentStamp_within :
    (SnapshotCache.currentStamp path : Op h _ _).Within (object.dialogue path w₀) Anything
      object.FailsAs := by
  refine Proc.within_call trivial fun a _ => ?_
  change Except IoError Metadata at a
  rcases a with e | metadata
  · trivial
  · exact ⟨trivial, fun _ _ => trivial⟩

theorem freshResident_within :
    (SnapshotCache.freshResident path : Op h _ _).Within (object.dialogue path w₀) (· = none)
      object.FailsAs := by
  refine currentStamp_within.bind fun stamp _ => ?_
  rcases stamp with _ | stamp
  · rfl
  · exact ⟨trivial, fun _ ha => ha rfl⟩

theorem verifyRacyResident_within :
    (SnapshotCache.verifyRacyResident path : Op h _ _).Within (object.dialogue path w₀) (· = none)
      object.FailsAs := by
  refine Proc.within_call trivial fun a ha => ?_
  cases (ha rfl : a = none)
  rfl

end Object

end Hashline
