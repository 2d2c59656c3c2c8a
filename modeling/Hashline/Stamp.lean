/-
  File metadata, and the stamps by which a file is recognized as unchanged.
-/
import Hashline.Protocol

namespace Hashline

open Machine

/-! ## Times -/

/-- Moments are nanoseconds since the epoch. -/
def nanosPerSecond : ℤ := 1000000000

/-- A Unix timestamp, as `stat` reports it. -/
structure FileTime where
  seconds : ℤ
  nanoseconds : ℤ
  deriving DecidableEq, Repr

namespace FileTime

/-- Map to wall-clock time: before the epoch is the epoch, a nanosecond count that is no `u32` has
    no wall-clock time. -/
def toSystemTime (t : FileTime) : Option ℤ :=
  if t.seconds < 0 then some 0
  else if t.nanoseconds < 0 ∨ (u32Max : ℤ) < t.nanoseconds then none
  else some (t.seconds * nanosPerSecond + min t.nanoseconds 999999999)

end FileTime

/-- `RACY_WINDOW`: two seconds. -/
def racyWindow : ℤ := 2 * nanosPerSecond

/-- Whether `timestamp` is so close to `capturedAt` that a later write could reuse it. -/
def withinRacyWindow (capturedAt : ℤ) : Option ℤ → Bool
  | none => true
  | some timestamp =>
    if timestamp ≤ capturedAt then capturedAt - timestamp ≤ racyWindow else true

/-! ## Stamps -/

structure FileIdentity where
  device : ℕ
  inode : ℕ
  deriving DecidableEq, Repr

/-- What `stat` reports of a file. -/
structure Metadata where
  device : ℕ
  inode : ℕ
  len : ℕ
  mtime : FileTime
  ctime : FileTime
  deriving DecidableEq, Repr

/-- Metadata captured to recognize a file; `racy` tells whether equality alone is no proof. -/
structure FileStamp where
  identity : FileIdentity
  len : ℕ
  modified : FileTime
  changed : Option FileTime
  racy : Bool
  deriving Repr

namespace FileStamp

/-- `PartialEq`: every field but `racy`. -/
def eq (a b : FileStamp) : Bool :=
  a.identity = b.identity && a.len = b.len && a.modified = b.modified && a.changed = b.changed

instance : BEq FileStamp := ⟨FileStamp.eq⟩

/-- `FileStamp::from_metadata`, where the clock reads `capturedAt` after the `stat`. -/
def fromMetadata (metadata : Metadata) (capturedAt : ℤ) : FileStamp where
  identity := ⟨metadata.device, metadata.inode⟩
  len := metadata.len
  modified := metadata.mtime
  changed := some metadata.ctime
  racy := withinRacyWindow capturedAt metadata.mtime.toSystemTime ||
    withinRacyWindow capturedAt metadata.ctime.toSystemTime

/-- Adopt the stamp found after a rename when identity, length and modification time are those the
    temporary file had. -/
def confirmedAfterRename (temp current : FileStamp) : Option FileStamp :=
  if temp.identity = current.identity ∧ temp.len = current.len ∧ temp.modified = current.modified
  then some current else none

@[simp] theorem eq_iff {a b : FileStamp} : (a == b) = true ↔
    a.identity = b.identity ∧ a.len = b.len ∧ a.modified = b.modified ∧ a.changed = b.changed := by
  show FileStamp.eq a b = true ↔ _
  simp [FileStamp.eq, and_assoc]

@[simp] theorem fromMetadata_racy (m : Metadata) (t t' : ℤ) :
    (fromMetadata m t == fromMetadata m t') = true := by simp [fromMetadata]

/-- Stamps of files that agree on what is compared are equal. -/
theorem fromMetadata_eq_iff {m m' : Metadata} {t t' : ℤ} :
    (fromMetadata m t == fromMetadata m' t') = true ↔ m = m' := by
  rw [eq_iff]
  simp only [fromMetadata, FileIdentity.mk.injEq, Option.some.injEq]
  constructor
  · rintro ⟨⟨h₁, h₂⟩, h₃, h₄, h₅⟩
    cases m; cases m'; cases h₁; cases h₂; cases h₃; cases h₄; cases h₅; rfl
  · rintro rfl; exact ⟨⟨rfl, rfl⟩, rfl, rfl, rfl⟩

end FileStamp

/-! ## The racy window -/

/-- The time a timestamp stands for. -/
def FileTime.nanos (t : FileTime) : ℤ := t.seconds * nanosPerSecond + t.nanoseconds

theorem withinRacyWindow_some {now t : ℤ} :
    withinRacyWindow now (some t) = false ↔ t + racyWindow < now := by
  have hw : racyWindow = 2000000000 := rfl
  simp only [withinRacyWindow]
  split_ifs with h
  · rw [decide_eq_false_iff_not]; omega
  · simp only [false_iff]; omega

/-- **A timestamp out of the window is more than two seconds past**, also when it is one from
    before the epoch. -/
theorem withinRacyWindow_eq_false {now : ℤ} {t : FileTime} (ht : t.nanoseconds ≤ 999999999)
    (h : withinRacyWindow now t.toSystemTime = false) : t.nanos + racyWindow < now := by
  have hs : nanosPerSecond = 1000000000 := rfl
  simp only [FileTime.nanos, hs]
  unfold FileTime.toSystemTime at h
  split_ifs at h with h₁ h₂
  · rw [withinRacyWindow_some] at h; omega
  · cases h
  · rw [withinRacyWindow_some, hs] at h; omega

end Hashline
