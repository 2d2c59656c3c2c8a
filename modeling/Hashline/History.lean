/-
  What any step, of the server or of others, can do to the file a name stands
  for: it keeps it, or gives it a change time of the moment.
-/
import Hashline.System

namespace Hashline

open Machine

variable {h : Host}

/-! ## Files and names -/

/-- Names stand for files there are. -/
def World.Sane (w : World h) : Prop := ∀ loc f, w.entries loc = some f → f < w.next

theorem World.sample_sane (path : PathBuf) (content : Option Bytes) :
    (World.sample path content).Sane := by
  intro loc f hf
  simp only [World.sample] at hf
  split_ifs at hf
  obtain ⟨_, _, rfl⟩ := Option.map_eq_some_iff.1 hf
  exact Nat.one_pos

namespace World
variable (w : World h)

theorem fileAt_eq_some {loc : Loc} {file : File} :
    w.fileAt loc = some file ↔ ∃ f, w.entries loc = some f ∧ w.files f = file := by
  simp [fileAt]

theorem fileAt_of_entry {loc : Loc} {f : ℕ} (hf : w.entries loc = some f) :
    w.fileAt loc = some (w.files f) := by rw [fileAt, hf]; rfl

theorem contentAt_of_entry {loc : Loc} {f : ℕ} (hf : w.entries loc = some f) :
    w.contentAt loc = some (w.files f).content := by rw [contentAt, w.fileAt_of_entry hf]; rfl

theorem contentAt_eq_some {loc : Loc} {content : Bytes} : w.contentAt loc = some content ↔
    ∃ f, w.entries loc = some f ∧ (w.files f).content = content := by
  simp [contentAt, fileAt]

@[simp] theorem wait_fileAt (tick : ℕ) (loc : Loc) : (w.wait tick).fileAt loc = w.fileAt loc := rfl

@[simp] theorem wait_contentAt (tick : ℕ) (loc : Loc) :
    (w.wait tick).contentAt loc = w.contentAt loc := rfl

@[simp] theorem wait_entries (tick : ℕ) : (w.wait tick).entries = w.entries := rfl

@[simp] theorem wait_files (tick : ℕ) : (w.wait tick).files = w.files := rfl

@[simp] theorem wait_now (tick : ℕ) : (w.wait tick).now = w.now + tick := rfl

@[simp] theorem wait_next (tick : ℕ) : (w.wait tick).next = w.next := rfl

@[simp] theorem setFile_entries (f : ℕ) (file : File) : (w.setFile f file).entries = w.entries := rfl

@[simp] theorem setFile_now (f : ℕ) (file : File) : (w.setFile f file).now = w.now := rfl

@[simp] theorem setFile_next (f : ℕ) (file : File) : (w.setFile f file).next = w.next := rfl

@[simp] theorem setFile_self (f : ℕ) (file : File) : (w.setFile f file).files f = file := by
  simp [setFile]

theorem setFile_of_ne {f g : ℕ} (hg : g ≠ f) (file : File) :
    (w.setFile f file).files g = w.files g := by simp [setFile, hg]

@[simp] theorem setEntry_files (loc : Loc) (o : Option ℕ) : (w.setEntry loc o).files = w.files := rfl

@[simp] theorem setEntry_now (loc : Loc) (o : Option ℕ) : (w.setEntry loc o).now = w.now := rfl

@[simp] theorem setEntry_next (loc : Loc) (o : Option ℕ) : (w.setEntry loc o).next = w.next := rfl

@[simp] theorem setEntry_self (loc : Loc) (o : Option ℕ) : (w.setEntry loc o).entries loc = o := by
  simp [setEntry]

theorem setEntry_of_ne {loc loc' : Loc} (hl : loc' ≠ loc) (o : Option ℕ) :
    (w.setEntry loc o).entries loc' = w.entries loc' := by simp [setEntry, hl]

@[simp] theorem changed_entries (f : ℕ) (t : FileTime) : (w.changed f t).entries = w.entries := rfl

@[simp] theorem changed_now (f : ℕ) (t : FileTime) : (w.changed f t).now = w.now := rfl

@[simp] theorem changed_next (f : ℕ) (t : FileTime) : (w.changed f t).next = w.next := rfl

@[simp] theorem changed_content (f : ℕ) (t : FileTime) (g : ℕ) :
    ((w.changed f t).files g).content = (w.files g).content := by
  unfold changed setFile
  by_cases hg : g = f
  · subst hg; simp
  · simp [hg]

@[simp] theorem addFile_now (loc : Loc) (file : File) : (w.addFile loc file).now = w.now := rfl

@[simp] theorem addFile_next (loc : Loc) (file : File) :
    (w.addFile loc file).next = w.next + 1 := rfl

@[simp] theorem addFile_entries (loc : Loc) (file : File) :
    (w.addFile loc file).entries loc = some w.next := by simp [addFile]

theorem addFile_entries_ne {loc loc' : Loc} (hl : loc' ≠ loc) (file : File) :
    (w.addFile loc file).entries loc' = w.entries loc' := setEntry_of_ne _ hl _

@[simp] theorem addFile_self (loc : Loc) (file : File) : (w.addFile loc file).files w.next = file := by
  simp [addFile]

theorem addFile_files {f : ℕ} (hf : f < w.next) (loc : Loc) (file : File) :
    (w.addFile loc file).files f = w.files f := by
  show (w.setFile w.next file).files f = _
  exact w.setFile_of_ne (by omega) file

end World

/-! ## Change times -/

/-- From `w` to `w'` the name `loc` has kept its file, or lost it, or the file it now has was changed
    after `w`. -/
structure Moved (w w' : World h) (loc : Loc) : Prop where
  now : w.now ≤ w'.now
  file : ∀ file, w'.fileAt loc = some file → w.fileAt loc = some file ∨
    (w.now - racyWindow < file.ctime.nanos ∧ file.ctime.nanoseconds ≤ 999999999)

namespace Moved
variable {w w' w'' : World h} {loc : Loc}

theorem refl (w : World h) (loc : Loc) : Moved w w loc := ⟨Int.le_refl _, fun _ hf => .inl hf⟩

theorem trans (h₁ : Moved w w' loc) (h₂ : Moved w' w'' loc) : Moved w w'' loc := by
  refine ⟨Int.le_trans h₁.now h₂.now, fun file hf => ?_⟩
  rcases h₂.file file hf with hf | ⟨hf, hn⟩
  · exact h₁.file file hf
  · exact .inr ⟨by have := h₁.now; omega, hn⟩

/-- The name keeps its file. -/
theorem of_eq (hn : w.now ≤ w'.now) (hf : w'.fileAt loc = w.fileAt loc) : Moved w w' loc :=
  ⟨hn, fun _ hf' => .inl (hf ▸ hf')⟩

/-- A file is changed at the moment, and names keep theirs. -/
theorem setFile {f : ℕ} {file : File} (hc : Fresh w.now file.ctime) :
    Moved w (w.setFile f file) loc := by
  refine ⟨Int.le_refl _, fun file' hf => ?_⟩
  obtain ⟨g, hg, rfl⟩ := (World.fileAt_eq_some _).1 hf
  by_cases hgf : g = f
  · subst hgf; rw [World.setFile_self]; exact .inr ⟨hc.recent, hc.lt⟩
  · rw [World.setFile_of_ne _ hgf]; exact .inl (w.fileAt_of_entry hg)

/-- A name loses its file. -/
theorem clear (loc' : Loc) : Moved w (w.setEntry loc' none) loc := by
  refine ⟨Int.le_refl _, fun file hf => ?_⟩
  obtain ⟨g, hg, rfl⟩ := (World.fileAt_eq_some _).1 hf
  by_cases hl : loc = loc'
  · subst hl; simp at hg
  · rw [World.setEntry_of_ne _ hl] at hg; exact .inl (w.fileAt_of_entry hg)

/-- A name gets a file that is changed at the moment. -/
theorem give {loc' : Loc} {f : ℕ} {t : FileTime} (hc : Fresh w.now t) :
    Moved w ((w.setEntry loc' (some f)).changed f t) loc := by
  refine ⟨Int.le_refl _, fun file hf => ?_⟩
  obtain ⟨g, hg, rfl⟩ := (World.fileAt_eq_some _).1 hf
  by_cases hgf : g = f
  · subst hgf
    exact .inr (by simpa [World.changed] using ⟨hc.recent, hc.lt⟩)
  · have hfile : ((w.setEntry loc' (some f)).changed f t).files g = w.files g :=
      World.setFile_of_ne _ hgf _
    rw [hfile]
    by_cases hl : loc = loc'
    · subst hl; simp only [World.changed_entries, World.setEntry_self, Option.some.injEq] at hg
      exact absurd hg.symm hgf
    · rw [World.changed_entries, World.setEntry_of_ne _ hl] at hg
      exact .inl (w.fileAt_of_entry hg)

/-- A name gets a new file. -/
theorem add (hsane : w.Sane) {loc' : Loc} {file : File} (hc : Fresh w.now file.ctime) :
    Moved w (w.addFile loc' file) loc := by
  refine ⟨Int.le_refl _, fun file' hf => ?_⟩
  obtain ⟨g, hg, rfl⟩ := (World.fileAt_eq_some _).1 hf
  by_cases hl : loc = loc'
  · subst hl
    rw [World.addFile_entries, Option.some.injEq] at hg
    subst hg
    rw [World.addFile_self]; exact .inr ⟨hc.recent, hc.lt⟩
  · rw [World.addFile_entries_ne _ hl] at hg
    rw [World.addFile_files _ (hsane _ _ hg)]; exact .inl (w.fileAt_of_entry hg)

end Moved

/-! ## Every step -/

/-- What every step keeps: names stand for files there are, and no name's file changes unnoticed. -/
structure Later (w w' : World h) : Prop where
  sane : w'.Sane
  next : w.next ≤ w'.next
  moved : ∀ loc, Moved w w' loc

namespace Later
variable {w w' w'' : World h}

theorem refl (hs : w.Sane) : Later w w := ⟨hs, le_rfl, Moved.refl w⟩

theorem trans (h₁ : Later w w') (h₂ : Later w' w'') : Later w w'' :=
  ⟨h₂.sane, h₁.next.trans h₂.next, fun loc => (h₁.moved loc).trans (h₂.moved loc)⟩

theorem now (hl : Later w w') : w.now ≤ w'.now := (hl.moved ⟨0, ""⟩).now

theorem wait (hs : w.Sane) (tick : ℕ) : Later w (w.wait tick) :=
  ⟨hs, le_rfl, fun _ => Moved.of_eq (by rw [World.wait_now]; omega) rfl⟩

/-- Nothing about files or names changes. -/
theorem of_eq (hs : w.Sane) (hn : w'.now = w.now) (hf : w'.files = w.files)
    (he : w'.entries = w.entries) (hx : w'.next = w.next) : Later w w' :=
  ⟨fun loc f hf' => by rw [hx]; exact hs loc f (by rw [← he]; exact hf'), hx.ge, fun loc =>
    Moved.of_eq (Int.le_of_eq hn.symm) (by rw [World.fileAt, World.fileAt, hf, he])⟩

theorem setFile (hs : w.Sane) {f : ℕ} {file : File} (hc : Fresh w.now file.ctime) :
    Later w (w.setFile f file) := ⟨hs, le_rfl, fun _ => Moved.setFile hc⟩

theorem clear (hs : w.Sane) (loc : Loc) : Later w (w.setEntry loc none) := by
  refine ⟨fun loc' f hf => ?_, le_rfl, fun _ => Moved.clear loc⟩
  by_cases hl : loc' = loc
  · subst hl; simp at hf
  · rw [World.setEntry_of_ne _ hl] at hf; exact hs loc' f hf

theorem give (hs : w.Sane) {loc : Loc} {f : ℕ} {t : FileTime} (hf : f < w.next)
    (hc : Fresh w.now t) : Later w ((w.setEntry loc (some f)).changed f t) := by
  refine ⟨fun loc' g hg => ?_, le_rfl, fun _ => Moved.give hc⟩
  by_cases hl : loc' = loc
  · subst hl
    simp only [World.changed_entries, World.setEntry_self, Option.some.injEq] at hg
    subst hg; exact hf
  · rw [World.changed_entries, World.setEntry_of_ne _ hl] at hg; exact hs loc' g hg

theorem add (hs : w.Sane) {loc : Loc} {file : File} (hc : Fresh w.now file.ctime) :
    Later w (w.addFile loc file) := by
  refine ⟨fun loc' g hg => ?_, by simp, fun _ => Moved.add hs hc⟩
  rw [World.addFile_next]
  by_cases hl : loc' = loc
  · subst hl
    rw [World.addFile_entries, Option.some.injEq] at hg; omega
  · rw [World.addFile_entries_ne _ hl] at hg
    have := hs loc' g hg; omega

end Later

/-- **A step of others** is noticed. -/
theorem Event.later {w w' : World h} (hs : w.Sane) {e : Event} (he : e.apply w = some w') :
    Later w w' := by
  cases e with
  | rewrite loc content mtime ctime =>
    rw [Event.apply, Option.bind_eq_bind, Option.bind_eq_some_iff] at he
    obtain ⟨f, -, he⟩ := he
    split_ifs at he with hc
    cases he; exact Later.setFile hs hc
  | replace loc file =>
    rw [Event.apply] at he
    split_ifs at he with hc
    cases he; exact Later.add hs hc
  | remove loc =>
    rw [Event.apply] at he
    cases he; exact Later.clear hs loc

theorem elapse_later : ∀ (events : List (ℕ × Event)) {w w' : World h}, w.Sane →
    elapse events w = some w' → Later w w'
  | [], w, w', hs, he => by cases he; exact Later.refl hs
  | (tick, e) :: rest, w, w', hs, he => by
    rw [elapse, Option.bind_eq_bind, Option.bind_eq_some_iff] at he
    obtain ⟨w₁, h₁, he⟩ := he
    have hwait := Later.wait hs tick
    have hstep := Event.later hwait.sane h₁
    exact (hwait.trans hstep).trans (elapse_later rest hstep.sane he)

theorem Choice.elapsed_later {x : Choice} {w w' : World h} (hs : w.Sane)
    (he : x.elapsed w = some w') : Later w w' := by
  rw [Choice.elapsed, Option.map_eq_some_iff] at he
  obtain ⟨w₁, h₁, rfl⟩ := he
  have hl := elapse_later _ hs h₁
  exact hl.trans (Later.wait hl.sane _)

/-- **A call** is noticed too. -/
theorem act_later {who : ℕ} {x : Choice} {c : Call h} {w w' : World h} {a : Answer c}
    (hs : w.Sane) (ha : act who x c w = some (a, w')) : Later w w' := by
  cases c with
  | createNew path =>
    rcases act_createNew ha with ⟨_, _, rfl⟩ | ⟨-, hc, -, rfl⟩
    · exact Later.refl hs
    · exact Later.add hs hc
  | write f offset bytes =>
    rcases act_write ha with ⟨_, _, rfl⟩ | ⟨hc, -, rfl⟩
    · exact Later.refl hs
    · exact Later.setFile hs hc
  | rename source target =>
    rcases act_rename ha with ⟨_, _, rfl⟩ | ⟨f, hf, -, ⟨-, rfl⟩ | ⟨-, hc, rfl⟩⟩
    · exact Later.refl hs
    · exact Later.refl hs
    · have hclear := Later.clear hs (h.locate source)
      exact hclear.trans (Later.give hclear.sane (hs _ _ hf) hc)
  | hardLink source target =>
    rcases act_hardLink ha with ⟨_, _, rfl⟩ | ⟨f, hf, -, -, hc, rfl⟩
    · exact Later.refl hs
    · exact Later.give hs (hs _ _ hf) hc
  | removeFile path =>
    rcases act_removeFile ha with ⟨_, _, rfl⟩ | ⟨f, hf, -, hc, rfl⟩
    · exact Later.refl hs
    · exact (Later.clear hs _).trans (Later.setFile (Later.clear hs _).sane hc)
  | lock path => rw [(act_lock ha).2]; exact Later.of_eq hs rfl rfl rfl rfl
  | cellLock cell => rw [(act_cellLock ha).2.2]; exact Later.of_eq hs rfl rfl rfl rfl
  | fetchAdd | unlock | cacheRefresh | cacheClaim | cacheInsert | cacheSettle | cellSet | cellUnlock =>
    cases ha; exact Later.of_eq hs rfl rfl rfl rfl
  | rest | guard | now | reserve | pathExists | cacheGet | cacheRacyResident =>
    cases ha; exact Later.refl hs
  | canonicalize | sync | fstat | createDirAll | syncDir =>
    rcases Choice.fallible_eq_some.1 ha with ⟨_, -, -, rfl⟩ | ⟨-, ha⟩
    · exact Later.refl hs
    · cases ha; exact Later.refl hs
  | openRead path => rw [(act_openRead ha).1]; exact Later.refl hs
  | stat path => rw [(act_stat ha).1]; exact Later.refl hs
  | read f offset most => rw [(act_read ha).1]; exact Later.refl hs
  | fileType path => rw [(act_fileType ha).1]; exact Later.refl hs

/-! ## What a stamp proves -/

/-- The name's file is `content`, by its identity, or it was changed after the stamp of moment `t₀`
    was taken. -/
def Justified (t₀ : ℤ) (id : SnapshotId) (loc : Loc) (w : World h) : Prop :=
  ∀ file, w.fileAt loc = some file → h.contentId file.content = id ∨
    (t₀ - racyWindow < file.ctime.nanos ∧ file.ctime.nanoseconds ≤ 999999999)

theorem Justified.moved {t₀ : ℤ} {id : SnapshotId} {loc : Loc} {w w' : World h}
    (hj : Justified t₀ id loc w) (ht : t₀ ≤ w.now) (hm : Moved w w' loc) :
    Justified t₀ id loc w' := by
  intro file hf
  rcases hm.file file hf with hf | ⟨hf, hn⟩
  · exact hj file hf
  · exact .inr ⟨by omega, hn⟩

/-- **An equal stamp that is not racy proves the content.** -/
theorem Justified.of_stamp {t₀ t : ℤ} {id : SnapshotId} {loc : Loc} {w : World h} {m : Metadata}
    {f : ℕ} (hj : Justified t₀ id loc w) (hf : w.entries loc = some f)
    (heq : (FileStamp.fromMetadata (w.metadata f) t == FileStamp.fromMetadata m t₀) = true)
    (hr : (FileStamp.fromMetadata m t₀).racy = false) :
    h.contentId (w.files f).content = id := by
  rw [FileStamp.fromMetadata_eq_iff] at heq
  rcases hj _ (w.fileAt_of_entry hf) with hj | ⟨hlt, hn⟩
  · exact hj
  · subst heq
    simp only [FileStamp.fromMetadata, Bool.or_eq_false_iff] at hr
    have := withinRacyWindow_eq_false hn hr.2
    omega

end Hashline
