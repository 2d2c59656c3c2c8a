/-
  What a persist leaves behind when any of its calls fails, and where a stamp
  cannot be decoded.
-/
import Hashline.Guard
import Hashline.Recovery

namespace Hashline

open Machine

variable {h : Host} {ε α : Type}

/-! ## The two routines -/

/-- The two ways to persist. -/
inductive Persist where
  | write (expected : Option ExpectedDestination)
  | create

namespace Persist

/-- With a guard before the rename. -/
def Guarded : Persist → Prop
  | write expected => expected.isSome
  | create => False

def run (decoder : Decoder) (path : PathBuf) (bytes : Bytes) (durability : Durability) :
    Persist → Op h PersistError (Option FileStamp)
  | write expected => decoder.atomicWrite path bytes expected durability
  | create => decoder.atomicCreate path bytes durability

end Persist

/-! ## What must not be left behind -/

/-- From `w` to `w'` no name is left that was not there, but the destination's after a success; and
    after an error what names stood for is there still. -/
structure Tidied (path : PathBuf) (r : Exec PersistError (Option FileStamp)) (w w' : World h) :
    Prop where
  litter : ∀ loc, w.entries loc = none → w'.entries loc = none ∨
    (∃ stamp, r = .ok stamp) ∧ loc = h.locate path
  intact : (∀ stamp, r ≠ .ok stamp) → ∀ loc content, w.contentAt loc = some content →
    w'.contentAt loc = some content

/-- Nobody else takes a step, and what is there can be removed. -/
def clearing : Rules h := fun _ c x => x.events.isEmpty && match c with
  | .removeFile _ => x.fault.isNone
  | _ => true

theorem clearing_quiet : (clearing : Rules h).Quiet := by
  intro s c x hr
  simp only [clearing, Bool.and_eq_true] at hr
  exact List.isEmpty_iff.1 hr.1

/-- A temporary file was to have a name that already stood for a file. -/
def Did.Collides (w : World h) (d : Did h) : Prop :=
  ∃ tempPath f, d.call = .createNew tempPath ∧ w.entries (h.locate tempPath) = some f ∧
    (w.files f).type ≠ .directory

/-- A path that was found to be there. -/
def Did.found (d : Did h) : Option PathBuf :=
  match d.call, d.answer with
  | .stat path, .ok _ => some path
  | _, _ => none

/-- Nothing goes wrong: the temporary file's name is not that of a file, and a guard can decode what it
    finds. -/
structure Spared (decoder : Decoder) (persist : Persist) (path : PathBuf) (w : World h)
    (trace : List (Did h)) : Prop where
  free : ∀ d ∈ trace, ¬d.Collides w
  decoded : persist.Guarded → (∃ e, decoder .destination = .error e) →
    ∀ d ∈ trace, d.found ≠ some path

/-! ## Where a persist stands -/

/-- The names of `w`, and that of a temporary file. -/
def World.named (w : World h) : Option (Loc × ℕ) → Loc → Option ℕ
  | none => w.entries
  | some (loc, f) => (w.setEntry loc (some f)).entries

/-- Nothing has gone wrong so far, and at most a temporary file is there that was not. `fails` tells
    that the guard would fail on what it finds. -/
structure Standing (path : PathBuf) (fails : Prop) (w : World h) (temp : Option (Loc × ℕ))
    (s : State h) : Prop where
  entries : s.world.entries = w.named temp
  next : w.next ≤ s.world.next
  content : ∀ f < w.next, (s.world.files f).content = (w.files f).content
  type : ∀ f < w.next, (s.world.files f).type = (w.files f).type
  spare : ∀ t ∈ temp, w.entries t.1 = none ∧ w.next ≤ t.2 ∧ (s.world.files t.2).type ≠ .directory
  free : ∀ d ∈ s.trace, ¬d.Collides w
  unseen : fails → ∀ d ∈ s.trace, d.found ≠ some path

/-- What has gone wrong shows: a name is lost, or one is left. -/
def Spoilt (path : PathBuf) (fails : Prop) (w : World h) (s : State h) : Prop :=
  ((∃ d ∈ s.trace, d.Collides w) ∧
    ∃ loc content, w.contentAt loc = some content ∧ s.world.entries loc = none) ∨
  ((fails ∧ ∃ d ∈ s.trace, d.found = some path) ∧
    ∃ loc, w.entries loc = none ∧ s.world.entries loc ≠ none)

/-- The destination is installed, and no other name is new. -/
structure Installed (path : PathBuf) (w : World h) (s : State h) : Prop where
  names : ∀ loc, w.entries loc = none → s.world.entries loc = none ∨ loc = h.locate path
  free : ∀ d ∈ s.trace, ¬d.Collides w

/-- Calls that leave files and their names as they are. -/
def Call.Harmless : Call h → Prop
  | .fetchAdd | .lock _ | .unlock _ => True
  | c => c.Inert

section
variable {who : ℕ} {x : Choice} {c : Call h} {w w' : World h} {a : Answer c}

theorem act_harmless (hc : c.Harmless) (ha : act who x c w = some (a, w')) :
    w'.entries = w.entries ∧ w'.files = w.files ∧ w'.next = w.next := by
  cases c with
  | fetchAdd => cases ha; exact ⟨rfl, rfl, rfl⟩
  | lock path => rw [(act_lock ha).2]; exact ⟨rfl, rfl, rfl⟩
  | unlock path => cases ha; exact ⟨rfl, rfl, rfl⟩
  | _ => rw [act_inert (by exact hc) ha]; exact ⟨rfl, rfl, rfl⟩

theorem World.changed_type (w : World h) (f : ℕ) (t : FileTime) (g : ℕ) :
    ((w.changed f t).files g).type = (w.files g).type := by
  unfold World.changed World.setFile
  by_cases hg : g = f
  · subst hg; simp
  · simp [hg]

/-- A removal that the machine does not let fail. -/
theorem act_clear {path : PathBuf} {a : Except IoError Unit} (hslash : path.slashed = false)
    (hx : x.fault = none) (ha : act who x (.removeFile path) w = some (a, w')) :
    (w' = w ∧ ∀ f, w.entries (h.locate path) = some f → (w.files f).type = .directory) ∨
      ∃ f, w.entries (h.locate path) = some f ∧ (w.files f).type ≠ .directory ∧
        w' = (w.setEntry (h.locate path) none).changed f x.ctime := by
  have hdir : ∀ f, w.entries (h.locate path) = some f →
      (w.isDirectory (h.locate path) = true ↔ (w.files f).type = .directory) := fun f hf => by
    simp [World.isDirectory, World.fileAt_of_entry _ hf]
  rcases Choice.fallible_eq_some.1 ha with ⟨e, he, -⟩ | ⟨-, ha⟩
  · rw [hx] at he; cases he
  · rcases hentry : w.entries (h.locate path) with _ | f
    · rw [World.find_of_none hentry] at ha
      cases ha
      exact .inl ⟨rfl, nofun⟩
    · rw [World.find_of_entry hslash hentry] at ha
      simp only at ha
      split_ifs at ha with hd
      · cases ha
        refine .inl ⟨rfl, fun g hg => ?_⟩
        cases hg
        exact (hdir f hentry).1 hd
      · cases ha; exact .inr ⟨f, rfl, fun he => hd ((hdir f hentry).2 he), rfl⟩

theorem Did.not_collides {d : Did h} (hd : ∀ p, d.call ≠ .createNew p) : ¬d.Collides w := by
  rintro ⟨p, -, hp, -⟩
  exact hd p hp

theorem Call.Harmless.not_collides {d : Did h} (hd : d.call.Harmless) : ¬d.Collides w :=
  Did.not_collides fun p hp => by rw [hp] at hd; exact hd.elim

theorem Did.found_eq_none {d : Did h} (hd : ∀ path, d.call ≠ .stat path) : d.found = none := by
  unfold Did.found
  split
  · rename_i path _ hc _
    exact absurd hc (hd path)
  · rfl

end

section
variable {path : PathBuf} {fails : Prop} {w : World h} {temp : Option (Loc × ℕ)} {who : ℕ}
  {s s' : State h} {d : Did h}

/-- A step that leaves files and names. -/
theorem Standing.harmless (hs : Standing path fails w temp s) (ht : s'.trace = d :: s.trace)
    (hd : ¬d.Collides w) (hent : s'.world.entries = s.world.entries)
    (hfiles : s'.world.files = s.world.files) (hnext : s'.world.next = s.world.next) {fails' : Prop}
    (hfound : fails' → fails ∧ d.found ≠ some path) : Standing path fails' w temp s' := by
  refine ⟨hent.trans hs.entries, hnext ▸ hs.next, hfiles ▸ hs.content, hfiles ▸ hs.type,
    hfiles ▸ hs.spare, ?_, fun hf => ?_⟩ <;> rw [ht]
  · exact List.forall_mem_cons.2 ⟨hd, hs.free⟩
  · exact List.forall_mem_cons.2 ⟨(hfound hf).2, hs.unseen (hfound hf).1⟩

end

section
variable {path : PathBuf} {fails : Prop} {w : World h} {temp : Option (Loc × ℕ)} {who : ℕ}
  {s : State h} {Q : Exec ε α → State h → Prop}

theorem step_harmless_standing {c : Call h} {x : Choice} {a : Answer c} {s' : State h} (hc : c.Harmless)
    (hstat : ∀ p, c ≠ .stat p) (hs : Standing path fails w temp s)
    (hst : step clearing who x c s = some (a, s')) : Standing path fails w temp s' := by
  obtain ⟨hr, w₁, hw₁, ha, ht⟩ := step_eq_some.1 hst
  rw [Choice.elapsed, clearing_quiet _ _ _ hr] at hw₁
  cases hw₁
  obtain ⟨hent, hfiles, hnext⟩ := act_harmless hc ha
  refine hs.harmless ht (Call.Harmless.not_collides hc) hent hfiles hnext fun hf => ⟨hf, ?_⟩
  rw [Did.found_eq_none hstat]
  exact (Option.some_ne_none path).symm

/-- One call that leaves files and names, and looks for nothing. -/
theorem wp_harmless (hs : Standing path fails w temp s) {c : Call h} (hc : c.Harmless)
    (hstat : ∀ p, c ≠ .stat p) {k : Answer c → Op h ε α}
    (hk : ∀ a s', Standing path fails w temp s' → (k a).wp (step clearing who) Q s') :
    (Proc.ask c >>= k).wp (step clearing who) Q s := by
  exact Proc.wp_bind.2 (Proc.wp_ask.2 fun _ a s' hst =>
    hk a s' (step_harmless_standing hc hstat hs hst))

/-- One `stat`. -/
theorem wp_stat_standing (hs : Standing path fails w temp s) {k : Except IoError Metadata → Op h ε α}
    (hok : ∀ m s', Standing path False w temp s' → (∃ d ∈ s'.trace, d.found = some path) →
      (k (.ok m)).wp (step clearing who) Q s')
    (herr : ∀ e s', Standing path fails w temp s' → (k (.error e)).wp (step clearing who) Q s') :
    (Op.stat path >>= k).wp (step clearing who) Q s := by
  refine wp_quiet (c := .stat path) clearing_quiet fun x a s' _ ha ht => ?_
  obtain ⟨hent, hfiles, hnext⟩ := act_harmless (c := .stat path) trivial ha
  change Except IoError Metadata at a
  rcases a with e | m
  · exact herr e s' (hs.harmless ht (Did.not_collides nofun) hent hfiles hnext fun hf => ⟨hf, nofun⟩)
  · refine hok m s' (hs.harmless ht (Did.not_collides nofun) hent hfiles hnext False.elim) ?_
    rw [ht]
    exact ⟨_, List.mem_cons_self, rfl⟩

theorem fromMetadata_standing (hs : Standing path fails w temp s) (decoder : Decoder)
    {stage : Decoding} {m : Metadata} : (decoder.fromMetadata stage m : Op h ε _).wp
      (step clearing who) (fun r s' => Standing path fails w temp s' ∧
        ((∃ e, decoder stage = .error e ∧ r = .ok (.error e)) ∨
          (∃ f, decoder stage = .ok f) ∧ ∃ stamp, r = .ok (.ok stamp))) s := by
  unfold Decoder.fromMetadata
  rcases decoder stage with e | f
  · exact ⟨hs, .inl ⟨e, rfl, rfl⟩⟩
  · exact wp_harmless (c := .now) hs trivial nofun fun _ _ hs' => ⟨hs', .inr ⟨⟨f, rfl⟩, _, rfl⟩⟩

/-- Given up: nothing is left, or what has gone wrong shows. -/
def PersistStopped {β : Type} (path : PathBuf) (fails : Prop) (w : World h) (r : Exec PersistError β)
    (s : State h) : Prop :=
  (∃ e, r = .error (.err e)) ∧ (Standing path fails w none s ∨ Spoilt path fails w s)

/-- After a step that may have given up. -/
theorem wp_bind_standing {β γ : Type} {x : Op h PersistError β} {k : β → Op h PersistError γ}
    {P : β → State h → Prop} {Q : Exec PersistError γ → State h → Prop}
    (hx : x.wp (step clearing who)
      (fun r s' => PersistStopped path fails w r s' ∨ ∃ b, r = .ok b ∧ P b s') s)
    (hk : ∀ b s', P b s' → (k b).wp (step clearing who) Q s')
    (hQ : ∀ r s', PersistStopped path fails w r s' → Q r s') :
    (x >>= k).wp (step clearing who) Q s := by
  refine Proc.wp_bind_stopped hx (fun b s' hr => ?_) hk fun e s' hr => ?_
  · obtain ⟨⟨_, he⟩, -⟩ := hr
    cases he
  · obtain ⟨⟨e', he⟩, hi⟩ := hr
    cases he
    exact hQ _ s' ⟨⟨e', rfl⟩, hi⟩

/-! ## The temporary file -/

/-- The name was taken: to clear up is to remove what was there. -/
structure Taken (w : World h) (loc : Loc) (s : State h) : Prop where
  entries : s.world.entries = w.entries
  type : ∀ f, w.entries loc = some f → (s.world.files f).type = (w.files f).type
  collides : ∃ d ∈ s.trace, d.Collides w
  file : ∃ f, w.entries loc = some f ∧ (w.files f).type ≠ .directory

theorem Standing.temp_entry {loc : Loc} {f : ℕ} (hs : Standing path fails w (some (loc, f)) s) :
    s.world.entries loc = some f := by
  rw [hs.entries]
  exact World.setEntry_self _ _ _

theorem Standing.other_entry {loc loc' : Loc} {f : ℕ} (hs : Standing path fails w (some (loc, f)) s)
    (hl : loc' ≠ loc) : s.world.entries loc' = w.entries loc' := by
  rw [hs.entries]
  exact World.setEntry_of_ne _ hl _

/-- The temporary file is removed. -/
theorem Standing.cleared {s' : State h} {d : Did h} {loc : Loc} {f g tick : ℕ} {t : FileTime}
    (hs : Standing path fails w (some (loc, f)) s) (ht : s'.trace = d :: s.trace)
    (hd : ∃ p, d.call = .removeFile p)
    (hw : s'.world = ((s.world.wait tick).setEntry loc none).changed g t) :
    Standing path fails w none s' := by
  obtain ⟨p, hp⟩ := hd
  have hcollides : ¬d.Collides w := Did.not_collides fun q hq => by rw [hp] at hq; cases hq
  have hfound : d.found = none := Did.found_eq_none fun q hq => by rw [hp] at hq; cases hq
  refine ⟨?_, by rw [hw]; exact hs.next, fun g hg => ?_, fun g hg => ?_, nofun, ?_, fun hf => ?_⟩
  · funext l
    rw [hw, World.changed_entries]
    by_cases hl : l = loc
    · subst hl
      rw [World.setEntry_self]
      exact (hs.spare _ rfl).1.symm
    · rw [World.setEntry_of_ne _ hl, World.wait_entries, hs.entries]
      exact World.setEntry_of_ne _ hl _
  · rw [hw, World.changed_content]
    exact hs.content g hg
  · rw [hw, World.changed_type]
    exact hs.type g hg
  · rw [ht]
    exact List.forall_mem_cons.2 ⟨hcollides, hs.free⟩
  · rw [ht]
    exact List.forall_mem_cons.2 ⟨by rw [hfound]; exact nofun, hs.unseen hf⟩

/-- What there is to clear up. -/
def Unclean (path : PathBuf) (fails : Prop) (w : World h) (loc : Loc) (s : State h) : Prop :=
  (∃ f, Standing path fails w (some (loc, f)) s) ∨
  (Standing path fails w none s ∧ ∀ f, w.entries loc = some f → (w.files f).type = .directory) ∨
  Taken w loc s

/-- The temporary file is removed, whatever else goes wrong. -/
theorem wp_discard {tempPath : PathBuf} {k : Unit → Op h ε α}
    (hk : ∀ x a s', x.fault = none →
      act who x (.removeFile tempPath) (s.world.wait x.tick) = some (a, s'.world) →
      s'.trace = ⟨who, x, .removeFile tempPath, a, s.world, s.world.wait x.tick, s'.world⟩ :: s.trace →
      (k ()).wp (step clearing who) Q s') :
    ((discard tempPath : Op h ε Unit) >>= k).wp (step clearing who) Q s := by
  refine wp_quiet (c := .removeFile tempPath) clearing_quiet fun x a s' hr ha ht => hk x a s' ?_ ha ht
  simp only [clearing, Bool.and_eq_true, Option.isNone_iff_eq_none] at hr
  exact hr.2

theorem wp_discard_standing {tempPath : PathBuf} {f : ℕ} (hslash : tempPath.slashed = false)
    (hs : Standing path fails w (some (h.locate tempPath, f)) s) {k : Unit → Op h ε α}
    (hk : ∀ s', Standing path fails w none s' → (k ()).wp (step clearing who) Q s') :
    ((discard tempPath : Op h ε Unit) >>= k).wp (step clearing who) Q s := by
  refine wp_discard fun x a s' hx ha ht => ?_
  rcases act_clear hslash hx ha with ⟨-, hd⟩ | ⟨g, -, -, hw⟩
  · exact absurd (hd f hs.temp_entry) (hs.spare _ rfl).2.2
  · exact hk s' (hs.cleared ht ⟨_, rfl⟩ hw)

/-- **Clearing up** removes what was created, or what was there. -/
theorem refuse_unclean {β : Type} (hsane : w.Sane) {tempPath : PathBuf} {error : PersistError}
    (hslash : tempPath.slashed = false) (hs : Unclean path fails w (h.locate tempPath) s) :
    (refuse tempPath error : Op h PersistError β).wp (step clearing who)
      (fun r s' => PersistStopped path fails w r s') s := by
  show ((discard tempPath : Op h PersistError Unit) >>= fun _ => Proc.fail error).wp _ _ _
  rcases hs with ⟨f, hs⟩ | ⟨hs, hdir⟩ | hs
  · exact wp_discard_standing hslash hs fun s' hs' => ⟨⟨_, rfl⟩, .inl hs'⟩
  · refine wp_discard fun x a s' hx ha ht => ⟨⟨_, rfl⟩, .inl ?_⟩
    rcases act_clear hslash hx ha with ⟨hw, -⟩ | ⟨g, hg, hplain, -⟩
    · exact hs.harmless ht (Did.not_collides nofun) (by rw [hw]; rfl) (by rw [hw]; rfl)
        (by rw [hw]; rfl) fun hf => ⟨hf, nofun⟩
    · have hg : w.entries (h.locate tempPath) = some g := by
        rw [← hg, World.wait_entries, hs.entries]; rfl
      refine absurd ?_ hplain
      rw [World.wait_files, hs.type g (hsane _ _ hg), hdir g hg]
  · refine wp_discard fun x a s' hx ha ht => ⟨⟨_, rfl⟩, .inr (.inl ?_)⟩
    obtain ⟨f, hf, hplain⟩ := hs.file
    have hentry : s.world.entries (h.locate tempPath) = some f := by rw [hs.entries, hf]
    rcases act_clear hslash hx ha with ⟨-, hd⟩ | ⟨g, -, -, hw⟩
    · refine absurd (hd f hentry) ?_
      rw [World.wait_files, hs.type f hf]
      exact hplain
    · obtain ⟨d, hd, hcol⟩ := hs.collides
      refine ⟨⟨d, by rw [ht]; exact List.mem_cons_of_mem _ hd, hcol⟩, h.locate tempPath,
        (w.files f).content, World.contentAt_of_entry _ hf, ?_⟩
      rw [hw, World.changed_entries, World.setEntry_self]

/-- No file is made: what there was is there, and the name may have been another's. -/
theorem Standing.uncreated (hsane : w.Sane) (hs : Standing path fails w none s) {tempPath : PathBuf}
    {x : Choice} {e : IoError} {s' : State h} (hw : s'.world = s.world.wait x.tick)
    (ht : s'.trace = ⟨who, x, .createNew tempPath, .error e, s.world, s.world.wait x.tick, s'.world⟩ ::
      s.trace) : Unclean path fails w (h.locate tempPath) s' := by
  by_cases hfile : ∃ f, w.entries (h.locate tempPath) = some f ∧ (w.files f).type ≠ .directory
  · obtain ⟨f, hf, hplain⟩ := hfile
    refine .inr (.inr ⟨by rw [hw]; exact hs.entries, fun g hg => ?_, ?_, f, hf, hplain⟩)
    · rw [hw, World.wait_files]
      exact hs.type g (hsane _ _ hg)
    · rw [ht]
      exact ⟨_, List.mem_cons_self, tempPath, f, rfl, hf, hplain⟩
  · have hkept : Standing path fails w none s' := by
      refine hs.harmless ht ?_ (by rw [hw]; rfl) (by rw [hw]; rfl) (by rw [hw]; rfl)
        fun hf => ⟨hf, nofun⟩
      rintro ⟨p, f, hp, hf, hplain⟩
      cases hp
      exact hfile ⟨f, hf, hplain⟩
    exact .inr (.inl ⟨hkept, fun f hf => by_contra fun hplain => hfile ⟨f, hf, hplain⟩⟩)

/-- A file of its own is made, where there was none of the name. -/
theorem Standing.created (hs : Standing path fails w none s) {tempPath : PathBuf} {x : Choice}
    {s' : State h} {file : File} (hnone : w.entries (h.locate tempPath) = none)
    (hplain : file.type ≠ .directory)
    (hw : s'.world = (s.world.wait x.tick).addFile (h.locate tempPath) file)
    (ht : s'.trace = ⟨who, x, .createNew tempPath, .ok (s.world.wait x.tick).next, s.world,
      s.world.wait x.tick, s'.world⟩ :: s.trace) :
    Standing path fails w (some (h.locate tempPath, (s.world.wait x.tick).next)) s' := by
  have hfiles : ∀ f < w.next, s'.world.files f = s.world.files f := fun f hf => by
    rw [hw]
    exact World.addFile_files (s.world.wait x.tick) (Nat.lt_of_lt_of_le hf hs.next) _ _
  refine ⟨?_, ?_, fun f hf => ?_, fun f hf => ?_, ?_, ?_, fun hf => ?_⟩
  · funext l
    rw [hw]
    by_cases hl : l = h.locate tempPath
    · subst hl
      rw [World.addFile_entries]
      exact (World.setEntry_self _ _ _).symm
    · rw [World.addFile_entries_ne _ hl, World.wait_entries, hs.entries]
      exact (World.setEntry_of_ne _ hl _).symm
  · rw [hw]
    exact Nat.le_succ_of_le hs.next
  · rw [hfiles f hf]
    exact hs.content f hf
  · rw [hfiles f hf]
    exact hs.type f hf
  · rintro _ ⟨⟩
    refine ⟨hnone, hs.next, ?_⟩
    rw [hw, World.addFile_self]
    exact hplain
  · rw [ht]
    refine List.forall_mem_cons.2 ⟨?_, hs.free⟩
    rintro ⟨p, f, hp, hf, -⟩
    cases hp
    rw [hnone] at hf; cases hf
  · rw [ht]
    exact List.forall_mem_cons.2 ⟨nofun, hs.unseen hf⟩

/-- A file of its own is made, or there is what there was. -/
theorem createNew_standing (hsane : w.Sane) (hs : Standing path fails w none s) {tempPath : PathBuf}
    {k : Except IoError ℕ → Op h ε α}
    (hok : ∀ f s', Standing path fails w (some (h.locate tempPath, f)) s' →
      (k (.ok f)).wp (step clearing who) Q s')
    (herr : ∀ e s', Unclean path fails w (h.locate tempPath) s' →
      (k (.error e)).wp (step clearing who) Q s') :
    (Op.createNew tempPath >>= k).wp (step clearing who) Q s := by
  refine wp_quiet (c := .createNew tempPath) clearing_quiet fun x a s' _ ha ht => ?_
  rcases act_createNew ha with ⟨e, rfl, hw⟩ | ⟨hnone, -, rfl, hw⟩
  · exact herr e s' (hs.uncreated hsane hw ht)
  · rw [World.wait_entries, hs.entries] at hnone
    exact hok _ s' (hs.created hnone (show FileType.regular ≠ .directory from nofun) hw ht)

/-- More of the bytes in the temporary file. -/
theorem step_write_standing {loc : Loc} {f : ℕ} {c : Call h} {x : Choice} {a : Answer c} {s' : State h}
    (hc : ∃ offset chunk, c = .write f offset chunk) (hs : Standing path fails w (some (loc, f)) s)
    (hst : step clearing who x c s = some (a, s')) : Standing path fails w (some (loc, f)) s' := by
  obtain ⟨offset, chunk, rfl⟩ := hc
  obtain ⟨hr, w₁, hw₁, ha, ht⟩ := step_eq_some.1 hst
  rw [Choice.elapsed, clearing_quiet _ _ _ hr] at hw₁
  cases hw₁
  have hcollides : ∀ {d : Did h}, d.call = .write f offset chunk → ¬d.Collides w := fun hd =>
    Did.not_collides fun p hp => by rw [hd] at hp; cases hp
  rcases act_write ha with ⟨e, -, hw⟩ | ⟨-, -, hw⟩
  · exact hs.harmless ht (hcollides rfl) (by rw [hw]; rfl) (by rw [hw]; rfl) (by rw [hw]; rfl)
      fun hf => ⟨hf, (Option.some_ne_none path).symm⟩
  · obtain ⟨hnone, hnew, hplain⟩ := hs.spare _ rfl
    have hfiles : ∀ g < w.next, s'.world.files g = s.world.files g := fun g hg => by
      rw [hw]
      exact World.setFile_of_ne _ (by simp only at hnew; omega) _
    refine ⟨by rw [hw]; exact hs.entries, by rw [hw]; exact hs.next, fun g hg => ?_, fun g hg => ?_, ?_,
      ?_, fun hf => ?_⟩
    · rw [hfiles g hg]
      exact hs.content g hg
    · rw [hfiles g hg]
      exact hs.type g hg
    · rintro _ ⟨⟩
      refine ⟨hnone, hnew, ?_⟩
      rw [hw, World.setFile_self]
      exact hplain
    · rw [ht]
      exact List.forall_mem_cons.2 ⟨hcollides rfl, hs.free⟩
    · rw [ht]
      exact List.forall_mem_cons.2 ⟨(Option.some_ne_none path).symm, hs.unseen hf⟩

theorem writeAll_all (f : ℕ) (bytes : Bytes) : ∀ rounds offset : ℕ,
    (writeAll f bytes rounds offset : Op h ε _).All fun c => ∃ offset chunk, c = .write f offset chunk
  | 0, offset => Proc.all_pure _
  | rounds + 1, offset => by
    rw [writeAll]
    split_ifs
    · exact Proc.all_pure _
    · refine Proc.All.bind (Proc.all_ask ⟨offset, bytes.drop offset, rfl⟩) fun a => ?_
      change Except IoError ℕ at a
      rcases a with e | n
      · exact Proc.all_pure _
      · exact writeAll_all f bytes rounds _

theorem flush_standing (hs : Standing path fails w temp s) {f : ℕ} (durability : Durability) :
    (flush path f durability : Op h _ _).wp (step clearing who) (fun r s' =>
      Standing path fails w temp s' ∧ r ≠ .error .panic) s := by
  have hsync : ∀ operation, (Op.sync f >>= fun r => Proc.orElse (ioErr path operation) r :
      Op h PersistError Unit).wp (step clearing who) (fun r s' =>
        Standing path fails w temp s' ∧ r ≠ .error .panic) s := fun operation =>
    wp_harmless (c := .sync f) hs trivial nofun fun a s' hs' => by
      change Except IoError Unit at a
      rcases a with e | u <;> exact ⟨hs', nofun⟩
  cases durability with
  | full => exact hsync _
  | barrier => exact hsync _
  | none => exact ⟨hs, nofun⟩

theorem writeTemp_standing (hsane : w.Sane) (hs : Standing path fails w none s) (decoder : Decoder)
    {tempPath : PathBuf} {bytes : Bytes} {durability : Durability} :
    (decoder.writeTemp tempPath path bytes durability : Op h _ _).wp (step clearing who)
      (fun r s' => (∃ e, r = .error (.err e)) ∧ Unclean path fails w (h.locate tempPath) s' ∨
        ∃ stamp f, r = .ok stamp ∧ Standing path fails w (some (h.locate tempPath, f)) s') s := by
  refine createNew_standing hsane hs (fun f s₁ hs₁ => ?_) fun e s₁ hs₁ => .inl ⟨⟨_, rfl⟩, hs₁⟩
  show Proc.wp _ (writeAll f bytes bytes.length 0 >>= _) _ _
  refine Proc.wp_bind_of (Proc.wp_of_all (writeAll_all f bytes _ _)
    (fun _ _ _ _ _ hc hi hst => step_write_standing hc hi hst) hs₁
    ((meets_writeAll (E := fun _ => False) f bytes _ _).wp s₁)) (fun r s₂ hr => ?_) fun e s₂ hr => ?_
  · rcases r with e | u
    · exact .inl ⟨⟨_, rfl⟩, .inl ⟨f, hr.2⟩⟩
    show Proc.wp _ (flush path f durability >>= _) _ _
    refine Proc.wp_bind_of (flush_standing hr.2 durability) (fun _ s₃ hr => ?_) fun e s₃ hr => ?_
    · refine wp_harmless (c := .fstat f) hr.1 trivial nofun fun a s₄ hs₄ => ?_
      change Except IoError Metadata at a
      rcases a with e | m
      · exact .inl ⟨⟨_, rfl⟩, .inl ⟨f, hs₄⟩⟩
      show Proc.wp _ (decoder.fromMetadata .temp m >>= _) _ _
      refine Proc.wp_bind_of (fromMetadata_standing hs₄ decoder) (fun r s₅ hr => ?_)
        fun e s₅ hr => by obtain ⟨-, ⟨_, -, he⟩ | ⟨-, _, he⟩⟩ := hr <;> cases he
      obtain ⟨hs₅, ⟨e, -, he⟩ | ⟨-, stamp, he⟩⟩ := hr <;> cases he
      · exact .inl ⟨⟨_, rfl⟩, .inl ⟨f, hs₅⟩⟩
      · exact .inr ⟨stamp, f, rfl, hs₅⟩
    · rcases e with e | _
      · exact .inl ⟨⟨e, rfl⟩, .inl ⟨f, hr.1⟩⟩
      · exact absurd rfl hr.2
  · rcases e with e | _
    · exact hr.1.elim
    · exact hr.1.elim

theorem writeUniqueTemp_standing (hsane : w.Sane) (hs : Standing path fails w none s)
    (decoder : Decoder) {parent : PathBuf} {bytes : Bytes} {durability : Durability} :
    (decoder.writeUniqueTemp parent path bytes durability : Op h _ _).wp (step clearing who)
      (fun r s' => PersistStopped path fails w r s' ∨ ∃ p, r = .ok p ∧
        p.1.slashed = false ∧ ∃ f, Standing path fails w (some (h.locate p.1, f)) s') s := by
  refine Proc.wp_bind_of (P := fun r s' => Standing path fails w none s' ∧
      ∃ name, r = .ok name ∧ PathBuf.isComponent name = true) ?_
    (fun name s₁ hr => ?_) fun e s₁ hr => by obtain ⟨-, _, he, -⟩ := hr; cases he
  · refine wp_harmless (c := .now) hs trivial nofun fun _ s₁ hs₁ => ?_
    exact wp_harmless (c := .fetchAdd) hs₁ trivial nofun fun _ s₂ hs₂ =>
      ⟨hs₂, _, rfl, isComponent_tempName _ _ _⟩
  · obtain ⟨hs₁, _, he, hname⟩ := hr
    cases he
    have hslash := PathBuf.slashed_join parent hname
    refine Proc.wp_attempt_of (writeTemp_standing hsane hs₁ decoder) (fun stamp s₂ hr₂ => ?_)
      (fun e s₂ hr₂ => ?_) fun s₂ hr₂ => ?_
    · rcases hr₂ with ⟨⟨_, he⟩, -⟩ | ⟨_, f, he, hs₂⟩ <;> cases he
      exact .inr ⟨_, rfl, hslash, f, hs₂⟩
    · rcases hr₂ with ⟨-, hs₂⟩ | ⟨_, _, he, -⟩
      · exact Proc.wp_mono (refuse_unclean hsane hslash hs₂) fun _ _ hr => .inl hr
      · cases he
    · rcases hr₂ with ⟨⟨_, he⟩, -⟩ | ⟨_, _, he, -⟩ <;> cases he

/-! ## The guard -/

theorem destinationUnchanged_standing (hsane : w.Sane) {tempPath : PathBuf} {f : ℕ}
    (hslash : tempPath.slashed = false)
    (hs : Standing path fails w (some (h.locate tempPath, f)) s) {expected : ExpectedDestination} :
    (destinationUnchanged path tempPath expected : Op h _ _).wp (step clearing who) (fun r s' =>
      PersistStopped path fails w r s' ∨ ∃ b, r = .ok b ∧
        Standing path fails w (some (h.locate tempPath, f)) s') s := by
  have hrefuse : ∀ {s₁} (_ : Standing path fails w (some (h.locate tempPath, f)) s₁)
      (error : PersistError), (refuse tempPath error : Op h PersistError Bool).wp (step clearing who)
        (fun r s' => PersistStopped path fails w r s' ∨ ∃ b, r = .ok b ∧
          Standing path fails w (some (h.locate tempPath, f)) s') s₁ := fun hs₁ error =>
    Proc.wp_mono (refuse_unclean hsane hslash (.inl ⟨f, hs₁⟩)) fun _ _ hr => .inl hr
  refine wp_harmless (c := .openRead path) hs trivial nofun fun a s₁ hs₁ => ?_
  change Except IoError ℕ at a
  rcases a with e | g
  · show Proc.wp _ (if e.kind = .notFound then _ else _) _ _
    split_ifs
    · exact .inr ⟨_, rfl, hs₁⟩
    · exact hrefuse hs₁ _
  · refine Proc.wp_bind_of (Proc.wp_of_all (readToEnd_all g _ _ _) (fun _ _ _ _ _ hc hi hst => ?_) hs₁
      ((meets_readToEnd (E := fun _ => False) _ _).wp s₁)) (fun r s₂ hr => ?_) fun e s₂ hr => ?_
    · obtain ⟨_, _, rfl⟩ := hc
      exact step_harmless_standing (c := .read ..) trivial nofun hi hst
    · rcases r with e | destination
      · exact hrefuse hr.2 _
      · exact .inr ⟨_, rfl, hr.2⟩
    · rcases e with e | _ <;> exact hr.1.elim

/-- **The guard** lets through or clears up, where it can decode the stamp. -/
theorem checkDestination_standing (hsane : w.Sane) {tempPath : PathBuf} {f : ℕ}
    (hslash : tempPath.slashed = false)
    (hs : Standing path fails w (some (h.locate tempPath, f)) s) {decoder : Decoder}
    (hfails : fails ↔ ∃ e, decoder .destination = .error e) {expected : ExpectedDestination} :
    (decoder.checkDestination path tempPath expected : Op h _ _).wp (step clearing who) (fun r s' =>
      PersistStopped path fails w r s' ∨ ∃ u, r = .ok u ∧ ¬fails ∧
        Standing path fails w (some (h.locate tempPath, f)) s') s := by
  have hrefuse : ∀ {s₁} (_ : Standing path fails w (some (h.locate tempPath, f)) s₁)
      (error : PersistError), (refuse tempPath error : Op h PersistError Unit).wp (step clearing who)
        (fun r s' => PersistStopped path fails w r s' ∨ ∃ u, r = .ok u ∧ ¬fails ∧
          Standing path fails w (some (h.locate tempPath, f)) s') s₁ := fun hs₁ error =>
    Proc.wp_mono (refuse_unclean hsane hslash (.inl ⟨f, hs₁⟩)) fun _ _ hr => .inl hr
  refine wp_harmless (c := .guard path expected.stamp expected.contentId) hs trivial nofun
    fun _ s₁ hs₁ => wp_stat_standing hs₁ (fun m s₂ hs₂ hfound => ?_) fun e s₂ hs₂ => ?_
  · show Proc.wp _ (decoder.fromMetadata .destination m >>= _) _ _
    unfold Decoder.fromMetadata
    rcases hdecoder : decoder .destination with e | stamp
    · -- the temporary file stays
      refine .inl ⟨⟨_, rfl⟩, .inr (.inr ⟨⟨hfails.2 ⟨e, hdecoder⟩, hfound⟩, h.locate tempPath, ?_, ?_⟩)⟩
      · exact (hs₂.spare _ rfl).1
      · rw [hs₂.entries]
        exact fun hnone => by cases (World.setEntry_self _ _ _).symm.trans hnone
    · have hno : ¬fails := fun hf => by
        obtain ⟨e, he⟩ := hfails.1 hf
        rw [hdecoder] at he; cases he
      refine wp_harmless (c := .now) hs₂ trivial nofun fun t s₃ hs₃ => ?_
      replace hs₃ : Standing path fails w (some (h.locate tempPath, f)) s₃ :=
        { hs₃ with unseen := fun hf => absurd hf hno }
      show Proc.wp _ (if stamp m t != expected.stamp then _ else _) _ _
      split_ifs
      · exact hrefuse hs₃ _
      · refine wp_bind_standing (destinationUnchanged_standing hsane hslash hs₃) (fun b s₄ hs₄ => ?_)
          fun r s' hr => .inl hr
        cases b with
        | true => exact .inr ⟨(), rfl, hno, hs₄⟩
        | false => exact hrefuse hs₄ _
      · exact .inr ⟨(), rfl, hno, hs₃⟩
  · show Proc.wp _ (if e.kind = .notFound then _ else _) _ _
    split_ifs <;> exact hrefuse hs₂ _

/-! ## The rename and the link -/

/-- One call that leaves files and names. -/
theorem wp_installed (hi : Installed path w s) {c : Call h} (hc : c.Harmless) {k : Answer c → Op h ε α}
    (hk : ∀ a s', Installed path w s' → (k a).wp (step clearing who) Q s') :
    (Proc.ask c >>= k).wp (step clearing who) Q s := by
  refine wp_quiet clearing_quiet fun x a s' _ ha ht => hk a s' ⟨?_, ?_⟩
  · rw [(act_harmless hc ha).1]
    exact hi.names
  · rw [ht]
    exact List.forall_mem_cons.2 ⟨Call.Harmless.not_collides hc, hi.free⟩

/-- After the rename or the link nothing fails, and nothing is left. -/
theorem afterInstall_installed (hi : Installed path w s) (decoder : Decoder) {stamp : FileStamp}
    {durability : Durability} : (decoder.afterInstall path stamp durability : Op h PersistError _).wp
      (step clearing who) (fun r s' => (∃ o, r = .ok o) ∧ Installed path w s') s := by
  have hconfirm : ∀ {s₁}, Installed path w s₁ → (decoder.confirmStamp path stamp :
      Op h PersistError _).wp (step clearing who)
        (fun r s' => (∃ o, r = .ok o) ∧ Installed path w s') s₁ := by
    refine fun hi₁ => wp_installed (c := .stat path) hi₁ trivial fun a s₂ hi₂ => ?_
    change Except IoError Metadata at a
    rcases a with e | m
    · exact ⟨⟨_, rfl⟩, hi₂⟩
    · show Proc.wp _ (decoder.fromMetadata .confirmed m >>= _) _ _
      unfold Decoder.fromMetadata
      rcases decoder .confirmed with e | f
      · exact ⟨⟨_, rfl⟩, hi₂⟩
      · exact wp_installed (c := .now) hi₂ trivial fun _ s₃ hi₃ => ⟨⟨_, rfl⟩, hi₃⟩
  unfold Decoder.afterInstall
  split_ifs
  · exact wp_installed (c := .syncDir (h.parentOf path)) hi trivial fun _ s₁ hi₁ => hconfirm hi₁
  · exact hconfirm hi

/-- Given up, or done. -/
def PersistEnded (path : PathBuf) (fails : Prop) (w : World h)
    (r : Exec PersistError (Option FileStamp)) (s : State h) : Prop :=
  PersistStopped path fails w r s ∨ (∃ o, r = .ok o) ∧ ¬fails ∧ Installed path w s

section
variable {tempPath : PathBuf} {f : ℕ} {s' : State h} {d : Did h} {tick : ℕ}

/-- Where only the temporary name is gone, and only the destination new, all is well. -/
theorem Standing.installed (hs : Standing path fails w (some (h.locate tempPath, f)) s)
    (hfree : ∀ d ∈ s'.trace, ¬d.Collides w) (hent : ∀ loc, loc ≠ h.locate path →
      loc ≠ h.locate tempPath → s'.world.entries loc = s.world.entries loc)
    (htemp : h.locate tempPath ≠ h.locate path → s'.world.entries (h.locate tempPath) = none) :
    Installed path w s' := by
  refine ⟨fun loc hloc => ?_, hfree⟩
  by_cases hpath : loc = h.locate path
  · exact .inr hpath
  · by_cases hl : loc = h.locate tempPath
    · subst hl
      exact .inl (htemp hpath)
    · rw [hent loc hpath hl, hs.other_entry hl]
      exact .inl hloc

theorem renameInto_ended (hsane : w.Sane) (hslash : tempPath.slashed = false) (hno : ¬fails)
    (decoder : Decoder)
    (hs : Standing path fails w (some (h.locate tempPath, f)) s) {stamp : FileStamp}
    {durability : Durability} : (Op.rename tempPath path >>= fun r => match r with
      | .ok () => decoder.afterInstall path stamp durability
      | .error source => refuse tempPath (ioErr path "rename into" source) :
      Op h PersistError _).wp (step clearing who) (PersistEnded path fails w) s := by
  refine wp_quiet (c := .rename tempPath path) clearing_quiet fun x a s₁ _ ha ht => ?_
  rcases act_rename ha with ⟨e, rfl, hw⟩ | ⟨g, hg, rfl, hw⟩
  · have hs₁ : Standing path fails w (some (h.locate tempPath, f)) s₁ :=
      hs.harmless ht (Did.not_collides nofun) (by rw [hw]; rfl) (by rw [hw]; rfl) (by rw [hw]; rfl)
        fun hf => absurd hf hno
    exact Proc.wp_mono (refuse_unclean hsane hslash (.inl ⟨f, hs₁⟩)) fun _ _ hr => .inl hr
  · have hfree : ∀ d ∈ s₁.trace, ¬d.Collides w := by
      rw [ht]
      exact List.forall_mem_cons.2 ⟨Did.not_collides nofun, hs.free⟩
    have hinstalled : Installed path w s₁ := by
      rcases hw with ⟨hsame, hw⟩ | ⟨hne, -, hw⟩
      · refine hs.installed hfree (fun loc _ _ => by rw [hw]; rfl) fun hne => ?_
        -- a file of the call has no name that was there before
        rw [World.wait_entries, hs.temp_entry] at hg
        rw [World.wait_entries, hs.other_entry (Ne.symm hne), ← hg] at hsame
        have hlt := hsane _ _ hsame
        have hle : w.next ≤ f := (hs.spare _ rfl).2.1
        omega
      · refine hs.installed hfree (fun loc hpath hl => ?_) fun hne => ?_
        · rw [hw, World.changed_entries, World.setEntry_of_ne _ hpath, World.setEntry_of_ne _ hl]; rfl
        · rw [hw, World.changed_entries, World.setEntry_of_ne _ hne, World.setEntry_self]
    exact Proc.wp_mono (afterInstall_installed hinstalled decoder) fun _ _ hr => .inr ⟨hr.1, hno, hr.2⟩

/-- The link of `atomic_create`, the removal of the temporary name, and what follows them. -/
theorem linkInto_ended (hslash : tempPath.slashed = false) (hno : ¬fails) (decoder : Decoder)
    (hs : Standing path fails w (some (h.locate tempPath, f)) s) {stamp : FileStamp}
    {durability : Durability} : (do
      let linked ← Op.hardLink tempPath path
      discard tempPath
      match linked with
      | .ok () => decoder.afterInstall path stamp durability
      | .error source =>
        if source.kind = .alreadyExists then Proc.fail (.destinationExists path.display)
        else Proc.fail (ioErr path "link into" source) :
      Op h PersistError _).wp (step clearing who) (PersistEnded path fails w) s := by
  refine wp_quiet (c := .hardLink tempPath path) clearing_quiet fun x a s₁ _ ha ht => ?_
  rcases act_hardLink ha with ⟨e, rfl, hw⟩ | ⟨g, hg, hnone, rfl, -, hw⟩
  · have hs₁ : Standing path fails w (some (h.locate tempPath, f)) s₁ :=
      hs.harmless ht (Did.not_collides nofun) (by rw [hw]; rfl) (by rw [hw]; rfl) (by rw [hw]; rfl)
        fun hf => absurd hf hno
    refine wp_discard_standing hslash hs₁ fun s₂ hs₂ => ?_
    show Proc.wp _ (if e.kind = .alreadyExists then _ else _) _ _
    split_ifs <;> exact .inl ⟨⟨_, rfl⟩, .inl hs₂⟩
  · rw [World.wait_entries] at hg hnone
    have hne : h.locate tempPath ≠ h.locate path := fun heq => by
      rw [heq, hnone] at hg; cases hg
    refine wp_discard fun y b s₂ hy hb ht₂ => ?_
    have hfree : ∀ d ∈ s₂.trace, ¬d.Collides w := by
      rw [ht₂, ht]
      exact List.forall_mem_cons.2 ⟨Did.not_collides nofun,
        List.forall_mem_cons.2 ⟨Did.not_collides nofun, hs.free⟩⟩
    have hentry : ∀ loc, loc ≠ h.locate path → s₁.world.entries loc = s.world.entries loc :=
      fun loc hl => by rw [hw, World.changed_entries, World.setEntry_of_ne _ hl]; rfl
    have htype : (s₁.world.files f).type ≠ .directory := by
      rw [hw, World.changed_type]
      exact (hs.spare _ rfl).2.2
    have hinstalled : Installed path w s₂ := by
      rcases act_clear hslash hy hb with ⟨-, hd⟩ | ⟨g', -, -, hw₂⟩
      · exact absurd (hd f (by rw [World.wait_entries, hentry _ hne, hs.temp_entry])) htype
      · refine hs.installed hfree (fun loc hpath hl => ?_) fun _ => ?_
        · rw [hw₂, World.changed_entries, World.setEntry_of_ne _ hl, World.wait_entries,
            hentry loc hpath]
        · rw [hw₂, World.changed_entries, World.setEntry_self]
    exact Proc.wp_mono (afterInstall_installed hinstalled decoder) fun _ _ hr => .inr ⟨hr.1, hno, hr.2⟩

end

/-! ## Persisting -/

theorem createParentOf_standing (hs : Standing path fails w none s) :
    (createParentOf path : Op h _ _).wp (step clearing who) (fun r s' =>
      PersistStopped path fails w r s' ∨ ∃ u, r = .ok u ∧ Standing path fails w none s') s := by
  unfold createParentOf
  rcases path.parent with _ | parent
  · exact .inr ⟨(), rfl, hs⟩
  · refine wp_harmless (c := .createDirAll parent) hs trivial nofun fun a s' hs' => ?_
    change Except IoError Unit at a
    rcases a with e | u
    · exact .inl ⟨⟨_, rfl⟩, .inl hs'⟩
    · exact .inr ⟨u, rfl, hs'⟩

variable {decoder : Decoder} {bytes : Bytes} {durability : Durability}

theorem writeLocked_ended (hsane : w.Sane) (hs : Standing path fails w none s)
    {expected : Option ExpectedDestination}
    (hfails : fails ↔ expected.isSome ∧ ∃ e, decoder .destination = .error e) :
    (decoder.writeLocked path bytes expected durability : Op h _ _).wp (step clearing who)
      (PersistEnded path fails w) s := by
  refine wp_bind_standing (createParentOf_standing hs) (fun _ s₁ hs₁ => ?_) fun r s' hr => .inl hr
  refine wp_bind_standing (writeUniqueTemp_standing hsane hs₁ decoder) (fun p s₂ hs₂ => ?_)
    fun r s' hr => .inl hr
  obtain ⟨hslash, f, hs₂⟩ := hs₂
  rcases expected with _ | expected
  · exact renameInto_ended hsane hslash (fun hf => by cases (hfails.1 hf).1) decoder hs₂
  · refine wp_bind_standing (checkDestination_standing hsane hslash hs₂ (hfails.trans (by simp)))
      (fun _ s₃ hs₃ => ?_) fun r s' hr => .inl hr
    exact renameInto_ended hsane hslash hs₃.1 decoder hs₃.2

theorem createLocked_ended (hsane : w.Sane) (hs : Standing path fails w none s) (hno : ¬fails) :
    (decoder.createLocked path bytes durability : Op h _ _).wp (step clearing who)
      (PersistEnded path fails w) s := by
  refine wp_bind_standing (createParentOf_standing hs) (fun _ s₁ hs₁ => ?_) fun r s' hr => .inl hr
  refine wp_bind_standing (writeUniqueTemp_standing hsane hs₁ decoder) (fun p s₂ hs₂ => ?_)
    fun r s' hr => .inl hr
  obtain ⟨hslash, f, hs₂⟩ := hs₂
  exact linkInto_ended hslash hno decoder hs₂

/-- Giving the lock back changes nothing of this. -/
theorem PersistEnded.unlocked {r : Exec PersistError (Option FileStamp)} {s' : State h} {d : Did h}
    (hr : PersistEnded path fails w r s) (ht : s'.trace = d :: s.trace) (hd : d.call = .unlock path.components)
    (hent : s'.world.entries = s.world.entries) (hfiles : s'.world.files = s.world.files)
    (hnext : s'.world.next = s.world.next) : PersistEnded path fails w r s' := by
  have hcollides : ¬d.Collides w := Did.not_collides fun p hp => by rw [hd] at hp; cases hp
  have hfound : d.found = none := Did.found_eq_none fun p hp => by rw [hd] at hp; cases hp
  have hmem : ∀ d ∈ s.trace, d ∈ s'.trace := fun d hd => by rw [ht]; exact List.mem_cons_of_mem _ hd
  rcases hr with ⟨he, hs | hs⟩ | ⟨ho, hno, hi⟩
  · exact .inl ⟨he, .inl (hs.harmless ht hcollides hent hfiles hnext
      fun hf => ⟨hf, by rw [hfound]; exact nofun⟩)⟩
  · refine .inl ⟨he, .inr ?_⟩
    rcases hs with ⟨⟨d, hd, hcol⟩, hlost⟩ | ⟨⟨hf, d, hd, hfound⟩, hleft⟩
    · exact .inl ⟨⟨d, hmem d hd, hcol⟩, by rw [hent]; exact hlost⟩
    · exact .inr ⟨⟨hf, d, hmem d hd, hfound⟩, by rw [hent]; exact hleft⟩
  · refine .inr ⟨ho, hno, by rw [hent]; exact hi.names, ?_⟩
    rw [ht]
    exact List.forall_mem_cons.2 ⟨hcollides, hi.free⟩

theorem withPathLock_ended {x : Op h PersistError (Option FileStamp)}
    (hx : ∀ s, Standing path fails w none s → x.wp (step clearing who) (PersistEnded path fails w) s)
    (hs : Standing path fails w none s) :
    (withPathLock path x).wp (step clearing who) (PersistEnded path fails w) s := by
  refine wp_harmless (c := .lock path.components) hs trivial nofun fun _ s₁ hs₁ => ?_
  have hunlock : ∀ (r : Except PersistError (Option FileStamp)) s₂,
      PersistEnded path fails w (match r with | .ok o => .ok o | .error e => .error (.err e)) s₂ →
      (Op.unlock path >>= fun _ => Proc.orElse id r : Op h PersistError _).wp (step clearing who)
        (PersistEnded path fails w) s₂ := fun r s₂ hr => by
    refine wp_quiet (c := .unlock path.components) clearing_quiet fun y a s₃ _ ha ht => ?_
    obtain ⟨hent, hfiles, hnext⟩ := act_harmless (c := .unlock path.components) trivial ha
    rcases r with e | o <;> exact hr.unlocked ht rfl hent hfiles hnext
  refine Proc.wp_attempt_bind.2 (Proc.wp_mono (hx s₁ hs₁) fun r s₂ hr => ?_)
  rcases r with (e | _) | o
  · exact hunlock (.error e) s₂ hr
  · rcases hr with ⟨⟨_, he⟩, -⟩ | ⟨⟨_, he⟩, -⟩ <;> cases he
  · exact hunlock (.ok o) s₂ hr

/-- **What a persist ends in.** -/
theorem PersistEnded.tidied (hsane : w.Sane) {persist : Persist}
    {r : Exec PersistError (Option FileStamp)}
    (hr : PersistEnded path (persist.Guarded ∧ ∃ e, decoder .destination = .error e) w r s) :
    Tidied path r w s.world ↔ Spared decoder persist path w s.trace := by
  rcases hr with ⟨⟨e, rfl⟩, hs | hs⟩ | ⟨⟨o, rfl⟩, hno, hi⟩
  · refine iff_of_true ⟨fun loc hloc => .inl ?_, fun _ loc content hc => ?_⟩
      ⟨hs.free, fun hg he => hs.unseen ⟨hg, he⟩⟩
    · rw [hs.entries]; exact hloc
    · obtain ⟨f, hf, hcontent⟩ := (World.contentAt_eq_some _).1 hc
      refine (World.contentAt_eq_some _).2 ⟨f, by rw [hs.entries]; exact hf, ?_⟩
      rw [hs.content f (hsane _ _ hf), hcontent]
  · refine iff_of_false (fun ht => ?_) fun hspared => ?_
    · rcases hs with ⟨-, loc, content, hc, hn⟩ | ⟨-, loc, hn, hc⟩
      · obtain ⟨f, hf, -⟩ := (World.contentAt_eq_some _).1 (ht.intact nofun loc content hc)
        rw [hn] at hf; cases hf
      · rcases ht.litter loc hn with hn | ⟨⟨_, he⟩, -⟩
        · exact hc hn
        · cases he
    · rcases hs with ⟨⟨d, hd, hcol⟩, -⟩ | ⟨⟨⟨hg, he⟩, d, hd, hfound⟩, -⟩
      · exact hspared.free d hd hcol
      · exact hspared.decoded hg he d hd hfound
  · refine iff_of_true ⟨fun loc hloc => ?_, fun hno => absurd rfl (hno o)⟩
      ⟨hi.free, fun hg he => absurd ⟨hg, he⟩ hno⟩
    exact (hi.names loc hloc).imp_right fun hl => ⟨⟨o, rfl⟩, hl⟩

/-- **Failed persists leave no litter**: whichever calls fail, no temporary file is left, and after an
    error what was there is there still, if and only if the temporary file is not given the name of a
    file, and the guard can decode the stamp of the destination it finds. -/
theorem persist_tidied {w : World h} (hsane : w.Sane) {persist : Persist} {xs : List Choice}
    {s' : State h} {r : Exec PersistError (Option FileStamp)}
    (hrun : Prog.runs (step clearing who) xs
      (persist.run decoder path bytes durability, (⟨w, []⟩ : State h)) = some (.ret r, s')) :
    Tidied path r w s'.world ↔ Spared decoder persist path w s'.trace := by
  have hstart : Standing path (persist.Guarded ∧ ∃ e, decoder .destination = .error e) w none
      (⟨w, []⟩ : State h) :=
    ⟨rfl, le_rfl, fun _ _ => rfl, fun _ _ => rfl, nofun, fun _ hd => absurd hd List.not_mem_nil,
      fun _ _ hd => absurd hd List.not_mem_nil⟩
  have hended : (persist.run decoder path bytes durability : Op h _ _).wp (step clearing who)
      (PersistEnded path (persist.Guarded ∧ ∃ e, decoder .destination = .error e) w) ⟨w, []⟩ := by
    cases persist with
    | write expected =>
      refine withPathLock_ended (fun s hs => writeLocked_ended hsane hs ?_) hstart
      exact Iff.rfl
    | create =>
      have hno : ¬(Persist.create.Guarded ∧ ∃ e, decoder .destination = .error e) := fun hf => hf.1
      exact withPathLock_ended (fun s hs => createLocked_ended hsane hs hno) hstart
  exact (Proc.wp_runs hended hrun).tidied hsane

end

/-- The link fails, and the temporary file is gone. -/
theorem persist_tidied_unlinked : ∃ e s',
    Prog.runs (step clearing 0)
      (List.replicate 8 ({} : Choice) ++ { fault := some .noSuchFile } ::
        List.replicate 2 ({} : Choice))
      (Persist.create.run .unix ["w", "f"] [98] .none,
        (⟨.sample ["w", "f"] none, []⟩ : State Host.sample)) = some (.ret (.error e), s') ∧
      Tidied ["w", "f"] (.error e) (.sample ["w", "f"] none) s'.world := by
  have hrun : ∃ e s', Prog.runs (step clearing 0)
      (List.replicate 8 ({} : Choice) ++ { fault := some .noSuchFile } ::
        List.replicate 2 ({} : Choice))
      (Persist.create.run .unix ["w", "f"] [98] .none,
        (⟨.sample ["w", "f"] none, []⟩ : State Host.sample)) = some (.ret (.error e), s') :=
    ⟨_, _, rfl⟩
  obtain ⟨e, s', hrun⟩ := hrun
  refine ⟨e, s', hrun, (persist_tidied (World.sample_sane _ _) hrun).2 ⟨?_, fun hg => hg.elim⟩⟩
  rintro d - ⟨p, f, -, hf, -⟩
  simp [World.sample] at hf

/-- `metadata.modified()` fails in the guard. -/
def Decoder.blind : Decoder := .other fun
  | .destination => .error ⟨.other, "operation not supported on this platform"⟩
  | _ => .ok ⟨0, 0⟩

/-- The guard cannot decode the destination's stamp, and the temporary file stays; or a file has the
    temporary file's name, and is removed. -/
theorem persist_littered :
    (∃ e s', Prog.runs (step clearing 0) (List.replicate 11 {})
      ((Persist.write (some (.sample ["w", "f"]))).run .blind ["w", "f"] [98] .none,
        (⟨.sample ["w", "f"] (some [97]), []⟩ : State Host.sample)) = some (.ret (.error e), s') ∧
      ¬Tidied ["w", "f"] (.error e) (.sample ["w", "f"] (some [97])) s'.world) ∧
    ∃ e s', Prog.runs (step clearing 0) (List.replicate 7 {})
      (Persist.create.run .unix ["w", "f"] [98] .none,
        (⟨.sample ["w", tempName 7 0 0] (some [97]), []⟩ : State Host.sample)) =
          some (.ret (.error e), s') ∧
      ¬Tidied ["w", "f"] (.error e) (.sample ["w", tempName 7 0 0] (some [97])) s'.world := by
  refine ⟨⟨_, _, rfl, fun ht => ?_⟩, _, _, rfl, fun ht => ?_⟩
  · rcases ht.litter (Host.sample.locate ["w", tempName 7 0 0]) (by decide) with hn | ⟨⟨_, he⟩, -⟩
    · exact absurd hn (by decide)
    · cases he
  · have hcontent := ht.intact nofun (Host.sample.locate ["w", tempName 7 0 0]) [97] (by decide)
    exact absurd hcontent (by decide)

end Hashline
