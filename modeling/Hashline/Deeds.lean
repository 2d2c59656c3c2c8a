/-
  The calls a mutation makes, each by what its thread has afterwards: a name, a
  file, more of its bytes, and the destination.
-/
import Hashline.Moves
import Hashline.Quiet

namespace Hashline

open Machine

variable {h : Host} {n : ℕ} {ε α : Type}

/-- Nobody else takes a step, no call fails as if there were no file, and a new file has an inode that no
    file had. -/
structure Rules.Closed (rules : Rules h) : Prop where
  calm : ∀ s c x, rules s c x = true → x.events = []
  honest : ∀ s c x, rules s c x = true → ¬x.Lies
  inode : ∀ s path x, rules s (.createNew path) x = true → ∀ f, f < s.world.next →
    (s.world.files f).inode ≠ x.inode

/-- Calls that leave files and names, and the locks. -/
def Call.Idle : Call h → Prop
  | .lock _ | .unlock _ => False
  | c => c.Aside

/-- Those that share nothing with others. -/
def Call.Modest : Call h → Prop
  | .cacheRefresh .. | .cacheInsert .. | .cellSet .. => False
  | c => c.Idle

theorem Call.Calm.modest {c : Call h} (hc : c.Calm) : c.Modest := by
  cases c with
  | cacheRefresh | cacheInsert | cellSet => exact hc.elim
  | _ => trivial

section
variable {who : ℕ} {x : Choice} {w w' : World h}

theorem act_idle {c : Call h} {a : Answer c} (hc : c.Idle) (ha : act who x c w = some (a, w')) :
    w'.entries = w.entries ∧ w'.files = w.files ∧ w'.counter = w.counter ∧ w'.next = w.next ∧
      w'.locks = w.locks := by
  have haside : c.Aside := by
    cases c <;> first | exact hc.elim | exact hc
  obtain ⟨he, hf, hn, hx⟩ := act_aside haside ha
  refine ⟨he, hf, hn, hx, ?_⟩
  cases c with
  | lock | unlock | fetchAdd | createNew | write | rename | hardLink | removeFile => exact hc.elim
  | cellLock cell => rw [(act_cellLock ha).2.2]; rfl
  | cacheGet | cacheRacyResident | cacheRefresh | cacheClaim | cacheInsert | cacheSettle | cellSet
  | cellUnlock => cases ha; rfl
  | _ =>
    have hw : w' = w := act_inert (by exact hc) ha
    rw [hw]

theorem act_unlock {path : PathBuf} {a : Unit} (ha : act who x (.unlock path) w = some (a, w')) :
    w' = { w with locks := fun p => if p = path then none else w.locks p } := by
  cases ha
  rfl

theorem act_fetchAdd {a : ℕ} (ha : act who x .fetchAdd w = some (a, w')) :
    a = w.counter ∧ w' = { w with counter := w.counter + 1 } := by
  cases ha
  exact ⟨rfl, rfl⟩

end

namespace Service

/-- Thread `i` makes the call, and nothing but time goes before it. -/
structure Makes (i : Fin n) (x : Choice) (c : Call h) (a : Answer c) (s s' : State h) : Prop where
  act : Hashline.act i x c (s.world.wait x.tick) = some (a, s'.world)
  trace : s'.trace = ⟨i, x, c, a, s.world, s.world.wait x.tick, s'.world⟩ :: s.trace

variable {V : Service h n} {i : Fin n} {s s' : State h} {x : Choice} {c : Call h} {a : Answer c}

theorem Makes.shared (hm : Makes i x c a s s') (hf : c.Faithful) (hs : s.Shared) : s'.Shared :=
  hs.act hf (w := s.world.wait x.tick) rfl rfl rfl hm.act hm.trace

/-- A call that leaves files and names. -/
theorem Makes.still (hm : Makes i x c a s s') (hi : V.Inv s) (he : s'.world.entries = s.world.entries)
    (hf : s'.world.files = s.world.files) (hn : s'.world.next = s.world.next)
    (hc : s'.world.counter = s.world.counter)
    (htook : Did.took ⟨i, x, c, a, s.world, s.world.wait x.tick, s'.world⟩ = none)
    (hd : Did.install ⟨i, x, c, a, s.world, s.world.wait x.tick, s'.world⟩ = none)
    (hw : ∀ f offset bytes, c ≠ .write f offset bytes) (hfaith : c.Faithful)
    (hh : V.Honest ⟨i, x, c, a, s.world, s.world.wait x.tick, s'.world⟩ s) :
    V.Inv s' ∧ ∀ j, (∀ p, V.path j = some p → s.world.locks p.components = some j.val →
      s'.world.locks p.components = some j.val) → V.Keeps j s s' := by
  have howns : ∀ k e, s'.Owns k e ↔ s.Owns k e := fun k e => by simp [owns_cons hm.trace, htook]
  have hw' : ∀ f, ¬Did.writes ⟨i, x, c, a, s.world, s.world.wait x.tick, s'.world⟩ f := fun f hwf => by
    cases c with
    | write g offset bytes => exact hw g offset bytes rfl
    | _ => exact hwf
  refine ⟨hi.still hm.trace rfl he hf hn hc.ge (fun k k' e hk hk' => ?_) (fun k e hk => ?_) hd hw' rfl hh
    fun hb => hm.shared hfaith (hi.shared hb),
    fun j hlock => .still hm.trace rfl he hf (fun e => (howns j e).2) hlock hd hw'⟩
  · exact hi.owner k k' e ((howns k e).1 hk) ((howns k' e).1 hk')
  · rw [hc]
    exact hi.taken k e ((howns k e).1 hk)

/-- A call without effect. -/
theorem Makes.vain (hm : Makes i x c a s s') (hi : V.Inv s) (hw : s'.world = s.world.wait x.tick)
    (htook : Did.took ⟨i, x, c, a, s.world, s.world.wait x.tick, s'.world⟩ = none)
    (hd : Did.install ⟨i, x, c, a, s.world, s.world.wait x.tick, s'.world⟩ = none)
    (hwrite : ∀ f offset bytes, c ≠ .write f offset bytes) (hun : c.Unshared) :
    V.Inv s' ∧ ∀ j, V.Keeps j s s' := by
  obtain ⟨hi', hk⟩ := hm.still hi (by rw [hw]; rfl) (by rw [hw]; rfl) (by rw [hw]; rfl) (by rw [hw]; rfl)
    htook hd hwrite hun.faithful (honest_of_unshared hun)
  refine ⟨hi', fun j => hk j fun p _ hl => ?_⟩
  rw [hw]
  exact hl

/-- **A call that leaves files, names and locks**, and shares what it may. -/
theorem Makes.idle (hm : Makes i x c a s s') (hi : V.Inv s) (hc : c.Idle) (hf : c.Faithful)
    (hh : V.Honest ⟨i, x, c, a, s.world, s.world.wait x.tick, s'.world⟩ s) :
    V.Inv s' ∧ ∀ j, V.Keeps j s s' := by
  obtain ⟨he, hfiles, hn, hx, hlocks⟩ := act_idle hc hm.act
  obtain ⟨hi', hk⟩ := hm.still hi he hfiles hx hn (by cases c <;> first | rfl | exact hc.elim)
    (by cases c <;> first | rfl | exact hc.elim) (by rintro _ _ _ rfl; exact hc.elim) hf hh
  refine ⟨hi', fun j => hk j fun p _ hl => ?_⟩
  rw [hlocks]
  exact hl

/-- A call that shares nothing with others. -/
theorem Makes.modest (hm : Makes i x c a s s') (hi : V.Inv s) (hc : c.Modest) :
    V.Inv s' ∧ ∀ j, V.Keeps j s s' := by
  cases c with
  | cacheRefresh | cacheInsert | cellSet => exact hc.elim
  | _ => exact hm.idle hi hc trivial trivial

/-- The lock of a path, that nobody had. -/
theorem Makes.lock {p : PathBuf} {a : Unit} (hm : Makes i x (.lock p) a s s') (hi : V.Inv s) :
    V.Inv s' ∧ (∀ j, V.Keeps j s s') ∧ s'.world.locks p = some i.val := by
  obtain ⟨hfree, hw⟩ := act_lock hm.act
  obtain ⟨hi', hk⟩ := hm.still hi (by rw [hw]; rfl) (by rw [hw]; rfl) (by rw [hw]; rfl) (by rw [hw]; rfl)
    rfl rfl nofun trivial trivial
  refine ⟨hi', fun j => hk j fun q _ hl => ?_, ?_⟩
  · have hne : q.components ≠ p := by
      rintro rfl
      exact absurd (hl.symm.trans hfree) nofun
    rw [hw]
    exact (if_neg hne).trans hl
  · rw [hw]
    exact if_pos rfl

/-- The lock given back. -/
theorem Makes.unlock {p : PathBuf} {a : Unit} (hm : Makes i x (.unlock p) a s s') (hi : V.Inv s)
    (hl : s.world.locks p = some i.val) :
    V.Inv s' ∧ (∀ j, j ≠ i → V.Keeps j s s') ∧ V.Stays s s' ∧ ∀ l, s'.ledger l = s.ledger l := by
  have hw : s'.world = { s.world.wait x.tick with
      locks := fun q => if q = p then none else s.world.locks q } := act_unlock hm.act
  obtain ⟨hi', hk⟩ := hm.still hi (by rw [hw]; rfl) (by rw [hw]; rfl) (by rw [hw]; rfl) (by rw [hw]; rfl)
    rfl rfl nofun trivial trivial
  refine ⟨hi', fun j hj => hk j fun q _ hlq => ?_, fun f hf => ⟨(published_same hm.trace rfl ?_).2 hf, ?_, ?_⟩,
    fun l => ledger_same hm.trace rfl⟩
  rotate_left
  · rw [hw]
    rfl
  · rw [hw]
    rfl
  · rw [hw]
    rfl
  have hne : q.components ≠ p := by
    rintro rfl
    rw [hl, Option.some.injEq] at hlq
    exact hj (Fin.ext hlq.symm)
  rw [hw]
  exact (if_neg hne).trans hlq

/-- **A discriminator that nobody had**, and no file has a name with it. -/
theorem Makes.fetchAdd {e : ℕ} (hm : Makes i x .fetchAdd e s s') (hi : V.Inv s) :
    V.Inv s' ∧ (∀ j, V.Keeps j s s') ∧ s'.Owns i e ∧
      ∀ l m, l.name = tempName h.processId e m → s'.world.entries l = none := by
  obtain ⟨rfl, hw⟩ := act_fetchAdd hm.act
  have howns : ∀ k e, s'.Owns k e ↔ i.val = k ∧ s.world.counter = e ∨ s.Owns k e := fun k e => by
    simp [owns_cons hm.trace, Did.took, World.wait]
  have hent : s'.world.entries = s.world.entries := by rw [hw]; rfl
  have hcounter : s'.world.counter = s.world.counter + 1 := by rw [hw]; rfl
  have hnot : ∀ k, ¬s.Owns k s.world.counter := fun k hk => by
    have := (hi.taken k _ hk).2
    omega
  refine ⟨hi.still hm.trace rfl hent (by rw [hw]; rfl) (by rw [hw]; rfl) (by omega)
    (fun k k' e => ?_) (fun k e hk => ?_) rfl (fun _ => id) rfl trivial
      fun hb => hm.shared trivial (hi.shared hb), fun j => .still hm.trace rfl hent
      (by rw [hw]; rfl) (fun e he => (howns j e).2 (.inr he)) (fun p _ hl => by rw [hw]; exact hl) rfl
      fun _ => id, (howns _ _).2 (.inl ⟨rfl, rfl⟩), fun l m hl => ?_⟩
  · rw [howns, howns]
    rintro (⟨rfl, rfl⟩ | h₁) (⟨rfl, h₂⟩ | h₂)
    · rfl
    · exact absurd h₂ (hnot k')
    · subst h₂
      exact absurd h₁ (hnot k)
    · exact hi.owner k k' e h₁ h₂
  · rw [hcounter]
    rcases (howns k e).1 hk with ⟨-, rfl⟩ | hk
    · exact ⟨hi.counter, by omega⟩
    · have := hi.taken k e hk
      omega
  · rw [hent]
    exact hi.unborn l _ m le_rfl hl

/-! ## A file of one's own -/

/-- What a call records. -/
abbrev Made (i : Fin n) (x : Choice) (c : Call h) (a : Answer c) (s s' : State h) : Did h :=
  ⟨i, x, c, a, s.world, s.world.wait x.tick, s'.world⟩

variable {t : Loc} {f : ℕ}

/-- **A new file**, empty, under a temporary name of the thread. -/
theorem Makes.createNew {rules : Rules h} (hc : rules.Closed) {path : PathBuf} {a : Except IoError ℕ}
    (hm : Makes i x (.createNew path) a s s') (hr : rules s (.createNew path) x = true) (hi : V.Inv s)
    (hown : ∃ e m, s.Owns i e ∧ (h.locate path).name = tempName h.processId e m) :
    V.Inv s' ∧ (∀ j, j ≠ i → V.Keeps j s s') ∧ V.Retains i s s' ∧
      ((∃ e, a = .error e) ∨ ∃ f, a = .ok f ∧ V.Temp i (h.locate path) f s' ∧
        (s'.world.files f).content = []) := by
  rcases act_createNew hm.act with ⟨e, rfl, hw⟩ | ⟨hfree, -, rfl, hw⟩
  · obtain ⟨hi', hk⟩ := hm.vain hi hw rfl rfl nofun trivial
    exact ⟨hi', fun j _ => hk j, (hk i).retains, .inl ⟨e, rfl⟩⟩
  set t := h.locate path
  have hent : ∀ l, l ≠ t → s'.world.entries l = s.world.entries l := fun l hl => by
    rw [hw]
    exact World.addFile_entries_ne _ hl _
  have htemp : h.IsTemp V.start.counter t := by
    obtain ⟨e, m, ho, hl⟩ := hown
    exact hi.isTemp ho hl
  have htouch : V.Touch i t s.world.next s s' (Made i x (.createNew path) (.ok s.world.next) s s') := by
    refine ⟨hm.trace, rfl, rfl, hown, .inr ⟨hfree, rfl, by rw [hw]; rfl⟩, fun g hg => ?_,
      fun l _ hl => hent l hl, fun g hg => ?_, fun g hg _ => ?_, fun hp => ?_, by rw [hw]; rfl,
      by rw [hw]; rfl, fun _ => False.elim, rfl, trivial, hm.shared trivial,
      fun l hl => .inl ⟨hent l ?_, rfl⟩⟩
    · rw [hw, World.addFile_entries, Option.some.injEq] at hg
      exact hg.symm
    · rw [hw]
      exact World.setFile_of_ne _ hg _
    · rw [hw]
      show _ ≠ (((s.world.wait x.tick).addFile t _).files (s.world.wait x.tick).next).inode
      rw [World.addFile_self]
      exact hc.inode s path x hr g hg
    · exact absurd (hi.born _ hp) (lt_irrefl _)
    · rintro rfl
      exact hl htemp
  refine ⟨htouch.inv hi, fun j hj => htouch.keeps hi hj, htouch.retains rfl, .inr ⟨_, rfl, ⟨?_, ?_, ?_⟩, ?_⟩⟩
  · obtain ⟨e, m, ho, hl⟩ := hown
    exact ⟨e, m, (htouch.owns _ e).2 ho, hl⟩
  · rw [hw]
    exact World.addFile_entries _ _ _
  · exact fun hp => absurd (hi.born _ (htouch.published_of rfl hp)) (lt_irrefl _)
  · rw [hw]
    show (((s.world.wait x.tick).addFile t _).files (s.world.wait x.tick).next).content = []
    rw [World.addFile_self]

/-- A call on a thread's file that changes no more than names and times. -/
theorem Makes.touch (hm : Makes i x c a s s') (hi : V.Inv s)
    (hown : ∃ e m, s.Owns i e ∧ t.name = tempName h.processId e m) (ht : s.world.entries t = some f)
    (ctime : FileTime) (hfiles : s'.world.files = (s.world.changed f ctime).files)
    (hn : s'.world.next = s.world.next)
    (hcount : s'.world.counter = s.world.counter) (hlocks : s'.world.locks = s.world.locks)
    (hentry : ∀ g, s'.world.entries t = some g → g = f)
    (htemps : ∀ l, h.IsTemp V.start.counter l → l ≠ t → s'.world.entries l = s.world.entries l)
    (htook : (Made i x c a s s').took = none) (hw : ∀ f offset bytes, c ≠ .write f offset bytes)
    (hun : c.Unshared)
    (hplace : ∀ l, V.Public l → s'.world.entries l = s.world.entries l ∧ (Made i x c a s s').puts l = none ∨
      V.Put i l f s s' (Made i x c a s s')) : V.Touch i t f s s' (Made i x c a s s') := by
  have hinode : (s'.world.files f).inode = (s.world.files f).inode := by
    rw [hfiles]
    simp [World.changed]
  refine ⟨hm.trace, rfl, htook, hown, .inl ⟨ht, hn⟩, hentry, htemps, fun g hg => ?_,
    fun g hg hgf => ?_, fun _ => ⟨?_, hinode⟩, hcount, hlocks, fun g hg => ?_, rfl, hun,
    hm.shared hun.faithful, hplace⟩
  · rw [hfiles]
    exact World.setFile_of_ne _ hg _
  · rw [hinode]
    exact fun he => hgf (hi.inode g f hg (hi.sane t f ht) he)
  · rw [hfiles, World.changed_content]
  · cases c with
    | write k offset bytes => exact absurd rfl (hw k offset bytes)
    | _ => exact hg.elim

/-- **More of the bytes**, or an error. -/
theorem Makes.write {offset : ℕ} {bytes : Bytes} {a : Except IoError ℕ}
    (hm : Makes i x (.write f offset (bytes.drop offset)) a s s') (hi : V.Inv s) (ht : V.Temp i t f s)
    (hb : (s.world.files f).content = bytes.take offset) (hl : offset < bytes.length) :
    V.Inv s' ∧ (∀ j, j ≠ i → V.Keeps j s s') ∧ V.Retains i s s' ∧ V.Temp i t f s' ∧
      ((∃ e, a = .error e) ∨ ∃ k, a = .ok k ∧ 0 < k ∧ offset + k ≤ bytes.length ∧
        (s'.world.files f).content = bytes.take (offset + k)) := by
  have hout : s'.world.entries = s.world.entries ∧ s'.world.next = s.world.next ∧
      s'.world.counter = s.world.counter ∧ s'.world.locks = s.world.locks ∧
      (∀ g, g ≠ f → s'.world.files g = s.world.files g) ∧
      (s'.world.files f).inode = (s.world.files f).inode ∧
      ((∃ e, a = .error e) ∨ ∃ k, a = .ok k ∧ 0 < k ∧ offset + k ≤ bytes.length ∧
        (s'.world.files f).content = bytes.take (offset + k)) := by
    rcases act_write_next (w := s.world.wait x.tick) hb hl hm.act with
      ⟨e, rfl, hw⟩ | ⟨k, rfl, hk, hle, -, hw⟩
    · rw [hw]
      exact ⟨rfl, rfl, rfl, rfl, fun _ _ => rfl, rfl, .inl ⟨e, rfl⟩⟩
    · rw [hw]
      refine ⟨rfl, rfl, rfl, rfl, fun g hg => World.setFile_of_ne _ hg _, ?_, .inr ⟨k, rfl, hk, hle, ?_⟩⟩
      · rw [World.setFile_self]
        rfl
      · rw [World.setFile_self]
  obtain ⟨hent, hn, hcount, hlocks, hfiles, hinode, hres⟩ := hout
  have htouch : V.Touch i t f s s' (Made i x (.write f offset (bytes.drop offset)) a s s') := by
    refine ⟨hm.trace, rfl, rfl, ht.own, .inl ⟨ht.entry, hn⟩, fun g hg => ?_, fun l _ _ => by rw [hent],
      hfiles, fun g hg hgf => ?_, fun hp => absurd hp ht.hidden, hcount, hlocks,
      fun g hg => ⟨hg.symm, ht.hidden⟩, rfl, trivial, hm.shared trivial,
      fun l _ => .inl ⟨by rw [hent], rfl⟩⟩
    · rw [hent, ht.entry, Option.some.injEq] at hg
      exact hg.symm
    · rw [hinode]
      exact fun he => hgf (hi.inode g f hg (hi.sane t f ht.entry) he)
  refine ⟨htouch.inv hi, fun j hj => htouch.keeps hi hj, htouch.retains rfl, ⟨?_, ?_, ?_⟩, hres⟩
  · obtain ⟨e, m, ho, hl⟩ := ht.own
    exact ⟨e, m, (htouch.owns _ e).2 ho, hl⟩
  · rw [hent]
    exact ht.entry
  · exact fun hp => ht.hidden (htouch.published_of rfl hp)

/-- A temporary name goes, where there is a file. -/
theorem Makes.removeFile {path : PathBuf} {a : Except IoError Unit}
    (hm : Makes i x (.removeFile path) a s s') (hi : V.Inv s)
    (hown : ∃ e m, s.Owns i e ∧ (h.locate path).name = tempName h.processId e m) :
    V.Inv s' ∧ (∀ j, j ≠ i → V.Keeps j s s') ∧ V.Retains i s s' ∧
      ∀ l, V.Public l → s'.world.contentAt l = s.world.contentAt l := by
  rcases act_removeFile hm.act with ⟨e, rfl, hw⟩ | ⟨f, hf, rfl, -, hw⟩
  · obtain ⟨hi', hk⟩ := hm.vain hi hw rfl rfl nofun trivial
    exact ⟨hi', fun j _ => hk j, (hk i).retains, fun l _ => by rw [hw]; rfl⟩
  set t := h.locate path
  have hent : ∀ l, l ≠ t → s'.world.entries l = s.world.entries l := fun l hl => by
    rw [hw]
    exact World.setEntry_of_ne _ hl _
  have hne : ∀ {l}, V.Public l → l ≠ t := by
    rintro l hl rfl
    obtain ⟨e, m, ho, hn⟩ := hown
    exact hl (hi.isTemp ho hn)
  have htouch : V.Touch i t f s s' (Made i x (.removeFile path) (.ok ()) s s') := by
    refine hm.touch hi hown hf x.ctime (by rw [hw]; rfl) (by rw [hw]; rfl) (by rw [hw]; rfl)
      (by rw [hw]; rfl) (fun g hg => ?_) (fun l _ hl => hent l hl) rfl nofun
      trivial fun l hl => .inl ⟨hent l (hne hl), rfl⟩
    rw [hw, World.changed_entries, World.setEntry_self] at hg
    cases hg
  exact ⟨htouch.inv hi, fun j hj => htouch.keeps hi hj, htouch.retains rfl,
    fun l hl => htouch.contentAt_same hl (hent l (hne hl))⟩

/-! ## The destination -/

/-- Thread `i` is about to put its file at its destination, as it may. -/
structure Armed (V : Service h n) (i : Fin n) (p : PathBuf) (t : Loc) (f : ℕ) (bytes : Bytes)
    (s : State h) : Prop where
  path : V.path i = some p
  locked : s.world.locks p.components = some i.val
  unput : Unput s i (h.locate p)
  temp : V.Temp i t f s
  content : (s.world.files f).content = bytes
  flushed : V.flushes i → Flushed V.start.next f s.trace

/-- The record of what a thread put at its destination. -/
def Has (s : State h) (i : Fin n) (p : PathBuf) (old : Option Bytes) (bytes : Bytes) : Prop :=
  ⟨i.val, old, some bytes⟩ ∈ s.ledger (h.locate p)

/-- **What is put at the destination is on record.** -/
theorem Armed.put {p : PathBuf} {bytes : Bytes} (ha : V.Armed i p t f bytes s) (hi : V.Inv s)
    (hm : Makes i x c a s s') (hright : V.right i (s.world.contentAt (h.locate p)) bytes)
    (ctime : FileTime) (hfiles : s'.world.files = (s.world.changed f ctime).files)
    (hn : s'.world.next = s.world.next) (hcount : s'.world.counter = s.world.counter)
    (hlocks : s'.world.locks = s.world.locks) (hdest : s'.world.entries (h.locate p) = some f)
    (hentry : ∀ g, s'.world.entries t = some g → g = f)
    (hsame : ∀ l, l ≠ t → l ≠ h.locate p → s'.world.entries l = s.world.entries l)
    (htook : (Made i x c a s s').took = none) (hw : ∀ f offset bytes, c ≠ .write f offset bytes)
    (hun : c.Unshared)
    (hinstall : (Made i x c a s s').install = some (p, s'.world.contentAt (h.locate p))) :
    V.Inv s' ∧ (∀ j, j ≠ i → V.Keeps j s s') ∧
      Has s' i p (s.world.contentAt (h.locate p)) bytes ∧
        s'.world.contentAt (h.locate p) = some bytes := by
  have hpublic : V.Public (h.locate p) := V.named i p ha.path
  have hcontent : (s'.world.files f).content = bytes := by
    rw [hfiles, World.changed_content]
    exact ha.content
  have hputs : (Made i x c a s s').puts (h.locate p) =
      some ⟨i, s.world.contentAt (h.locate p), some bytes⟩ := by
    rw [Did.puts, hinstall, Option.bind_some, if_pos rfl]
    show some (Change.mk _ _ (s'.world.contentAt (h.locate p))) = _
    rw [World.contentAt_of_entry _ hdest, hcontent]
  have htouch : V.Touch i t f s s' (Made i x c a s s') := by
    refine hm.touch hi ha.temp.own ha.temp.entry ctime hfiles hn hcount hlocks hentry (fun l hl hlt => ?_)
      htook hw hun fun l hl => ?_
    · refine hsame l hlt ?_
      rintro rfl
      exact hpublic hl
    · by_cases hlp : l = h.locate p
      · subst hlp
        refine .inr ⟨⟨p, ha.path, rfl, ha.locked⟩, hdest, hcontent ▸ hputs, hcontent ▸ hright, ha.unput,
          fun hf => ?_⟩
        rw [hm.trace]
        refine flushed_cons (fun hwf => ?_) (ha.flushed hf)
        cases c with
        | write k offset bytes => exact hw k offset bytes rfl
        | _ => exact hwf
      · refine .inl ⟨hsame l (ha.temp.ne_public hi hl) hlp, ?_⟩
        rw [Did.puts, hinstall, Option.bind_some, if_neg fun he => hlp he.symm]
  refine ⟨htouch.inv hi, fun j hj => htouch.keeps hi hj, ?_, ?_⟩
  · rw [Has, ledger_cons hm.trace, hputs]
    exact List.mem_cons_self
  · rw [World.contentAt_of_entry _ hdest, hcontent]

/-- **A rename** puts the file at the destination, or fails without effect. -/
theorem Makes.rename {source p : PathBuf} {bytes : Bytes} {a : Except IoError Unit}
    (hm : Makes i x (.rename source p) a s s') (hi : V.Inv s)
    (ha : V.Armed i p (h.locate source) f bytes s)
    (hright : V.right i (s.world.contentAt (h.locate p)) bytes) :
    V.Inv s' ∧ (∀ j, j ≠ i → V.Keeps j s s') ∧ s'.world.locks = s.world.locks ∧
      ((∃ e, a = .error e) ∧ V.Retains i s s' ∨
        a = .ok () ∧ Has s' i p (s.world.contentAt (h.locate p)) bytes ∧
          s'.world.contentAt (h.locate p) = some bytes) := by
  have hpublic : V.Public (h.locate p) := V.named i p ha.path
  have hne : h.locate p ≠ h.locate source := ha.temp.ne_public hi hpublic
  rcases act_rename hm.act with ⟨e, rfl, hw⟩ | ⟨g, hg, rfl, ⟨hself, -⟩ | ⟨-, -, hw⟩⟩
  · obtain ⟨hi', hk⟩ := hm.vain hi hw rfl rfl nofun trivial
    exact ⟨hi', fun j _ => hk j, by rw [hw]; rfl, .inl ⟨⟨e, rfl⟩, (hk i).retains⟩⟩
  · rw [World.wait_entries, ha.temp.entry, Option.some.injEq] at hg
    subst hg
    exact absurd ⟨_, hpublic, .inl hself⟩ ha.temp.hidden
  · rw [World.wait_entries, ha.temp.entry, Option.some.injEq] at hg
    subst hg
    have hentry : ∀ g, s'.world.entries (h.locate source) = some g → g = f := fun g hg => by
      rw [hw, World.changed_entries, World.setEntry_of_ne _ (Ne.symm hne), World.setEntry_self] at hg
      cases hg
    have hsame : ∀ l, l ≠ h.locate source → l ≠ h.locate p → s'.world.entries l = s.world.entries l :=
      fun l hl hlp => by
        rw [hw, World.changed_entries, World.setEntry_of_ne _ hlp, World.setEntry_of_ne _ hl]
        rfl
    obtain ⟨hi', hk, hhas⟩ := ha.put hi hm hright x.ctime (by rw [hw]; rfl) (by rw [hw]; rfl)
      (by rw [hw]; rfl) (by rw [hw]; rfl) (by rw [hw]; exact World.setEntry_self _ _ _) hentry hsame rfl
      nofun trivial rfl
    exact ⟨hi', hk, by rw [hw]; rfl, .inr ⟨rfl, hhas⟩⟩

/-- **A link** puts the file at a destination that is free, or fails without effect. -/
theorem Makes.hardLink {source p : PathBuf} {bytes : Bytes} {a : Except IoError Unit}
    (hm : Makes i x (.hardLink source p) a s s') (hi : V.Inv s)
    (ha : V.Armed i p (h.locate source) f bytes s) (hright : V.right i none bytes) :
    V.Inv s' ∧ (∀ j, j ≠ i → V.Keeps j s s') ∧ s'.world.locks = s.world.locks ∧
      (∀ e, s.Owns i e → s'.Owns i e) ∧
      ((∃ e, a = .error e) ∧ V.Retains i s s' ∨
        a = .ok () ∧ Has s' i p none bytes ∧ s'.world.contentAt (h.locate p) = some bytes) := by
  have howns : ∀ e, s.Owns i e → s'.Owns i e := fun e he => (owns_cons hm.trace).2 (.inr he)
  rcases act_hardLink hm.act with ⟨e, rfl, hw⟩ | ⟨g, hg, hfree, rfl, -, hw⟩
  · obtain ⟨hi', hk⟩ := hm.vain hi hw rfl rfl nofun trivial
    exact ⟨hi', fun j _ => hk j, by rw [hw]; rfl, howns, .inl ⟨⟨e, rfl⟩, (hk i).retains⟩⟩
  · rw [World.wait_entries, ha.temp.entry, Option.some.injEq] at hg
    subst hg
    rw [World.wait_entries] at hfree
    have hnone : s.world.contentAt (h.locate p) = none := by
      rw [World.contentAt, World.fileAt, hfree]
      rfl
    have hne : h.locate p ≠ h.locate source := ha.temp.ne_public hi (V.named i p ha.path)
    have hsame : ∀ l, l ≠ h.locate p → s'.world.entries l = s.world.entries l := fun l hl => by
      rw [hw, World.changed_entries, World.setEntry_of_ne _ hl]
      rfl
    have hentry : ∀ g, s'.world.entries (h.locate source) = some g → g = f := fun g hg => by
      rw [hsame _ (Ne.symm hne), ha.temp.entry, Option.some.injEq] at hg
      exact hg.symm
    obtain ⟨hi', hk, hhas⟩ := ha.put hi hm (hnone ▸ hright) x.ctime (by rw [hw]; rfl)
      (by rw [hw]; rfl) (by rw [hw]; rfl) (by rw [hw]; rfl) (by rw [hw]; exact World.setEntry_self _ _ _)
      hentry (fun l _ => hsame l) rfl nofun trivial rfl
    exact ⟨hi', hk, by rw [hw]; rfl, howns, .inr ⟨rfl, hnone ▸ hhas⟩⟩

end Service

end Hashline
