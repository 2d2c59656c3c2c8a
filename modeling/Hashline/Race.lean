/-
  Exclusive creates of one entry, each free to run between any two calls of
  another: who owns which temporary file, and what the others leave alone.
-/
import Hashline.Flight
import Hashline.History
import Hashline.Mutate

namespace Hashline

open Machine Object

variable {h : Host} {ε α : Type}

/-- A call that does not fail. -/
theorem Choice.fallible_of_none {x : Choice} (hx : x.fault = none) {β : Type} {w w' : World h}
    {r : Option (Except IoError β × World h)} {a : Except IoError β}
    (ha : x.fallible w r = some (a, w')) : r = some (a, w') := by
  rcases Choice.fallible_eq_some.1 ha with ⟨e, he, -⟩ | ⟨-, ha⟩
  · rw [hx] at he
    cases he
  · exact ha

/-! ## The race -/

/-- The entry that is to be created, the counter of temporary names when the race begins, and what
    each thread writes. No temporary file of the race has the entry's name, so that nothing but a link
    makes it. -/
structure Race (h : Host) where
  dest : Loc
  first : ℕ
  bytes : ℕ → Bytes
  isText : ∀ i, IsText (bytes i)
  named : dest.name ≠ ""
  ne_temp : ∀ d n, first ≤ d → dest.name ≠ tempName h.processId d n

def Event.loc : Event → Loc
  | rewrite loc .. => loc
  | replace loc _ => loc
  | remove loc => loc

/-- The discriminator a call took. -/
def Did.took (d : Did h) : Option ℕ :=
  match d with
  | ⟨_, _, .fetchAdd, n, _, _, _⟩ => some n
  | _ => none

/-- The call linked a file under the name. -/
def Did.links (dest : Loc) (d : Did h) : Prop :=
  match d.call, d.answer with
  | .hardLink _ target, .ok _ => h.locate target = dest
  | _, _ => False

/-- Thread `who` has taken the discriminator `n`. -/
def State.Owns (s : State h) (who n : ℕ) : Prop := ∃ d ∈ s.trace, d.who = who ∧ d.took = some n

/-- Thread `who` has linked its file under the name. -/
def State.Linked (s : State h) (dest : Loc) (who : ℕ) : Prop := ∃ d ∈ s.trace, d.who = who ∧ d.links dest

section
variable {s s' : State h} {d : Did h} {dest : Loc}

theorem owns_cons (ht : s'.trace = d :: s.trace) {i n : ℕ} :
    s'.Owns i n ↔ d.who = i ∧ d.took = some n ∨ s.Owns i n := by
  simp only [State.Owns, ht, List.mem_cons, exists_eq_or_imp]

theorem linked_cons (ht : s'.trace = d :: s.trace) {i : ℕ} :
    s'.Linked dest i ↔ d.who = i ∧ d.links dest ∨ s.Linked dest i := by
  simp only [State.Linked, ht, List.mem_cons, exists_eq_or_imp]

end

namespace Race
variable (race : Race h)

def temp (d n : ℕ) : Loc := ⟨race.dest.directory, tempName h.processId d n⟩

/-- The path is the entry's, and no slash behind it asks for a directory. -/
structure Leads (path : PathBuf) : Prop where
  locate : h.locate path = race.dest
  plain : path.slashed = false

/-- The entry, and the names of temporary files of the race. -/
inductive Ours : Loc → Prop where
  | dest : Ours race.dest
  | temp (d n : ℕ) (h : race.first ≤ d) : Ours (race.temp d n)

/-- No call fails but as it must, and others leave the names of the race alone. -/
def Undisturbed (rules : Rules h) : Prop :=
  ∀ s c x, rules s c x = true → x.fault = none ∧ (∀ n, c = .reserve n → x.flag = true) ∧
    ∀ e ∈ x.events, ¬race.Ours e.2.loc

/-! ## The files of the race -/

/-- Names that are not taken yet are free, and no file of the race has a name outside it, or two
    temporary names. -/
structure Tidy (w : World h) : Prop where
  sane : w.Sane
  counter : race.first ≤ w.counter
  unborn : ∀ d n, w.counter ≤ d → w.entries (race.temp d n) = none
  apart : ∀ l l' f, race.Ours l → w.entries l = some f → w.entries l' = some f → race.Ours l'
  single : ∀ d n d' n' f, race.first ≤ d → race.first ≤ d' → w.entries (race.temp d n) = some f →
    w.entries (race.temp d' n') = some f → race.temp d n = race.temp d' n'
  plain : ∀ l f, race.Ours l → w.entries l = some f → (w.files f).type ≠ .directory

/-- The names of the race stand for the same files, which have not changed. -/
structure Still (w w' : World h) : Prop where
  entries : ∀ l, race.Ours l → w'.entries l = w.entries l
  files : ∀ l f, race.Ours l → w.entries l = some f → w'.files f = w.files f
  counter : w'.counter = w.counter

/-- No temporary name stands for the file. -/
def Settled (w : World h) (f : ℕ) : Prop := ∀ d n, race.first ≤ d → w.entries (race.temp d n) ≠ some f

variable {race} {w w' w'' : World h} {s s' s'' : State h} {who : ℕ}

theorem temp_inj {d n d' n' : ℕ} (he : race.temp d n = race.temp d' n') : d = d' :=
  tempName_inj (congrArg Loc.name he)

theorem temp_ne_dest {d n : ℕ} (hd : race.first ≤ d) : race.temp d n ≠ race.dest := fun he =>
  race.ne_temp d n hd (congrArg Loc.name he).symm

namespace Still

theorem refl (w : World h) : race.Still w w := ⟨fun _ _ => rfl, fun _ _ _ _ => rfl, rfl⟩

theorem trans (h₁ : race.Still w w') (h₂ : race.Still w' w'') : race.Still w w'' := by
  refine ⟨fun l hl => (h₂.entries l hl).trans (h₁.entries l hl), fun l f hl hf => ?_,
    h₂.counter.trans h₁.counter⟩
  exact (h₂.files l f hl ((h₁.entries l hl).trans hf)).trans (h₁.files l f hl hf)

/-- Nothing about files, names or the counter changes. -/
theorem of_eq (he : w'.entries = w.entries) (hf : w'.files = w.files) (hc : w'.counter = w.counter) :
    race.Still w w' := ⟨fun _ _ => by rw [he], fun _ _ _ _ => by rw [hf], hc⟩

theorem settled (h : race.Still w w') {f : ℕ} : race.Settled w' f ↔ race.Settled w f := by
  refine forall_congr' fun d => forall_congr' fun n => forall_congr' fun hd => ?_
  rw [h.entries _ (.temp d n hd)]

end Still

/-- Elsewhere names come to stand only for files that are new. -/
theorem Tidy.outside (ht : race.Tidy w) (hsane : w'.Sane) (hs : race.Still w w')
    (hnew : ∀ l f, ¬race.Ours l → w'.entries l = some f → w.entries l = some f ∨ w.next ≤ f) :
    race.Tidy w' := by
  have hentry : ∀ l f, race.Ours l → w'.entries l = some f → w.entries l = some f := fun l f hl hf => by
    rwa [← hs.entries l hl]
  refine ⟨hsane, hs.counter ▸ ht.counter, fun d n hd => ?_, fun l l' f hl hf hf' => ?_,
    fun d n d' n' f hd hd' hf hf' => ?_, fun l f hl hf => ?_⟩
  · rw [hs.counter] at hd
    rw [hs.entries _ (.temp d n (ht.counter.trans hd))]
    exact ht.unborn d n hd
  · by_contra hno
    have hf₀ := hentry l f hl hf
    rcases hnew l' f hno hf' with hold | hfresh
    · exact hno (ht.apart l l' f hl hf₀ hold)
    · exact absurd (ht.sane l f hf₀) (not_lt.2 hfresh)
  · exact ht.single d n d' n' f hd hd' (hentry _ f (.temp d n hd) hf) (hentry _ f (.temp d' n' hd') hf')
  · have hf₀ := hentry l f hl hf
    rw [hs.files l f hl hf₀]
    exact ht.plain l f hl hf₀

theorem Tidy.of_eq (ht : race.Tidy w) (he : w'.entries = w.entries) (hf : w'.files = w.files)
    (hc : w'.counter = w.counter) (hn : w'.next = w.next) : race.Tidy w' := by
  refine ht.outside (fun l f hl => ?_) (.of_eq he hf hc) fun l f _ hl => .inl ?_
  · rw [hn]
    exact ht.sane l f (by rwa [he] at hl)
  · rwa [he] at hl

/-! ### What others do -/

/-- A step of another process at a name outside the race. -/
theorem Tidy.event (ht : race.Tidy w) {e : Event} (hloc : ¬race.Ours e.loc) (he : e.apply w = some w') :
    race.Tidy w' ∧ race.Still w w' := by
  have hne : ∀ l, race.Ours l → l ≠ e.loc := fun l hl hle => hloc (hle ▸ hl)
  cases e with
  | rewrite loc content mtime ctime =>
    rw [Event.apply, Option.bind_eq_bind, Option.bind_eq_some_iff] at he
    obtain ⟨g, hg, he⟩ := he
    split_ifs at he
    cases he
    -- the file is none of the race, for it has a name outside
    have hother : ∀ l f, race.Ours l → w.entries l = some f → f ≠ g := by
      rintro l f hl hf rfl
      exact hloc (ht.apart l loc f hl hf hg)
    have hstill : race.Still w (w.setFile g { w.files g with content, mtime, ctime }) :=
      ⟨fun _ _ => rfl, fun l f hl hf => World.setFile_of_ne _ (hother l f hl hf) _, rfl⟩
    exact ⟨ht.outside ht.sane hstill fun _ _ _ => .inl, hstill⟩
  | replace loc file =>
    rw [Event.apply] at he
    split_ifs at he with hc
    cases he
    have hstill : race.Still w (w.addFile loc file) :=
      ⟨fun l hl => World.addFile_entries_ne _ (hne l hl) _,
        fun l f _ hf => World.addFile_files _ (ht.sane l f hf) _ _, rfl⟩
    refine ⟨ht.outside (Later.add ht.sane hc).sane hstill fun l f _ hf => ?_, hstill⟩
    by_cases hl : l = loc
    · subst hl
      rw [World.addFile_entries, Option.some.injEq] at hf
      exact .inr hf.le
    · rw [World.addFile_entries_ne _ hl] at hf
      exact .inl hf
  | remove loc =>
    rw [Event.apply] at he
    cases he
    have hstill : race.Still w (w.setEntry loc none) :=
      ⟨fun l hl => World.setEntry_of_ne _ (hne l hl) _, fun _ _ _ _ => rfl, rfl⟩
    refine ⟨ht.outside (Later.clear ht.sane loc).sane hstill fun l f _ hf => ?_, hstill⟩
    by_cases hl : l = loc
    · subst hl
      simp at hf
    · rw [World.setEntry_of_ne _ hl] at hf
      exact .inl hf

theorem Tidy.elapse : ∀ (events : List (ℕ × Event)) {w w' : World h}, race.Tidy w →
    (∀ e ∈ events, ¬race.Ours e.2.loc) → elapse events w = some w' → race.Tidy w' ∧ race.Still w w'
  | [], w, w', ht, _, he => by cases he; exact ⟨ht, .refl _⟩
  | (tick, e) :: rest, w, w', ht, hloc, he => by
    rw [Hashline.elapse, Option.bind_eq_bind, Option.bind_eq_some_iff] at he
    obtain ⟨w₁, h₁, he⟩ := he
    have hwait : race.Tidy (w.wait tick) := ht.of_eq rfl rfl rfl rfl
    have hstill : race.Still w (w.wait tick) := .of_eq rfl rfl rfl
    obtain ⟨ht₁, hs₁⟩ := hwait.event (hloc _ List.mem_cons_self) h₁
    obtain ⟨ht', hs'⟩ := Tidy.elapse rest ht₁ (fun e he => hloc e (List.mem_cons_of_mem _ he)) he
    exact ⟨ht', (hstill.trans hs₁).trans hs'⟩

theorem Tidy.elapsed (ht : race.Tidy w) {x : Choice} (hloc : ∀ e ∈ x.events, ¬race.Ours e.2.loc)
    (he : x.elapsed w = some w') : race.Tidy w' ∧ race.Still w w' := by
  rw [Choice.elapsed, Option.map_eq_some_iff] at he
  obtain ⟨w₁, h₁, rfl⟩ := he
  obtain ⟨ht₁, hs₁⟩ := Tidy.elapse _ ht hloc h₁
  exact ⟨ht₁.of_eq rfl rfl rfl rfl, hs₁.trans (.of_eq rfl rfl rfl)⟩

/-! ## What threads leave to each other -/

variable (race) in
/-- The entry keeps its file, whose metadata change for the last time when its temporary name goes. -/
structure Keeps (w w' : World h) (f : ℕ) : Prop where
  entry : w'.entries race.dest = some f
  content : (w'.files f).content = (w.files f).content
  changed : w'.files f = w.files f ∨ race.Settled w' f
  settled : race.Settled w f → race.Settled w' f ∧ w'.files f = w.files f

variable (race) in
/-- What thread `who` can rely on: what it owns and what is linked stays. -/
structure Yields (who : ℕ) (s s' : State h) : Prop where
  owns : ∀ d, s.Owns who d → s'.Owns who d
  mine : s'.Linked race.dest who ↔ s.Linked race.dest who
  linked : ∀ j, s.Linked race.dest j → s'.Linked race.dest j
  dest : ∀ f, s.world.entries race.dest = some f → race.Keeps s.world s'.world f
  own : ∀ d n, s.Owns who d → s'.world.entries (race.temp d n) = s.world.entries (race.temp d n) ∧
    ∀ f, s.world.entries (race.temp d n) = some f → s'.world.files f = s.world.files f

variable (race) in
/-- The file `f` of thread `i` is the entry's. -/
structure Won (s : State h) (f i : ℕ) : Prop where
  entry : s.world.entries race.dest = some f
  content : (s.world.files f).content = race.bytes i
  linked : s.Linked race.dest i
  only : ∀ j, s.Linked race.dest j → j = i
  temp : ∀ d n, race.first ≤ d → s.world.entries (race.temp d n) = some f → s.Owns i d

variable (race) in
structure Inv (s : State h) : Prop where
  tidy : race.Tidy s.world
  owner : ∀ i j d, s.Owns i d → s.Owns j d → i = j
  taken : ∀ i d, s.Owns i d → race.first ≤ d ∧ d < s.world.counter
  dest : (s.world.entries race.dest = none ∧ ∀ i, ¬s.Linked race.dest i) ∨ ∃ f i, race.Won s f i

variable (race) in
def contract (who : ℕ) : Contract (State h) :=
  ⟨race.Yields who, fun s s' => ∀ j, j ≠ who → race.Yields j s s', race.Inv⟩

namespace Keeps
variable {f : ℕ}

theorem refl (hf : w.entries race.dest = some f) : race.Keeps w w f :=
  ⟨hf, rfl, .inl rfl, fun hs => ⟨hs, rfl⟩⟩

theorem trans (h₁ : race.Keeps w w' f) (h₂ : race.Keeps w' w'' f) : race.Keeps w w'' f := by
  refine ⟨h₂.entry, h₂.content.trans h₁.content, ?_, fun hs => ?_⟩
  · rcases h₂.changed with he | hs
    · rcases h₁.changed with he' | hs
      · exact .inl (he.trans he')
      · exact .inr (h₂.settled hs).1
    · exact .inr hs
  · obtain ⟨hs', he⟩ := h₁.settled hs
    obtain ⟨hs'', he'⟩ := h₂.settled hs'
    exact ⟨hs'', he'.trans he⟩

theorem of_eq (he : w'.entries = w.entries) (hw : w'.files = w.files)
    (hf : w.entries race.dest = some f) : race.Keeps w w' f := by
  refine ⟨by rw [he]; exact hf, by rw [hw], .inl (by rw [hw]), fun hs => ⟨fun d n hd => ?_, by rw [hw]⟩⟩
  rw [he]
  exact hs d n hd

theorem of_still (hs : race.Still w w') (hf : w.entries race.dest = some f) : race.Keeps w w' f := by
  have hfile := hs.files race.dest f .dest hf
  refine ⟨(hs.entries _ .dest).trans hf, by rw [hfile], .inl hfile, fun h => ⟨?_, hfile⟩⟩
  exact hs.settled.2 h

end Keeps

namespace Yields

theorem refl (who : ℕ) (s : State h) : race.Yields who s s :=
  ⟨fun _ h => h, Iff.rfl, fun _ h => h, fun _ => .refl, fun _ _ _ => ⟨rfl, fun _ _ => rfl⟩⟩

theorem trans (h₁ : race.Yields who s s') (h₂ : race.Yields who s' s'') : race.Yields who s s'' := by
  refine ⟨fun d hd => h₂.owns d (h₁.owns d hd), h₂.mine.trans h₁.mine,
    fun j hj => h₂.linked j (h₁.linked j hj), fun f hf => ?_, fun d n hd => ?_⟩
  · have hk := h₁.dest f hf
    exact hk.trans (h₂.dest f hk.entry)
  · obtain ⟨he, hf⟩ := h₁.own d n hd
    obtain ⟨he', hf'⟩ := h₂.own d n (h₁.owns d hd)
    refine ⟨he'.trans he, fun f hff => ?_⟩
    exact (hf' f (he.trans hff)).trans (hf f hff)

end Yields

/-! ### Calls that leave files and names -/

/-- The files of the race are left as they are, and nobody has taken a turn. -/
theorem Inv.of_iff (hi : race.Inv s) (ht : race.Tidy s'.world) (hs : race.Still s.world s'.world)
    (howns : ∀ i n, s'.Owns i n ↔ s.Owns i n)
    (hlinked : ∀ i, s'.Linked race.dest i ↔ s.Linked race.dest i) :
    race.Inv s' ∧ ∀ j, race.Yields j s s' := by
  refine ⟨⟨ht, fun i j n => ?_, fun i n => ?_, ?_⟩, fun j => ⟨fun n => (howns j n).2, hlinked j,
    fun i => (hlinked i).2, fun f => .of_still hs, fun n m hn => ?_⟩⟩
  · rw [howns, howns]
    exact hi.owner i j n
  · rw [howns, hs.counter]
    exact hi.taken i n
  · simp only [hlinked, hs.entries _ .dest]
    refine hi.dest.imp_right fun ⟨f, i, hw⟩ => ⟨f, i, ?_⟩
    refine ⟨(hs.entries _ .dest).trans hw.entry, ?_, (hlinked i).2 hw.linked,
      fun j hj => hw.only j ((hlinked j).1 hj), fun n m hn hf => ?_⟩
    · rw [hs.files _ f .dest hw.entry]
      exact hw.content
    · rw [hs.entries _ (.temp n m hn)] at hf
      exact (howns i n).2 (hw.temp n m hn hf)
  · have hours : race.Ours (race.temp n m) := .temp n m (hi.taken j n hn).1
    exact ⟨hs.entries _ hours, fun f hf => hs.files _ f hours hf⟩

/-- A step that leaves the files of the race, and is no turn in it. -/
theorem Inv.still (hi : race.Inv s) (ht : race.Tidy s'.world) (hs : race.Still s.world s'.world)
    {d : Did h} (htr : s'.trace = d :: s.trace) (htook : d.took = none) (hlink : ¬d.links race.dest) :
    race.Inv s' ∧ ∀ j, race.Yields j s s' :=
  hi.of_iff ht hs (fun i n => by simp [owns_cons htr, htook])
    fun i => by simp [linked_cons htr, hlink]

end Race

/-- Calls that change no file and no name, and count nothing. -/
def Call.Aside : Call h → Prop
  | .fetchAdd | .createNew _ | .write .. | .rename .. | .hardLink .. | .removeFile _ => False
  | _ => True

theorem act_aside {who : ℕ} {x : Choice} {c : Call h} {w w' : World h} {a : Answer c} (hc : c.Aside)
    (ha : act who x c w = some (a, w')) : w'.entries = w.entries ∧ w'.files = w.files ∧
      w'.counter = w.counter ∧ w'.next = w.next := by
  cases c with
  | lock path => rw [(act_lock ha).2]; exact ⟨rfl, rfl, rfl, rfl⟩
  | cellLock cell => rw [(act_cellLock ha).2.2]; exact ⟨rfl, rfl, rfl, rfl⟩
  | unlock | cacheGet | cacheRacyResident | cacheRefresh | cacheClaim | cacheInsert | cacheSettle
  | cellSet | cellUnlock => cases ha; exact ⟨rfl, rfl, rfl, rfl⟩
  | fetchAdd | createNew | write | rename | hardLink | removeFile => exact hc.elim
  | _ =>
    have hw : w' = w := by
      refine act_inert ?_ ha
      exact hc
    rw [hw]; exact ⟨rfl, rfl, rfl, rfl⟩

namespace Race
variable {race : Race h} {rules : Rules h} {who : ℕ} {s : State h} {Q : Exec ε α → State h → Prop}

theorem inv_aside (hu : race.Undisturbed rules) {c : Call h} {s s' : State h} {x : Choice}
    {w : World h} {a : Answer c} (hi : race.Inv s) (hc : c.Aside) (hr : rules s c x = true)
    (hw : x.elapsed s.world = some w) (ha : act who x c w = some (a, s'.world))
    (ht : s'.trace = ⟨who, x, c, a, s.world, w, s'.world⟩ :: s.trace) :
    race.Inv s' ∧ ∀ j, race.Yields j s s' := by
  obtain ⟨-, -, hloc⟩ := hu s c x hr
  obtain ⟨hent, hfiles, hcount, hnext⟩ := act_aside hc ha
  obtain ⟨htidy, hstill⟩ := hi.tidy.elapsed hloc hw
  exact hi.still (htidy.of_eq hent hfiles hcount hnext) (hstill.trans (.of_eq hent hfiles hcount)) ht
    (by cases c <;> first | rfl | exact hc.elim) (by cases c <;> first | exact id | exact hc.elim)

/-- One call that leaves files and names. -/
theorem safe_aside (hu : race.Undisturbed rules) {c : Call h} (hc : c.Aside) {k : Answer c → Op h ε α}
    (hk : ∀ x w a s', race.Inv s' → race.Yields who s s' → x.fault = none →
      (∀ n, c = .reserve n → x.flag = true) → act who x c w = some (a, s'.world) →
      w.entries = s'.world.entries → w.files = s'.world.files →
      (k a).Safe (step rules who) everywhere (race.contract who) Q s') :
    (Proc.ask c >>= k).Safe (step rules who) everywhere (race.contract who) Q s := by
  refine safe_call fun s₁ x w a s₂ hs₁ hi hr hw ha ht => ?_
  obtain ⟨hfault, hflag, -⟩ := hu s₁ c x hr
  obtain ⟨hent, hfiles, -⟩ := act_aside hc ha
  obtain ⟨hi₂, hy⟩ := inv_aside hu hi hc hr hw ha ht
  refine ⟨hi₂, fun j _ => hy j, ?_⟩
  exact hk x w a s₂ hi₂ (Yields.trans hs₁ (hy who)) hfault hflag ha hent.symm hfiles.symm

end Race

end Hashline
