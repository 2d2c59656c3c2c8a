/-
  A server whose threads mutate files at the same time: what stands at each
  place, what was put there by whom, and what every call leaves to the others.
-/
import Hashline.Lib.Ledger
import Hashline.Race
import Hashline.Shared

namespace Hashline

open Machine

variable {h : Host} {n : ℕ}

/-! ## What was put where -/

/-- The call was made to write into the file. -/
def Did.writes (d : Did h) (f : ℕ) : Prop :=
  match d.call with
  | .write g .. => g = f
  | _ => False

/-- The file's bytes were flushed to the disk. -/
def Did.flushes (d : Did h) (f : ℕ) : Prop :=
  match d.call, d.answer with
  | .sync g, .ok _ => g = f
  | _, _ => False

/-- The directory's entries were flushed to the disk. -/
def Did.settles (d : Did h) (directory : ℕ) : Prop :=
  match d.call, d.answer with
  | .syncDir path, .ok _ => h.directory path.components = directory
  | _, _ => False

/-- Since it was flushed the file was not written; those below `first` were flushed before. -/
def Flushed (first f : ℕ) : List (Did h) → Prop
  | [] => f < first
  | d :: ds => d.flushes f ∨ ¬d.writes f ∧ Flushed first f ds

/-- What a call put at the place. -/
def Did.puts (d : Did h) (l : Loc) : Option (Change ℕ (Option Bytes)) :=
  d.install.bind fun i =>
    if h.locate i.1 = l then some ⟨d.who, d.was.contentAt l, d.after.contentAt l⟩ else none

/-- The call was made to open the file at the place, and there was none. -/
def Did.misses (d : Did h) (l : Loc) : Bool :=
  match d.call, d.answer with
  | .openRead path, .error e => h.locate path = l && e.kind = .notFound
  | _, _ => false

/-- What the disk may have at the place: what stands there, or stood since the directory was flushed. -/
def Remains (l : Loc) : World h → List (Did h) → Option ℕ → Prop
  | w, [], e => e = w.entries l
  | w, d :: ds, e => e = w.entries l ∨ ¬d.settles l.directory ∧ Remains l d.was ds e

/-- The directory was flushed after `who` put something at the place. -/
def Secured (l : Loc) (who : ℕ) : List (Did h) → Prop
  | [] => False
  | d :: ds => Secured l who ds ∨
    d.settles l.directory ∧ ∃ c ∈ ds.filterMap fun d => d.puts l, c.who = who

/-- The state that the call led to, where `ds` had been made before it. -/
abbrev Did.moment (d : Did h) (ds : List (Did h)) : State h := ⟨d.after, d :: ds⟩

namespace State
variable (s : State h)

/-- All that was put at the place, the latest first. -/
def ledger (l : Loc) : List (Change ℕ (Option Bytes)) := s.trace.filterMap fun d => d.puts l

/-- Thread `who` made a call after which the bytes stood at the place. -/
def Saw (who : ℕ) (l : Loc) (b : Bytes) : Prop :=
  ∃ d ∈ s.trace, d.who = who ∧ d.after.contentAt l = some b

/-- Thread `who` looked at the place, and was told that there is nothing. -/
def Missed (who : ℕ) (l : Loc) : Prop := ∃ d ∈ s.trace, d.who = who ∧ d.misses l = true

instance (who : ℕ) (l : Loc) : Decidable (s.Missed who l) :=
  inferInstanceAs (Decidable (∃ d ∈ s.trace, d.who = who ∧ d.misses l = true))

/-- The file stands at the place, or has stood there. -/
def Stood (l : Loc) (f : ℕ) : Prop :=
  s.world.entries l = some f ∨ ∃ d ∈ s.trace, d.was.entries l = some f

end State

section
variable {s s' : State h} {d : Did h}

theorem ledger_cons (ht : s'.trace = d :: s.trace) (l : Loc) :
    s'.ledger l = (d.puts l).toList ++ s.ledger l := by
  rw [State.ledger, ht, List.filterMap_cons]
  rcases d.puts l with _ | c <;> rfl

theorem ledger_same (ht : s'.trace = d :: s.trace) {l : Loc} (hd : d.puts l = none) :
    s'.ledger l = s.ledger l := by rw [ledger_cons ht, hd]; rfl

theorem stood_cons (ht : s'.trace = d :: s.trace) (hwas : d.was = s.world) (l : Loc) (f : ℕ) :
    s'.Stood l f ↔ s'.world.entries l = some f ∨ s.Stood l f := by
  simp only [State.Stood, ht, List.mem_cons, exists_eq_or_imp, hwas]

/-- What the disk may have stands at the place, or has stood there. -/
theorem Remains.stood {l : Loc} {f : ℕ} : ∀ {w : World h} {ds : List (Did h)}, Remains l w ds (some f) →
    (⟨w, ds⟩ : State h).Stood l f
  | _, [], hr => .inl hr.symm
  | w, d :: ds, hr => by
    rcases hr with he | ⟨-, hr⟩
    · exact .inl he.symm
    · rcases hr.stood with he | ⟨d', hd, he⟩
      · exact .inr ⟨d, List.mem_cons_self, he⟩
      · exact .inr ⟨d', List.mem_cons_of_mem _ hd, he⟩

/-- What is secured was put. -/
theorem Secured.mem {l : Loc} {who : ℕ} : ∀ {ds : List (Did h)}, Secured l who ds →
    ∃ c ∈ ds.filterMap (fun d => d.puts l), c.who = who
  | d :: ds, hs => by
    obtain ⟨c, hc, hw⟩ := hs.elim Secured.mem And.right
    refine ⟨c, ?_, hw⟩
    rw [List.mem_filterMap] at hc ⊢
    obtain ⟨e, he, hp⟩ := hc
    exact ⟨e, List.mem_cons_of_mem _ he, hp⟩

theorem Secured.mono {l : Loc} {who : ℕ} {ds ds' : List (Did h)} (hs : Secured l who ds)
    (hd : ds <:+ ds') : Secured l who ds' := by
  obtain ⟨new, rfl⟩ := hd
  induction new with
  | nil => exact hs
  | cons d new ih => exact .inl ih

theorem State.Saw.grown {who : ℕ} {l : Loc} {b : Bytes} (hs : s.Saw who l b)
    (ht : s.trace <:+ s'.trace) : s'.Saw who l b := by
  obtain ⟨d, hd, hwho⟩ := hs
  exact ⟨d, ht.subset hd, hwho⟩

theorem State.Missed.grown {who : ℕ} {l : Loc} (hs : s.Missed who l) (ht : s.trace <:+ s'.trace) :
    s'.Missed who l := by
  obtain ⟨d, hd, hwho⟩ := hs
  exact ⟨d, ht.subset hd, hwho⟩

theorem Did.puts_of_install (hd : d.install = none) (l : Loc) : d.puts l = none := by
  rw [Did.puts, hd]; rfl

end

theorem World.map_content (w : World h) (l : Loc) :
    (w.entries l).map (fun f => (w.files f).content) = w.contentAt l := by
  rw [contentAt, fileAt, Option.map_map]
  rfl

/-! ## The service -/

/-- A temporary file's name, whose discriminator is `first` or later. -/
def Host.IsTemp (h : Host) (first : ℕ) (l : Loc) : Prop :=
  ∃ d m, first ≤ d ∧ l.name = tempName h.processId d m

/-- The threads of a server: what they find, the destination of each that mutates, whether it flushes
    its file, and the directory too, and what it may put where it found what. Destinations are spelled
    alike where they are the same. -/
structure Service (h : Host) (n : ℕ) where
  start : World h
  path : Fin n → Option PathBuf
  flushes : Fin n → Prop
  lasts : Fin n → Prop
  right : Fin n → Option Bytes → Bytes → Prop
  named : ∀ i p, path i = some p → ¬h.IsTemp start.counter (h.locate p)
  alike : ∀ i j p q, path i = some p → path j = some q → h.locate p = h.locate q →
    p.components = q.components

namespace Service
variable (V : Service h n)

/-- A place that no temporary file is given. -/
def Public (l : Loc) : Prop := ¬h.IsTemp V.start.counter l

/-- The file stands, or has stood, where others see it. -/
def Published (s : State h) (f : ℕ) : Prop := ∃ l, V.Public l ∧ s.Stood l f

/-- The file is published, with the bytes and the inode. -/
structure Shows (f : ℕ) (b : Bytes) (inode : ℕ) (s : State h) : Prop where
  published : V.Published s f
  content : (s.world.files f).content = b
  inode : (s.world.files f).inode = inode

/-- The snapshot is of a published file. -/
def Based (snapshot : Snapshot h.contentId) (s : State h) : Prop :=
  ∃ f stamp, snapshot.stamp = some stamp ∧ V.Shows f snapshot.bytes stamp.inode s

/-- Published files stay, with their bytes and inodes. -/
def Stays (s s' : State h) : Prop :=
  ∀ f, V.Published s f → V.Published s' f ∧ (s'.world.files f).content = (s.world.files f).content ∧
    (s'.world.files f).inode = (s.world.files f).inode

/-- A snapshot of the place: of a published file, whose bytes some call has found there. -/
structure Of (l : Loc) (snapshot : Snapshot h.contentId) (s : State h) : Prop where
  based : V.Based snapshot s
  seen : ∃ who, s.Saw who l snapshot.bytes

/-- What the call shares with other threads is a snapshot of the path. -/
def Honest (d : Did h) (s : State h) : Prop :=
  match d.call with
  | .cacheInsert path snapshot => V.Public (h.locate path) → V.Of (h.locate path) snapshot s
  | .cellSet cell (.ready (.ok snapshot)) =>
    ∃ path, s.Led path cell ∧ (V.Public (h.locate path) → V.Of (h.locate path) snapshot s)
  | _ => True

/-- A thread may have put at the place what the record says. -/
def Rightly (l : Loc) (c : Change ℕ (Option Bytes)) : Prop :=
  ∃ i : Fin n, c.who = i ∧ (∃ p, V.path i = some p ∧ h.locate p = l) ∧
    ∃ bytes, c.new = some bytes ∧ V.right i c.old bytes

/-- The changes at the place have led to what the disk may have, but for some that are not secured. -/
def Recorded (s : State h) (l : Loc) (e : Option ℕ) : Prop :=
  ∃ later earlier, s.ledger l = later ++ earlier ∧
    Leads (V.start.contentAt l) earlier (e.map fun f => (s.world.files f).content) ∧
    ∀ c ∈ later, ¬Secured l c.who s.trace

/-- What holds between any two calls. -/
structure Inv (s : State h) : Prop where
  sane : s.world.Sane
  counter : V.start.counter ≤ s.world.counter
  unborn : ∀ l d m, s.world.counter ≤ d → l.name = tempName h.processId d m → s.world.entries l = none
  owner : ∀ i j d, s.Owns i d → s.Owns j d → i = j
  taken : ∀ i d, s.Owns i d → V.start.counter ≤ d ∧ d < s.world.counter
  inode : ∀ f g, f < s.world.next → g < s.world.next →
    (s.world.files f).inode = (s.world.files g).inode → f = g
  single : ∀ l l' f, h.IsTemp V.start.counter l → h.IsTemp V.start.counter l' →
    s.world.entries l = some f → s.world.entries l' = some f → l = l'
  born : ∀ f, V.Published s f → f < s.world.next
  there : ∀ l, V.Public l → V.start.entries l ≠ none → s.world.entries l ≠ none
  leads : ∀ l, V.Public l → Leads (V.start.contentAt l) (s.ledger l) (s.world.contentAt l)
  rightly : ∀ l, V.Public l → ∀ c ∈ s.ledger l, V.Rightly l c
  once : ∀ l, V.Public l → ((s.ledger l).map (·.who)).Nodup
  recorded : ∀ l e, V.Public l → Remains l s.world s.trace e → V.Recorded s l e
  flushed : (∀ i, V.flushes i) → ∀ f, V.Published s f → Flushed V.start.next f s.trace
  past : ∀ l, V.Public l → ∀ d ds, (d :: ds) <:+ s.trace →
    Leads (V.start.contentAt l) ((d.moment ds).ledger l) (d.after.contentAt l)
  honest : ∀ d ∈ s.trace, V.Honest d s
  shared : V.start.Blank → s.Shared

/-- What thread `i` can rely on: published files keep their bytes and its own stay its own, its
    destination waits while it has the lock, and nobody puts anything in its name. -/
structure Keeps (i : Fin n) (s s' : State h) : Prop where
  owns : ∀ d, s.Owns i d → s'.Owns i d
  published : V.Stays s s'
  locked : ∀ p, V.path i = some p → s.world.locks p.components = some i.val →
    s'.world.locks p.components = some i.val ∧
    s'.world.entries (h.locate p) = s.world.entries (h.locate p)
  own : ∀ l d m, s.Owns i d → l.name = tempName h.processId d m →
    s'.world.entries l = s.world.entries l ∧ ∀ f, s.world.entries l = some f →
      s'.world.files f = s.world.files f ∧ (V.Published s' f → V.Published s f) ∧
        (Flushed V.start.next f s.trace → Flushed V.start.next f s'.trace)
  mine : ∀ l c, V.Public l → c.who = i.val → (c ∈ s'.ledger l ↔ c ∈ s.ledger l)
  grown : s.trace <:+ s'.trace

def contract (i : Fin n) : Contract (State h) :=
  ⟨V.Keeps i, fun s s' => ∀ j, j ≠ i → V.Keeps j s s', V.Inv⟩

variable {V} {i j : Fin n} {s s' s'' : State h}

namespace Keeps

theorem refl (i : Fin n) (s : State h) : V.Keeps i s s :=
  ⟨fun _ h => h, fun _ h => ⟨h, rfl, rfl⟩, fun _ _ h => ⟨h, rfl⟩,
    fun _ _ _ _ _ => ⟨rfl, fun _ _ => ⟨rfl, id, id⟩⟩, fun _ _ _ _ => Iff.rfl, List.suffix_rfl⟩

theorem trans (h₁ : V.Keeps i s s') (h₂ : V.Keeps i s' s'') : V.Keeps i s s'' := by
  refine ⟨fun d hd => h₂.owns d (h₁.owns d hd), fun f hf => ?_, fun p hp hl => ?_,
    fun l d m hd hl => ?_, fun l c hl hc => (h₂.mine l c hl hc).trans (h₁.mine l c hl hc),
    h₁.grown.trans h₂.grown⟩
  · obtain ⟨hp, hc, hn⟩ := h₁.published f hf
    obtain ⟨hp', hc', hn'⟩ := h₂.published f hp
    exact ⟨hp', hc'.trans hc, hn'.trans hn⟩
  · obtain ⟨hk, he⟩ := h₁.locked p hp hl
    obtain ⟨hk', he'⟩ := h₂.locked p hp hk
    exact ⟨hk', he'.trans he⟩
  · obtain ⟨he, hf⟩ := h₁.own l d m hd hl
    obtain ⟨he', hf'⟩ := h₂.own l d m (h₁.owns d hd) hl
    refine ⟨he'.trans he, fun f hfl => ?_⟩
    obtain ⟨hsame, hpub, hflush⟩ := hf f hfl
    obtain ⟨hsame', hpub', hflush'⟩ := hf' f (he.trans hfl)
    exact ⟨hsame'.trans hsame, fun hp => hpub (hpub' hp), fun hd => hflush' (hflush hd)⟩

end Keeps

/-! ## What has been seen -/

section
variable (hp : V.Stays s s')
include hp

theorem Shows.mono {f inode : ℕ} {b : Bytes} (hs : V.Shows f b inode s) : V.Shows f b inode s' := by
  obtain ⟨hpub, hc, hn⟩ := hp f hs.published
  exact ⟨hpub, hc.trans hs.content, hn.trans hs.inode⟩

theorem Based.mono {snapshot : Snapshot h.contentId} (hb : V.Based snapshot s) : V.Based snapshot s' := by
  obtain ⟨f, stamp, hst, hs⟩ := hb
  exact ⟨f, stamp, hst, hs.mono hp⟩

variable (ht : s.trace <:+ s'.trace)
include ht

theorem Of.mono {l : Loc} {snapshot : Snapshot h.contentId} (ho : V.Of l snapshot s) :
    V.Of l snapshot s' := by
  obtain ⟨who, hsaw⟩ := ho.seen
  exact ⟨ho.based.mono hp, who, hsaw.grown ht⟩

theorem Honest.mono {d : Did h} (hd : V.Honest d s) : V.Honest d s' := by
  obtain ⟨who, x, c, a, was, before, after⟩ := d
  cases c with
  | cacheInsert path snapshot => exact fun hl => Of.mono hp ht (hd hl)
  | cellSet cell state =>
    rcases state with _ | _ | snapshot
    · trivial
    · trivial
    · obtain ⟨path, ⟨e, he, hl⟩, hof⟩ := hd
      exact ⟨path, ⟨e, ht.subset he, hl⟩, fun hl => Of.mono hp ht (hof hl)⟩
  | _ => trivial

end

/-! ## The beginning -/

/-- A world in which the service can begin: temporary names are free, and no two files have one
    inode. -/
structure Begins (V : Service h n) : Prop where
  sane : V.start.Sane
  free : ∀ l, h.IsTemp V.start.counter l → V.start.entries l = none
  inode : ∀ f g, f < V.start.next → g < V.start.next →
    (V.start.files f).inode = (V.start.files g).inode → f = g

theorem Begins.inv (hb : V.Begins) : V.Inv ⟨V.start, []⟩ := by
  have hpub : ∀ f, V.Published ⟨V.start, []⟩ f → f < V.start.next := by
    rintro f ⟨l, -, hf | ⟨d, hd, -⟩⟩
    · exact hb.sane l f hf
    · cases hd
  have howns : ∀ i d, ¬State.Owns (⟨V.start, []⟩ : State h) i d := by
    rintro i d ⟨c, hc, -⟩
    cases hc
  refine ⟨hb.sane, le_rfl, fun l d m hd hl => hb.free l ⟨d, m, hd, hl⟩,
    fun i j d hd => absurd hd (howns i d), fun i d hd => absurd hd (howns i d), hb.inode,
    fun l l' f ht _ hf => ?_, hpub, fun l _ he => he, fun l _ => .nil,
    fun l _ c hc => absurd hc List.not_mem_nil, fun l _ => List.nodup_nil, fun l e _ he => ?_,
    fun _ f hf => hpub f hf, fun l _ d ds hd => absurd (List.suffix_nil.1 hd) (List.cons_ne_nil d ds),
    fun d hd => absurd hd List.not_mem_nil, World.Blank.shared⟩
  · rw [hb.free l ht] at hf
    cases hf
  · cases he
    refine ⟨[], [], rfl, ?_, fun c hc => absurd hc List.not_mem_nil⟩
    rw [World.map_content]
    exact .nil

end Service

end Hashline
