/-
  The calls of a server's threads one by one: each keeps the invariant, and
  leaves to every other thread what that thread relies on.
-/
import Hashline.Service

namespace Hashline

open Machine

variable {h : Host} {n : ℕ}

theorem flushed_cons {d : Did h} {ds : List (Did h)} {first f : ℕ} (hd : ¬d.writes f)
    (hf : Flushed first f ds) : Flushed first f (d :: ds) := .inr ⟨hd, hf⟩

namespace World
variable {w w' : World h}

theorem contentAt_congr {l : Loc} (he : w'.entries l = w.entries l)
    (hf : ∀ f, w.entries l = some f → (w'.files f).content = (w.files f).content) :
    w'.contentAt l = w.contentAt l := by
  rcases hl : w.entries l with _ | f
  · simp [contentAt, fileAt, he, hl]
  · rw [contentAt_of_entry _ hl, contentAt_of_entry _ (he.trans hl), hf f hl]

end World

namespace Service
variable {V : Service h n} {i j : Fin n} {s s' : State h} {d : Did h}

theorem Inv.isTemp (hi : V.Inv s) {l : Loc} {e m k : ℕ} (ho : s.Owns k e)
    (hl : l.name = tempName h.processId e m) : h.IsTemp V.start.counter l :=
  ⟨e, m, (hi.taken k e ho).1, hl⟩

/-- What is put counts as not secured, and what the disk may have keeps its bytes. -/
theorem Inv.recorded_cons {new : List (Change ℕ (Option Bytes))} {l : Loc} {e : Option ℕ} (hi : V.Inv s)
    (ht : s'.trace = d :: s.trace) (hwas : d.was = s.world) (hl : V.Public l)
    (hleads : Leads (V.start.contentAt l) (s'.ledger l) (s'.world.contentAt l))
    (hledger : s'.ledger l = new ++ s.ledger l)
    (hnew : ∀ c ∈ new, ∀ c' ∈ s.ledger l, c'.who ≠ c.who)
    (hfiles : ∀ f, V.Published s f → (s'.world.files f).content = (s.world.files f).content)
    (hr : Remains l s'.world s'.trace e) : V.Recorded s' l e := by
  rw [ht] at hr
  rcases hr with rfl | ⟨hsettles, hr⟩
  · refine ⟨[], s'.ledger l, rfl, ?_, fun c hc => absurd hc List.not_mem_nil⟩
    rw [World.map_content]
    exact hleads
  · rw [hwas] at hr
    obtain ⟨later, earlier, hsplit, hearlier, hlater⟩ := hi.recorded l e hl hr
    refine ⟨new ++ later, earlier, by rw [hledger, hsplit, List.append_assoc], ?_, fun c hc hs => ?_⟩
    · rcases e with _ | f
      · exact hearlier
      · rw [Option.map_some, hfiles f ⟨l, hl, hr.stood⟩]
        exact hearlier
    · rw [ht] at hs
      rcases hs with hs | ⟨hset, -⟩
      · rcases List.mem_append.1 hc with hc | hc
        · obtain ⟨c', hc', hw⟩ := hs.mem
          exact hnew c hc c' hc' hw
        · exact hlater c hc hs
      · exact hsettles hset

/-- What leads to what stands now, and has led to what stood before. -/
theorem Inv.past_cons (hi : V.Inv s) (ht : s'.trace = d :: s.trace) (hafter : d.after = s'.world) {l : Loc}
    (hl : V.Public l) (hleads : Leads (V.start.contentAt l) (s'.ledger l) (s'.world.contentAt l))
    (e : Did h) (es : List (Did h)) (he : (e :: es) <:+ s'.trace) :
    Leads (V.start.contentAt l) ((e.moment es).ledger l) (e.after.contentAt l) := by
  rw [ht, List.suffix_cons_iff] at he
  rcases he with he | he
  · cases he
    have hsame : (d.moment s.trace).ledger l = s'.ledger l := by rw [State.ledger, State.ledger, ht]
    rw [hsame, hafter]
    exact hleads
  · exact hi.past l hl e es he

theorem honest_of_unshared (hd : d.call.Unshared) : V.Honest d s := by
  obtain ⟨who, x, c, a, was, before, after⟩ := d
  cases c with
  | cacheInsert | cellSet => exact hd.elim
  | _ => trivial

/-- What was shared is shared still. -/
theorem Inv.honest_cons (hi : V.Inv s) (ht : s'.trace = d :: s.trace)
    (hp : V.Stays s s') (hd : V.Honest d s) :
    ∀ e ∈ s'.trace, V.Honest e s' := by
  intro e he
  refine Honest.mono (s := s) hp (ht ▸ List.suffix_cons _ _) ?_
  rw [ht] at he
  rcases List.mem_cons.1 he with rfl | he
  · exact hd
  · exact hi.honest e he

/-! ## Calls that leave files and names -/

theorem published_same (ht : s'.trace = d :: s.trace) (hwas : d.was = s.world)
    (he : s'.world.entries = s.world.entries) {f : ℕ} : V.Published s' f ↔ V.Published s f := by
  refine exists_congr fun l => and_congr_right fun _ => ?_
  rw [stood_cons ht hwas, he]
  exact ⟨fun h => h.elim .inl id, .inr⟩

theorem Inv.still (hi : V.Inv s) (ht : s'.trace = d :: s.trace) (hwas : d.was = s.world)
    (he : s'.world.entries = s.world.entries) (hf : s'.world.files = s.world.files)
    (hn : s'.world.next = s.world.next) (hc : s.world.counter ≤ s'.world.counter)
    (howner : ∀ i j e, s'.Owns i e → s'.Owns j e → i = j)
    (htaken : ∀ i e, s'.Owns i e → V.start.counter ≤ e ∧ e < s'.world.counter)
    (hd : d.install = none) (hw : ∀ f, ¬d.writes f) (hafter : d.after = s'.world) (hh : V.Honest d s)
    (hsh : V.start.Blank → s'.Shared) : V.Inv s' := by
  have hledger : ∀ l, s'.ledger l = s.ledger l := fun l => ledger_same ht (Did.puts_of_install hd l)
  have hcontent : ∀ l, s'.world.contentAt l = s.world.contentAt l := fun l =>
    World.contentAt_congr (by rw [he]) fun _ _ => by rw [hf]
  have hpub : ∀ f, V.Published s' f ↔ V.Published s f := fun f => published_same ht hwas he
  refine ⟨fun l f hl => ?_, hi.counter.trans hc, fun l e m hle hl => ?_, howner, htaken, ?_, ?_,
    fun f hp => ?_, ?_, fun l hl => ?_, fun l hl => ?_, fun l hl => ?_, fun l e hl hr => ?_,
    fun hall f hp => ?_, fun l hl => hi.past_cons ht hafter hl ?_,
    hi.honest_cons ht (fun f hp => ⟨(hpub f).2 hp, by rw [hf], by rw [hf]⟩) hh, hsh⟩
  · rw [hn]
    exact hi.sane l f (by rwa [he] at hl)
  · rw [he]
    exact hi.unborn l e m (hc.trans hle) hl
  · rw [hn, hf]
    exact hi.inode
  · rw [he]
    exact hi.single
  · rw [hn]
    exact hi.born f ((hpub f).1 hp)
  · rw [he]
    exact hi.there
  · rw [hledger, hcontent]
    exact hi.leads l hl
  · rw [hledger]
    exact hi.rightly l hl
  · rw [hledger]
    exact hi.once l hl
  · refine hi.recorded_cons ht hwas hl ?_ (hledger l) (fun c hc => absurd hc List.not_mem_nil)
      (fun f _ => by rw [hf]) hr
    rw [hledger, hcontent]
    exact hi.leads l hl
  · rw [ht]
    exact flushed_cons (hw f) (hi.flushed hall f ((hpub f).1 hp))
  · rw [hledger, hcontent]
    exact hi.leads l hl

theorem Keeps.still (ht : s'.trace = d :: s.trace) (hwas : d.was = s.world)
    (he : s'.world.entries = s.world.entries) (hf : s'.world.files = s.world.files)
    (howns : ∀ e, s.Owns j e → s'.Owns j e)
    (hlock : ∀ p, V.path j = some p → s.world.locks p.components = some j.val →
      s'.world.locks p.components = some j.val)
    (hd : d.install = none) (hw : ∀ f, ¬d.writes f) : V.Keeps j s s' := by
  refine ⟨howns, fun f hp => ⟨(published_same ht hwas he).2 hp, by rw [hf], by rw [hf]⟩,
    fun p hp hl => ⟨hlock p hp hl, by rw [he]⟩, fun l e m _ _ => ⟨by rw [he], fun f _ => ⟨by rw [hf],
      (published_same ht hwas he).1, fun hfl => ?_⟩⟩, fun l c _ _ => ?_, ht ▸ List.suffix_cons _ _⟩
  · rw [ht]
    exact flushed_cons (hw f) hfl
  · rw [ledger_same ht (Did.puts_of_install hd l)]

/-! ## Calls on a thread's own file -/

/-- The call put the file at the destination of thread `i`, which has the lock, for the first time and
    as it may. -/
structure Put (V : Service h n) (i : Fin n) (l : Loc) (f : ℕ) (s s' : State h) (d : Did h) : Prop where
  locked : ∃ p, V.path i = some p ∧ h.locate p = l ∧ s.world.locks p.components = some i.val
  entry : s'.world.entries l = some f
  puts : d.puts l = some ⟨i, s.world.contentAt l, some (s'.world.files f).content⟩
  right : V.right i (s.world.contentAt l) (s'.world.files f).content
  first : ∀ c ∈ s.ledger l, c.who ≠ i.val
  flushed : V.flushes i → Flushed V.start.next f s'.trace

/-- The call changed at most the file `f`, which stands under the temporary name `t` of thread `i` or is
    new, that name, and the places where it put something. -/
structure Touch (V : Service h n) (i : Fin n) (t : Loc) (f : ℕ) (s s' : State h) (d : Did h) :
    Prop where
  trace : s'.trace = d :: s.trace
  was : d.was = s.world
  took : d.took = none
  own : ∃ e m, s.Owns i e ∧ t.name = tempName h.processId e m
  file : s.world.entries t = some f ∧ s'.world.next = s.world.next ∨
    s.world.entries t = none ∧ f = s.world.next ∧ s'.world.next = s.world.next + 1
  entry : ∀ g, s'.world.entries t = some g → g = f
  temps : ∀ l, h.IsTemp V.start.counter l → l ≠ t → s'.world.entries l = s.world.entries l
  files : ∀ g, g ≠ f → s'.world.files g = s.world.files g
  inode : ∀ g, g < s.world.next → g ≠ f → (s.world.files g).inode ≠ (s'.world.files f).inode
  kept : V.Published s f → (s'.world.files f).content = (s.world.files f).content ∧
    (s'.world.files f).inode = (s.world.files f).inode
  counter : s'.world.counter = s.world.counter
  locks : s'.world.locks = s.world.locks
  writes : ∀ g, d.writes g → g = f ∧ ¬V.Published s f
  after : d.after = s'.world
  unshared : d.call.Unshared
  shared : s.Shared → s'.Shared
  place : ∀ l, V.Public l → s'.world.entries l = s.world.entries l ∧ d.puts l = none ∨
    V.Put i l f s s' d

namespace Touch
variable {t : Loc} {f : ℕ} (hi : V.Inv s) (ht : V.Touch i t f s s' d)
include hi ht

omit hi in
theorem next_le : s.world.next ≤ s'.world.next := by
  rcases ht.file with ⟨-, hn⟩ | ⟨-, -, hn⟩ <;> omega

theorem lt_next : f < s'.world.next := by
  rcases ht.file with ⟨hf, hn⟩ | ⟨-, hf, hn⟩
  · rw [hn]
    exact hi.sane t f hf
  · omega

omit hi in
theorem lt_of_ne {g : ℕ} (hg : g < s'.world.next) (hne : g ≠ f) : g < s.world.next := by
  rcases ht.file with ⟨-, hn⟩ | ⟨-, hf, hn⟩ <;> omega

theorem temp : h.IsTemp V.start.counter t := by
  obtain ⟨e, m, ho, hl⟩ := ht.own
  exact hi.isTemp ho hl

/-- Under other temporary names there stand other files. -/
theorem ne_of_entry {l : Loc} {g : ℕ} (hl : h.IsTemp V.start.counter l) (hne : l ≠ t)
    (hg : s.world.entries l = some g) : g ≠ f := by
  rintro rfl
  rcases ht.file with ⟨hf, -⟩ | ⟨-, hf, -⟩
  · exact hne (hi.single l t g hl (ht.temp hi) hg hf)
  · exact absurd (hi.sane l g hg) (by omega)

omit hi in
/-- The bytes of published files stay. -/
theorem published {g : ℕ} (hg : V.Published s g) :
    (s'.world.files g).content = (s.world.files g).content ∧
      (s'.world.files g).inode = (s.world.files g).inode := by
  by_cases hgf : g = f
  · subst hgf
    exact ht.kept hg
  · rw [ht.files g hgf]
    exact ⟨rfl, rfl⟩

omit hi in
theorem still_published {g : ℕ} (hg : V.Published s g) : V.Published s' g := by
  obtain ⟨l, hl, hs⟩ := hg
  exact ⟨l, hl, (stood_cons ht.trace ht.was l g).2 (.inr hs)⟩

omit hi in
/-- Where others see it there stands what stood there before, or what was put. -/
theorem stood_or {l : Loc} (hl : V.Public l) {g : ℕ} (hs : s'.Stood l g) :
    s.Stood l g ∨ g = f ∧ V.Put i l f s s' d := by
  rcases (stood_cons ht.trace ht.was l g).1 hs with he | hs
  · rcases ht.place l hl with ⟨hsame, -⟩ | hput
    · exact .inl (.inl (hsame ▸ he))
    · exact .inr ⟨Option.some.inj (he.symm.trans hput.entry), hput⟩
  · exact .inl hs

omit hi in
theorem published_or {g : ℕ} (hg : V.Published s' g) : V.Published s g ∨ g = f := by
  obtain ⟨l, hl, hs⟩ := hg
  exact (ht.stood_or hl hs).imp (fun hs => ⟨l, hl, hs⟩) And.left

omit hi in
/-- Where nothing is put nothing is published. -/
theorem published_of (hd : d.install = none) {g : ℕ} (hg : V.Published s' g) : V.Published s g := by
  obtain ⟨l, hl, hs⟩ := hg
  rcases ht.stood_or hl hs with hs | ⟨-, hput⟩
  · exact ⟨l, hl, hs⟩
  · have hputs := hput.puts
    rw [Did.puts_of_install hd l] at hputs
    cases hputs

omit hi in
theorem owns (k e : ℕ) : s'.Owns k e ↔ s.Owns k e := by simp [owns_cons ht.trace, ht.took]

omit hi in
theorem contentAt_same {l : Loc} (hl : V.Public l) (he : s'.world.entries l = s.world.entries l) :
    s'.world.contentAt l = s.world.contentAt l :=
  World.contentAt_congr he fun _ hg => (ht.published ⟨l, hl, .inl hg⟩).1

theorem sane : s'.world.Sane := by
  intro l g hg
  have hnext := ht.next_le
  by_cases hl : h.IsTemp V.start.counter l
  · by_cases hlt : l = t
    · subst hlt
      rw [ht.entry g hg]
      exact ht.lt_next hi
    · rw [ht.temps l hl hlt] at hg
      exact (hi.sane l g hg).trans_le hnext
  · rcases ht.place l hl with ⟨he, -⟩ | hput
    · exact (hi.sane l g (he ▸ hg)).trans_le hnext
    · rw [hput.entry, Option.some.injEq] at hg
      exact hg ▸ ht.lt_next hi

/-- Names to come are free as before: the name that changed has been taken. -/
theorem unborn {l : Loc} {e m : ℕ} (hle : s.world.counter ≤ e) (hl : l.name = tempName h.processId e m) :
    s'.world.entries l = none := by
  have hne : l ≠ t := by
    rintro rfl
    obtain ⟨e', m', ho, hl'⟩ := ht.own
    have := (hi.taken _ e' ho).2
    have := tempName_inj (hl.symm.trans hl')
    omega
  rw [ht.temps l ⟨e, m, hi.counter.trans hle, hl⟩ hne]
  exact hi.unborn l e m hle hl

/-- The file that changed has an inode of its own. -/
theorem inode_inj {g g' : ℕ} (hg : g < s'.world.next) (hg' : g' < s'.world.next)
    (hgg : (s'.world.files g).inode = (s'.world.files g').inode) : g = g' := by
  have hown : ∀ k, k < s'.world.next → k ≠ f →
      (s'.world.files k).inode ≠ (s'.world.files f).inode := fun k hk hkf => by
    rw [ht.files k hkf]
    exact ht.inode k (ht.lt_of_ne hk hkf) hkf
  by_cases hgf : g = f <;> by_cases hgf' : g' = f
  · exact hgf.trans hgf'.symm
  · subst hgf
    exact absurd hgg.symm (hown g' hg' hgf')
  · subst hgf'
    exact absurd hgg (hown g hg hgf)
  · rw [ht.files g hgf, ht.files g' hgf'] at hgg
    exact hi.inode g g' (ht.lt_of_ne hg hgf) (ht.lt_of_ne hg' hgf') hgg

theorem single {l l' : Loc} {g : ℕ} (hl : h.IsTemp V.start.counter l) (hl' : h.IsTemp V.start.counter l')
    (hg : s'.world.entries l = some g) (hg' : s'.world.entries l' = some g) : l = l' := by
  by_cases hlt : l = t <;> by_cases hlt' : l' = t
  · exact hlt.trans hlt'.symm
  · subst hlt
    rw [ht.temps l' hl' hlt'] at hg'
    exact absurd (ht.entry g hg) (ht.ne_of_entry hi hl' hlt' hg')
  · subst hlt'
    rw [ht.temps l hl hlt] at hg
    exact absurd (ht.entry g hg') (ht.ne_of_entry hi hl hlt hg)
  · rw [ht.temps l hl hlt] at hg
    rw [ht.temps l' hl' hlt'] at hg'
    exact hi.single l l' g hl hl' hg hg'

theorem leads {l : Loc} (hl : V.Public l) :
    Leads (V.start.contentAt l) (s'.ledger l) (s'.world.contentAt l) := by
  rcases ht.place l hl with ⟨he, hp⟩ | hput
  · rw [ledger_same ht.trace hp, ht.contentAt_same hl he]
    exact hi.leads l hl
  · rw [ledger_cons ht.trace, hput.puts, World.contentAt_of_entry _ hput.entry]
    exact .cons (hi.leads l hl)

theorem rightly {l : Loc} (hl : V.Public l) : ∀ c ∈ s'.ledger l, V.Rightly l c := by
  rcases ht.place l hl with ⟨-, hp⟩ | hput
  · rw [ledger_same ht.trace hp]
    exact hi.rightly l hl
  · rw [ledger_cons ht.trace, hput.puts]
    obtain ⟨p, hp, hpl, -⟩ := hput.locked
    intro c hc
    rcases List.mem_cons.1 hc with rfl | hc
    · exact ⟨i, rfl, ⟨p, hp, hpl⟩, _, rfl, hput.right⟩
    · exact hi.rightly l hl c hc

theorem once {l : Loc} (hl : V.Public l) : ((s'.ledger l).map (·.who)).Nodup := by
  rcases ht.place l hl with ⟨-, hp⟩ | hput
  · rw [ledger_same ht.trace hp]
    exact hi.once l hl
  · rw [ledger_cons ht.trace, hput.puts]
    refine List.nodup_cons.2 ⟨fun hm => ?_, hi.once l hl⟩
    obtain ⟨c, hc, hci⟩ := List.mem_map.1 hm
    exact hput.first c hc hci

theorem recorded {l : Loc} {e : Option ℕ} (hl : V.Public l) (hr : Remains l s'.world s'.trace e) :
    V.Recorded s' l e := by
  refine hi.recorded_cons ht.trace ht.was hl (ht.leads hi hl) (ledger_cons ht.trace l) (fun c hc => ?_)
    (fun f hf => (ht.published hf).1) hr
  rcases ht.place l hl with ⟨-, hp⟩ | hput
  · rw [hp] at hc
    exact absurd hc List.not_mem_nil
  · rw [hput.puts, Option.toList_some, List.mem_singleton] at hc
    rw [hc]
    exact hput.first

theorem flushed (hall : ∀ i, V.flushes i) {g : ℕ} (hg : V.Published s' g) :
    Flushed V.start.next g s'.trace := by
  obtain ⟨l, hl, hs⟩ := hg
  rcases ht.stood_or hl hs with hs | ⟨rfl, hput⟩
  · rw [ht.trace]
    refine flushed_cons (fun hw => ?_) (hi.flushed hall g ⟨l, hl, hs⟩)
    obtain ⟨rfl, hun⟩ := ht.writes g hw
    exact hun ⟨l, hl, hs⟩
  · exact hput.flushed (hall i)

/-- **A thread's call on its own file** keeps the invariant. -/
theorem inv : V.Inv s' := by
  refine ⟨ht.sane hi, ht.counter ▸ hi.counter, fun l e m hle hl => ht.unborn hi (ht.counter ▸ hle) hl,
    fun k k' e hk hk' => ?_, fun k e hk => ?_, fun _ _ => ht.inode_inj hi, fun _ _ _ => ht.single hi,
    fun g hg => ?_, fun l hl hs => ?_, fun _ => ht.leads hi, fun _ => ht.rightly hi, fun _ => ht.once hi,
    fun _ _ => ht.recorded hi, fun hall _ => ht.flushed hi hall,
    fun l hl => hi.past_cons ht.trace ht.after hl (ht.leads hi hl),
    hi.honest_cons ht.trace (fun g hg => ⟨ht.still_published hg, ht.published hg⟩)
      (honest_of_unshared ht.unshared),
    fun hb => ht.shared (hi.shared hb)⟩
  · exact hi.owner k k' e ((ht.owns k e).1 hk) ((ht.owns k' e).1 hk')
  · rw [ht.counter]
    exact hi.taken k e ((ht.owns k e).1 hk)
  · rcases ht.published_or hg with hg | rfl
    · exact (hi.born g hg).trans_le ht.next_le
    · exact ht.lt_next hi
  · rcases ht.place l hl with ⟨he, -⟩ | hput
    · rw [he]
      exact hi.there l hl hs
    · rw [hput.entry]
      exact Option.some_ne_none f

/-- **What such a call leaves to the others.** -/
theorem keeps {j : Fin n} (hj : j ≠ i) : V.Keeps j s s' := by
  refine ⟨fun e => (ht.owns j e).2, fun g hg => ⟨ht.still_published hg, ht.published hg⟩,
    fun p hp hlock => ⟨?_, ?_⟩, fun l e m ho hl => ?_, fun l c hl hc => ?_,
    ht.trace ▸ List.suffix_cons _ _⟩
  · rw [ht.locks]
    exact hlock
  · rcases ht.place _ (V.named j p hp) with ⟨he, -⟩ | hput
    · exact he
    · obtain ⟨q, hq, hqp, hqlock⟩ := hput.locked
      rw [← V.alike j i p q hp hq hqp.symm, hlock, Option.some.injEq] at hqlock
      exact absurd (Fin.ext hqlock) hj
  · have htemp := hi.isTemp ho hl
    have hne : l ≠ t := by
      rintro rfl
      obtain ⟨e', m', ho', hl'⟩ := ht.own
      obtain rfl := tempName_inj (hl.symm.trans hl')
      exact hj (Fin.ext (hi.owner _ _ e ho ho'))
    refine ⟨ht.temps l htemp hne, fun g hg => ?_⟩
    have hgf := ht.ne_of_entry hi htemp hne hg
    refine ⟨ht.files g hgf, fun hp => (ht.published_or hp).resolve_right hgf, fun hfl => ?_⟩
    rw [ht.trace]
    exact flushed_cons (fun hw => hgf (ht.writes g hw).1) hfl
  · rcases ht.place l hl with ⟨-, hp⟩ | hput
    · rw [ledger_same ht.trace hp]
    · rw [ledger_cons ht.trace, hput.puts]
      refine List.mem_cons.trans (or_iff_right ?_)
      rintro rfl
      exact hj (Fin.ext hc).symm

end Touch

/-! ## What a thread retains -/

/-- From `s` to `s'` published files have kept their bytes, and thread `i` its names and its lock, and it
    has put nothing anywhere. -/
structure Retains (V : Service h n) (i : Fin n) (s s' : State h) : Prop where
  owns : ∀ d, s.Owns i d → s'.Owns i d
  published : V.Stays s s'
  locked : ∀ p, V.path i = some p → s.world.locks p.components = some i.val →
    s'.world.locks p.components = some i.val
  mine : ∀ l c, V.Public l → c.who = i.val → (c ∈ s'.ledger l ↔ c ∈ s.ledger l)
  grown : s.trace <:+ s'.trace

theorem Keeps.retains (hk : V.Keeps i s s') : V.Retains i s s' :=
  ⟨hk.owns, hk.published, fun p hp hl => (hk.locked p hp hl).1, hk.mine, hk.grown⟩

namespace Retains
variable {s'' : State h}

theorem refl (i : Fin n) (s : State h) : V.Retains i s s := (Keeps.refl i s).retains

theorem trans (h₁ : V.Retains i s s') (h₂ : V.Retains i s' s'') : V.Retains i s s'' := by
  refine ⟨fun d hd => h₂.owns d (h₁.owns d hd), fun f hf => ?_,
    fun p hp hl => h₂.locked p hp (h₁.locked p hp hl),
    fun l c hl hc => (h₂.mine l c hl hc).trans (h₁.mine l c hl hc), h₁.grown.trans h₂.grown⟩
  obtain ⟨hp, hc, hn⟩ := h₁.published f hf
  obtain ⟨hp', hc', hn'⟩ := h₂.published f hp
  exact ⟨hp', hc'.trans hc, hn'.trans hn⟩

end Retains

/-- Thread `i` has put nothing at the place. -/
def Unput (s : State h) (i : Fin n) (l : Loc) : Prop := ∀ c ∈ s.ledger l, c.who ≠ i.val

theorem Retains.unput (hr : V.Retains i s s') {l : Loc} (hl : V.Public l) (hu : Unput s i l) :
    Unput s' i l := fun c hc hci => hu c ((hr.mine l c hl hci).1 hc) hci

/-- A call of thread `i` that puts nothing. -/
theorem Touch.retains {t : Loc} {f : ℕ} (ht : V.Touch i t f s s' d) (hd : d.install = none) :
    V.Retains i s s' := by
  refine ⟨fun e => (ht.owns i e).2, fun g hg => ⟨ht.still_published hg, ht.published hg⟩, fun p _ hl => ?_,
    fun l c _ _ => ?_, ht.trace ▸ List.suffix_cons _ _⟩
  · rw [ht.locks]
    exact hl
  · rw [ledger_same ht.trace (Did.puts_of_install hd l)]

/-- The file `f` stands under the temporary name `t` of thread `i`, and nobody else has seen it. -/
structure Temp (V : Service h n) (i : Fin n) (t : Loc) (f : ℕ) (s : State h) : Prop where
  own : ∃ e m, s.Owns i e ∧ t.name = tempName h.processId e m
  entry : s.world.entries t = some f
  hidden : ¬V.Published s f

namespace Temp
variable {t : Loc} {f : ℕ} (ht : V.Temp i t f s)
include ht

/-- Others leave it alone. -/
theorem keeps (hk : V.Keeps i s s') : V.Temp i t f s' ∧ s'.world.files f = s.world.files f ∧
    (Flushed V.start.next f s.trace → Flushed V.start.next f s'.trace) := by
  obtain ⟨e, m, ho, hl⟩ := ht.own
  obtain ⟨hent, hfile⟩ := hk.own t e m ho hl
  obtain ⟨hsame, hpub, hflush⟩ := hfile f ht.entry
  exact ⟨⟨⟨e, m, hk.owns e ho, hl⟩, hent.trans ht.entry, fun hp => ht.hidden (hpub hp)⟩, hsame, hflush⟩

theorem ne_public {l : Loc} (hi : V.Inv s) (hl : V.Public l) : l ≠ t := by
  rintro rfl
  obtain ⟨e, m, ho, hn⟩ := ht.own
  exact hl (hi.isTemp ho hn)

end Temp

end Service

end Hashline
