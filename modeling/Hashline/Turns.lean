/-
  The turns of a thread that creates a file exclusively: what each changes of
  its own, and what it leaves to the others.
-/
import Hashline.Race

namespace Hashline

open Machine Object

variable {h : Host}

namespace Race
variable {race : Race h}

/-! ## Changes of one file -/

variable (race) in
/-- From `w` to `w'` at most the file `f`, its temporary name and the entry have changed. -/
structure Local (d n f : ℕ) (w w' : World h) : Prop where
  entries : ∀ l, l ≠ race.temp d n → l ≠ race.dest → w'.entries l = w.entries l
  names : ∀ l g, w'.entries l = some g → w.entries l = some g ∨ g = f
  files : ∀ g, g ≠ f → w'.files g = w.files g
  only : ∀ l, w.entries l = some f → l = race.temp d n ∨ l = race.dest
  counter : w'.counter = w.counter
  next : w.next ≤ w'.next
  bound : f < w'.next
  plain : (w'.files f).type ≠ .directory

section
variable {w w' : World h} {d n f : ℕ}

/-- The names of the file under the temporary name. -/
theorem Tidy.only (ht : race.Tidy w) (hd : race.first ≤ d) (hf : w.entries (race.temp d n) = some f)
    {l : Loc} (hl : w.entries l = some f) : l = race.temp d n ∨ l = race.dest := by
  cases ht.apart _ l f (.temp d n hd) hf hl with
  | dest => exact .inr rfl
  | temp d' n' hd' => exact .inl (ht.single d' n' d n f hd' hd hl hf)

theorem Tidy.local (ht : race.Tidy w) (hd : race.first ≤ d) (hlt : d < w.counter)
    (hl : race.Local d n f w w') : race.Tidy w' := by
  have hours : ∀ l, w.entries l = some f → race.Ours l := fun l hf => by
    rcases hl.only l hf with rfl | rfl
    · exact .temp d n hd
    · exact .dest
  have hnew : ∀ l g, w'.entries l = some g → ¬race.Ours l → w.entries l = some g := by
    intro l g hg hno
    rwa [← hl.entries l (fun he => hno (he ▸ .temp d n hd)) fun he => hno (he ▸ .dest)]
  have htemp : ∀ d' n', race.first ≤ d' → race.temp d' n' ≠ race.temp d n →
      w'.entries (race.temp d' n') = w.entries (race.temp d' n') := fun d' n' hd' hne =>
    hl.entries _ hne (temp_ne_dest hd')
  refine ⟨fun l g hg => ?_, hl.counter ▸ ht.counter, fun d' n' hd' => ?_, fun l l' g hol hg hg' => ?_,
    fun d₁ n₁ d₂ n₂ g h₁ h₂ hg₁ hg₂ => ?_, fun l g hol hg => ?_⟩
  · rcases hl.names l g hg with hg | rfl
    · exact (ht.sane l g hg).trans_le hl.next
    · exact hl.bound
  · rw [hl.counter] at hd'
    rw [htemp d' n' (ht.counter.trans hd') fun he => by have := temp_inj he; omega]
    exact ht.unborn d' n' hd'
  · by_contra hno
    have hg₀ := hnew l' g hg' hno
    rcases hl.names l g hg with hg | rfl
    · exact hno (ht.apart l l' g hol hg hg₀)
    · exact hno (hours l' hg₀)
  · have hmixed : ∀ d₁ n₁ d₂ n₂, race.first ≤ d₁ → race.first ≤ d₂ →
        w'.entries (race.temp d₁ n₁) = some g → w'.entries (race.temp d₂ n₂) = some g →
        race.temp d₂ n₂ ≠ race.temp d n → race.temp d₁ n₁ = race.temp d₂ n₂ := by
      intro d₁ n₁ d₂ n₂ h₁ h₂ hg₁ hg₂ hne
      rw [htemp d₂ n₂ h₂ hne] at hg₂
      rcases hl.names _ g hg₁ with hg₁ | rfl
      · exact ht.single d₁ n₁ d₂ n₂ g h₁ h₂ hg₁ hg₂
      · rcases hl.only _ hg₂ with he | he
        · exact absurd he hne
        · exact absurd he (temp_ne_dest h₂)
    by_cases hne₁ : race.temp d₁ n₁ = race.temp d n
    · by_cases hne₂ : race.temp d₂ n₂ = race.temp d n
      · rw [hne₁, hne₂]
      · exact hmixed d₁ n₁ d₂ n₂ h₁ h₂ hg₁ hg₂ hne₂
    · exact (hmixed d₂ n₂ d₁ n₁ h₂ h₁ hg₂ hg₁ hne₁).symm
  · by_cases hgf : g = f
    · subst hgf
      exact hl.plain
    · rw [hl.files g hgf]
      exact ht.plain l g hol ((hl.names l g hg).resolve_right hgf)

/-- The file gets a name, or loses one, and its metadata change. -/
theorem Tidy.local_setEntry (ht : race.Tidy w) (hd : race.first ≤ d)
    (hf : w.entries (race.temp d n) = some f) {l : Loc} (hl : l = race.temp d n ∨ l = race.dest)
    {entry : Option ℕ} (hentry : ∀ g, entry = some g → g = f) (ctime : FileTime) :
    race.Local d n f w ((w.setEntry l entry).changed f ctime) := by
  refine ⟨fun l' htemp hdest => World.setEntry_of_ne _ ?_ _, fun l' g hg => ?_,
    fun g hg => World.setFile_of_ne _ hg _, fun l' hf' => ht.only hd hf hf', rfl, le_rfl,
    ht.sane _ f hf, ?_⟩
  · rintro rfl
    exact hl.elim htemp hdest
  · by_cases hl' : l' = l
    · subst hl'
      rw [World.changed_entries, World.setEntry_self] at hg
      exact .inr (hentry g hg)
    · rw [World.changed_entries, World.setEntry_of_ne _ hl'] at hg
      exact .inl hg
  · have hplain := ht.plain _ f (.temp d n hd) hf
    simpa [World.changed] using hplain

/-- Another file is left as it is, and keeps its temporary names. -/
theorem Local.keeps (hl : race.Local d n f w w') {g : ℕ} (hg : w.entries race.dest = some g)
    (hdest : w'.entries race.dest = w.entries race.dest) (hne : g ≠ f) : race.Keeps w w' g := by
  have hfile := hl.files g hne
  refine ⟨hdest.trans hg, by rw [hfile], .inl hfile, fun hs => ⟨fun d' n' hd' hf => ?_, hfile⟩⟩
  exact hs d' n' hd' ((hl.names _ g hf).resolve_right hne)

end

section
variable {s s' : State h} {who d n f : ℕ}

/-- What a turn leaves to the others. -/
theorem Inv.yields_of_local (hi : race.Inv s) (hown : s.Owns who d)
    (hl : race.Local d n f s.world s'.world)
    (howns : ∀ j e, s.Owns j e → s'.Owns j e) (hlinked : ∀ j, s.Linked race.dest j → s'.Linked race.dest j)
    (hmine : ∀ j, j ≠ who → (s'.Linked race.dest j ↔ s.Linked race.dest j))
    (hkeeps : ∀ g, s.world.entries race.dest = some g → race.Keeps s.world s'.world g) :
    ∀ j, j ≠ who → race.Yields j s s' := by
  refine fun j hj => ⟨howns j, hmine j hj, hlinked, hkeeps, fun e m he => ?_⟩
  have hne : race.temp e m ≠ race.temp d n := fun heq => by
    rw [temp_inj heq] at he
    exact hj (hi.owner j who d he hown)
  have hfirst := temp_ne_dest (n := m) (hi.taken j e he).1
  refine ⟨hl.entries _ hne hfirst, fun g hg => hl.files g ?_⟩
  rintro rfl
  rcases hl.only _ hg with heq | heq
  · exact hne heq
  · exact hfirst heq

/-- **A turn that does not link** keeps the invariant. -/
theorem Inv.local (hi : race.Inv s) (hown : s.Owns who d) (hl : race.Local d n f s.world s'.world)
    {c : Did h} (ht : s'.trace = c :: s.trace) (htook : c.took = none) (hlink : ¬c.links race.dest)
    (hdest : s'.world.entries race.dest = s.world.entries race.dest)
    (hkeeps : ∀ g, s.world.entries race.dest = some g → race.Keeps s.world s'.world g)
    (htemp : ∀ g, s.world.entries race.dest = some g → s'.world.entries (race.temp d n) = some g →
      s.world.entries (race.temp d n) = some g) :
    race.Inv s' ∧ ∀ j, j ≠ who → race.Yields j s s' := by
  have howns : ∀ j e, s'.Owns j e ↔ s.Owns j e := fun j e => by simp [owns_cons ht, htook]
  have hlinked : ∀ j, s'.Linked race.dest j ↔ s.Linked race.dest j := fun j => by
    simp [linked_cons ht, hlink]
  obtain ⟨hfirst, hlt⟩ := hi.taken who d hown
  refine ⟨⟨hi.tidy.local hfirst hlt hl, fun i j e => ?_, fun i e => ?_, ?_⟩,
    hi.yields_of_local hown hl (fun j e => (howns j e).2) (fun j => (hlinked j).2)
      (fun j _ => hlinked j) hkeeps⟩
  · rw [howns, howns]
    exact hi.owner i j e
  · rw [howns, hl.counter]
    exact hi.taken i e
  · simp only [hlinked, hdest]
    refine hi.dest.imp_right fun ⟨g, i, hw⟩ => ⟨g, i, ?_⟩
    have hk := hkeeps g hw.entry
    refine ⟨hk.entry, hk.content.trans hw.content, (hlinked i).2 hw.linked,
      fun j hj => hw.only j ((hlinked j).1 hj), fun e m he hg => (howns i e).2 (hw.temp e m he ?_)⟩
    by_cases heq : race.temp e m = race.temp d n
    · rw [heq] at hg ⊢
      exact htemp g hw.entry hg
    · rwa [← hl.entries _ heq (temp_ne_dest he)]

/-- Thread `who` has the bytes in the file `f` under its temporary name, and has linked nothing. -/
structure Temp (race : Race h) (who d n f : ℕ) (bytes : Bytes) (s : State h) : Prop where
  owns : s.Owns who d
  entry : s.world.entries (race.temp d n) = some f
  content : (s.world.files f).content = bytes
  unlinked : ¬s.Linked race.dest who

variable {bytes : Bytes}

theorem Temp.yields (ht : race.Temp who d n f bytes s) (hy : race.Yields who s s') :
    race.Temp who d n f bytes s' := by
  obtain ⟨he, hf⟩ := hy.own d n ht.owns
  refine ⟨hy.owns d ht.owns, he.trans ht.entry, ?_, fun hl => ht.unlinked (hy.mine.1 hl)⟩
  rw [hf f ht.entry]
  exact ht.content

/-- The file is not the entry's. -/
theorem Temp.apart (ht : race.Temp who d n f bytes s) (hi : race.Inv s) {g : ℕ}
    (hg : s.world.entries race.dest = some g) : g ≠ f := by
  rintro rfl
  rcases hi.dest with ⟨hn, -⟩ | ⟨g', i, hw⟩
  · rw [hg] at hn; cases hn
  · obtain rfl : g = g' := Option.some.inj (hg.symm.trans hw.entry)
    have hown := hw.temp d n (hi.taken who d ht.owns).1 ht.entry
    rw [hi.owner i who d hown ht.owns] at hw
    exact ht.unlinked hw.linked

/-! ## The five turns -/

section
variable {x : Choice} {c : Did h} (hi : race.Inv s) (hx : x.fault = none)
  (ht : s'.trace = c :: s.trace)
include hi ht

/-- A discriminator that nobody has, and no file has a name with it. -/
theorem fetchAdd_turn {a : ℕ} (hc : c.who = who ∧ c.took = some a) (hlink : ¬c.links race.dest)
    (ha : act who x .fetchAdd s.world = some (a, s'.world)) :
    race.Inv s' ∧ (∀ j, race.Yields j s s') ∧ s'.Owns who a ∧
      ∀ n, s'.world.entries (race.temp a n) = none := by
  have ha : some (s.world.counter, { s.world with counter := s.world.counter + 1 }) =
    some (a, s'.world) := ha
  rw [Option.some.injEq, Prod.mk.injEq] at ha
  obtain ⟨rfl, hw⟩ := ha
  have hent : s'.world.entries = s.world.entries := by rw [← hw]
  have hfiles : s'.world.files = s.world.files := by rw [← hw]
  have hcounter : s'.world.counter = s.world.counter + 1 := by rw [← hw]
  have hnext : s'.world.next = s.world.next := by rw [← hw]
  have howns : ∀ j e, s'.Owns j e ↔ who = j ∧ s.world.counter = e ∨ s.Owns j e := fun j e => by
    simp [owns_cons ht, hc]
  have hlinked : ∀ j, s'.Linked race.dest j ↔ s.Linked race.dest j := fun j => by
    simp [linked_cons ht, hlink]
  have htidy := hi.tidy
  refine ⟨⟨⟨fun l f => ?_, ?_, fun d n hd => ?_, ?_, ?_, ?_⟩, fun i j e => ?_, fun i e => ?_, ?_⟩,
    fun j => ⟨fun e he => (howns j e).2 (.inr he), hlinked j, fun i => (hlinked i).2,
      fun f hf => ?_, fun d n _ => ⟨by rw [hent], fun f _ => by rw [hfiles]⟩⟩,
    (howns who _).2 (.inl ⟨rfl, rfl⟩), fun n => ?_⟩
  · rw [hent, hnext]
    exact htidy.sane l f
  · rw [hcounter]
    exact htidy.counter.trans (Nat.le_succ _)
  · rw [hent]
    exact htidy.unborn d n (by omega)
  · rw [hent]
    exact htidy.apart
  · rw [hent]
    exact htidy.single
  · rw [hent, hfiles]
    exact htidy.plain
  · have hnot : ∀ k, ¬s.Owns k s.world.counter := fun k hk => by
      have := (hi.taken k _ hk).2
      omega
    rw [howns, howns]
    rintro (⟨rfl, rfl⟩ | h₁) (⟨rfl, h₂⟩ | h₂)
    · rfl
    · exact absurd h₂ (hnot j)
    · subst h₂
      exact absurd h₁ (hnot i)
    · exact hi.owner i j e h₁ h₂
  · rw [howns, hcounter]
    rintro (⟨-, rfl⟩ | he)
    · exact ⟨htidy.counter, by omega⟩
    · have := hi.taken i e he
      omega
  · simp only [hlinked, hent]
    refine hi.dest.imp_right fun ⟨f, i, hw⟩ => ⟨f, i, ?_⟩
    refine ⟨by rw [hent]; exact hw.entry, by rw [hfiles]; exact hw.content, (hlinked i).2 hw.linked,
      fun j hj => hw.only j ((hlinked j).1 hj), fun e m he hf => (howns i e).2 (.inr ?_)⟩
    rw [hent] at hf
    exact hw.temp e m he hf
  · exact .of_eq hent hfiles hf
  · rw [hent]
    exact htidy.unborn _ n le_rfl

omit hi in
/-- The trace of a step that counts and links nothing. -/
theorem Temp.of_step {d n f : ℕ} {bytes : Bytes} (hown : s.Owns who d) (hun : ¬s.Linked race.dest who)
    (hlink : ¬c.links race.dest) (he : s'.world.entries (race.temp d n) = some f)
    (hc : (s'.world.files f).content = bytes) : race.Temp who d n f bytes s' := by
  refine ⟨(owns_cons ht).2 (.inr hown), he, hc, fun hl => ?_⟩
  rcases (linked_cons ht).1 hl with ⟨-, hl⟩ | hl
  · exact hlink hl
  · exact hun hl

include hx

/-- A file of its own, which is empty. -/
theorem createNew_turn {path : PathBuf} {d n : ℕ} {a : Except IoError ℕ}
    (hslash : path.slashed = false) (hpath : h.locate path = race.temp d n) (hown : s.Owns who d)
    (hun : ¬s.Linked race.dest who)
    (hfree : s.world.entries (race.temp d n) = none) (htook : c.took = none)
    (hlink : ¬c.links race.dest) (ha : act who x (.createNew path) s.world = some (a, s'.world)) :
    ∃ f, a = .ok f ∧ race.Inv s' ∧ (∀ j, j ≠ who → race.Yields j s s') ∧
      race.Temp who d n f [] s' := by
  replace ha := Choice.fallible_of_none hx ha
  rw [hpath, hfree, hslash, if_neg Bool.false_ne_true] at ha
  simp only at ha
  split_ifs at ha with hfresh
  rw [Option.some.injEq, Prod.mk.injEq] at ha
  obtain ⟨rfl, hw⟩ := ha
  have hnew : ∀ l, s.world.entries l ≠ some s.world.next := fun l hl => by
    have := hi.tidy.sane l _ hl
    omega
  have hdest : s'.world.entries race.dest = s.world.entries race.dest := by
    rw [← hw]
    exact World.addFile_entries_ne _ (Ne.symm (temp_ne_dest (hi.taken who d hown).1)) _
  have hlocal : race.Local d n s.world.next s.world s'.world := by
    rw [← hw]
    refine ⟨fun l hl _ => World.addFile_entries_ne _ hl _, fun l g hg => ?_, fun g hg => ?_,
      fun l hl => absurd hl (hnew l), rfl, Nat.le_succ _, Nat.lt_succ_self _, by simp⟩
    · by_cases hl : l = race.temp d n
      · subst hl
        rw [World.addFile_entries, Option.some.injEq] at hg
        exact .inr hg.symm
      · rw [World.addFile_entries_ne _ hl] at hg
        exact .inl hg
    · exact World.setFile_of_ne _ hg _
  have hother : ∀ g, s.world.entries race.dest = some g → g ≠ s.world.next := by
    rintro g hg rfl
    exact hnew _ hg
  obtain ⟨hi', hy⟩ := hi.local hown hlocal ht htook hlink hdest
    (fun g hg => hlocal.keeps hg hdest (hother g hg)) fun g hg hg' => by
      rw [← hw, World.addFile_entries, Option.some.injEq] at hg'
      exact absurd hg'.symm (hother g hg)
  refine ⟨_, rfl, hi', hy, .of_step ht hown hun hlink ?_ ?_⟩
  · rw [← hw, World.addFile_entries]
  · rw [← hw, World.addFile_self]

/-- More of the bytes in its file. -/
theorem write_turn {d n f offset : ℕ} {bytes : Bytes} {a : Except IoError ℕ}
    (htemp : race.Temp who d n f (bytes.take offset) s) (hl : offset < bytes.length)
    (htook : c.took = none) (hlink : ¬c.links race.dest)
    (ha : act who x (.write f offset (bytes.drop offset)) s.world = some (a, s'.world)) :
    ∃ k, a = .ok k ∧ 0 < k ∧ offset + k ≤ bytes.length ∧ race.Inv s' ∧
      (∀ j, j ≠ who → race.Yields j s s') ∧ race.Temp who d n f (bytes.take (offset + k)) s' := by
  have hgood : ∀ e, a ≠ .error e := by
    rintro e rfl
    replace ha := Choice.fallible_of_none hx ha
    split_ifs at ha
    cases ha
  rcases act_write_next htemp.content hl ha with ⟨e, he, -⟩ | ⟨k, hk, hpos, hle, -, hw⟩
  · exact absurd he (hgood e)
  have hours : race.Ours (race.temp d n) := .temp d n (hi.taken who d htemp.owns).1
  have hent : s'.world.entries = s.world.entries := by rw [hw]; rfl
  have hlocal : race.Local d n f s.world s'.world := by
    refine ⟨fun l _ _ => by rw [hent], fun l g hg => .inl (by rwa [hent] at hg), fun g hg => ?_,
      fun l hl => hi.tidy.only (hi.taken who d htemp.owns).1 htemp.entry hl, by rw [hw]; rfl, ?_, ?_, ?_⟩
    · rw [hw, World.setFile_of_ne _ hg]
    · rw [hw]; exact le_rfl
    · rw [hw]; exact hi.tidy.sane _ f htemp.entry
    · rw [hw, World.setFile_self]
      exact hi.tidy.plain _ f hours htemp.entry
  obtain ⟨hi', hy⟩ := hi.local htemp.owns hlocal ht htook hlink (by rw [hent])
    (fun g hg => hlocal.keeps hg (by rw [hent]) (htemp.apart hi hg)) fun g _ hg => by rwa [hent] at hg
  refine ⟨k, hk, hpos, hle, hi', hy, .of_step ht htemp.owns htemp.unlinked hlink ?_ ?_⟩
  · rw [hent]
    exact htemp.entry
  · rw [hw, World.setFile_self]

omit hx in
/-- **Who finds the name free wins.** -/
theorem won_turn {d n f : ℕ} {ctime : FileTime} (htemp : race.Temp who d n f (race.bytes who) s)
    (hdest : s.world.entries race.dest = none) (hwho : c.who = who) (htook : c.took = none)
    (hlink : c.links race.dest)
    (hw : s'.world = (s.world.setEntry race.dest (some f)).changed f ctime) :
    race.Inv s' ∧ (∀ j, j ≠ who → race.Yields j s s') ∧ s'.Owns who d ∧
      s'.world.entries (race.temp d n) = some f ∧ race.Won s' f who := by
  have hnone : ∀ i, ¬s.Linked race.dest i := by
    rcases hi.dest with ⟨-, hn⟩ | ⟨g, i, hwon⟩
    · exact hn
    · rw [hwon.entry] at hdest; cases hdest
  have howns : ∀ j e, s'.Owns j e ↔ s.Owns j e := fun j e => by simp [owns_cons ht, htook]
  have hlinked : ∀ j, s'.Linked race.dest j ↔ j = who := fun j => by
    rw [linked_cons ht, hwho]
    constructor
    · rintro (⟨rfl, -⟩ | hl)
      · rfl
      · exact absurd hl (hnone j)
    · rintro rfl
      exact .inl ⟨rfl, hlink⟩
  have hentry : ∀ l, l ≠ race.dest → s'.world.entries l = s.world.entries l := fun l hl => by
    rw [hw]
    exact World.setEntry_of_ne _ hl _
  have hcontent : (s'.world.files f).content = race.bytes who := by
    rw [hw, World.changed_content]
    exact htemp.content
  obtain ⟨hfirst, hlt⟩ := hi.taken who d htemp.owns
  have hlocal : race.Local d n f s.world s'.world := by
    rw [hw]
    exact hi.tidy.local_setEntry hfirst htemp.entry (.inr rfl) (fun g hg => (Option.some.inj hg).symm) _
  have hwon : race.Won s' f who := by
    refine ⟨?_, hcontent, (hlinked who).2 rfl, fun j hj => (hlinked j).1 hj, fun e m he hf => ?_⟩
    · rw [hw]
      exact World.setEntry_self _ _ _
    · rw [hentry _ (temp_ne_dest he)] at hf
      rcases hlocal.only _ hf with heq | heq
      · rw [temp_inj heq]
        exact (howns who d).2 htemp.owns
      · exact absurd heq (temp_ne_dest he)
  have hinv : race.Inv s' := by
    refine ⟨hi.tidy.local hfirst hlt hlocal, fun i j e => ?_, fun i e => ?_, .inr ⟨f, who, hwon⟩⟩
    · rw [howns, howns]
      exact hi.owner i j e
    · rw [howns, hlocal.counter]
      exact hi.taken i e
  refine ⟨hinv, hi.yields_of_local htemp.owns hlocal (fun j e => (howns j e).2)
    (fun j hj => absurd hj (hnone j)) (fun j hj => ?_) (fun g hg => ?_),
    (howns who d).2 htemp.owns, (hentry _ (temp_ne_dest hfirst)).trans htemp.entry, hwon⟩
  · rw [hlinked]
    exact ⟨fun he => absurd he hj, fun hl => absurd hl (hnone j)⟩
  · rw [hdest] at hg
    cases hg

/-- **Who finds the name free has won**, who finds it taken has not. -/
theorem hardLink_turn {source target : PathBuf} {d n f : ℕ} {a : Except IoError Unit}
    (hsourceSlash : source.slashed = false) (htargetSlash : target.slashed = false)
    (hsource : h.locate source = race.temp d n) (htarget : h.locate target = race.dest)
    (htemp : race.Temp who d n f (race.bytes who) s) (hwho : c.who = who) (htook : c.took = none)
    (hlink : c.links race.dest ↔ a = .ok ())
    (ha : act who x (.hardLink source target) s.world = some (a, s'.world)) :
    race.Inv s' ∧ (∀ j, j ≠ who → race.Yields j s s') ∧ s'.Owns who d ∧
      s'.world.entries (race.temp d n) = some f ∧ s'.world.entries race.dest ≠ none ∧
      (a = .ok () ∧ s'.Linked race.dest who ∨ a = .error .fileExists ∧ ¬s'.Linked race.dest who) := by
  replace ha := Choice.fallible_of_none hx ha
  rw [World.find_of_entry hsourceSlash (hsource ▸ htemp.entry)] at ha
  simp only [if_neg (PathBuf.getLast?_ne_dot htargetSlash), htargetSlash, htarget, Bool.false_eq_true,
    if_false] at ha
  rcases hdest : s.world.entries race.dest with _ | g
  · rw [hdest] at ha
    simp only at ha
    split_ifs at ha
    rw [Option.some.injEq, Prod.mk.injEq] at ha
    obtain ⟨rfl, hw⟩ := ha
    obtain ⟨hi', hy, howns, hentry, hwon⟩ :=
      won_turn hi ht htemp hdest hwho htook (hlink.2 rfl) hw.symm
    refine ⟨hi', hy, howns, hentry, ?_, .inl ⟨rfl, hwon.linked⟩⟩
    rw [hwon.entry]
    exact Option.some_ne_none f
  · rw [hdest] at ha
    simp only at ha
    rw [Option.some.injEq, Prod.mk.injEq] at ha
    obtain ⟨rfl, hw⟩ := ha
    have hlink' : ¬c.links race.dest := fun hl => by cases hlink.1 hl
    have hstill : race.Still s.world s'.world := by
      rw [← hw]
      exact .refl s.world
    obtain ⟨hi', hy⟩ := hi.still (hw ▸ hi.tidy) hstill ht htook hlink'
    have htemp' := htemp.yields (hy who)
    refine ⟨hi', fun j _ => hy j, htemp'.owns, htemp'.entry, ?_, .inr ⟨rfl, htemp'.unlinked⟩⟩
    rw [← hw, hdest]
    exact Option.some_ne_none g

omit hx in
/-- The temporary name goes; where it was the entry's file, its metadata change for the last time. -/
theorem removeFile_turn {path : PathBuf} {d n f : ℕ} {a : Except IoError Unit}
    (hpath : h.locate path = race.temp d n) (hown : s.Owns who d)
    (hf : s.world.entries (race.temp d n) = some f) (htook : c.took = none)
    (hlink : ¬c.links race.dest) (ha : act who x (.removeFile path) s.world = some (a, s'.world)) :
    race.Inv s' ∧ (∀ j, j ≠ who → race.Yields j s s') ∧
      (s'.Linked race.dest who ↔ s.Linked race.dest who) ∧
      s'.world.entries race.dest = s.world.entries race.dest := by
  have hlinked : s'.Linked race.dest who ↔ s.Linked race.dest who := by simp [linked_cons ht, hlink]
  rcases act_removeFile ha with ⟨-, -, hw⟩ | ⟨g, hg, -, -, hw⟩
  · have hstill : race.Still s.world s'.world := by
      rw [hw]
      exact .refl s.world
    obtain ⟨hi', hy⟩ := hi.still (hw ▸ hi.tidy) hstill ht htook hlink
    exact ⟨hi', fun j _ => hy j, hlinked, by rw [hw]⟩
  · rw [hpath] at hg hw
    obtain rfl : f = g := Option.some.inj (hf.symm.trans hg)
    obtain ⟨hfirst, hlt⟩ := hi.taken who d hown
    have hentry : ∀ l, l ≠ race.temp d n → s'.world.entries l = s.world.entries l := fun l hl => by
      rw [hw]
      exact World.setEntry_of_ne _ hl _
    have hgone : s'.world.entries (race.temp d n) = none := by
      rw [hw]
      exact World.setEntry_self _ _ _
    have hdest := hentry _ (Ne.symm (temp_ne_dest hfirst))
    have hlocal : race.Local d n f s.world s'.world := by
      rw [hw]
      exact hi.tidy.local_setEntry hfirst hf (.inl rfl) (fun g hg => by cases hg) _
    -- no other temporary name stands for the file
    have hsettled : race.Settled s'.world f := fun e m he hg => by
      by_cases heq : race.temp e m = race.temp d n
      · rw [heq, hgone] at hg
        cases hg
      · rw [hentry _ heq] at hg
        exact heq (hi.tidy.single e m d n f he hfirst hg hf)
    have hkeeps : ∀ g, s.world.entries race.dest = some g → race.Keeps s.world s'.world g := by
      intro g hdg
      by_cases hgf : g = f
      · subst hgf
        refine ⟨hdest.trans hdg, by rw [hw, World.changed_content]; rfl, .inr hsettled, fun hs => ?_⟩
        exact absurd hf (hs d n hfirst)
      · exact hlocal.keeps hdg hdest hgf
    obtain ⟨hi', hy⟩ := hi.local hown hlocal ht htook hlink hdest hkeeps fun g _ hg => by
      rw [hgone] at hg
      cases hg
    exact ⟨hi', hy, hlinked, hdest⟩

end

end

/-! ## Taking a turn -/

section
variable {ε α : Type} {rules : Rules h} {who : ℕ} {s s' s'' : State h} {Q : Exec ε α → State h → Prop}

/-- Some calls later. -/
structure Onward (race : Race h) (who : ℕ) (s s' : State h) : Prop where
  inv : race.Inv s'
  yields : race.Yields who s s'

theorem Onward.trans (h₁ : race.Onward who s s') (h₂ : race.Onward who s' s'') :
    race.Onward who s s'' := ⟨h₂.inv, h₁.yields.trans h₂.yields⟩

/-- One turn: first time passes, and others take their steps. -/
theorem safe_turn (hu : race.Undisturbed rules) {c : Call h} {k : Answer c → Op h ε α}
    (hk : ∀ s₁ x a s₂ w, race.Onward who s s₁ → x.fault = none →
      act who x c s₁.world = some (a, s₂.world) →
      s₂.trace = ⟨who, x, c, a, w, s₁.world, s₂.world⟩ :: s₁.trace →
      race.Inv s₂ ∧ (∀ j, j ≠ who → race.Yields j s₁ s₂) ∧
        (k a).Safe (step rules who) everywhere (race.contract who) Q s₂) :
    (Proc.ask c >>= k).Safe (step rules who) everywhere (race.contract who) Q s := by
  refine safe_call fun s₁ x w a s₂ hs₁ hi hr hw ha ht => ?_
  obtain ⟨hfault, -, hloc⟩ := hu s₁ c x hr
  obtain ⟨htidy, hstill⟩ := hi.tidy.elapsed hloc hw
  have helapsed : race.Inv (⟨w, s₁.trace⟩ : State h) ∧ ∀ j, race.Yields j s₁ ⟨w, s₁.trace⟩ :=
    hi.of_iff htidy hstill (fun _ _ => Iff.rfl) fun _ => Iff.rfl
  obtain ⟨hi', hy⟩ := helapsed
  obtain ⟨hi₂, hy₂, hq⟩ := hk ⟨w, s₁.trace⟩ x a s₂ s₁.world ⟨hi', Yields.trans hs₁ (hy who)⟩ hfault
    ha ht
  exact ⟨hi₂, fun j hj => (hy j).trans (hy₂ j hj), hq⟩

end

end Race

end Hashline
