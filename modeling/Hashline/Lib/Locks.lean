/-
  Programs that share locks and hold one at a time: whatever they have done so
  far, all of them can go on to their ends.
-/
import Mathlib.Data.Fintype.EquivFin
import Hashline.Lib.Dialogue
import Hashline.Lib.Pool

variable {T W L C X S : Type} {A : C → Type} {α β : Type}

namespace Prog
variable (takes leaves : C → Option L)

/-- A program that holds at most one lock: it waits for one only while it holds none, and leaves only
    the one it holds. `Q` tells of its value and of what it holds in the end. -/
def Polite : Option L → (α → Option L → Prop) → Prog C A α → Prop
  | held, Q, ret a => Q a held
  | held, Q, call c k => match takes c, leaves c with
    | some l, _ => held = none ∧ ∀ a, (k a).Polite (some l) Q
    | none, some l => held = some l ∧ ∀ a, (k a).Polite none Q
    | none, none => ∀ a, (k a).Polite held Q

variable {takes leaves} {held : Option L}

theorem Polite.bind {Q : β → Option L → Prop} {p : Prog C A α} {f : α → Prog C A β}
    {P : α → Option L → Prop} (hp : p.Polite takes leaves held P)
    (hf : ∀ a held, P a held → (f a).Polite takes leaves held Q) :
    (p.bind f).Polite takes leaves held Q := by
  induction p generalizing held with
  | ret a => exact hf a held hp
  | call c k ih =>
    unfold Polite at hp
    unfold Prog.bind Polite
    split at hp
    · exact ⟨hp.1, fun a => ih a (hp.2 a)⟩
    · exact ⟨hp.1, fun a => ih a (hp.2 a)⟩
    · exact fun a => ih a (hp a)

theorem Polite.mono {P Q : α → Option L → Prop} {p : Prog C A α} (hp : p.Polite takes leaves held P)
    (h : ∀ a held, P a held → Q a held) : p.Polite takes leaves held Q := by
  induction p generalizing held with
  | ret a => exact h a held hp
  | call c k ih =>
    unfold Polite at hp ⊢
    split at hp
    · exact ⟨hp.1, fun a => ih a (hp.2 a)⟩
    · exact ⟨hp.1, fun a => ih a (hp.2 a)⟩
    · exact fun a => ih a (hp a)

/-- Calls that take and leave no lock. -/
theorem polite_of_within {D : Dialogue C A} {P : α → Prop} {p : Prog C A α}
    (hcall : ∀ c, D.call c → takes c = none ∧ leaves c = none) (hanswer : ∀ c a, D.answer c a)
    (hp : p.Within D P) : p.Polite takes leaves held fun a held' => P a ∧ held' = held := by
  induction p with
  | ret a => exact ⟨hp, rfl⟩
  | call c k ih =>
    unfold Polite
    rw [(hcall c hp.1).1, (hcall c hp.1).2]
    exact fun a => ih a (hp.2 a (hanswer c a))

end Prog

/-- A machine that keeps locks: who holds each, and what the calls do to them. -/
structure Latched [DecidableEq L] (step : T → X → (c : C) → S → Option (A c × S))
    (holder : S → L → Option W) (who : T → W) (takes leaves : C → Option L) : Prop where
  inj : Function.Injective who
  take : ∀ {i x c s a s' l}, step i x c s = some (a, s') → takes c = some l →
    holder s l = none ∧ holder s' = Function.update (holder s) l (some (who i))
  leave : ∀ {i x c s a s' l}, step i x c s = some (a, s') → takes c = none → leaves c = some l →
    holder s' = Function.update (holder s) l none
  other : ∀ {i x c s a s'}, step i x c s = some (a, s') → takes c = none → leaves c = none →
    holder s' = holder s

/-- A call is answered unless it waits for a lock. -/
def Answering (step : T → X → (c : C) → S → Option (A c × S)) (holder : S → L → Option W)
    (takes : C → Option L) : Prop :=
  ∀ i c s, (∀ l, takes c = some l → holder s l = none) → ∃ x, (step i x c s).isSome

namespace Pool

/-! ## Programs that may rest anywhere -/

section
variable [DecidableEq T] {step : T → X → (c : C) → S → Option (A c × S)} {P P' : Pool T C A α S} {i : T}
  {x : X}

theorem advance_eq_some (h : P.advance step (fun _ => true) (i, x) = some P') :
    ∃ c k a s, P.threads i = .call c k ∧ step i x c P.state = some (a, s) ∧
      P' = ⟨Function.update P.threads i (k a), none, s⟩ := by
  unfold Pool.advance at h
  split_ifs at h
  rw [Option.map_eq_some_iff] at h
  obtain ⟨⟨p, s⟩, hadv, rfl⟩ := h
  rcases hprog : P.threads i with a | ⟨c, k⟩
  · rw [hprog] at hadv
    cases hadv
  · rw [hprog, Prog.advance, Option.map_eq_some_iff] at hadv
    obtain ⟨⟨a, s₁⟩, hcall, hadv⟩ := hadv
    cases hadv
    exact ⟨c, k, a, _, rfl, hcall, by rw [if_pos (Prog.rests_everywhere _)]⟩

theorem advance_of_call {c : C} {k : A c → Prog C A α} {a : A c} {s : S} (hcurrent : P.current = none)
    (hprog : P.threads i = .call c k) (hst : step i x c P.state = some (a, s)) :
    P.advance step (fun _ => true) (i, x) = some ⟨Function.update P.threads i (k a), none, s⟩ := by
  unfold Pool.advance
  rw [if_pos (.inl hcurrent), hprog, Prog.advance, hst]
  simp [Prog.rests_everywhere]

theorem runs_append {ms ms' : List (T × X)} {pause : C → Bool} {P : Pool T C A α S} :
    P.runs step pause (ms ++ ms') = (P.runs step pause ms).bind (Pool.runs step pause ms') := by
  induction ms generalizing P with
  | nil => rfl
  | cons m ms ih =>
    rw [List.cons_append, runs, runs, Option.bind_assoc]
    exact congrArg _ (funext fun P => ih)

end

/-! ## Polite programs -/

/-- `held` tells what each program holds: it goes on politely from there, and nobody else holds anything. -/
structure Politely (holder : S → L → Option W) (who : T → W) (takes leaves : C → Option L)
    (held : T → Option L) (P : Pool T C A α S) : Prop where
  current : P.current = none
  polite : ∀ i, (P.threads i).Polite takes leaves (held i) fun _ held => held = none
  own : ∀ i l, held i = some l → holder P.state l = some (who i)
  only : ∀ l v, holder P.state l = some v → ∃ i, who i = v ∧ held i = some l

section
variable [DecidableEq T] [DecidableEq L] {step : T → X → (c : C) → S → Option (A c × S)}
  {pause : C → Bool} {holder : S → L → Option W} {who : T → W} {takes leaves : C → Option L}
  {held : T → Option L} {P P' : Pool T C A α S} {i : T} {c : C} {k : A c → Prog C A α}

omit [DecidableEq L] in
/-- After a call of program `i`, which holds `h` then. -/
theorem Politely.moved (hp : P.Politely holder who takes leaves held) {p : Prog C A α} {s : S}
    (h : Option L) (hpolite : p.Polite takes leaves h fun _ held => held = none)
    (hown : ∀ l, h = some l → holder s l = some (who i))
    (hothers : ∀ j l, j ≠ i → held j = some l → holder s l = some (who j))
    (honly : ∀ l v, holder s l = some v →
      who i = v ∧ h = some l ∨ ∃ j, j ≠ i ∧ who j = v ∧ held j = some l) :
    Politely holder who takes leaves (Function.update held i h)
      ⟨Function.update P.threads i p, none, s⟩ := by
  refine ⟨rfl, fun j => ?_, fun j l hj => ?_, fun l v hv => ?_⟩
  · by_cases hji : j = i
    · subst hji
      simpa using hpolite
    · simpa [Function.update_of_ne hji] using hp.polite j
  · by_cases hji : j = i
    · subst hji
      rw [Function.update_self] at hj
      exact hown l hj
    · rw [Function.update_of_ne hji] at hj
      exact hothers j l hji hj
  · rcases honly l v hv with ⟨hw, hh⟩ | ⟨j, hji, hw, hh⟩
    · exact ⟨i, hw, by rw [Function.update_self, hh]⟩
    · exact ⟨j, hw, by rw [Function.update_of_ne hji, hh]⟩

/-- Program `i`, which held nothing, takes a free lock. -/
theorem Politely.take (hp : P.Politely holder who takes leaves held) {p : Prog C A α} {s : S} {l : L}
    (hnone : held i = none) (hfree : holder P.state l = none)
    (hs : holder s = Function.update (holder P.state) l (some (who i)))
    (hpolite : p.Polite takes leaves (some l) fun _ held => held = none) :
    Politely holder who takes leaves (Function.update held i (some l))
      ⟨Function.update P.threads i p, none, s⟩ := by
  refine hp.moved _ hpolite ?_ (fun j l' hji hj => ?_) fun l' v hv => ?_
  · rintro _ ⟨⟩
    rw [hs, Function.update_self]
  · have hne : l' ≠ l := by
      rintro rfl
      exact absurd ((hp.own j l' hj).symm.trans hfree) nofun
    rw [hs, Function.update_of_ne hne]
    exact hp.own j l' hj
  · rw [hs] at hv
    by_cases hne : l' = l
    · subst hne
      rw [Function.update_self, Option.some.injEq] at hv
      exact .inl ⟨hv, rfl⟩
    · rw [Function.update_of_ne hne] at hv
      obtain ⟨j, hw, hj⟩ := hp.only l' v hv
      refine .inr ⟨j, ?_, hw, hj⟩
      rintro rfl
      rw [hnone] at hj
      cases hj

/-- Program `i` leaves the lock it holds. -/
theorem Politely.leave (hinj : Function.Injective who) (hp : P.Politely holder who takes leaves held)
    {p : Prog C A α} {s : S} {l : L} (hheld : held i = some l)
    (hs : holder s = Function.update (holder P.state) l none)
    (hpolite : p.Polite takes leaves none fun _ held => held = none) :
    Politely holder who takes leaves (Function.update held i none)
      ⟨Function.update P.threads i p, none, s⟩ := by
  refine hp.moved _ hpolite nofun (fun j l' hji hj => ?_) fun l' v hv => ?_
  · have hne : l' ≠ l := by
      rintro rfl
      have hw := (hp.own j l' hj).symm.trans (hp.own i l' hheld)
      exact hji (hinj (Option.some.inj hw))
    rw [hs, Function.update_of_ne hne]
    exact hp.own j l' hj
  · rw [hs] at hv
    have hne : l' ≠ l := by
      rintro rfl
      rw [Function.update_self] at hv
      cases hv
    rw [Function.update_of_ne hne] at hv
    obtain ⟨j, hw, hj⟩ := hp.only l' v hv
    refine .inr ⟨j, ?_, hw, hj⟩
    rintro rfl
    rw [hheld] at hj
    exact hne (Option.some.inj hj).symm

omit [DecidableEq L] in
/-- Program `i` takes and leaves nothing. -/
theorem Politely.stay (hp : P.Politely holder who takes leaves held) {p : Prog C A α} {s : S}
    (hs : holder s = holder P.state)
    (hpolite : p.Polite takes leaves (held i) fun _ held => held = none) :
    Politely holder who takes leaves (Function.update held i (held i))
      ⟨Function.update P.threads i p, none, s⟩ := by
  refine hp.moved _ hpolite (fun l hh => ?_) (fun j l _ hj => ?_) fun l v hv => ?_
  · rw [hs]
    exact hp.own i l hh
  · rw [hs]
    exact hp.own j l hj
  · rw [hs] at hv
    obtain ⟨j, hw, hj⟩ := hp.only l v hv
    by_cases hji : j = i
    · subst hji
      exact .inl ⟨hw, hj⟩
    · exact .inr ⟨j, hji, hw, hj⟩

/-- **One call of a polite program.** -/
theorem Politely.call (hl : Latched step holder who takes leaves)
    (hp : P.Politely holder who takes leaves held) (hprog : P.threads i = .call c k) {x : X} {a : A c} {s : S}
    (hst : step i x c P.state = some (a, s)) :
    ∃ h, Politely holder who takes leaves (Function.update held i h)
      ⟨Function.update P.threads i (k a), none, s⟩ := by
  have hpolite := hp.polite i
  rw [hprog] at hpolite
  unfold Prog.Polite at hpolite
  split at hpolite
  · rename_i l htake
    obtain ⟨hfree, hs⟩ := hl.take hst htake
    exact ⟨some l, hp.take hpolite.1 hfree hs (hpolite.2 a)⟩
  · rename_i l htake hleave
    exact ⟨none, hp.leave hl.inj hpolite.1 (hl.leave hst htake hleave) (hpolite.2 a)⟩
  · rename_i htake hleave
    exact ⟨held i, hp.stay (hl.other hst htake hleave) (hpolite a)⟩

/-- **Polite programs stay polite**, whatever the schedule. -/
theorem Politely.runs (hl : Latched step holder who takes leaves) : ∀ {ms : List (T × X)}
    {held : T → Option L} {P P' : Pool T C A α S}, P.Politely holder who takes leaves held →
    P.runs step (fun _ => true) ms = some P' → ∃ held', P'.Politely holder who takes leaves held'
  | [], _, _, _, hp, hr => by
    cases hr
    exact ⟨_, hp⟩
  | (i, x) :: ms, held, P, P', hp, hr => by
    rw [Pool.runs, Option.bind_eq_some_iff] at hr
    obtain ⟨P₁, h₁, hr⟩ := hr
    obtain ⟨c, k, a, s, hprog, hst, rfl⟩ := advance_eq_some h₁
    obtain ⟨h, hp₁⟩ := hp.call hl hprog hst
    exact hp₁.runs hl hr

/-! ## To the end -/

/-- From `P` the machine can lead to `P'`. -/
def Leads (step : T → X → (c : C) → S → Option (A c × S)) (P P' : Pool T C A α S) : Prop :=
  ∃ ms, P.runs step (fun _ => true) ms = some P'

omit [DecidableEq L] in
theorem Leads.refl (P : Pool T C A α S) : P.Leads step P := ⟨[], rfl⟩

omit [DecidableEq L] in
theorem Leads.trans {P'' : Pool T C A α S} (h : P.Leads step P') (h' : P'.Leads step P'') :
    P.Leads step P'' := by
  obtain ⟨ms, hms⟩ := h
  obtain ⟨ms', hms'⟩ := h'
  exact ⟨ms ++ ms', by rw [runs_append, hms, Option.bind_some, hms']⟩

/-- A call that waits for no lock, or for one that is free. -/
theorem Politely.goOn (hl : Latched step holder who takes leaves) (ha : Answering step holder takes)
    (hp : P.Politely holder who takes leaves held) (hprog : P.threads i = .call c k)
    (hready : ∀ l, takes c = some l → holder P.state l = none) :
    ∃ a s h, P.Leads step ⟨Function.update P.threads i (k a), none, s⟩ ∧
      Politely holder who takes leaves (Function.update held i h)
        ⟨Function.update P.threads i (k a), none, s⟩ := by
  obtain ⟨x, hx⟩ := ha i c P.state hready
  obtain ⟨⟨a, s⟩, hst⟩ := Option.isSome_iff_exists.1 hx
  obtain ⟨h, hp'⟩ := hp.call hl hprog hst
  exact ⟨a, s, h, ⟨[(i, x)], by rw [Pool.runs, advance_of_call hp.current hprog hst]; rfl⟩, hp'⟩

/-- Who holds a lock never waits, and leaves it. -/
theorem Politely.release (hl : Latched step holder who takes leaves) (ha : Answering step holder takes)
    (hp : P.Politely holder who takes leaves held) (hheld : held i ≠ none) :
    ∃ P', P.Leads step P' ∧ P'.Politely holder who takes leaves (Function.update held i none) := by
  induction hprog : P.threads i generalizing P held with
  | ret a =>
    have hpolite := hp.polite i
    rw [hprog] at hpolite
    exact absurd hpolite hheld
  | call c k ih =>
    have hready : ∀ l, takes c = some l → holder P.state l = none := fun l htake => by
      have hpolite := hp.polite i
      rw [hprog, Prog.Polite, htake] at hpolite
      exact absurd hpolite.1 hheld
    obtain ⟨a, s, h, hleads, hp₁⟩ := hp.goOn hl ha hprog hready
    rcases h with _ | l
    · exact ⟨_, hleads, hp₁⟩
    · obtain ⟨P', hleads', hp'⟩ := ih a hp₁ (by simp) (Function.update_self ..)
      rw [Function.update_idem] at hp'
      exact ⟨P', hleads.trans hleads', hp'⟩

/-- Where no other holds a lock a program returns. -/
theorem Politely.finish (hl : Latched step holder who takes leaves) (ha : Answering step holder takes)
    (hp : P.Politely holder who takes leaves held) (hfree : ∀ j, j ≠ i → held j = none) :
    ∃ P', P.Leads step P' ∧ P'.Politely holder who takes leaves (fun _ => none) ∧
      (∃ r, P'.threads i = .ret r) ∧ ∀ j r, P.threads j = .ret r → P'.threads j = .ret r := by
  induction hprog : P.threads i generalizing P held with
  | ret a =>
    have hnone : held = fun _ => none := by
      funext j
      by_cases hj : j = i
      · subst hj
        have hpolite := hp.polite j
        rw [hprog] at hpolite
        exact hpolite
      · exact hfree j hj
    exact ⟨P, .refl P, hnone ▸ hp, ⟨a, hprog⟩, fun _ _ h => h⟩
  | call c k ih =>
    have hready : ∀ l, takes c = some l → holder P.state l = none := fun l htake => by
      have hpolite := hp.polite i
      rw [hprog, Prog.Polite, htake] at hpolite
      rcases hheld : holder P.state l with _ | v
      · rfl
      · obtain ⟨j, -, hj⟩ := hp.only l v hheld
        by_cases hji : j = i
        · rw [hji, hpolite.1] at hj
          cases hj
        · rw [hfree j hji] at hj
          cases hj
    obtain ⟨a, s, h, hleads, hp₁⟩ := hp.goOn hl ha hprog hready
    obtain ⟨P', hleads', hp', hret, hkeep⟩ := ih a hp₁
      (fun j hj => by rw [Function.update_of_ne hj]; exact hfree j hj) (Function.update_self ..)
    refine ⟨P', hleads.trans hleads', hp', hret, fun j r hr => hkeep j r ?_⟩
    have hji : j ≠ i := by
      rintro rfl
      cases hprog.symm.trans hr
    exact (Function.update_of_ne hji _ _).trans hr

/-- All locks are left, program by program. -/
theorem Politely.release_all (hl : Latched step holder who takes leaves)
    (ha : Answering step holder takes) : ∀ (is : List T) {held : T → Option L} {P : Pool T C A α S},
    P.Politely holder who takes leaves held →
    ∃ P' held', P.Leads step P' ∧ P'.Politely holder who takes leaves held' ∧
      ∀ i, held' i ≠ none → i ∉ is ∧ held i ≠ none
  | [], held, P, hp => ⟨P, held, .refl P, hp, fun i hi => ⟨List.not_mem_nil, hi⟩⟩
  | i :: is, held, P, hp => by
    obtain ⟨P₁, held₁, hleads₁, hp₁, hi₁, hsub₁⟩ : ∃ P₁ held₁, P.Leads step P₁ ∧
        P₁.Politely holder who takes leaves held₁ ∧ held₁ i = none ∧
        ∀ j, held₁ j ≠ none → held j ≠ none := by
      rcases hheld : held i with _ | l
      · exact ⟨P, held, .refl P, hp, hheld, fun _ h => h⟩
      · obtain ⟨P₁, hleads, hp₁⟩ := hp.release hl ha (by rw [hheld]; exact nofun)
        refine ⟨P₁, _, hleads, hp₁, Function.update_self .., fun j hj he => hj ?_⟩
        by_cases hji : j = i
        · rw [hji, Function.update_self]
        · rw [Function.update_of_ne hji, he]
    obtain ⟨P', held', hleads, hp', hsub⟩ := hp₁.release_all hl ha is
    refine ⟨P', held', hleads₁.trans hleads, hp', fun j hj => ?_⟩
    obtain ⟨hnot, hj₁⟩ := hsub j hj
    refine ⟨fun hm => ?_, hsub₁ j hj₁⟩
    rcases List.mem_cons.1 hm with rfl | hm
    · exact hj₁ hi₁
    · exact hnot hm

/-- Where no lock is held all return, one after another. -/
theorem Politely.finish_all (hl : Latched step holder who takes leaves)
    (ha : Answering step holder takes) : ∀ (is : List T) {P : Pool T C A α S},
    P.Politely holder who takes leaves (fun _ => none) →
    ∃ P', P.Leads step P' ∧ P'.Politely holder who takes leaves (fun _ => none) ∧
      (∀ i ∈ is, ∃ r, P'.threads i = .ret r) ∧ ∀ i r, P.threads i = .ret r → P'.threads i = .ret r
  | [], P, hp => ⟨P, .refl P, hp, nofun, fun _ _ h => h⟩
  | i :: is, P, hp => by
    obtain ⟨P₁, hleads₁, hp₁, ⟨r, hret⟩, hkeep₁⟩ := hp.finish hl ha fun _ _ => rfl
    obtain ⟨P', hleads, hp', his, hkeep⟩ := hp₁.finish_all hl ha is
    refine ⟨P', hleads₁.trans hleads, hp', fun j hj => ?_, fun j r' hr => hkeep j r' (hkeep₁ j r' hr)⟩
    rcases List.mem_cons.1 hj with rfl | hj
    · exact ⟨r, hkeep j r hret⟩
    · exact his j hj

/-- **Polite programs can all go on to their ends**, whatever they have done so far, and leave no lock. -/
theorem Politely.ends [Fintype T] (hl : Latched step holder who takes leaves)
    (ha : Answering step holder takes) (hp : P.Politely holder who takes leaves held) :
    ∃ P', P.Leads step P' ∧ (∀ i, ∃ r, P'.threads i = .ret r) ∧ ∀ l, holder P'.state l = none := by
  obtain ⟨P₁, held₁, hleads₁, hp₁, hnone⟩ := hp.release_all hl ha Finset.univ.toList
  obtain rfl : held₁ = fun _ => none := funext fun i => by
    by_contra hi
    exact (hnone i hi).1 (Finset.mem_toList.2 (Finset.mem_univ i))
  obtain ⟨P', hleads, hp', hret, -⟩ := hp₁.finish_all hl ha Finset.univ.toList
  refine ⟨P', hleads₁.trans hleads, fun i => hret i (Finset.mem_toList.2 (Finset.mem_univ i)), fun l => ?_⟩
  rcases hv : holder P'.state l with _ | v
  · rfl
  · obtain ⟨_, -, hi⟩ := hp'.only l v hv
    cases hi

end

end Pool
