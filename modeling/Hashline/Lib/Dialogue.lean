/-
  Programs that keep to some calls and are answered within limits, and how they
  run where a machine keeps to the limits.
-/
import Hashline.Lib.Proc

/-- Which calls may be made, and what each can be answered. -/
structure Dialogue (C : Type) (A : C → Type) where
  call : C → Prop
  answer : (c : C) → A c → Prop

namespace Prog
variable {C : Type} {A : C → Type} {α β : Type} {D : Dialogue C A}

/-- The program keeps to the calls, and within the limits ends in a value in `P`. -/
def Within (D : Dialogue C A) (P : α → Prop) : Prog C A α → Prop
  | ret a => P a
  | call c k => D.call c ∧ ∀ a, D.answer c a → (k a).Within D P

theorem Within.bind {P : α → Prop} {Q : β → Prop} {p : Prog C A α} {f : α → Prog C A β}
    (hp : p.Within D P) (hf : ∀ a, P a → (f a).Within D Q) : (p.bind f).Within D Q := by
  induction p with
  | ret a => exact hf a hp
  | call c k ih => exact ⟨hp.1, fun a ha => ih a (hp.2 a ha)⟩

theorem Within.mono {P Q : α → Prop} {p : Prog C A α} (hp : p.Within D P) (h : ∀ a, P a → Q a) :
    p.Within D Q := by
  induction p with
  | ret a => exact h a hp
  | call c k ih => exact ⟨hp.1, fun a ha => ih a (hp.2 a ha)⟩

/-- Within wider limits, where no more can be answered. -/
theorem Within.lift {D' : Dialogue C A} {P : α → Prop} {p : Prog C A α} (hp : p.Within D P)
    (hcall : ∀ c, D.call c → D'.call c) (hanswer : ∀ c a, D.call c → D'.answer c a → D.answer c a) :
    p.Within D' P := by
  induction p with
  | ret a => exact hp
  | call c k ih => exact ⟨hcall c hp.1, fun a ha => ih a (hp.2 a (hanswer c a hp.1 ha))⟩

/-- What ends in `P` whatever is answered does so within limits. -/
theorem Ends.within {P : α → Prop} {p : Prog C A α} (hp : p.Ends P) (hc : p.All D.call) :
    p.Within D P := by
  induction p with
  | ret a => exact hp
  | call c k ih => exact ⟨hc.1, fun a _ => ih a (hp a) (hc.2 a)⟩

section
variable {X S : Type} {step : X → (c : C) → S → Option (A c × S)} {I : S → Prop} {P : α → Prop}
  {s : S}

/-- A machine that keeps to the limits, where no other program runs. -/
theorem Within.wp
    (hstep : ∀ x c s a s', D.call c → I s → step x c s = some (a, s') → D.answer c a ∧ I s')
    {p : Prog C A α} (hp : p.Within D P) (hs : I s) : p.wp step (fun a s => P a ∧ I s) s := by
  induction p generalizing s with
  | ret a => exact ⟨hp, hs⟩
  | call c k ih =>
    intro x a s' hst
    obtain ⟨ha, hs'⟩ := hstep x c s a s' hp.1 hs hst
    exact ih a (hp.2 a ha) hs'

/-- A machine that keeps to the limits, among programs under a contract. -/
theorem Within.safe {pause : C → Bool} {κ : Contract S}
    (hrely : ∀ s s', I s → κ.rely s s' → κ.inv s' → I s')
    (hstep : ∀ x c s a s', D.call c → I s → κ.inv s → step x c s = some (a, s') →
      κ.inv s' ∧ κ.guar s s' ∧ D.answer c a ∧ I s')
    {p : Prog C A α} (hp : p.Within D P) (hs : I s) :
    p.Safe step pause κ (fun a s => P a ∧ I s) s := by
  induction p generalizing s with
  | ret a => exact ⟨hp, hs⟩
  | call c k ih =>
    intro s₁ hs₁ hi x a s₂ hst
    have hI : I s₁ := by
      split_ifs at hs₁
      · exact hrely s s₁ hs hs₁ hi
      · rw [hs₁]; exact hs
    obtain ⟨hi', hg, ha, hs₂⟩ := hstep x c s₁ a s₂ hp.1 hI hi hst
    exact ⟨hi', hg, ih a (hp.2 a ha) hs₂⟩

end

end Prog

namespace Proc
variable {C : Type} {A : C → Type} {ε ε' α β : Type} {D : Dialogue C A} {V : α → Prop} {W : β → Prop}
  {E : ε → Prop} {E' : ε' → Prop}

/-- The procedure keeps to the calls, and within the limits ends in a value in `V` or an error in
    `E`. -/
def Within (D : Dialogue C A) (V : α → Prop) (E : ε → Prop) (x : Proc C A ε α) : Prop :=
  Prog.Within D (Exec.Meets V E) x

@[simp] theorem within_pure {a : α} : (pure a : Proc C A ε α).Within D V E ↔ V a := Iff.rfl

@[simp] theorem within_fail {e : ε} : (fail e : Proc C A ε α).Within D V E ↔ E e := Iff.rfl

@[simp] theorem within_ofExec {r : Exec ε α} :
    (ofExec r : Proc C A ε α).Within D V E ↔ r.Meets V E := Iff.rfl

/-- After a call, whatever it may be answered. -/
theorem within_call {c : C} {k : A c → Proc C A ε β} (hc : D.call c)
    (h : ∀ a, D.answer c a → (k a).Within D W E) : (ask c >>= k).Within D W E := ⟨hc, h⟩

theorem Within.mono {V' : α → Prop} {E' : ε → Prop} {x : Proc C A ε α} (h : x.Within D V E)
    (hV : ∀ a, V a → V' a) (hE : ∀ e, E e → E' e) : x.Within D V' E' :=
  Prog.Within.mono h fun _ hr => hr.mono hV hE

theorem Within.lift {D' : Dialogue C A} {x : Proc C A ε α} (hx : x.Within D V E)
    (hcall : ∀ c, D.call c → D'.call c) (hanswer : ∀ c a, D.call c → D'.answer c a → D.answer c a) :
    x.Within D' V E := Prog.Within.lift hx hcall hanswer

theorem Meets.within {x : Proc C A ε α} (h : x.Meets V E) (hc : x.All D.call) : x.Within D V E :=
  Prog.Ends.within h hc

theorem Within.bind {x : Proc C A ε α} {f : α → Proc C A ε β} (hx : x.Within D V E)
    (hf : ∀ a, V a → (f a).Within D W E) : (x >>= f).Within D W E := by
  refine Prog.Within.bind hx fun r hr => ?_
  rcases r with (e | _) | a
  · exact hr
  · exact hr
  · exact hf a hr

theorem Within.mapErr {x : Proc C A ε α} {f : ε → ε'} (hx : x.Within D V E)
    (hE : ∀ e, E e → E' (f e)) : (x.mapErr f).Within D V E' :=
  Prog.Within.bind hx fun _ hr => hr.mapErr hE

/-- After a result that is looked at. -/
theorem Within.attempt_bind {x : Proc C A ε α} {f : Except ε α → Proc C A ε' β}
    (hx : x.Within D V E) (hok : ∀ a, V a → (f (.ok a)).Within D W E')
    (herr : ∀ e, E e → (f (.error e)).Within D W E') : (x.attempt >>= f).Within D W E' := by
  refine Prog.Within.bind (P := Exec.Meets (fun r => (f r).Within D W E') fun _ => False)
    (Prog.Within.bind hx fun r hr => ?_) fun r hr => ?_
  · rcases r with (e | _) | a
    · exact herr e hr
    · exact hr.elim
    · exact hok a hr
  · rcases r with (e | _) | a
    · exact hr.elim
    · exact hr.elim
    · exact hr

theorem Within.onPanic {x : Proc C A ε α} (hx : x.Within D V E) (r : Exec ε α) :
    (x.onPanic r).Within D V E := by
  refine Prog.Within.bind hx fun r' hr' => ?_
  rcases r' with (e | _) | a
  · exact hr'
  · exact hr'.elim
  · exact hr'

section
variable {X S : Type} {step : X → (c : C) → S → Option (A c × S)} {I : S → Prop} {s : S}

/-- A machine that keeps to the limits, where no other program runs. -/
theorem Within.wp {x : Proc C A ε α} (hx : x.Within D V E)
    (hstep : ∀ x c s a s', D.call c → I s → step x c s = some (a, s') → D.answer c a ∧ I s')
    (hs : I s) : x.wp step (fun r s => r.Meets V E ∧ I s) s := Prog.Within.wp hstep hx hs

/-- A machine that keeps to the limits, among programs under a contract. -/
theorem Within.safe {pause : C → Bool} {κ : Contract S} {x : Proc C A ε α} (hx : x.Within D V E)
    (hrely : ∀ s s', I s → κ.rely s s' → κ.inv s' → I s')
    (hstep : ∀ x c s a s', D.call c → I s → κ.inv s → step x c s = some (a, s') →
      κ.inv s' ∧ κ.guar s s' ∧ D.answer c a ∧ I s')
    (hs : I s) : x.Safe step pause κ (fun r s => r.Meets V E ∧ I s) s :=
  Prog.Within.safe hrely hstep hx hs

end

end Proc
