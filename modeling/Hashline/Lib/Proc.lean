/-
  Procedures: programs that may fail, what follows a result, and what follows
  a failure.
-/
import Hashline.Lib.Machine
import Hashline.Lib.Pool

/-- A program that ends in a value, an error or a panic. -/
def Proc (C : Type) (A : C → Type) (ε α : Type) := Prog C A (Exec ε α)

namespace Proc
variable {C : Type} {A : C → Type} {ε ε' α β : Type}

protected def pure (a : α) : Proc C A ε α := Prog.ret (.ok a)

protected def bind (x : Proc C A ε α) (f : α → Proc C A ε β) : Proc C A ε β :=
  Prog.bind x fun
    | .ok a => f a
    | .error e => Prog.ret (.error e)

instance : Monad (Proc C A ε) where
  pure := Proc.pure
  bind := Proc.bind

def ofExec (r : Exec ε α) : Proc C A ε α := Prog.ret r

def fail (e : ε) : Proc C A ε α := ofExec (Exec.fail e)

/-- A call whose answer is no failure. -/
def ask (c : C) : Proc C A ε (A c) := Prog.call c fun a => Prog.ret (.ok a)

/-- `Result::map_err`. -/
def mapErr (f : ε → ε') (x : Proc C A ε α) : Proc C A ε' α :=
  Prog.bind x fun r => Prog.ret (r.mapErr f)

/-- The result itself, to look at; a panic still goes through. -/
def attempt (x : Proc C A ε α) : Proc C A ε' (Except ε α) :=
  Prog.bind x fun
    | .ok a => Prog.ret (.ok (.ok a))
    | .error (.err e) => Prog.ret (.ok (.error e))
    | .error .panic => Prog.ret (.error .panic)

/-- What is returned where the procedure panics. -/
def onPanic (r : Exec ε α) (x : Proc C A ε α) : Proc C A ε α :=
  Prog.bind x fun
    | .ok a => Prog.ret (.ok a)
    | .error (.err e) => Prog.ret (.error (.err e))
    | .error .panic => Prog.ret r

/-- A result looked at, or passed on where it is a failure. -/
def orElse (f : ε → ε') : Except ε α → Proc C A ε' α
  | .ok a => Proc.pure a
  | .error e => fail (f e)

/-- What must hold of a result for the rest to do: `K` of its value, `Q` of a failure. -/
def After {S : Type} (K : α → S → Prop) (Q : Exec ε β → S → Prop) : Exec ε α → S → Prop
  | .ok a, s => K a s
  | .error e, s => Q (.error e) s

@[simp] theorem pure_bind (a : α) (f : α → Proc C A ε β) : (pure a >>= f) = f a := rfl

@[simp] theorem fail_bind (e : ε) (f : α → Proc C A ε β) : (fail e >>= f) = fail e := rfl

@[simp] theorem ofExec_ok (a : α) : (ofExec (.ok a) : Proc C A ε α) = pure a := rfl

@[simp] theorem ofExec_err (e : ε) : (ofExec (.error (.err e)) : Proc C A ε α) = fail e := rfl

@[simp] theorem orElse_ok (f : ε → ε') (a : α) : (orElse f (.ok a) : Proc C A ε' α) = pure a := rfl

@[simp] theorem orElse_error (f : ε → ε') (e : ε) :
    (orElse f (.error e) : Proc C A ε' α) = fail (f e) := rfl

/-! ## Calls -/

/-- Every call of the procedure is in `K`. -/
def All (K : C → Prop) (x : Proc C A ε α) : Prop := Prog.All K x

section
variable {K : C → Prop}

@[simp] theorem all_pure (a : α) : (pure a : Proc C A ε α).All K := trivial

@[simp] theorem all_ofExec (r : Exec ε α) : (ofExec r : Proc C A ε α).All K := trivial

@[simp] theorem all_fail (e : ε) : (fail e : Proc C A ε α).All K := trivial

theorem all_ask {c : C} (h : K c) : (ask c : Proc C A ε (A c)).All K := ⟨h, fun _ => trivial⟩

theorem All.bind {x : Proc C A ε α} {f : α → Proc C A ε β} (hx : x.All K) (hf : ∀ a, (f a).All K) :
    (x >>= f).All K := by
  refine Prog.All.bind hx fun r => ?_
  rcases r with e | a
  · trivial
  · exact hf a

theorem All.mapErr {x : Proc C A ε α} (hx : x.All K) (f : ε → ε') : (x.mapErr f).All K :=
  Prog.All.bind hx fun _ => trivial

theorem All.attempt {x : Proc C A ε α} (hx : x.All K) :
    (x.attempt : Proc C A ε' (Except ε α)).All K := by
  refine Prog.All.bind hx fun r => ?_
  rcases r with (_ | _) | _ <;> trivial

@[simp] theorem all_orElse (f : ε → ε') (r : Except ε α) :
    (orElse f r : Proc C A ε' α).All K := by cases r <;> trivial

end

/-! ## Ends -/

/-- Whatever is answered, the procedure ends in a value in `V` or an error in `E`. -/
def Meets (V : α → Prop) (E : ε → Prop) (x : Proc C A ε α) : Prop := Prog.Ends (Exec.Meets V E) x

section
variable {V : α → Prop} {W : β → Prop} {E : ε → Prop} {E' : ε' → Prop}

@[simp] theorem meets_pure {a : α} : (pure a : Proc C A ε α).Meets V E ↔ V a := Iff.rfl

@[simp] theorem meets_fail {e : ε} : (fail e : Proc C A ε α).Meets V E ↔ E e := Iff.rfl

@[simp] theorem meets_ofExec {r : Exec ε α} : (ofExec r : Proc C A ε α).Meets V E ↔ r.Meets V E :=
  Iff.rfl

/-- After a call, whatever it answers. -/
theorem meets_call {c : C} {k : A c → Proc C A ε β} (h : ∀ a, (k a).Meets W E) :
    (ask c >>= k).Meets W E := h

theorem Meets.mono {V' : α → Prop} {E' : ε → Prop} {x : Proc C A ε α} (h : x.Meets V E)
    (hV : ∀ a, V a → V' a) (hE : ∀ e, E e → E' e) : x.Meets V' E' :=
  Prog.Ends.mono h fun _ hr => hr.mono hV hE

theorem Meets.bind {x : Proc C A ε α} {f : α → Proc C A ε β} (hx : x.Meets V E)
    (hf : ∀ a, V a → (f a).Meets W E) : (x >>= f).Meets W E := by
  refine Prog.Ends.bind hx fun r hr => ?_
  rcases r with (e | _) | a
  · exact hr
  · exact hr
  · exact hf a hr

theorem Meets.mapErr {x : Proc C A ε α} {f : ε → ε'} (hx : x.Meets V E) (hE : ∀ e, E e → E' (f e)) :
    (x.mapErr f).Meets V E' :=
  Prog.Ends.bind hx fun _ hr => hr.mapErr hE

/-- After a result that is looked at. -/
theorem Meets.attempt_bind {x : Proc C A ε α} {f : Except ε α → Proc C A ε' β} (hx : x.Meets V E)
    (hok : ∀ a, V a → (f (.ok a)).Meets W E') (herr : ∀ e, E e → (f (.error e)).Meets W E') :
    (x.attempt >>= f).Meets W E' := by
  refine Prog.Ends.bind (P := Exec.Meets (fun r => (f r).Meets W E') fun _ => False)
    (Prog.Ends.bind hx fun r hr => ?_) fun r hr => ?_
  · rcases r with (e | _) | a
    · exact herr e hr
    · exact hr.elim
    · exact hok a hr
  · rcases r with (e | _) | a
    · exact hr.elim
    · exact hr.elim
    · exact hr

theorem meets_orElse {f : ε → ε'} {r : Except ε α} (hok : ∀ a, r = .ok a → V a)
    (herr : ∀ e, r = .error e → E' (f e)) : (orElse f r : Proc C A ε' α).Meets V E' := by
  cases r with
  | ok a => exact hok a rfl
  | error e => exact herr e rfl

/-- A panic that is caught. -/
theorem meets_onPanic {x : Proc C A ε α} {r : Exec ε α}
    (hx : Prog.Ends (fun r' => r' = .error .panic ∨ r'.Meets V E) x) (hr : r.Meets V E) :
    (x.onPanic r).Meets V E := by
  refine Prog.Ends.bind hx fun r' hr' => ?_
  rcases r' with (e | _) | a
  · exact hr'.resolve_left fun he => by cases he
  · exact hr
  · exact hr'.resolve_left fun he => by cases he

theorem Meets.onPanic {x : Proc C A ε α} {r : Exec ε α} (hx : x.Meets V E) (hr : r.Meets V E) :
    (x.onPanic r).Meets V E := meets_onPanic (Prog.Ends.mono hx fun _ h => .inr h) hr

end

/-! ## Weakest preconditions -/

section
variable {X S : Type} {step : X → (c : C) → S → Option (A c × S)} {Q : Exec ε β → S → Prop} {s : S}

/-- Whatever the oracles say, if the procedure ends, `Q` holds of its result and the state. -/
def wp (step : X → (c : C) → S → Option (A c × S)) (x : Proc C A ε α) (Q : Exec ε α → S → Prop)
    (s : S) : Prop := Prog.wp step x Q s

theorem wp_bind {x : Proc C A ε α} {f : α → Proc C A ε β} :
    (x >>= f).wp step Q s ↔ x.wp step (After (fun a s => (f a).wp step Q s) Q) s := by
  refine Prog.wp_bind.trans ?_
  constructor
  · intro h; refine Prog.wp_mono h fun r s hr => ?_
    rcases r with e | a <;> exact hr
  · intro h; refine Prog.wp_mono h fun r s hr => ?_
    rcases r with e | a <;> exact hr

/-- After a procedure that is specified. -/
theorem wp_bind_of {x : Proc C A ε α} {f : α → Proc C A ε β} {P : Exec ε α → S → Prop}
    (hx : x.wp step P s) (hok : ∀ a s, P (.ok a) s → (f a).wp step Q s)
    (herr : ∀ e s, P (.error e) s → Q (.error e) s) : (x >>= f).wp step Q s := by
  refine wp_bind.2 (Prog.wp_mono hx fun r s hr => ?_)
  rcases r with e | a
  · exact herr e s hr
  · exact hok a s hr

/-- After a procedure that either stopped, which no value says, or went on as specified. -/
theorem wp_bind_stopped {x : Proc C A ε α} {f : α → Proc C A ε β} {I : Exec ε α → S → Prop}
    {P : α → S → Prop} (hx : x.wp step (fun r s => I r s ∨ ∃ a, r = .ok a ∧ P a s) s)
    (hok : ∀ a s, ¬I (.ok a) s) (hf : ∀ a s, P a s → (f a).wp step Q s)
    (herr : ∀ e s, I (.error e) s → Q (.error e) s) : (x >>= f).wp step Q s := by
  refine wp_bind_of hx (fun a s hr => ?_) fun e s hr => ?_
  · rcases hr with hr | ⟨_, ha, hP⟩
    · exact absurd hr (hok a s)
    · cases ha
      exact hf a s hP
  · rcases hr with hr | ⟨_, ha, -⟩
    · exact herr e s hr
    · cases ha

/-- What holds of every end holds at the end of every run. -/
theorem Meets.wp {V : α → Prop} {E : ε → Prop} {x : Proc C A ε α} (hx : x.Meets V E) (s : S) :
    x.wp step (fun r _ => r.Meets V E) s := Prog.Ends.wp hx s

theorem wp_mono {x : Proc C A ε α} {Q Q' : Exec ε α → S → Prop} (h : x.wp step Q s)
    (hQ : ∀ r s, Q r s → Q' r s) : x.wp step Q' s := Prog.wp_mono h hQ

/-- Two postconditions hold together. -/
theorem wp_and {x : Proc C A ε α} {Q Q' : Exec ε α → S → Prop} (h : x.wp step Q s)
    (h' : x.wp step Q' s) : x.wp step (fun r s => Q r s ∧ Q' r s) s := Prog.wp_and h h'

@[simp] theorem wp_pure {a : β} : (pure a : Proc C A ε β).wp step Q s ↔ Q (.ok a) s := Iff.rfl

@[simp] theorem wp_ofExec {r : Exec ε β} : (ofExec r : Proc C A ε β).wp step Q s ↔ Q r s := Iff.rfl

@[simp] theorem wp_fail {e : ε} : (fail e : Proc C A ε β).wp step Q s ↔ Q (.error (.err e)) s :=
  Iff.rfl

theorem wp_ask {c : C} {Q : Exec ε (A c) → S → Prop} : (ask c : Proc C A ε (A c)).wp step Q s ↔
    ∀ x r s', step x c s = some (r, s') → Q (.ok r) s' := Iff.rfl

theorem wp_mapErr {x : Proc C A ε α} {f : ε → ε'} {Q : Exec ε' α → S → Prop} :
    (x.mapErr f).wp step Q s ↔ x.wp step (fun r s => Q (r.mapErr f) s) s := Prog.wp_bind

/-- What is left when a result is looked at: `K` of a value or an error, `Q` of a panic. -/
def Looked (K : Except ε α → S → Prop) (Q : Exec ε' β → S → Prop) : Exec ε α → S → Prop
  | .ok a, s => K (.ok a) s
  | .error (.err e), s => K (.error e) s
  | .error .panic, s => Q (.error .panic) s

theorem wp_attempt_bind {x : Proc C A ε α} {f : Except ε α → Proc C A ε' β}
    {Q : Exec ε' β → S → Prop} : (x.attempt >>= f).wp step Q s ↔
      x.wp step (Looked (fun r s => (f r).wp step Q s) Q) s := by
  refine wp_bind.trans (Prog.wp_bind.trans ?_)
  constructor
  · intro h; refine Prog.wp_mono h fun r s hr => ?_
    rcases r with (_ | _) | _ <;> exact hr
  · intro h; refine Prog.wp_mono h fun r s hr => ?_
    rcases r with (_ | _) | _ <;> exact hr

/-- After a procedure that is specified and does not panic, looking at its result. -/
theorem wp_attempt_of {x : Proc C A ε α} {f : Except ε α → Proc C A ε' β}
    {Q : Exec ε' β → S → Prop} {P : Exec ε α → S → Prop} (hx : x.wp step P s)
    (hok : ∀ a s, P (.ok a) s → (f (.ok a)).wp step Q s)
    (herr : ∀ e s, P (.error (.err e)) s → (f (.error e)).wp step Q s)
    (hpanic : ∀ s, ¬ P (.error .panic) s) : (x.attempt >>= f).wp step Q s := by
  refine wp_attempt_bind.2 (Prog.wp_mono hx fun r s hr => ?_)
  rcases r with (e | _) | a
  · exact herr e s hr
  · exact absurd hr (hpanic s)
  · exact hok a s hr

/-- What every step keeps, the whole procedure keeps. -/
theorem wp_invariant {I : S → Prop} {x : Proc C A ε β}
    (hI : ∀ x c s r s', I s → step x c s = some (r, s') → I s') (hs : I s)
    (h : x.wp step Q s) : x.wp step (fun r s => Q r s ∧ I s) s := Prog.wp_invariant hI hs h

/-- What every call keeps, the whole procedure keeps. -/
theorem wp_of_all {I : S → Prop} {K : C → Prop} {x : Proc C A ε β} (hx : x.All K)
    (hK : ∀ y c s r s', K c → I s → step y c s = some (r, s') → I s') (hs : I s)
    (h : x.wp step Q s) : x.wp step (fun r s => Q r s ∧ I s) s := Prog.wp_of_all hx hK hs h

theorem wp_true {x : Proc C A ε β} : x.wp step (fun _ _ => True) s := by
  induction (x : Prog C A (Exec ε β)) generalizing s with
  | ret r => trivial
  | call c k ih => exact fun _ _ _ _ => ih _

theorem wp_onPanic_of {x : Proc C A ε β} {r : Exec ε β} {P : Exec ε β → S → Prop}
    (hx : x.wp step P s) (hr : ∀ r' s, P r' s → Q r' s) (hpanic : ∀ s, P (.error .panic) s → Q r s) :
    (x.onPanic r).wp step Q s := by
  refine Prog.wp_bind.2 (Prog.wp_mono hx fun r' s h => ?_)
  rcases r' with (e | _) | a
  · exact hr _ s h
  · exact hpanic s h
  · exact hr _ s h

/-- **Weakest preconditions speak about runs.** -/
theorem wp_runs {x : Proc C A ε β} {r : Exec ε β} {s' : S} {xs : List X} (h : x.wp step Q s)
    (hr : Prog.runs step xs (x, s) = some (.ret r, s')) : Q r s' := Prog.wp_runs h hr

end

/-! ## Under a contract -/

section
variable {X S : Type} {step : X → (c : C) → S → Option (A c × S)} {pause : C → Bool}
  {κ : Contract S} {Q : Exec ε β → S → Prop} {s : S}

/-- Under the contract, if the procedure ends, `Q` holds. -/
def Safe (step : X → (c : C) → S → Option (A c × S)) (pause : C → Bool) (κ : Contract S)
    (x : Proc C A ε α) (Q : Exec ε α → S → Prop) (s : S) : Prop := Prog.Safe step pause κ x Q s

theorem safe_bind {x : Proc C A ε α} {f : α → Proc C A ε β} : (x >>= f).Safe step pause κ Q s ↔
    x.Safe step pause κ (After (fun a s => (f a).Safe step pause κ Q s) Q) s := by
  refine Prog.safe_bind.trans ?_
  constructor
  · intro h; refine Prog.safe_mono h fun r s hr => ?_
    rcases r with e | a <;> exact hr
  · intro h; refine Prog.safe_mono h fun r s hr => ?_
    rcases r with e | a <;> exact hr

theorem safe_mono {x : Proc C A ε α} {Q Q' : Exec ε α → S → Prop} (h : x.Safe step pause κ Q s)
    (hQ : ∀ r s, Q r s → Q' r s) : x.Safe step pause κ Q' s := Prog.safe_mono h hQ

@[simp] theorem safe_pure {a : β} :
    (pure a : Proc C A ε β).Safe step pause κ Q s ↔ Q (.ok a) s := Iff.rfl

@[simp] theorem safe_ofExec {r : Exec ε β} :
    (ofExec r : Proc C A ε β).Safe step pause κ Q s ↔ Q r s := Iff.rfl

@[simp] theorem safe_fail {e : ε} :
    (fail e : Proc C A ε β).Safe step pause κ Q s ↔ Q (.error (.err e)) s := Iff.rfl

theorem safe_ask {c : C} {Q : Exec ε (A c) → S → Prop} :
    (ask c : Proc C A ε (A c)).Safe step pause κ Q s ↔
      ∀ s', (if pause c then κ.rely s s' else s' = s) → κ.inv s' →
        ∀ x r s'', step x c s' = some (r, s'') → κ.inv s'' ∧ κ.guar s' s'' ∧ Q (.ok r) s'' := Iff.rfl

theorem safe_attempt_bind {x : Proc C A ε α} {f : Except ε α → Proc C A ε' β}
    {Q : Exec ε' β → S → Prop} : (x.attempt >>= f).Safe step pause κ Q s ↔
      x.Safe step pause κ (Looked (fun r s => (f r).Safe step pause κ Q s) Q) s := by
  refine safe_bind.trans (Prog.safe_bind.trans ?_)
  constructor
  · intro h; refine Prog.safe_mono h fun r s hr => ?_
    rcases r with (_ | _) | _ <;> exact hr
  · intro h; refine Prog.safe_mono h fun r s hr => ?_
    rcases r with (_ | _) | _ <;> exact hr

/-- After a procedure that is specified. -/
theorem safe_bind_of {x : Proc C A ε α} {f : α → Proc C A ε β} {P : Exec ε α → S → Prop}
    (hx : x.Safe step pause κ P s) (hok : ∀ a s, P (.ok a) s → (f a).Safe step pause κ Q s)
    (herr : ∀ e s, P (.error e) s → Q (.error e) s) : (x >>= f).Safe step pause κ Q s := by
  refine safe_bind.2 (Prog.safe_mono hx fun r s hr => ?_)
  rcases r with e | a
  · exact herr e s hr
  · exact hok a s hr

/-- After a procedure that is specified and does not panic, looking at its result. -/
theorem safe_attempt_of {x : Proc C A ε α} {f : Except ε α → Proc C A ε' β}
    {Q : Exec ε' β → S → Prop} {P : Exec ε α → S → Prop} (hx : x.Safe step pause κ P s)
    (hok : ∀ a s, P (.ok a) s → (f (.ok a)).Safe step pause κ Q s)
    (herr : ∀ e s, P (.error (.err e)) s → (f (.error e)).Safe step pause κ Q s)
    (hpanic : ∀ s, ¬P (.error .panic) s) : (x.attempt >>= f).Safe step pause κ Q s := by
  refine safe_attempt_bind.2 (Prog.safe_mono hx fun r s hr => ?_)
  rcases r with (e | _) | a
  · exact herr e s hr
  · exact absurd hr (hpanic s)
  · exact hok a s hr

theorem safe_onPanic_of {x : Proc C A ε β} {r : Exec ε β} {P : Exec ε β → S → Prop}
    (hx : x.Safe step pause κ P s) (hr : ∀ r' s, P r' s → Q r' s)
    (hpanic : ∀ s, P (.error .panic) s → Q r s) : (x.onPanic r).Safe step pause κ Q s := by
  refine Prog.safe_bind.2 (Prog.safe_mono hx fun r' s h => ?_)
  rcases r' with (e | _) | a
  · exact hr _ s h
  · exact hpanic s h
  · exact hr _ s h

end

end Proc
