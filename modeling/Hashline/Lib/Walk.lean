/-
  A parallel walk: workers take entries from one bag in any order, each with a
  visitor of its own, until the bag is empty or a visitor asks to quit.
-/
import Mathlib.Data.List.Perm.Basic

variable {E V S : Type}

/-- What a worker does with an entry, and with its visitor in the end; the flag asks to quit. -/
structure Visiting (E V S : Type) where
  visit : E → V → S → V × S × Bool
  drop : V → S → S

/-- The entries nobody has taken, the workers' visitors, with whether they asked to quit, what they
    share, and whether one of them asked. -/
structure Walk (E V S : Type) where
  remaining : List E
  live : List (V × Bool)
  shared : S
  quit : Bool

namespace Walk

/-- The scheduler's decisions: a worker takes an entry, or ends. -/
inductive Move where
  | visit (worker entry : ℕ)
  | leave (worker : ℕ)

/-- A worker that asked to quit takes no more; others may, until they see that they should end. -/
def step (p : Visiting E V S) : Move → Walk E V S → Option (Walk E V S)
  | .visit worker entry, w => do
    let (v, stopped) ← w.live[worker]?
    let e ← w.remaining[entry]?
    if stopped then none
    else
      let (v, s, q) := p.visit e v w.shared
      some ⟨w.remaining.eraseIdx entry, w.live.set worker (v, q), s, w.quit || q⟩
  | .leave worker, w => do
    let (v, _) ← w.live[worker]?
    if w.quit || w.remaining.isEmpty then
      some { w with live := w.live.eraseIdx worker, shared := p.drop v w.shared }
    else none

def runs (p : Visiting E V S) : List Move → Walk E V S → Option (Walk E V S)
  | [], w => some w
  | m :: ms, w => (step p m w).bind (runs p ms)

/-- `workers + 1` workers, each with a new visitor. -/
def start (workers : ℕ) (entries : List E) (v : V) (s : S) : Walk E V S :=
  ⟨entries, List.replicate (workers + 1) (v, false), s, false⟩

theorem runs_append (p : Visiting E V S) (ms ms' : List Move) (w : Walk E V S) :
    runs p (ms ++ ms') w = (runs p ms w).bind (runs p ms') := by
  induction ms generalizing w with
  | nil => rfl
  | cons m ms ih =>
    rw [List.cons_append, runs, runs, Option.bind_assoc]
    exact congrArg _ (funext fun w => ih w)

/-! ## Invariants -/

/-- A property of the entries taken, the visitors alive and what they share, kept by every visit and
    every end of a worker. -/
structure Invariant (p : Visiting E V S) (I : List E → List V → S → Bool → Prop) : Prop where
  perm : ∀ seen vs vs' s q, vs.Perm vs' → I seen vs s q → I seen vs' s q
  visit : ∀ seen e v vs s q, I seen (v :: vs) s q →
    I (e :: seen) ((p.visit e v s).1 :: vs) (p.visit e v s).2.1 (q || (p.visit e v s).2.2)
  leave : ∀ seen v vs s q, I seen (v :: vs) s q → I seen vs (p.drop v s) q

/-- The invariant holds of the entries that are gone, and a walk that nobody asked to quit loses a
    worker only where none remain. -/
structure Holds (I : List E → List V → S → Bool → Prop) (entries : List E) (w : Walk E V S) : Prop where
  seen : ∃ seen, (seen ++ w.remaining).Perm entries ∧ I seen (w.live.map Prod.fst) w.shared w.quit
  finished : w.live = [] → w.quit = false → w.remaining = []

variable {p : Visiting E V S} {I : List E → List V → S → Bool → Prop} {entries : List E}

theorem perm_eraseIdx {α : Type} {l : List α} {i : ℕ} {a : α} (h : l[i]? = some a) :
    l.Perm (a :: l.eraseIdx i) := by
  obtain ⟨hi, rfl⟩ := List.getElem?_eq_some_iff.1 h
  exact (List.getElem_cons_eraseIdx_perm hi).symm

theorem Holds.step (hI : Invariant p I) {m : Move} {w w' : Walk E V S} (h : Holds I entries w)
    (hs : w.step p m = some w') : Holds I entries w' := by
  obtain ⟨⟨seen, hseen, hi⟩, hfin⟩ := h
  cases m with
  | visit worker entry =>
    simp only [Walk.step, Option.bind_eq_bind, Option.bind_eq_some_iff] at hs
    obtain ⟨⟨v, stopped⟩, hv, e, he, hs⟩ := hs
    split_ifs at hs
    cases hs
    have hlive := (perm_eraseIdx hv).map Prod.fst
    have hw : worker < w.live.length := (List.getElem?_eq_some_iff.1 hv).1
    refine ⟨⟨e :: seen, ?_, ?_⟩, fun hnil => absurd hnil ?_⟩
    · refine ((List.perm_middle (a := e)).symm.trans ?_).trans hseen
      exact (perm_eraseIdx he).symm.append_left seen
    · have hstep := hI.visit seen e v _ _ _ (hI.perm _ _ _ _ _ hlive hi)
      refine hI.perm _ _ _ _ _ ?_ hstep
      exact ((List.set_perm_cons_eraseIdx hw ((p.visit e v w.shared).1,
        (p.visit e v w.shared).2.2)).map Prod.fst).symm
    · intro hnil
      have := congrArg List.length hnil
      rw [List.length_set, List.length_nil] at this
      omega
  | leave worker =>
    simp only [Walk.step, Option.bind_eq_bind, Option.bind_eq_some_iff] at hs
    obtain ⟨⟨v, stopped⟩, hv, hs⟩ := hs
    split_ifs at hs with hq
    cases hs
    have hlive := (perm_eraseIdx hv).map Prod.fst
    refine ⟨⟨seen, hseen, hI.leave seen v _ _ _ (hI.perm _ _ _ _ _ hlive hi)⟩, fun _ hnq => ?_⟩
    change w.quit = false at hnq
    rw [hnq, Bool.false_or, List.isEmpty_iff] at hq
    exact hq

theorem Holds.runs (hI : Invariant p I) : ∀ {ms : List Move} {w w' : Walk E V S},
    Holds I entries w → w.runs p ms = some w' → Holds I entries w'
  | [], w, w', h, hr => by cases hr; exact h
  | m :: ms, w, w', h, hr => by
    rw [Walk.runs, Option.bind_eq_some_iff] at hr
    obtain ⟨w₁, h₁, hr⟩ := hr
    exact Holds.runs hI (h.step hI h₁) hr

/-- **What holds when a walk has ended**: of the entries that were visited, which are all, unless a
    visitor asked to quit. -/
theorem ended (hI : Invariant p I) {workers : ℕ} {v : V} {s : S} {ms : List Move} {w : Walk E V S}
    (h₀ : I [] (List.replicate (workers + 1) v) s false)
    (hr : (start workers entries v s).runs p ms = some w) (hend : w.live = []) :
    ∃ seen, (seen ++ w.remaining).Perm entries ∧ I seen [] w.shared w.quit ∧
      (w.quit = false → w.remaining = []) := by
  have hstart : Holds I entries (start workers entries v s) := by
    refine ⟨⟨[], List.Perm.refl _, ?_⟩, fun hnil => ?_⟩
    · rw [start, List.map_replicate]; exact h₀
    · rw [start, List.replicate_succ] at hnil; cases hnil
  obtain ⟨⟨seen, hseen, hi⟩, hfin⟩ := hstart.runs hI hr
  rw [hend] at hi
  exact ⟨seen, hseen, hi, hfin hend⟩

/-! ## Runs there are -/

/-- One visit of each entry, each by a worker of its own: the visitors, what they share, and whether
    one asked to quit. -/
def visitEach (p : Visiting E V S) (v : V) : List E → S → List (V × Bool) × S × Bool
  | [], s => ([], s, false)
  | e :: es, s =>
    let (v', s', q) := p.visit e v s
    let (vs, s'', q') := visitEach p v es s'
    ((v', q) :: vs, s'', q || q')

theorem runs_visitEach (p : Visiting E V S) (v : V) (es : List E) :
    ∀ (done fresh : List (V × Bool)) (rest remaining : List E) (s : S) (quit : Bool),
      (es ++ rest).Perm remaining → fresh = List.replicate es.length (v, false) →
      ∃ ms remaining', (es ++ rest).Perm (es ++ remaining') ∧
        ∀ tail, runs p ms ⟨remaining, done ++ (fresh ++ tail), s, quit⟩ =
          some ⟨remaining', done ++ ((visitEach p v es s).1 ++ tail), (visitEach p v es s).2.1,
            quit || (visitEach p v es s).2.2⟩ := by
  induction es with
  | nil =>
    intro done fresh rest remaining s quit hperm hfresh
    rw [hfresh]
    exact ⟨[], remaining, hperm, fun tail => by simp [runs, visitEach]⟩
  | cons e es ih =>
    intro done fresh rest remaining s quit hperm hfresh
    obtain ⟨i, hi⟩ := List.getElem?_of_mem (hperm.subset (List.mem_cons_self (a := e) (l := es ++ rest)))
    have hrest : (es ++ rest).Perm (remaining.eraseIdx i) :=
      (List.perm_cons e).1 (hperm.trans (perm_eraseIdx hi))
    obtain ⟨v', s', q, hv⟩ : ∃ v' s' q, p.visit e v s = (v', s', q) := ⟨_, _, _, rfl⟩
    obtain ⟨ms, remaining', hperm', hrun⟩ := ih (done ++ [(v', q)]) (List.replicate es.length (v, false))
      rest _ s' (quit || q) hrest rfl
    refine ⟨.visit done.length i :: ms, remaining', hperm'.cons e, fun tail => ?_⟩
    have hlive : (done ++ (fresh ++ tail))[done.length]? = some (v, false) := by
      rw [hfresh, List.length_cons, List.replicate_succ]; simp
    have hset : (done ++ (fresh ++ tail)).set done.length (v', q) =
        (done ++ [(v', q)]) ++ (List.replicate es.length (v, false) ++ tail) := by
      rw [hfresh, List.length_cons, List.replicate_succ]; simp
    rw [runs, step, hlive]
    show ((remaining[i]?.bind fun e => _).bind _) = _
    rw [hi]
    show (if (false = true) then none else
      let (v, s, q) := p.visit e v s
      some (⟨remaining.eraseIdx i, (done ++ (fresh ++ tail)).set done.length (v, q), s, quit || q⟩ :
        Walk E V S)).bind (runs p ms) = _
    rw [if_neg (by decide), hv]
    show runs p ms ⟨remaining.eraseIdx i, (done ++ (fresh ++ tail)).set done.length (v', q), s',
      quit || q⟩ = _
    rw [hset, hrun, visitEach, hv]
    simp [Bool.or_assoc]

/-- The visitors end, first to last. -/
def dropEach (p : Visiting E V S) (vs : List (V × Bool)) (s : S) : S :=
  vs.foldl (fun s v => p.drop v.1 s) s

theorem runs_dropEach (p : Visiting E V S) (remaining : List E) {quit : Bool}
    (hq : quit || remaining.isEmpty) (vs : List (V × Bool)) : ∀ s, ∃ ms,
      runs p ms ⟨remaining, vs, s, quit⟩ = some ⟨remaining, [], dropEach p vs s, quit⟩ := by
  induction vs with
  | nil => exact fun s => ⟨[], rfl⟩
  | cons v vs ih =>
    intro s
    obtain ⟨ms, hms⟩ := ih (p.drop v.1 s)
    refine ⟨.leave 0 :: ms, ?_⟩
    rw [runs, step]
    show (if (quit || remaining.isEmpty) = true then _ else none).bind _ = _
    rw [if_pos hq]
    exact hms

/-- **Any entries can be the ones that are visited**, if these make a visitor quit, or are all. -/
theorem exists_run (p : Visiting E V S) (v : V) (s : S) {seen rest : List E}
    (hperm : (seen ++ rest).Perm entries)
    (hend : (visitEach p v seen s).2.2 = true ∨ rest = []) :
    ∃ workers ms w, (start workers entries v s).runs p ms = some w ∧ w.live = [] ∧
      w.remaining.Perm rest := by
  obtain ⟨ms, remaining, hrest, hvisit⟩ :=
    runs_visitEach p v seen [] _ rest entries s false hperm rfl
  have hrest := (List.perm_append_left_iff seen).1 hrest
  have hq : (visitEach p v seen s).2.2 || remaining.isEmpty := by
    rcases hend with h | rfl
    · rw [h]; rfl
    · rw [hrest.symm.eq_nil]; simp
  obtain ⟨ms', hleave⟩ := runs_dropEach p remaining hq
    ((visitEach p v seen s).1 ++ [(v, false)]) (visitEach p v seen s).2.1
  refine ⟨seen.length, ms ++ ms', ⟨remaining, [], dropEach p ((visitEach p v seen s).1 ++ [(v, false)])
    (visitEach p v seen s).2.1, (visitEach p v seen s).2.2⟩, ?_, rfl, hrest.symm⟩
  rw [runs_append, start, List.replicate_succ']
  have h := hvisit [(v, false)]
  rw [List.nil_append, Bool.false_or, List.nil_append] at h
  rw [h]
  exact hleave

end Walk
