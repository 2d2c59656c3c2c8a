/-
  Files that several calls create: what an edit or a write that found nothing
  at its place is put in the place of.
-/
import Hashline.Reads
import Hashline.Updates

namespace Hashline

open Machine Object

variable {h : Host} {n : ℕ}

/-! ## Threads that heed what they found -/

/-- The rules for thread `who`, when it renames onto a place that it found empty only while there is
    nothing still. -/
def heeding (rules : Rules h) (who : ℕ) : Rules h := fun s c x =>
  rules s c x && match c with
    | .rename _ target => !decide (s.Missed who (h.locate target)) ||
        (s.world.entries (h.locate target)).isNone
    | _ => true

section
variable {rules : Rules h} {who : ℕ}

theorem rules_of_heeding {s : State h} {c : Call h} {x : Choice} (hr : heeding rules who s c x = true) :
    rules s c x = true := (Bool.and_eq_true_iff.1 hr).1

theorem heeding_heeds : (heeding rules who).Heeds who := by
  intro s source target x hr hmissed
  obtain ⟨-, hrename⟩ := Bool.and_eq_true_iff.1 hr
  simpa [hmissed] using hrename

theorem heeding_closed (hc : rules.Closed) : (heeding rules who).Closed :=
  ⟨fun s c x hr => hc.calm s c x (rules_of_heeding hr), fun s c x hr => hc.honest s c x (rules_of_heeding hr),
    fun s path x hr => hc.inode s path x (rules_of_heeding hr)⟩

theorem heeding_settles : (heeding rules who).Settles ↔ rules.Settles :=
  forall_congr' fun s => forall_congr' fun path => forall_congr' fun x => by simp [heeding]

end

/-! ## Calls that were made by the rules -/

/-- Every call was made by the rules of its thread. -/
def State.Abides (rules : ℕ → Rules h) (s : State h) : Prop :=
  ∀ d ds, (d :: ds) <:+ s.trace →
    step (rules d.who) d.who d.choice d.call ⟨d.was, ds⟩ = some (d.answer, d.moment ds)

theorem State.Abides.of_runs {α : Type} {rules : ℕ → Rules h} {ms : List (Fin n × Choice)}
    {P₀ P : Pool (Fin n) (Call h) Answer α (State h)} (hinit : P₀.state.Abides rules)
    (hruns : P₀.runs (fun i : Fin n => step (rules i) i) everywhere ms = some P) :
    P.state.Abides rules := by
  refine Pool.runs_keep (I := State.Abides rules) (fun i x c s a s' hs hst d ds hd => ?_) hinit hruns
  obtain ⟨-, w, -, -, ht⟩ := step_eq_some.1 hst
  rw [ht, List.suffix_cons_iff] at hd
  rcases hd with hd | hd
  · obtain ⟨rfl, rfl⟩ := List.cons.inj hd
    rw [Did.moment, ← ht]
    exact hst
  · exact hs d ds hd

/-! ## What was found empty -/

namespace Seemly
variable {workspace : Workspace} {tasks : Fin n → Task} {w : World h} {ho : Seemly workspace tasks w}
  {rules : Rules h} {s : State h} {l : Loc} (hc : rules.Closed) (hi : (ho.service rules).Inv s)
  (ha : s.Abides (heeding rules)) (hl : ¬h.IsTemp w.counter l)
include hc hi ha hl

/-- Where nothing was found, nothing had been put. -/
theorem ledger_of_misses {d : Did h} {ds : List (Did h)} (hd : (d :: ds) <:+ s.trace)
    (hm : d.misses l = true) : (d.moment ds).ledger l = [] := by
  have hleads := hi.past l hl d ds hd
  obtain ⟨hr, before, hw, hact, -⟩ := step_eq_some.1 (ha d ds hd)
  have hnone : d.after.contentAt l = none := by
    obtain ⟨who, x, c, a, was, _, after⟩ := d
    cases c with
    | openRead path =>
      rcases a with e | f
      · simp only [Did.misses, Bool.and_eq_true, decide_eq_true_eq] at hm
        obtain ⟨rfl, hkind⟩ := hm
        obtain ⟨hafter, ⟨e', hx, he⟩ | ⟨f, -, he⟩ | ⟨hf, -⟩⟩ := act_openRead hact
        · cases he
          exact absurd ⟨e, hx.fault_of_notFound hkind, hkind⟩ (hc.honest _ _ _ (rules_of_heeding hr))
        · cases he
        · change after = before at hafter
          rw [hafter, World.contentAt, World.fileAt, hf]
          rfl
      · cases hm
    | _ => cases hm
  rcases hledger : (d.moment ds).ledger l with _ | ⟨c, log⟩
  · rfl
  · rw [hledger, hnone] at hleads
    obtain ⟨later, hall⟩ := ledger_moment hd l
    obtain ⟨-, -, -, bytes, hnew, -⟩ := hi.rightly l hl c (by
      rw [hall, hledger]; exact List.mem_append_right _ List.mem_cons_self)
    rw [← hleads.eq_new] at hnew
    cases hnew

/-- **Who found nothing has replaced nothing.** -/
theorem old_of_missed {c : Change ℕ (Option Bytes)} (hcl : c ∈ s.ledger l) (hm : s.Missed c.who l) :
    c.old = none := by
  obtain ⟨d, hd, hputs⟩ := List.mem_filterMap.1 hcl
  obtain ⟨later, ds, htrace⟩ := List.append_of_mem hd
  have hmoment : (d :: ds) <:+ s.trace := ⟨later, htrace.symm⟩
  obtain ⟨m, hmem, hwho, hmiss⟩ := hm
  rw [htrace, List.mem_append, List.mem_cons] at hmem
  -- it was found empty before the file was put there
  have hearlier : m ∈ ds := by
    rcases hmem with hmem | rfl | hmem
    · obtain ⟨newer, older, hsplit⟩ := List.append_of_mem hmem
      have hsuffix : (m :: (older ++ d :: ds)) <:+ s.trace := ⟨newer, by rw [htrace, hsplit]; simp⟩
      have hledger := ledger_of_misses hc hi ha hl hsuffix hmiss
      have hin : c ∈ (m.moment (older ++ d :: ds)).ledger l :=
        List.mem_filterMap.2 ⟨d, by simp, hputs⟩
      rw [hledger] at hin
      cases hin
    · obtain ⟨who, x, c', a, was, before, after⟩ := m
      cases c' with
      | openRead path => cases hputs
      | _ => cases hmiss
    · exact hmem
  obtain ⟨hr, before, hw, hact, -⟩ := step_eq_some.1 (ha d ds hmoment)
  have hcalm := hc.calm _ _ _ (rules_of_heeding hr)
  rw [Choice.elapsed, hcalm] at hw
  simp only [elapse, Option.map_some, Option.some.injEq] at hw
  subst hw
  obtain ⟨⟨path, bytes⟩, hinstall, hput⟩ := Option.bind_eq_some_iff.1 hputs
  split_ifs at hput with hloc
  cases hput
  have hempty : d.was.entries l = none := by
    obtain ⟨who, x, c', a, was, before, after⟩ := d
    cases c' with
    | rename source target =>
      rcases a with e | u
      · cases hinstall
      · cases hinstall
        rw [← hloc]
        refine heeding_heeds _ source path x hr ⟨m, hearlier, hwho, ?_⟩
        rw [hloc]
        exact hmiss
    | hardLink source target =>
      rcases a with e | u
      · cases hinstall
      · cases hinstall
        rw [← hloc]
        rcases act_hardLink hact with ⟨e, he, -⟩ | ⟨f, -, hfree, -⟩
        · cases he
        · exact hfree
    | _ => cases hinstall
  rw [World.contentAt, World.fileAt, hempty]
  rfl

end Seemly

/-! ## Nothing that appeared is overwritten -/

/-- What a mutation replaces has the identity that it names. -/
theorem Task.Does.base_of_some {contentId : Bytes → SnapshotId} {task : Task} {reply : Reply}
    {bytes : Bytes} {new : Option Bytes} (hd : task.Does contentId (some bytes) reply new) :
    task.base = some (contentId bytes) := by
  obtain ⟨request, response, new, rfl, -, -, ha⟩ := hd
  cases request with
  | edit request => exact congrArg some ha.1
  | write request =>
    have hfound := ha.1
    rcases hexpect : request.expect with _ | id
    · rw [hexpect] at hfound
      cases hfound
    · rw [hexpect] at hfound
      simp only [Task.base, hexpect]
      exact hfound.symm

/-- Only the first change is made where there was nothing. -/
theorem replaces_none {v v' : Option Bytes} {log : List (Change ℕ (Option Bytes))} (hl : Leads v log v')
    (hnew : ∀ c ∈ log, c.new ≠ none) {who version : ℕ} (hr : Replaces log who version none) :
    version = 0 := by
  obtain ⟨later, earlier, new, rfl, rfl⟩ := hr
  rcases earlier with _ | ⟨c, earlier⟩
  · rfl
  · exact absurd hl.before.eq_new.symm (hnew c (List.mem_append_right _ (by simp)))

/-- Thread `i` mutates the place, and has succeeded. -/
def Succeeds (workspace : Workspace) (tasks : Fin n → Task)
    (P : Pool (Fin n) (Call h) Answer (Exec ProtocolError Reply) (State h)) (l : Loc) (i : Fin n) : Prop :=
  ∃ p reply, (tasks i).target workspace = some p ∧ h.locate p = l ∧ P.threads i = .ret (.ok reply)

/-- The first edits what is not there, and the second creates it. -/
def sampleCreations (i : Fin 2) : Task :=
  if i = sampleFirst then
    .mutate (.edit ⟨"f", Host.sample.contentId [], [.replace sampleStart sampleStart sampleC]⟩)
  else .mutate (.write ⟨"f", sampleB, .absent⟩)

theorem sampleCreations_target : ∀ i, (sampleCreations i).target ⟨["w"], false, .none⟩ = some ["w", "f"] :=
  Fin.forall_fin_two.2 ⟨rfl, rfl⟩

def creationTurns (turns : List (Fin 2 × ℕ)) : List (Fin 2 × Choice) :=
  turns.flatMap fun m => List.replicate m.2 (m.1, { amount := 9, inode := m.1.val + 2 })

/-- Both look before either has put anything, and the edit is first to do so. -/
def creationsInTurn : List (Fin 2 × Choice) :=
  creationTurns [(sampleFirst, 2), (sampleSecond, 2), (sampleFirst, 14), (sampleSecond, 27)]

/-- The edit looks before the create, and renames after it. -/
def creationsOvertaken : List (Fin 2 × Choice) :=
  creationTurns [(sampleFirst, 2), (sampleSecond, 16), (sampleFirst, 14)]

end Hashline
