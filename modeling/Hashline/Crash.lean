/-
  The machine crashes while a server mutates files: what the disk may have then,
  and which of the mutations it has.
-/
import Hashline.Serial

namespace Hashline

open Machine Object

variable {h : Host} {n : ℕ}

/-! ## What a crash leaves -/

/-- At the place a crash may leave `found`: an entry the disk may have, and the bytes of its file, which are
    any where they were not flushed since they were written. -/
def State.Leaves (s : State h) (first : ℕ) (l : Loc) (found : Option Bytes) : Prop :=
  ∃ e, Remains l s.world s.trace e ∧ match e with
    | none => found = none
    | some f => ∃ bytes, found = some bytes ∧
        (Flushed first f s.trace → bytes = (s.world.files f).content)

/-- What stood there before the last call, for one. -/
theorem State.leaves_last {s : State h} {d : Did h} {ds : List (Did h)} (ht : s.trace = d :: ds) {l : Loc}
    (hd : ¬d.settles l.directory) (first : ℕ) :
    s.Leaves first l ((d.was.entries l).map fun f => (s.world.files f).content) := by
  refine ⟨d.was.entries l, ?_, ?_⟩
  · rw [ht]
    refine .inr ⟨hd, ?_⟩
    rcases ds with _ | ⟨d', ds⟩
    · rfl
    · exact .inl rfl
  · rcases d.was.entries l with _ | f
    · rfl
    · exact ⟨_, rfl, fun _ => rfl⟩

namespace Service
variable {V : Service h n} {s : State h}

/-- **No torn file**: where all flush, a crash leaves what the changes at the place had led to, but for
    some that are not secured. -/
theorem Inv.leaves (hi : V.Inv s) (hall : ∀ i, V.flushes i) {l : Loc} (hl : V.Public l)
    {found : Option Bytes} (hf : s.Leaves V.start.next l found) :
    ∃ later earlier, s.ledger l = later ++ earlier ∧ Leads (V.start.contentAt l) earlier found ∧
      ∀ c ∈ later, ¬Secured l c.who s.trace := by
  obtain ⟨e, hr, he⟩ := hf
  obtain ⟨later, earlier, hsplit, hleads, hlater⟩ := hi.recorded l e hl hr
  refine ⟨later, earlier, hsplit, ?_, hlater⟩
  rcases e with _ | f
  · rw [he]
    exact hleads
  · obtain ⟨bytes, rfl, hb⟩ := he
    rw [hb (hi.flushed hall f ⟨l, hl, hr.stood⟩)]
    exact hleads

end Service

/-! ## A server that crashes -/

/-- **A crash keeps the first mutations and loses the rest**: at every moment of every schedule, where the
    server flushes files, what a crash leaves at a place is what some first of the mutations on record
    there leave, each done alone and answered as it is; where it flushes directories too, and they are
    flushed, every mutation that has returned without an error is among them. -/
theorem crash_keeps_first {Overrides : Type} {crates : Crates Overrides}
    {walker : Walker h Overrides crates} {rules : Rules h} {workspace : Workspace} {tasks : Fin n → Task}
    {w : World h} (ho : Orderly workspace tasks w) (hc : rules.Closed)
    (hdur : workspace.durability ≠ .none) {ms : List (Fin n × Choice)}
    {P : Pool (Fin n) (Call h) Answer _ (State h)}
    (hruns : (taskPool crates walker workspace tasks w).runs (fun i : Fin n => step rules i) everywhere ms =
      some P) {l : Loc} (hl : ¬h.IsTemp w.counter l) {found : Option Bytes}
    (hf : P.state.Leaves w.next l found) :
    ∃ (done lost : List (Fin n)) (reply : Fin n → Reply),
      (done ++ lost).map Fin.val = ((P.state.ledger l).map (·.who)).reverse ∧ (done ++ lost).Nodup ∧
      Serial (Task.Does h.contentId) (w.contentAt l) (done.map fun i => (tasks i, reply i)) found ∧
      (workspace.durability = .full → rules.Settles → ∀ i p answer, (tasks i).target workspace = some p →
        h.locate p = l → p.components ≠ [] → P.threads i = .ret (.ok answer) → i ∈ done ∧ answer = reply i) := by
  obtain ⟨hi, hout⟩ := ho.sound hc hruns
  obtain ⟨later, earlier, hsplit, hleads, hlater⟩ := hi.leaves (fun _ => hdur) hl hf
  obtain ⟨latest, reply, hnodup, hrecord⟩ := Seemly.recorded hi hl
  have hwho := who_of_record hrecord
  set lost := latest.take later.length
  set done := latest.drop later.length
  have hcut : lost ++ done = latest := List.take_append_drop _ _
  have hdone := (List.forall₂_drop_append _ _ _ (hsplit ▸ hrecord).flip).flip
  refine ⟨done.reverse, lost.reverse, reply, ?_, ?_, ?_, fun hfull hsettles i p answer hp hpl hne hret => ?_⟩
  · rw [← List.reverse_append, hcut, List.map_reverse, hwho]
  · rw [← List.reverse_append, hcut]
    exact List.nodup_reverse.2 hnodup
  · rw [List.map_reverse]
    exact hleads.serial (List.forall₂_map_right_iff.2 (hdone.imp fun c i hci => hci.2.2))
  · rcases (hout i _ hret).outcome p hp with ⟨_, he, -⟩ | ⟨reply', old, bytes, hr, hlands, hdoes⟩
    · cases he
    cases hr
    have hhas := hlands.has
    have hsecured := hlands.secured
      ⟨hfull, fun q hq => Option.some.inj (hp.symm.trans hq) ▸ hne, hsettles⟩
    rw [Service.Has, hpl] at hhas
    rw [hpl] at hsecured
    have hearlier := (List.mem_append.1 (hsplit ▸ hhas)).resolve_left fun hm => hlater _ hm hsecured
    refine ⟨List.mem_reverse.2 ((mem_of_record hdone).2 ⟨_, hearlier, rfl⟩), ?_⟩
    exact hdoes.unique (of_record hrecord hhas rfl).2

/-! ### A crash after a rename -/

/-- The write has returned, and the edit has renamed its file. -/
def sampleMoment : List (Fin 2 × Choice) :=
  [(sampleFirst, 32, 2), (sampleSecond, 10, 3), (sampleFirst, 5, 2), (sampleSecond, 23, 3)].flatMap
    fun (m : Fin 2 × ℕ × ℕ) =>
    List.replicate m.2.1 (m.1, { amount := 9, inode := m.2.2 })

/-- The write is answered, and the last call put the edited text in the place of what was written. -/
def atSampleMoment (P : Pool (Fin 2) (Call Host.sample) Answer (Exec ProtocolError Reply) (State Host.sample)) :
    Bool :=
  (match P.threads sampleFirst with
    | .ret (.ok _) => true
    | _ => false) &&
  decide (P.state.world.contentAt (Host.sample.locate ["w", "f"]) = some [99, 98]) &&
  match P.state.trace with
    | ⟨_, _, .rename .., _, was, _, _⟩ :: _ =>
      decide ((was.entries (Host.sample.locate ["w", "f"])).map (fun f => (P.state.world.files f).content) =
        some [98])
    | _ => false

/-- What was written may be found, without what was edited. -/
theorem crash_keeps_first_moment : ∃ P answer,
    (taskPool Crates.sample Walker.sample ⟨["w"], false, .full⟩ sampleTasks
      (World.sample ["w", "f"] (some [97]))).runs (fun i : Fin 2 => step Rules.sole i) everywhere
        sampleMoment = some P ∧
    P.state.world.contentAt (Host.sample.locate ["w", "f"]) = some [99, 98] ∧
    P.threads 0 = .ret (.ok answer) ∧
    ∃ (done lost : List (Fin 2)) (reply : Fin 2 → Reply),
      (done ++ lost).map Fin.val =
        ((P.state.ledger (Host.sample.locate ["w", "f"])).map (·.who)).reverse ∧ (done ++ lost).Nodup ∧
      Serial (Task.Does Host.sample.contentId) (some [97]) (done.map fun i => (sampleTasks i, reply i))
        (some [98]) ∧
      0 ∈ done ∧ answer = reply 0 := by
  set l := Host.sample.locate ["w", "f"]
  have hmoment : ((taskPool Crates.sample Walker.sample ⟨["w"], false, .full⟩ sampleTasks
      (World.sample ["w", "f"] (some [97]))).runs (fun i : Fin 2 => step Rules.sole i) everywhere
        sampleMoment).any atSampleMoment = true := by decide +kernel
  rw [Option.any_eq_true] at hmoment
  obtain ⟨P, hruns, hall⟩ := hmoment
  simp only [atSampleMoment, Bool.and_eq_true, decide_eq_true_eq] at hall
  obtain ⟨⟨hret, hnow⟩, hlast⟩ := hall
  obtain ⟨answer, hend⟩ : ∃ answer, P.threads 0 = .ret (.ok answer) := by
    split at hret
    · exact ⟨_, by assumption⟩
    · cases hret
  have hleaves : P.state.Leaves (World.sample ["w", "f"] (some [97])).next l (some [98]) := by
    split at hlast
    · rename_i ht
      rw [decide_eq_true_eq] at hlast
      rw [← hlast]
      exact State.leaves_last ht (fun hset => hset) _
    · cases hlast
  have ho : Orderly ⟨["w"], false, .full⟩ sampleTasks (World.sample ["w", "f"] (some [97])) :=
    sampleTasks_orderly _
  obtain ⟨done, lost, reply, hwho, hnodup, hserial, hlasts⟩ := crash_keeps_first ho Rules.sole_closed
    (by decide) hruns (fun hl => ho.named 0 ["w", "f"] rfl hl) hleaves
  exact ⟨P, answer, hruns, hnow, hend, done, lost, reply, hwho, hnodup, hserial,
    hlasts rfl Rules.sole_settles 0 ["w", "f"] answer rfl rfl (by decide) hend⟩

end Hashline
