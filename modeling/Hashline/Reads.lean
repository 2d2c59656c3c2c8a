/-
  Reads, searches and mutations of one server: a read or a search shows what a
  first part of the mutations leaves, in the one order in which they all take
  effect.
-/
import Hashline.Serial

namespace Hashline

open Machine Object

variable {h : Host} {n : ℕ}

/-- A thread saw the bytes at a moment of the run. -/
theorem State.Saw.moment {s : State h} {who : ℕ} {l : Loc} {b : Bytes} (hs : s.Saw who l b) :
    ∃ d ds, (d :: ds) <:+ s.trace ∧ d.who = who ∧ d.after.contentAt l = some b := by
  obtain ⟨d, hd, hwho⟩ := hs
  obtain ⟨later, ds, he⟩ := List.append_of_mem hd
  exact ⟨d, ds, ⟨later, he.symm⟩, hwho⟩

/-- What had been put at the place at a moment of the run is put there first. -/
theorem ledger_moment {s : State h} {d : Did h} {ds : List (Did h)} (hd : (d :: ds) <:+ s.trace) (l : Loc) :
    ∃ later, s.ledger l = later ++ (d.moment ds).ledger l := by
  obtain ⟨later, he⟩ := hd.filterMap (fun d => d.puts l)
  exact ⟨later, he.symm⟩

namespace Seemly
variable {workspace : Workspace} {tasks : Fin n → Task} {w : World h} {ho : Seemly workspace tasks w}
  {rules : Rules h} {s : State h} {l : Loc}

/-- **At a moment of the run** there stands what a first part of the mutations leaves. -/
theorem at_moment {latest : List (Fin n)} {reply : Fin n → Reply} {Q : Fin n → Prop}
    (hi : (ho.service rules).Inv s) (hl : ¬h.IsTemp w.counter l)
    (hrecord : List.Forall₂ (fun (c : Change ℕ (Option Bytes)) (i : Fin n) => c.who = i.val ∧ Q i ∧
      (tasks i).Does h.contentId c.old (reply i) c.new) (s.ledger l) latest)
    {d : Did h} {ds : List (Did h)} (hd : (d :: ds) <:+ s.trace) :
    ∃ first, first <+: latest.reverse ∧
      first.map Fin.val = (((d.moment ds).ledger l).map (·.who)).reverse ∧
      Serial (Task.Does h.contentId) (w.contentAt l) (first.map fun i => (tasks i, reply i))
        (d.after.contentAt l) := by
  obtain ⟨later, hledger⟩ := ledger_moment hd l
  have hthen := List.forall₂_drop later.length hrecord
  rw [hledger, List.drop_left] at hthen
  refine ⟨(latest.drop later.length).reverse, List.reverse_prefix.2 (List.drop_suffix _ _), ?_, ?_⟩
  · rw [List.map_reverse, who_of_record hthen]
  · rw [List.map_reverse]
    exact (hi.past l hl d ds hd).serial
      (List.forall₂_map_right_iff.2 (hthen.imp fun c i hci => hci.2.2))

/-- **One order of the mutations** of a place: each is answered as it is, and one that has returned is in
    it or stopped with an error. -/
theorem in_order {Overrides : Type} {crates : Crates Overrides} {walker : Walker h Overrides crates}
    {P : Pool (Fin n) (Call h) Answer (Exec ProtocolError Reply) (State h)}
    (hi : (ho.service rules).Inv P.state) (hl : ¬h.IsTemp w.counter l)
    (hout : ∀ i r, P.threads i = .ret r → ho.Ends crates walker rules i r P.state) :
    ∃ (latest : List (Fin n)) (reply : Fin n → Reply),
      List.Forall₂ (fun (c : Change ℕ (Option Bytes)) (i : Fin n) => c.who = i.val ∧
        (∃ p, (tasks i).target workspace = some p ∧ h.locate p = l) ∧
        (tasks i).Does h.contentId c.old (reply i) c.new) (P.state.ledger l) latest ∧
      Serial (Task.Does h.contentId) (w.contentAt l) (latest.reverse.map fun i => (tasks i, reply i))
        (P.state.world.contentAt l) ∧
      ∀ i p r, (tasks i).target workspace = some p → h.locate p = l → P.threads i = .ret r →
        (∃ e, r = .error e) ∧ i ∉ latest.reverse ∨ r = .ok (reply i) ∧ i ∈ latest.reverse := by
  obtain ⟨latest, reply, -, hrecord⟩ := recorded hi hl
  refine ⟨latest, reply, hrecord, ?_, fun i p r hp hpl hret => ?_⟩
  · rw [List.map_reverse]
    exact (hi.leads l hl).serial (List.forall₂_map_right_iff.2 (hrecord.imp fun c i hci => hci.2.2))
  · subst hpl
    rw [List.mem_reverse]
    exact replied hrecord hp (hout i r hret).outcome

end Seemly

/-- The bytes are what a first part of the mutations leaves, as they stood at the place after a call that
    was one of `mine`. -/
def Witnessed (tasks : Fin n → Task) (w : World h) (l : Loc) (order : List (Fin n)) (reply : Fin n → Reply)
    (s : State h) (mine : Did h → Prop) (bytes : Bytes) : Prop :=
  ∃ first d ds, first <+: order ∧
    Serial (Task.Does h.contentId) (w.contentAt l) (first.map fun i => (tasks i, reply i)) (some bytes) ∧
    (d :: ds) <:+ s.trace ∧ mine d ∧ d.after.contentAt l = some bytes ∧
    first.map Fin.val = (((d.moment ds).ledger l).map (·.who)).reverse

namespace Seemly
variable {workspace : Workspace} {tasks : Fin n → Task} {w : World h} {ho : Seemly workspace tasks w}
  {rules : Rules h} {s : State h} {l : Loc} {latest : List (Fin n)} {reply : Fin n → Reply}
  {Q : Fin n → Prop} (hi : (ho.service rules).Inv s) (hl : ¬h.IsTemp w.counter l)
  (hrecord : List.Forall₂ (fun (c : Change ℕ (Option Bytes)) (i : Fin n) => c.who = i.val ∧ Q i ∧
    (tasks i).Does h.contentId c.old (reply i) c.new) (s.ledger l) latest)
include hi hl hrecord

/-- What a thread saw is witnessed by it. -/
theorem witnessed_of_saw {who : ℕ} {bytes : Bytes} (hs : s.Saw who l bytes) :
    Witnessed tasks w l latest.reverse reply s (·.who = who) bytes := by
  obtain ⟨d, ds, hd, hwho, hat⟩ := hs.moment
  obtain ⟨first, hfirst, horder, hserial⟩ := Seemly.at_moment hi hl hrecord hd
  rw [hat] at hserial
  exact ⟨first, d, ds, hfirst, hserial, hd, hwho, hat, horder⟩

/-- What a thread was given is witnessed by it, or by the thread whose load it joined. -/
theorem witnessed_of_given {i : Fin n} {snapshot : Snapshot h.contentId}
    (hg : (ho.service rules).Given i l snapshot s) :
    Witnessed tasks w l latest.reverse reply s (fun d => d.who = i.val ∨ s.Joined i) snapshot.bytes := by
  obtain ⟨who, hsaw, hwho⟩ : ∃ who, s.Saw who l snapshot.bytes ∧ (who = i.val ∨ s.Joined i) := by
    rcases hg.found with hsaw | hjoined
    · exact ⟨i, hsaw, .inl rfl⟩
    · obtain ⟨who, hsaw⟩ := hg.of.seen
      exact ⟨who, hsaw, .inr hjoined⟩
  obtain ⟨first, d, ds, hfirst, hserial, hd, hdid, hat, horder⟩ := witnessed_of_saw hi hl hrecord hsaw
  exact ⟨first, d, ds, hfirst, hserial, hd, hwho.imp_left hdid.trans, hat, horder⟩

end Seemly

section
variable {Overrides : Type} {crates : Crates Overrides} {walker : Walker h Overrides crates}
  {rules : Rules h} {workspace : Workspace} {tasks : Fin n → Task} {w : World h}
  (ho : Orderly workspace tasks w) (hb : w.Blank) (hc : rules.Closed) {ms : List (Fin n × Choice)}
  {P : Pool (Fin n) (Call h) Answer _ (State h)}
  (hruns : (taskPool crates walker workspace tasks w).runs (fun i : Fin n => step rules i) everywhere ms =
    some P) {l : Loc} (hl : ¬h.IsTemp w.counter l)
include ho hc hruns hl

include hb in
/-- **Reads are of the order of the mutations**: there is one order of the mutations of a place in which
    each is answered as it is, and a read of the place that has returned shows what a first part of them
    leaves, which stood there after a call of its own unless it joined the load of another. -/
theorem reads_serialize : ∃ (order : List (Fin n)) (reply : Fin n → Reply),
    Serial (Task.Does h.contentId) (w.contentAt l) (order.map fun i => (tasks i, reply i))
      (P.state.world.contentAt l) ∧
    (∀ i p r, (tasks i).target workspace = some p → h.locate p = l → P.threads i = .ret r →
      (∃ e, r = .error e) ∧ i ∉ order ∨ r = .ok (reply i) ∧ i ∈ order) ∧
    ∀ i input answer, tasks i = .read input → h.locate (resolvePath workspace.root input.path) = l →
      P.threads i = .ret (.ok answer) →
      ∃ (snapshot : Snapshot h.contentId) (bytes : Bytes), answer = .text bytes ∧
        Read.Shows crates.quote input snapshot bytes ∧
        Witnessed tasks w l order reply P.state (fun d => d.who = i.val ∨ P.state.Joined i)
          snapshot.bytes := by
  obtain ⟨hi, hout⟩ := ho.sound hc hruns
  obtain ⟨latest, reply, hrecord, hserial, hreplied⟩ := Seemly.in_order hi hl hout
  refine ⟨latest.reverse, reply, hserial, hreplied, fun i input answer htask hpl hret => ?_⟩
  subst hpl
  obtain ⟨r, he, hshown⟩ := (hout i _ hret).answered input htask hb hl
  rcases r with e | bytes <;> cases he
  obtain ⟨snapshot, hgiven, hshows⟩ := hshown.1 bytes rfl
  exact ⟨snapshot, bytes, rfl, hshows, Seemly.witnessed_of_given hi hl hrecord hgiven⟩

include hb in
/-- **What errors tell is of the order of the mutations**: the header and the lines that an edit, a write
    or a read returns with an error are of what a first part of the mutations leaves, which stood at the
    place after a call of its own, but for a read that joined the load of another. -/
theorem errors_recount : ∃ (order : List (Fin n)) (reply : Fin n → Reply),
    Serial (Task.Does h.contentId) (w.contentAt l) (order.map fun i => (tasks i, reply i))
      (P.state.world.contentAt l) ∧
    (∀ i p r, (tasks i).target workspace = some p → h.locate p = l → P.threads i = .ret r →
      (∃ e, r = .error e) ∧ i ∉ order ∨ r = .ok (reply i) ∧ i ∈ order) ∧
    (∀ i p error, (tasks i).target workspace = some p → h.locate p = l →
      P.threads i = .ret (.error (.err error)) → error.conflict = none ∧ error.existing = none ∨
        ∃ bytes, error.Tells h.contentId bytes ∧
          Witnessed tasks w l order reply P.state (·.who = i.val) bytes) ∧
    ∀ i input error, tasks i = .read input → h.locate (resolvePath workspace.root input.path) = l →
      P.threads i = .ret (.error (.err error)) → error.conflict = none ∧ error.existing = none ∨
        ∃ bytes, error.Tells h.contentId bytes ∧
          Witnessed tasks w l order reply P.state (fun d => d.who = i.val ∨ P.state.Joined i) bytes := by
  obtain ⟨hi, hout⟩ := ho.sound hc hruns
  obtain ⟨latest, reply, hrecord, hserial, hreplied⟩ := Seemly.in_order hi hl hout
  refine ⟨latest.reverse, reply, hserial, hreplied, fun i p error hp hpl hret => ?_,
    fun i input error htask hpl hret => ?_⟩
  · subst hpl
    obtain ⟨e, he, hhalts⟩ | ⟨_, _, _, he, -⟩ := (hout i _ hret).outcome p hp <;> cases he
    refine (hhalts.recounts (ho.there i _ hp) error rfl).imp_right ?_
    rintro ⟨bytes, hsaw, htells⟩
    exact ⟨bytes, htells, Seemly.witnessed_of_saw hi hl hrecord hsaw⟩
  · subst hpl
    obtain ⟨r, he, hshown⟩ := (hout i _ hret).answered input htask hb hl
    rcases r with e | bytes <;> cases he
    refine (hshown.2 _ rfl error rfl).imp_right ?_
    rintro ⟨bytes, ⟨snapshot, hgiven, rfl⟩, htells⟩
    exact ⟨_, htells, Seemly.witnessed_of_given hi hl hrecord hgiven⟩

/-- **Searches are of the order of the mutations**: what a search of a named file reports, it reports of
    one content, which a first part of the mutations leaves and which stood at the place after a call of
    its own; only below what it found to be no regular file does it walk. -/
theorem greps_serialize : ∃ (order : List (Fin n)) (reply : Fin n → Reply),
    Serial (Task.Does h.contentId) (w.contentAt l) (order.map fun i => (tasks i, reply i))
      (P.state.world.contentAt l) ∧
    (∀ i p r, (tasks i).target workspace = some p → h.locate p = l → P.threads i = .ret r →
      (∃ e, r = .error e) ∧ i ∉ order ∨ r = .ok (reply i) ∧ i ∈ order) ∧
    ∀ i input answer, tasks i = .grep input → h.locate (Grep.root workspace input) = l →
      P.threads i = .ret (.ok answer) → ∃ bytes, answer = .text bytes ∧
        ((∃ content, Grep.Shows crates workspace h input content bytes ∧
            Witnessed tasks w l order reply P.state (·.who = i.val) content) ∨
          P.state.SawOther i l ∧ Grep.ShowsTree crates workspace walker input bytes) := by
  obtain ⟨hi, hout⟩ := ho.sound hc hruns
  obtain ⟨latest, reply, hrecord, hserial, hreplied⟩ := Seemly.in_order hi hl hout
  refine ⟨latest.reverse, reply, hserial, hreplied, fun i input answer htask hpl hret => ?_⟩
  subst hpl
  obtain ⟨bytes, rfl, hshown⟩ := (hout i _ hret).reported input htask hl answer rfl
  refine ⟨bytes, rfl, hshown.imp_left ?_⟩
  rintro ⟨content, hsaw, hshows⟩
  exact ⟨content, hshows, Seemly.witnessed_of_saw hi hl hrecord hsaw⟩

end

/-! ### A write and a read, a search, or another write, that begins before it -/

theorem World.sample_blank (path : PathBuf) (content : Option Bytes) : (World.sample path content).Blank := by
  refine ⟨?_, fun path => rfl, fun cell => rfl⟩
  rintro r ⟨k, hr⟩
  exact List.not_mem_nil hr

/-- `b` is written over `a`. -/
def sampleWrite (content : Str) : Task :=
  .mutate (.write ⟨"f", content, .snapshot (Host.sample.contentId [97])⟩)

/-- The first writes, the second reads. -/
def sampleReads (i : Fin 2) : Task :=
  if i = sampleFirst then sampleWrite sampleB else .read ⟨"f", 2000, none, none⟩

/-- The read looks for the file before anything is written, and loads it after the write has returned. -/
def sampleReadTurns : List (Fin 2 × Choice) :=
  [(sampleSecond, 6), (sampleFirst, 35), (sampleSecond, 24)].flatMap fun (m : Fin 2 × ℕ) =>
    List.replicate m.2 (m.1, { amount := 9, inode := 2 })

theorem reads_serialize_two : ∃ P, ∃ r : Fin 2 → Exec ProtocolError Reply,
    (taskPool Crates.sample Walker.sample ⟨["w"], false, .none⟩ sampleReads
      (World.sample ["w", "f"] (some [97]))).runs (fun i : Fin 2 => step Rules.sole i) everywhere
        sampleReadTurns = some P ∧
    (∀ i, P.threads i = .ret (r i) ∧ (r i).isOk = true) ∧
    ∃ (order : List (Fin 2)) (reply : Fin 2 → Reply),
      Serial (Task.Does Host.sample.contentId) (some [97]) (order.map fun i => (sampleReads i, reply i))
        (P.state.world.contentAt (Host.sample.locate ["w", "f"])) ∧
      (∀ i p r, (sampleReads i).target ⟨["w"], false, .none⟩ = some p →
        Host.sample.locate p = Host.sample.locate ["w", "f"] → P.threads i = .ret r →
        (∃ e, r = .error e) ∧ i ∉ order ∨ r = .ok (reply i) ∧ i ∈ order) ∧
      ∀ i input answer, sampleReads i = .read input →
        Host.sample.locate (resolvePath ["w"] input.path) = Host.sample.locate ["w", "f"] →
        P.threads i = .ret (.ok answer) →
        ∃ (snapshot : Snapshot Host.sample.contentId) (bytes : Bytes), answer = .text bytes ∧
          Read.Shows Crates.sample.quote input snapshot bytes ∧
          Witnessed sampleReads (World.sample ["w", "f"] (some [97])) (Host.sample.locate ["w", "f"]) order
            reply P.state (fun d => d.who = i.val ∨ P.state.Joined i) snapshot.bytes := by
  have hreturned : ((taskPool Crates.sample Walker.sample ⟨["w"], false, .none⟩ sampleReads
      (World.sample ["w", "f"] (some [97]))).runs (fun i : Fin 2 => step Rules.sole i) everywhere
        sampleReadTurns).any (allReturned fun _ r => r.isOk) = true := by decide +kernel
  obtain ⟨P, r, hruns, hend⟩ := exists_returned _ hreturned
  have horderly : Orderly ⟨["w"], false, .none⟩ sampleReads (World.sample ["w", "f"] (some [97])) :=
    World.sample_orderly (Fin.forall_fin_two.2 ⟨fun _ hp => (Option.some.inj hp).symm, nofun⟩)
  exact ⟨P, r, hruns, hend, reads_serialize horderly (World.sample_blank _ _) Rules.sole_closed hruns
    (World.sample_named rfl)⟩

/-- A matcher that finds the first line of everything. -/
def Crates.finding : Crates Unit :=
  { Crates.sample with buildMatcher := fun _ _ => .ok fun _ => some ([1], false) }

def Walker.finding : Walker Host.sample Unit Crates.finding where
  entries _ _ := []
  collect _ _ _ := SearchShared.start
  collects _ _ _ := ⟨true, 0, [.leave 0], _, rfl, rfl, rfl⟩
  files _ := []

/-- The first writes, the second searches. -/
def sampleGreps (i : Fin 2) : Task :=
  if i = sampleFirst then sampleWrite sampleB
  else .grep ⟨"x", some "f", none, false, none, none, none, 100, .content⟩

/-- The search looks for the file before anything is written, and opens it after the write has
    returned. -/
def sampleGrepTurns : List (Fin 2 × Choice) :=
  [(sampleSecond, 1), (sampleFirst, 35), (sampleSecond, 6)].flatMap fun (m : Fin 2 × ℕ) =>
    List.replicate m.2 (m.1, { amount := 9, inode := 2 })

theorem greps_serialize_two : ∃ P, ∃ r : Fin 2 → Exec ProtocolError Reply,
    (taskPool Crates.finding Walker.finding ⟨["w"], false, .none⟩ sampleGreps
      (World.sample ["w", "f"] (some [97]))).runs (fun i : Fin 2 => step Rules.sole i) everywhere
        sampleGrepTurns = some P ∧
    (∀ i, P.threads i = .ret (r i) ∧ (r i).isOk = true) ∧
    ∃ (order : List (Fin 2)) (reply : Fin 2 → Reply),
      Serial (Task.Does Host.sample.contentId) (some [97]) (order.map fun i => (sampleGreps i, reply i))
        (P.state.world.contentAt (Host.sample.locate ["w", "f"])) ∧
      (∀ i p r, (sampleGreps i).target ⟨["w"], false, .none⟩ = some p →
        Host.sample.locate p = Host.sample.locate ["w", "f"] → P.threads i = .ret r →
        (∃ e, r = .error e) ∧ i ∉ order ∨ r = .ok (reply i) ∧ i ∈ order) ∧
      ∀ i input answer, sampleGreps i = .grep input →
        Host.sample.locate (Grep.root ⟨["w"], false, .none⟩ input) = Host.sample.locate ["w", "f"] →
        P.threads i = .ret (.ok answer) → ∃ bytes, answer = .text bytes ∧
          ((∃ content, Grep.Shows Crates.finding ⟨["w"], false, .none⟩ Host.sample input content bytes ∧
              Witnessed sampleGreps (World.sample ["w", "f"] (some [97])) (Host.sample.locate ["w", "f"])
                order reply P.state (·.who = i.val) content) ∨
            P.state.SawOther i (Host.sample.locate ["w", "f"]) ∧
              Grep.ShowsTree Crates.finding ⟨["w"], false, .none⟩ Walker.finding input bytes) := by
  have hreturned : ((taskPool Crates.finding Walker.finding ⟨["w"], false, .none⟩ sampleGreps
      (World.sample ["w", "f"] (some [97]))).runs (fun i : Fin 2 => step Rules.sole i) everywhere
        sampleGrepTurns).any (allReturned fun _ r => r.isOk) = true := by decide +kernel
  obtain ⟨P, r, hruns, hend⟩ := exists_returned _ hreturned
  have horderly : Orderly ⟨["w"], false, .none⟩ sampleGreps (World.sample ["w", "f"] (some [97])) :=
    World.sample_orderly (Fin.forall_fin_two.2 ⟨fun _ hp => (Option.some.inj hp).symm, nofun⟩)
  exact ⟨P, r, hruns, hend, greps_serialize horderly Rules.sole_closed hruns (World.sample_named rfl)⟩

/-- Both write over the same snapshot. -/
def sampleRivals (i : Fin 2) : Task :=
  if i = sampleFirst then sampleWrite sampleB else sampleWrite sampleC

/-- The second begins first and loads what the first has written. -/
def sampleRivalTurns : List (Fin 2 × Choice) :=
  [(sampleSecond, 3), (sampleFirst, 35), (sampleSecond, 23)].flatMap fun (m : Fin 2 × ℕ) =>
    List.replicate m.2 (m.1, { amount := 9, inode := 2 })

/-- It ended with a conflict. -/
def hasConflict : Exec ProtocolError Reply → Bool
  | .error (.err error) => error.conflict.isSome
  | _ => false

theorem errors_recount_two : ∃ P, ∃ r : Fin 2 → Exec ProtocolError Reply,
    (taskPool Crates.sample Walker.sample ⟨["w"], false, .none⟩ sampleRivals
      (World.sample ["w", "f"] (some [97]))).runs (fun i : Fin 2 => step Rules.sole i) everywhere
        sampleRivalTurns = some P ∧
    (∀ i, P.threads i = .ret (r i) ∧ (if i = 0 then (r i).isOk else hasConflict (r i)) = true) ∧
    ∃ (order : List (Fin 2)) (reply : Fin 2 → Reply),
      Serial (Task.Does Host.sample.contentId) (some [97]) (order.map fun i => (sampleRivals i, reply i))
        (P.state.world.contentAt (Host.sample.locate ["w", "f"])) ∧
      (∀ i p r, (sampleRivals i).target ⟨["w"], false, .none⟩ = some p →
        Host.sample.locate p = Host.sample.locate ["w", "f"] → P.threads i = .ret r →
        (∃ e, r = .error e) ∧ i ∉ order ∨ r = .ok (reply i) ∧ i ∈ order) ∧
      (∀ i p error, (sampleRivals i).target ⟨["w"], false, .none⟩ = some p →
        Host.sample.locate p = Host.sample.locate ["w", "f"] →
        P.threads i = .ret (.error (.err error)) → error.conflict = none ∧ error.existing = none ∨
          ∃ bytes, error.Tells Host.sample.contentId bytes ∧
            Witnessed sampleRivals (World.sample ["w", "f"] (some [97])) (Host.sample.locate ["w", "f"])
              order reply P.state (·.who = i.val) bytes) ∧
      ∀ i input error, sampleRivals i = .read input →
        Host.sample.locate (resolvePath ["w"] input.path) = Host.sample.locate ["w", "f"] →
        P.threads i = .ret (.error (.err error)) → error.conflict = none ∧ error.existing = none ∨
          ∃ bytes, error.Tells Host.sample.contentId bytes ∧
            Witnessed sampleRivals (World.sample ["w", "f"] (some [97])) (Host.sample.locate ["w", "f"])
              order reply P.state (fun d => d.who = i.val ∨ P.state.Joined i) bytes := by
  have hreturned : ((taskPool Crates.sample Walker.sample ⟨["w"], false, .none⟩ sampleRivals
      (World.sample ["w", "f"] (some [97]))).runs (fun i : Fin 2 => step Rules.sole i) everywhere
        sampleRivalTurns).any (allReturned fun i r => if i = 0 then r.isOk else hasConflict r) = true := by
    decide +kernel
  obtain ⟨P, r, hruns, hend⟩ := exists_returned _ hreturned
  have horderly : Orderly ⟨["w"], false, .none⟩ sampleRivals (World.sample ["w", "f"] (some [97])) :=
    World.sample_orderly (Fin.forall_fin_two.2
      ⟨fun _ hp => (Option.some.inj hp).symm, fun _ hp => (Option.some.inj hp).symm⟩)
  exact ⟨P, r, hruns, hend, errors_recount horderly (World.sample_blank _ _) Rules.sole_closed hruns
    (World.sample_named rfl)⟩

end Hashline
