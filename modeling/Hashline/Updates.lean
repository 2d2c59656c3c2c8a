/-
  Updates made from a base that the caller names: where one file has one
  spelling, none of them is lost.
-/
import Hashline.Serial

namespace Hashline

open Machine Object

variable {h : Host} {n : ℕ}

/-! ## Bases and versions -/

/-- The base that a mutation names. -/
def Task.base : Task → Option SnapshotId
  | .mutate (.edit request) => some request.snapshot
  | .mutate (.write request) => match request.expect with
    | .absent => none
    | .snapshot id => some id
  | _ => none

/-- With `version` changes before it on record, the latest first, `who` replaced `old`. -/
def Replaces (log : List (Change ℕ (Option Bytes))) (who version : ℕ) (old : Option Bytes) : Prop :=
  ∃ later earlier new, log = later ++ ⟨who, old, new⟩ :: earlier ∧ earlier.length = version

theorem exists_replaces {log : List (Change ℕ (Option Bytes))} {c : Change ℕ (Option Bytes)}
    (hc : c ∈ log) : ∃ version, Replaces log c.who version c.old := by
  obtain ⟨later, earlier, hsplit⟩ := List.append_of_mem hc
  exact ⟨earlier.length, later, earlier, c.new, hsplit, rfl⟩

/-- One change makes a version into the next. -/
theorem Replaces.unique {log : List (Change ℕ (Option Bytes))} {who who' version : ℕ}
    {old old' : Option Bytes} (hr : Replaces log who version old)
    (hr' : Replaces log who' version old') : who = who' ∧ old = old' := by
  obtain ⟨later, earlier, new, hlog, hlen⟩ := hr
  obtain ⟨later', earlier', new', hlog', hlen'⟩ := hr'
  rw [hlog] at hlog'
  obtain ⟨-, hrest⟩ := List.append_inj' hlog' (by rw [List.length_cons, List.length_cons, hlen, hlen'])
  cases hrest
  exact ⟨rfl, rfl⟩

/-- Where there is something first and every change leaves something, there is something. -/
theorem ne_none_of_leads {v v' : Option Bytes} {log : List (Change ℕ (Option Bytes))}
    (hl : Leads v log v') (hv : v ≠ none) (hnew : ∀ c ∈ log, c.new ≠ none) : v' ≠ none := by
  cases hl with
  | nil => exact hv
  | cons h => exact hnew _ List.mem_cons_self

/-- What a mutation is done on has the identity it names, where there is something. -/
theorem Task.Does.base {contentId : Bytes → SnapshotId} {task : Task} {reply : Reply}
    {old new : Option Bytes} {id : SnapshotId} (hd : task.Does contentId old reply new)
    (hbase : task.base = some id) (hold : task.Edits → old ≠ none) :
    ∃ bytes, old = some bytes ∧ contentId bytes = id := by
  obtain ⟨request, response, bytes, rfl, -, -, ha⟩ := hd
  cases request with
  | edit request =>
    obtain ⟨found, rfl⟩ := Option.ne_none_iff_exists'.1 (hold trivial)
    cases hbase
    exact ⟨found, rfl, ha.1.symm⟩
  | write request =>
    have hfound := ha.1
    rw [Task.base] at hbase
    split at hbase
    · cases hbase
    · rename_i hexpect
      cases hbase
      rw [hexpect] at hfound
      exact Option.map_eq_some_iff.1 hfound

/-! ## No update is lost -/

/-- Both write over `a`, the second through another name of the directory. -/
def twoNames (i : Fin 2) : Task :=
  if i = sampleFirst then .mutate (.write ⟨"f", sampleB, .snapshot (Host.sample.contentId [97])⟩)
  else .mutate (.write ⟨"/v/f", sampleC, .snapshot (Host.sample.contentId [97])⟩)

/-- Both pass the guard before either renames. -/
def twoNamesTurns : List (Fin 2 × Choice) :=
  [(sampleFirst, 30, 2), (sampleSecond, 30, 3), (sampleFirst, 5, 2), (sampleSecond, 5, 3)].flatMap
    fun (m : Fin 2 × ℕ × ℕ) => List.replicate m.2.1 (m.1, { amount := 9, inode := m.2.2 })

end Hashline
