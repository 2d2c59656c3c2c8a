/-
  Paths as they are spelled, their components, by which the lock map and the
  cache compare them, and the names of temporary files.
-/
import Mathlib.Data.Nat.Notation
import Mathlib.Data.List.DropRight
import Hashline.Lib.Lines

namespace Hashline

/-- An absolute path as it is spelled, by what stands between its slashes. -/
abbrev PathBuf := List String

namespace PathBuf

def isAbsolute (path : String) : Bool := path.toList.head? = some '/'

/-- A path read from its text, the first slash apart. -/
def ofString (path : String) : PathBuf :=
  ((if isAbsolute path then path.toList.tail else path.toList).splitOn '/').map String.ofList

/-- What stands between two slashes is a component, or it is nothing or `.`. -/
def isComponent (c : String) : Bool := c ≠ "" ∧ c ≠ "."

/-- `Path::components`, the root apart; paths are compared and hashed by them. -/
def components (path : PathBuf) : PathBuf := path.filter isComponent

/-- The text ends in a slash, or in `.` behind one: a demand for a directory. -/
def slashed (path : PathBuf) : Bool := path.getLast?.any (!isComponent ·)

/-- Without what stands behind the last component. -/
def trim (path : PathBuf) : PathBuf := path.rdropWhile (!isComponent ·)

def parent (path : PathBuf) : Option PathBuf :=
  if path.trim = [] then none else some (trim path.trim.dropLast)

/-- `Path::file_name`: the last component, unless it goes up. -/
def fileName (path : PathBuf) : Option String := path.components.getLast?.filter (· ≠ "..")

/-- The last component as a path, or the path where there is none. -/
def named (path : PathBuf) : PathBuf :=
  match path.fileName with
  | some name => [name]
  | none => path

/-- Onto a path that does not end in a slash. -/
def join (path : PathBuf) (name : String) : PathBuf := path ++ [name]

def display (path : PathBuf) : String := "/" ++ "/".intercalate path

section
variable {path parent : PathBuf} {c name : String}

theorem components_append (path more : PathBuf) :
    components (path ++ more) = path.components ++ more.components := List.filter_append _ _

@[simp] theorem components_components (path : PathBuf) : path.components.components = path.components := by
  simp [components]

theorem mem_components : c ∈ path.components ↔ c ∈ path ∧ isComponent c = true := List.mem_filter

/-- Components are kept as they are. -/
theorem components_eq_self (h : ∀ c ∈ path, isComponent c = true) : path.components = path :=
  List.filter_eq_self.2 h

theorem components_singleton (hc : isComponent c = true) : components [c] = [c] :=
  List.filter_cons_of_pos hc

theorem trim_concat (path : PathBuf) (hc : isComponent c = true) : trim (path ++ [c]) = path ++ [c] :=
  List.rdropWhile_concat_neg _ _ _ (by simp [hc])

theorem slashed_append {more : PathBuf} (hne : more ≠ []) : slashed (path ++ more) = more.slashed := by
  rw [slashed, slashed, List.getLast?_append_of_ne_nil _ hne]

theorem slashed_eq_false (h : ∀ c ∈ path, isComponent c = true) : path.slashed = false := by
  rw [slashed, Option.any_eq_false]
  intro c hc
  simp [h c (List.mem_of_getLast? hc)]

theorem getLast?_ne_dot (h : path.slashed = false) : path.getLast? ≠ some "." := by
  intro hdot
  rw [slashed, hdot] at h
  cases h

/-- What stands between all slashes of a text. -/
def pieces (path : String) : PathBuf := (path.toList.splitOn '/').map String.ofList

/-- Before the first slash of an absolute path there is nothing. -/
theorem pieces_eq (path : String) :
    pieces path = if isAbsolute path then "" :: ofString path else ofString path := by
  rw [pieces, ofString]
  split_ifs with habs
  · obtain ⟨rest, hrest⟩ := List.head?_eq_some_iff.1 (of_decide_eq_true habs)
    have hsplit := List.splitOn_append_cons_self (a := '/') [] rest
    rw [List.nil_append, List.splitOn_nil] at hsplit
    rw [hrest, hsplit, List.tail_cons]
    rfl
  · rfl

theorem components_ofString (path : String) : components (ofString path) = (pieces path).components := by
  rw [pieces_eq]
  split_ifs <;> rfl

theorem ofString_ne_nil (path : String) : ofString path ≠ [] := by
  rw [ofString, ne_eq, List.map_eq_nil_iff]
  exact List.splitOn_ne_nil _ _

theorem slashed_ofString (path : String) : slashed (ofString path) = (pieces path).slashed := by
  rw [pieces_eq]
  split_ifs
  · show _ = slashed ([""] ++ ofString path)
    exact (slashed_append (ofString_ne_nil path)).symm
  · rfl

/-- A path has no component, or a last one. -/
theorem trim_cases (path : PathBuf) : path.trim = [] ∧ path.components = [] ∨
    ∃ (init : PathBuf) (c : String), path.trim = init ++ [c] ∧ isComponent c = true ∧
      path.components = init.components ++ [c] := by
  induction path using List.reverseRecOn with
  | nil => exact .inl ⟨rfl, rfl⟩
  | append_singleton init c ih =>
    cases hc : isComponent c with
    | true => exact .inr ⟨init, c, trim_concat init hc, hc, by simp [components, hc]⟩
    | false =>
      have ht : trim (init ++ [c]) = trim init := List.rdropWhile_concat_pos _ _ _ (by simp [hc])
      have hcs : components (init ++ [c]) = components init := by simp [components, hc]
      rwa [ht, hcs]

theorem components_trim (path : PathBuf) : path.trim.components = path.components := by
  rcases trim_cases path with ⟨ht, hc⟩ | ⟨init, c, ht, hcomp, hc⟩
  · rw [ht, hc]; rfl
  · rw [ht, hc, components_append, components_singleton hcomp]

theorem slashed_trim (path : PathBuf) : path.trim.slashed = false := by
  rcases trim_cases path with ⟨ht, -⟩ | ⟨init, c, ht, hcomp, -⟩
  · rw [ht]; rfl
  · rw [ht, slashed, List.getLast?_concat]; simp [hcomp]

theorem length_trim_le (path : PathBuf) : path.trim.length ≤ path.length :=
  (List.rdropWhile_prefix _ _).length_le

theorem parent_eq_none : path.parent = none ↔ path.components = [] := by
  unfold parent
  rcases trim_cases path with ⟨ht, hc⟩ | ⟨init, c, ht, -, hc⟩
  · simp [ht, hc]
  · simp [ht, hc]

/-- **What a parent is**: the path without its last component, and with no slash behind it. -/
theorem parent_eq_some (h : path.parent = some parent) :
    (∃ c, isComponent c = true ∧ path.components = parent.components ++ [c]) ∧
      parent.slashed = false ∧ parent.length < path.length := by
  unfold PathBuf.parent at h
  rcases trim_cases path with ⟨ht, -⟩ | ⟨init, c, ht, hcomp, hc⟩
  · rw [if_pos ht] at h; cases h
  · rw [if_neg (by simp [ht]), ht, List.dropLast_concat] at h
    cases h
    refine ⟨⟨c, hcomp, by rw [components_trim, hc]⟩, slashed_trim _, ?_⟩
    have hlen := length_trim_le path
    rw [ht, List.length_append, List.length_singleton] at hlen
    have := length_trim_le init
    omega

theorem components_join (path : PathBuf) (hname : isComponent name = true) :
    (path.join name).components = path.components ++ [name] := by
  rw [join, components_append, components_singleton hname]

theorem slashed_join (path : PathBuf) (hname : isComponent name = true) :
    (path.join name).slashed = false := by
  rw [slashed, join, List.getLast?_concat]; simp [hname]

end

end PathBuf

/-- Absolute paths are used as they are, others are joined onto `root`. -/
def resolvePath (root : PathBuf) (path : String) : PathBuf :=
  if PathBuf.isAbsolute path then .ofString path else root ++ .ofString path

/-! ## Names of temporary files -/

/-- The name `unique_temp_name` formats. -/
def tempName (process discriminator nanos : ℕ) : String :=
  s!".hashline-{process}-{discriminator}-{nanos}.tmp"

theorem dash_notMem_toDigits (n : ℕ) : '-' ∉ Nat.toDigits 10 n := fun h =>
  absurd (Nat.isDigit_of_mem_toDigits (by decide) (by decide) h) (by decide)

theorem toList_tempName (process discriminator nanos : ℕ) :
    (tempName process discriminator nanos).toList = ".hashline-".toList ++
      (Nat.toDigits 10 process ++ '-' :: (Nat.toDigits 10 discriminator ++
        '-' :: (Nat.toDigits 10 nanos ++ ".tmp".toList))) := by
  have hs : ∀ s : String, toString s = s := fun _ => rfl
  unfold tempName
  simp [hs]

theorem isComponent_tempName (process discriminator nanos : ℕ) :
    PathBuf.isComponent (tempName process discriminator nanos) = true := by
  have hlen : ∀ s : String, s.toList.length ≤ 1 → tempName process discriminator nanos ≠ s := by
    intro s hs he
    rw [← he, toList_tempName, List.length_append] at hs
    exact absurd (Nat.le_of_add_right_le hs) (by decide)
  simpa [PathBuf.isComponent] using ⟨hlen "" (by decide), hlen "." (by decide)⟩

/-- **Two names of one process differ when their discriminators do.** -/
theorem tempName_inj {process d d' n n' : ℕ} (h : tempName process d n = tempName process d' n') :
    d = d' := by
  have h := congrArg String.toList h
  rw [toList_tempName, toList_tempName, List.append_cancel_left_eq, List.append_cancel_left_eq,
    List.cons.injEq] at h
  have hd := (Lines.append_cons_inj (dash_notMem_toDigits d) (dash_notMem_toDigits d') h.2).1
  rw [← Nat.ofDigitChars_ten_toDigits (n := d), hd, Nat.ofDigitChars_ten_toDigits]

end Hashline
