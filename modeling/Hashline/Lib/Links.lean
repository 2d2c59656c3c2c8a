/-
  Directories, files and symbolic links: where a path leads, and what the
  operating system finds at its end.
-/
import Mathlib.Data.List.Infix
import Mathlib.Data.Nat.Notation

/-- What a link names: names from the root, or from the directory of the link; `..` goes up. -/
structure LinkTarget where
  absolute : Bool
  names : List String
  deriving DecidableEq, Repr

inductive FileObject where
  | directory
  | file
  | link (target : LinkTarget)
  deriving DecidableEq, Repr

/-- What there is at each place, where a place is the names from the root down; `..` names nothing. -/
structure FileTree where
  object : List String → Option FileObject
  root : object [] = some .directory
  parent : ∀ place name, (object (place ++ [name])).isSome → object place = some .directory
  names : ∀ place, object (place ++ [".."]) = none

namespace FileTree

/-- The tree with these objects and no others. -/
def ofList (entries : List (List String × FileObject))
    (root : entries.lookup [] = some .directory)
    (parent : ∀ e ∈ entries, e.1 ≠ [] → entries.lookup e.1.dropLast = some .directory)
    (names : ∀ e ∈ entries, e.1.getLast? ≠ some "..") : FileTree where
  object place := entries.lookup place
  root := root
  parent place name h := by
    obtain ⟨o, ho⟩ := Option.isSome_iff_exists.1 h
    obtain ⟨l₁, l₂, rfl, -⟩ := List.lookup_eq_some_iff.1 ho
    simpa using parent (place ++ [name], o) (by simp) (by simp)
  names place := by
    rw [List.lookup_eq_none_iff]
    intro e he
    rw [bne_iff_ne]
    intro hp
    exact names e he (by rw [← hp]; simp)

variable (t : FileTree)

/-- Where a link in a directory starts from. -/
def linkStart (dir : List String) (target : LinkTarget) : List String :=
  if target.absolute then [] else dir

/-! ## Where a path leads -/

/-- From a place, along the names, through every link, leads to a place, whether or not there is
    anything. -/
inductive Leads : List String → List String → List String → Prop
  | here (place) : Leads place [] place
  | up {place names dst} : Leads place.dropLast names dst → Leads place (".." :: names) dst
  | down {place name names dst} : name ≠ ".." →
      (∀ target, t.object (place ++ [name]) ≠ some (.link target)) →
      Leads (place ++ [name]) names dst → Leads place (name :: names) dst
  | follow {place name names target dst} : t.object (place ++ [name]) = some (.link target) →
      Leads (linkStart place target) (target.names ++ names) dst → Leads place (name :: names) dst

variable {t}

theorem Leads.unique {place names dst dst' : List String} (h : t.Leads place names dst)
    (h' : t.Leads place names dst') : dst = dst' := by
  induction h with
  | here place => cases h'; rfl
  | up _ ih =>
    cases h' with
    | up h' => exact ih h'
    | down hne _ _ => exact absurd rfl hne
    | follow hl _ => rw [t.names] at hl; cases hl
  | down hne hno _ ih =>
    cases h' with
    | up _ => exact absurd rfl hne
    | down _ _ h' => exact ih h'
    | follow hl _ => exact absurd hl (hno _)
  | follow hl _ ih =>
    cases h' with
    | up _ => rw [t.names] at hl; cases hl
    | down _ hno _ => exact absurd hl (hno _)
    | follow hl' h' => rw [hl] at hl'; cases hl'; exact ih h'

theorem Leads.append {place names mid more dst : List String} (h : t.Leads place names mid)
    (h' : t.Leads mid more dst) : t.Leads place (names ++ more) dst := by
  induction h with
  | here place => exact h'
  | up _ ih => exact .up (ih h')
  | down hne hno _ ih => exact .down hne hno (ih h')
  | follow hl _ ih =>
    have hs := ih h'
    rw [List.append_assoc] at hs
    exact .follow hl hs

theorem Leads.split {place all dst : List String} (h : t.Leads place all dst) :
    ∀ {names more}, all = names ++ more → ∃ mid, t.Leads place names mid ∧ t.Leads mid more dst := by
  induction h with
  | here place =>
    intro names more he
    obtain ⟨rfl, rfl⟩ := List.append_eq_nil_iff.1 he.symm
    exact ⟨place, .here _, .here _⟩
  | @up place ns dst hl ih =>
    intro names more he
    rcases List.cons_eq_append_iff.1 he with ⟨rfl, rfl⟩ | ⟨names, rfl, rfl⟩
    · exact ⟨place, .here _, .up hl⟩
    · obtain ⟨mid, hm, hr⟩ := ih rfl
      exact ⟨mid, .up hm, hr⟩
  | @down place name ns dst hne hno hl ih =>
    intro names more he
    rcases List.cons_eq_append_iff.1 he with ⟨rfl, rfl⟩ | ⟨names, rfl, rfl⟩
    · exact ⟨place, .here _, .down hne hno hl⟩
    · obtain ⟨mid, hm, hr⟩ := ih rfl
      exact ⟨mid, .down hne hno hm, hr⟩
  | @follow place name ns target dst hl hs ih =>
    intro names more he
    rcases List.cons_eq_append_iff.1 he with ⟨rfl, rfl⟩ | ⟨names, rfl, rfl⟩
    · exact ⟨place, .here _, .follow hl hs⟩
    · obtain ⟨mid, hm, hr⟩ := ih (List.append_assoc _ _ _).symm
      exact ⟨mid, .follow hl hm, hr⟩

/-- Below a place with nothing there is nothing. -/
theorem object_append_none {place : List String} (h : t.object place = none) (names : List String) :
    t.object (place ++ names) = none := by
  induction names using List.reverseRecOn with
  | nil => rwa [List.append_nil]
  | append_singleton names name ih =>
    rw [← List.append_assoc]
    by_contra hne
    rw [t.parent _ _ (Option.isSome_iff_ne_none.2 hne)] at ih
    cases ih

/-- Where there is nothing, there are no links either. -/
theorem leads_missing {place : List String} (h : t.object place = none) {names : List String}
    (hup : ".." ∉ names) : t.Leads place names (place ++ names) := by
  induction names generalizing place with
  | nil => rw [List.append_nil]; exact .here _
  | cons name names ih =>
    rw [List.mem_cons, not_or] at hup
    have hn := object_append_none h [name]
    refine .down (Ne.symm hup.1) (fun target hl => by rw [hn] at hl; cases hl) ?_
    rw [show place ++ name :: names = place ++ [name] ++ names by simp]
    exact ih hn hup.2

/-! ## What is found at its end -/

section
variable (t)

/-- Along the names, up to the first link, which is for `onLink`. -/
def walk (onLink : List String → LinkTarget → List String → Option (List String)) :
    List String → List String → Option (List String)
  | place, [] => some place
  | place, name :: names =>
    if t.object place ≠ some .directory then none
    else if name = ".." then walk onLink place.dropLast names
    else match t.object (place ++ [name]) with
      | none => none
      | some (.link target) => onLink place target names
      | some _ => walk onLink (place ++ [name]) names

/-- The place of the object at the end of a path, through `limit` links at most; `none` where a name
    is missing, or is taken in something that is no directory. -/
def lookup : ℕ → List String → List String → Option (List String)
  | 0 => walk t fun _ _ _ => none
  | limit + 1 => walk t fun place target names =>
    lookup limit (linkStart place target) (target.names ++ names)

/-- The place a path names; with a slash behind it there has to be a directory. -/
def find (limit : ℕ) (names : List String) (slash : Bool) : Option (List String) :=
  (t.lookup limit [] names).filter fun place => !slash || t.object place = some .directory

end

/-- From a place, along the names, through `n` links, there are directories, and an object at the
    end. -/
inductive Finds (t : FileTree) : ℕ → List String → List String → List String → Prop
  | here (place) : Finds t 0 place [] place
  | up {n place names dst} : t.object place = some .directory →
      Finds t n place.dropLast names dst → Finds t n place (".." :: names) dst
  | down {n place name names dst o} : name ≠ ".." → t.object place = some .directory →
      t.object (place ++ [name]) = some o → (∀ target, o ≠ .link target) →
      Finds t n (place ++ [name]) names dst → Finds t n place (name :: names) dst
  | follow {n place name names target dst} : name ≠ ".." → t.object place = some .directory →
      t.object (place ++ [name]) = some (.link target) →
      Finds t n (linkStart place target) (target.names ++ names) dst →
      Finds t (n + 1) place (name :: names) dst

/-- **What is found is where the path leads.** -/
theorem Finds.leads {n : ℕ} {place names dst : List String} (h : t.Finds n place names dst) :
    t.Leads place names dst := by
  induction h with
  | here place => exact .here place
  | up _ _ ih => exact .up ih
  | down hn _ ho hl _ ih =>
    exact .down hn (fun target he => hl target (Option.some.inj (ho.symm.trans he))) ih
  | follow _ _ hl _ ih => exact .follow hl ih

theorem Finds.append {n m : ℕ} {place names mid more dst : List String}
    (h : t.Finds n place names mid) (h' : t.Finds m mid more dst) :
    t.Finds (n + m) place (names ++ more) dst := by
  induction h with
  | here place => rwa [Nat.zero_add]
  | up hd _ ih => exact .up hd (ih h')
  | down hn hd ho hl _ ih => exact .down hn hd ho hl (ih h')
  | follow hn hd hl _ ih =>
    have hs := ih h'
    rw [List.append_assoc] at hs
    rw [Nat.add_right_comm]
    exact .follow hn hd hl hs

theorem Finds.split {n : ℕ} {place all dst : List String} (h : t.Finds n place all dst) :
    ∀ {names more}, all = names ++ more →
      ∃ n₁ n₂ mid, n = n₁ + n₂ ∧ t.Finds n₁ place names mid ∧ t.Finds n₂ mid more dst := by
  induction h with
  | here place =>
    intro names more he
    obtain ⟨rfl, rfl⟩ := List.append_eq_nil_iff.1 he.symm
    exact ⟨0, 0, place, rfl, .here _, .here _⟩
  | @up n place ns dst hd hl ih =>
    intro names more he
    rcases List.cons_eq_append_iff.1 he with ⟨rfl, rfl⟩ | ⟨names, rfl, rfl⟩
    · exact ⟨0, n, place, (Nat.zero_add n).symm, .here _, .up hd hl⟩
    · obtain ⟨n₁, n₂, mid, rfl, hm, hr⟩ := ih rfl
      exact ⟨n₁, n₂, mid, rfl, .up hd hm, hr⟩
  | @down n place name ns dst o hn hd ho hno hl ih =>
    intro names more he
    rcases List.cons_eq_append_iff.1 he with ⟨rfl, rfl⟩ | ⟨names, rfl, rfl⟩
    · exact ⟨0, n, place, (Nat.zero_add n).symm, .here _, .down hn hd ho hno hl⟩
    · obtain ⟨n₁, n₂, mid, rfl, hm, hr⟩ := ih rfl
      exact ⟨n₁, n₂, mid, rfl, .down hn hd ho hno hm, hr⟩
  | @follow n place name ns target dst hn hd hl hs ih =>
    intro names more he
    rcases List.cons_eq_append_iff.1 he with ⟨rfl, rfl⟩ | ⟨names, rfl, rfl⟩
    · exact ⟨0, n + 1, place, (Nat.zero_add _).symm, .here _, .follow hn hd hl hs⟩
    · obtain ⟨n₁, n₂, mid, rfl, hm, hr⟩ := ih (List.append_assoc _ _ _).symm
      exact ⟨n₁ + 1, n₂, mid, Nat.add_right_comm _ _ _, .follow hn hd hl hm, hr⟩

/-- Through no link, and without going up, a path leads on by its names. -/
theorem Finds.eq_append {n : ℕ} {place names dst : List String} (h : t.Finds n place names dst)
    (hn : n = 0) (hup : ".." ∉ names) : dst = place ++ names := by
  induction h with
  | here place => simp
  | up _ _ _ => exact absurd List.mem_cons_self hup
  | down _ _ _ _ _ ih =>
    rw [ih hn fun hm => hup (List.mem_cons_of_mem _ hm)]
    simp
  | follow _ _ _ _ _ => cases hn

/-- No place that is found has `..` among its names. -/
theorem Finds.up_notMem {n : ℕ} {place names dst : List String} (h : t.Finds n place names dst)
    (hup : ".." ∉ place) : ".." ∉ dst := by
  induction h with
  | here place => exact hup
  | up _ _ ih => exact ih fun hm => hup (List.mem_of_mem_dropLast hm)
  | down hne _ _ _ _ ih =>
    refine ih fun hm => ?_
    rcases List.mem_append.1 hm with hm | hm
    · exact hup hm
    · exact hne (List.mem_singleton.1 hm).symm
  | @follow n place name names target dst _ _ _ _ ih =>
    refine ih fun hm => ?_
    unfold linkStart at hm
    split_ifs at hm
    · cases hm
    · exact hup hm

theorem walk_finds {limit : ℕ}
    {onLink : List String → LinkTarget → List String → Option (List String)}
    (hk : ∀ place target names dst, onLink place target names = some dst →
      ∃ n < limit, t.Finds n (linkStart place target) (target.names ++ names) dst)
    {names : List String} : ∀ {place dst}, t.walk onLink place names = some dst →
      ∃ n ≤ limit, t.Finds n place names dst := by
  induction names with
  | nil => rintro place dst ⟨⟩; exact ⟨0, Nat.zero_le _, .here _⟩
  | cons name names ih =>
    intro place dst h
    rw [walk] at h
    split_ifs at h with hd hn
    · obtain ⟨n, hle, hf⟩ := ih h
      subst hn
      exact ⟨n, hle, .up (not_not.1 hd) hf⟩
    · split at h
      · cases h
      · rename_i target hl
        obtain ⟨n, hlt, hf⟩ := hk _ _ _ _ h
        exact ⟨n + 1, hlt, .follow hn (not_not.1 hd) hl hf⟩
      · rename_i o hno ho
        obtain ⟨n, hle, hf⟩ := ih h
        exact ⟨n, hle, .down hn (not_not.1 hd) ho (fun target he => hno target he) hf⟩

/-- **The bounded search finds what can be found within the bound.** -/
theorem lookup_eq_some {limit : ℕ} {place names dst : List String} :
    t.lookup limit place names = some dst ↔ ∃ n ≤ limit, t.Finds n place names dst := by
  constructor
  · induction limit generalizing place names dst with
    | zero => exact walk_finds fun _ _ _ _ h => by cases h
    | succ limit ih =>
      refine walk_finds fun place target names dst h => ?_
      obtain ⟨n, hle, hf⟩ := ih h
      exact ⟨n, Nat.lt_succ_of_le hle, hf⟩
  · rintro ⟨n, hle, h⟩
    induction h generalizing limit with
    | here place => cases limit <;> rfl
    | up hd _ ih =>
      have := ih hle
      cases limit <;> (rw [lookup, walk, if_neg (not_not.2 hd), if_pos rfl]; exact this)
    | @down n place name names dst o hn hd ho hl _ ih =>
      have := ih hle
      cases o with
      | link target => exact absurd rfl (hl target)
      | directory =>
        cases limit <;> (rw [lookup, walk, if_neg (not_not.2 hd), if_neg hn, ho]; exact this)
      | file =>
        cases limit <;> (rw [lookup, walk, if_neg (not_not.2 hd), if_neg hn, ho]; exact this)
    | follow hn hd hl _ ih =>
      cases limit with
      | zero => exact absurd hle (Nat.not_succ_le_zero _)
      | succ limit =>
        rw [lookup, walk, if_neg (not_not.2 hd), if_neg hn, hl]
        exact ih (Nat.le_of_succ_le_succ hle)

theorem find_eq_some {limit : ℕ} {names place : List String} {slash : Bool} :
    t.find limit names slash = some place ↔
      t.lookup limit [] names = some place ∧ (slash = true → t.object place = some .directory) := by
  rw [find, Option.filter_eq_some_iff]
  cases slash <;> simp

/-- Below a place that is found through no link, a path is found from there. -/
theorem lookup_below {limit : ℕ} {root rel dst : List String}
    (hroot : t.lookup 0 [] root = some root) :
    t.lookup limit [] (root ++ rel) = some dst ↔ ∃ n ≤ limit, t.Finds n root rel dst := by
  obtain ⟨n₀, hle₀, hf₀⟩ := lookup_eq_some.1 hroot
  obtain rfl : n₀ = 0 := Nat.le_zero.1 hle₀
  rw [lookup_eq_some]
  constructor
  · rintro ⟨n, hle, hf⟩
    obtain ⟨n₁, n₂, mid, rfl, hm, hr⟩ := hf.split rfl
    obtain rfl := hm.leads.unique hf₀.leads
    exact ⟨n₂, by omega, hr⟩
  · rintro ⟨n, hle, hf⟩
    exact ⟨0 + n, by omega, hf₀.append hf⟩

theorem Leads.of_lookup {limit : ℕ} {place names dst : List String}
    (h : t.lookup limit place names = some dst) : t.Leads place names dst := by
  obtain ⟨n, -, hf⟩ := lookup_eq_some.1 h
  exact hf.leads

/-- The first names of a path that is found are found. -/
theorem lookup_initial {limit : ℕ} {place names more dst : List String}
    (h : t.lookup limit place (names ++ more) = some dst) :
    ∃ mid, t.lookup limit place names = some mid := by
  obtain ⟨n, hle, hf⟩ := lookup_eq_some.1 h
  obtain ⟨n₁, n₂, mid, rfl, hm, -⟩ := hf.split rfl
  exact ⟨mid, lookup_eq_some.2 ⟨n₁, (Nat.le_add_right _ _).trans hle, hm⟩⟩

/-- A directory or a file in the directory that is found is found. -/
theorem lookup_snoc {limit : ℕ} {place names dst : List String} {name : String} {o : FileObject}
    (h : t.lookup limit place names = some dst) (ho : t.object (dst ++ [name]) = some o)
    (hl : ∀ target, o ≠ .link target) :
    t.lookup limit place (names ++ [name]) = some (dst ++ [name]) := by
  obtain ⟨n, hle, hf⟩ := lookup_eq_some.1 h
  have hd : t.object dst = some .directory := t.parent dst name (by rw [ho]; rfl)
  have hn : name ≠ ".." := by
    rintro rfl
    rw [t.names] at ho; cases ho
  exact lookup_eq_some.2 ⟨n + 0, hle, hf.append (.down hn hd ho hl (.here _))⟩

/-- Below a place that is found, what is no link is found through the names down to it. -/
theorem lookup_append {limit : ℕ} {place path dst names : List String} {o : FileObject}
    (h : t.lookup limit place path = some dst) (ho : t.object (dst ++ names) = some o)
    (hl : ∀ target, o ≠ .link target) :
    t.lookup limit place (path ++ names) = some (dst ++ names) := by
  induction names using List.reverseRecOn generalizing o with
  | nil => rwa [List.append_nil, List.append_nil]
  | append_singleton names name ih =>
    rw [← List.append_assoc] at ho ⊢
    have hparent : t.object (dst ++ names) = some .directory := t.parent _ name (by rw [ho]; rfl)
    rw [← List.append_assoc]
    exact lookup_snoc (ih hparent fun target he => by cases he) ho hl

/-- Where there is something, no name goes up. -/
theorem up_notMem {place names : List String} {o : FileObject}
    (ho : t.object (place ++ names) = some o) : ".." ∉ names := by
  intro hm
  obtain ⟨pre, post, rfl⟩ := List.append_of_mem hm
  have hnone := object_append_none (t.names (place ++ pre)) post
  rw [List.append_assoc, List.append_assoc, List.singleton_append, ho] at hnone
  cases hnone

end FileTree
