/-
  The workspace root of a server: the client's roots, asked for by one task for
  each notification, and what the root is once all tasks have finished.
-/
import Hashline.Path
import Hashline.Lib.Steps

namespace Hashline.Roots

open Steps

/-! ## Adoption -/

/-- What adoption takes from outside: percent-encoded octets decoded as UTF-8, and the file system. -/
structure Env where
  percentDecode : String → Option String
  canonicalize : PathBuf → Option PathBuf
  isDir : PathBuf → Bool

variable (env : Env) (pinned : Bool)

/-- Convert a `file://` URI into a path; the authority is empty or `localhost`. -/
def fileUriToPath (uri : String) : Option PathBuf :=
  let uri := uri.toList
  if "file://".toList.isPrefixOf uri then
    let rest := uri.drop "file://".toList.length
    let host := rest.takeWhile (· ≠ '/')
    if host = [] ∨ host = "localhost".toList then
      let path := rest.drop host.length
      if path = [] then none
      else (env.percentDecode (String.ofList path)).map .ofString
    else none
  else none

/-- Replace the workspace root unless it is pinned; whether the root was updated. -/
def setRoot (root candidate : PathBuf) : Bool × PathBuf :=
  if pinned then (false, root)
  else match env.canonicalize candidate with
    | none => (false, root)
    | some canonical => if env.isDir canonical then (true, canonical) else (false, root)

/-! ## The client, the server and the messages between them -/

/-- The client's answer to one `roots/list` request; `version` tells how often its list had changed
    by then. -/
structure Answer where
  version : ℕ
  roots : List String
  deriving DecidableEq

/-- Where a task of `adopt_client_roots` stands. -/
inductive Task where
  | spawned
  /-- Its request is in flight. -/
  | waiting
  /-- The answer is in flight. -/
  | responding (answer : Answer)
  /-- It tries the roots of the answer, one after the other. -/
  | trying (answer : Answer) (rest : List String)
  | finished
  deriving DecidableEq

structure Net where
  /-- The client's roots, and how often they have changed. -/
  roots : List String
  version : ℕ
  /-- Notifications in flight. -/
  notices : ℕ
  tasks : List Task
  /-- The server's root. -/
  root : PathBuf
  /-- The answer out of which the root was adopted. -/
  adopted : Option Answer
  deriving DecidableEq

inductive Action where
  /-- The client changes its roots and sends a notification. -/
  | change (roots : List String)
  /-- The server handles a notification: it spawns a task. -/
  | handle
  /-- The next step of a task: its request is sent, is answered, the answer arrives, or the next root
      of the answer is tried. -/
  | move (i : ℕ)
  deriving DecidableEq

/-- The client has just completed its initialization, which is notified too. -/
def start (root : PathBuf) (roots : List String) : Net := ⟨roots, 0, 1, [], root, none⟩

def Net.setTask (s : Net) (i : ℕ) (task : Task) : Net := { s with tasks := s.tasks.set i task }

/-- One step of task `i`. -/
def Net.advance (s : Net) (i : ℕ) : Task → Option Net
  | .spawned => some (s.setTask i (if pinned then .finished else .waiting))
  | .waiting => some (s.setTask i (.responding ⟨s.version, s.roots⟩))
  | .responding answer => some (s.setTask i (.trying answer answer.roots))
  | .trying _ [] => some (s.setTask i .finished)
  | .trying answer (uri :: rest) =>
    match (fileUriToPath env uri).map (setRoot env pinned s.root) with
    | some (true, root) => some { s.setTask i .finished with root := root, adopted := some answer }
    | _ => some (s.setTask i (.trying answer rest))
  | .finished => none

def step (s : Net) : Action → Option Net
  | .change roots => some { s with
      roots := roots, version := s.version + 1, notices := s.notices + 1 }
  | .handle => if s.notices = 0 then none
    else some { s with notices := s.notices - 1, tasks := s.tasks ++ [.spawned] }
  | .move i => s.tasks[i]?.bind (s.advance env pinned i)

/-- No message is in flight and all tasks have finished. -/
def Net.Quiet (s : Net) : Prop :=
  s.notices = 0 ∧ ∀ (i : ℕ) (task : Task), s.tasks[i]? = some task → task = .finished

/-- The directory a root names. -/
def usable (uri : String) : Option PathBuf :=
  (fileUriToPath env uri).bind fun path => (env.canonicalize path).filter env.isDir

def firstUsable (roots : List String) : Option PathBuf := roots.findSome? (usable env)

/-- The step does not try a usable root out of an answer older than the one adopted last. -/
def InOrder (s : Net) (x : Action) : Prop :=
  ∀ (i : ℕ) (a b : Answer) (uri : String) (rest : List String), x = .move i →
    s.tasks[i]? = some (.trying a (uri :: rest)) → (usable env uri).isSome → s.adopted = some b →
    b.version ≤ a.version

/-- Every list the client sets holds a usable directory. -/
def Usable (x : Action) : Prop := ∀ roots, x = .change roots → (firstUsable env roots).isSome

/-! ## A pinned root -/

variable {env pinned} {s s' : Net} {x : Action}

theorem setRoot_pinned (root candidate : PathBuf) : setRoot env true root candidate = (false, root) := rfl

theorem step_pinned (h : step env true s x = some s') : s'.root = s.root := by
  cases x with
  | change roots => cases h; rfl
  | handle =>
    rw [step] at h
    split_ifs at h
    cases h; rfl
  | move i =>
    rw [step, Option.bind_eq_some_iff] at h
    obtain ⟨task, -, h⟩ := h
    rcases task with _ | _ | answer | ⟨answer, _ | ⟨uri, rest⟩⟩ | _
    · cases h; rfl
    · cases h; rfl
    · cases h; rfl
    · cases h; rfl
    · rw [Net.advance] at h
      rcases hp : fileUriToPath env uri with _ | path
      · rw [hp] at h
        cases h; rfl
      · rw [hp, Option.map_some, setRoot_pinned] at h
        cases h; rfl
    · cases h

/-- **A pinned root never changes.** -/
theorem runs_pinned {actions : List Action} (h : runs (step env true) s actions = some s') :
    s'.root = s.root :=
  runs_keep (M := fun mid => mid.root = s.root) (Q := fun _ _ => True)
    (fun _ _ _ hmid _ hx => (step_pinned hx).trans hmid) rfl (along_of_forall fun _ _ _ => trivial) h

/-! ## What one step of a task can do -/

/-- The answer a task has got. -/
def Task.answer? : Task → Option Answer
  | .responding answer => some answer
  | .trying answer _ => some answer
  | _ => none

theorem setRoot_eq_false {root candidate : PathBuf}
    (h : (env.canonicalize candidate).filter env.isDir = none) :
    setRoot env false root candidate = (false, root) := by
  rw [setRoot, if_neg (by decide)]
  rcases hc : env.canonicalize candidate with _ | canonical
  · rfl
  · rw [hc, Option.filter_eq_none_iff] at h
    exact if_neg (h canonical rfl)

theorem setRoot_eq_true {root candidate canonical : PathBuf}
    (h : (env.canonicalize candidate).filter env.isDir = some canonical) :
    setRoot env false root candidate = (true, canonical) := by
  obtain ⟨hc, hd⟩ := Option.filter_eq_some_iff.1 h
  rw [setRoot, if_neg (by decide), hc]
  exact if_pos hd

/-- **A step of a task**: it takes up its request or its answer, or passes over a root that cannot be
    used, or adopts one that can. -/
theorem advance_cases {i : ℕ} {task : Task} (h : s.advance env false i task = some s') :
    (task = .spawned ∧ s' = s.setTask i .waiting) ∨
    (task = .waiting ∧ s' = s.setTask i (.responding ⟨s.version, s.roots⟩)) ∨
    (∃ a, task = .responding a ∧ s' = s.setTask i (.trying a a.roots)) ∨
    (∃ a, task = .trying a [] ∧ s' = s.setTask i .finished) ∨
    (∃ a uri rest, task = .trying a (uri :: rest) ∧ usable env uri = none ∧
      s' = s.setTask i (.trying a rest)) ∨
    ∃ a uri rest root, task = .trying a (uri :: rest) ∧ usable env uri = some root ∧
      s' = { s.setTask i .finished with root := root, adopted := some a } := by
  rcases task with _ | _ | a | ⟨a, _ | ⟨uri, rest⟩⟩ | _
  · cases h; exact .inl ⟨rfl, rfl⟩
  · cases h; exact .inr (.inl ⟨rfl, rfl⟩)
  · cases h; exact .inr (.inr (.inl ⟨a, rfl, rfl⟩))
  · cases h; exact .inr (.inr (.inr (.inl ⟨a, rfl, rfl⟩)))
  · rw [Net.advance] at h
    rcases hp : fileUriToPath env uri with _ | path
    · rw [hp] at h
      cases h
      exact .inr (.inr (.inr (.inr (.inl ⟨a, uri, rest, rfl, by rw [usable, hp]; rfl, rfl⟩))))
    · rw [hp, Option.map_some] at h
      have hu : usable env uri = (env.canonicalize path).filter env.isDir := by rw [usable, hp]; rfl
      rcases hc : (env.canonicalize path).filter env.isDir with _ | canonical
      · rw [setRoot_eq_false hc] at h
        rw [hc] at hu
        cases h
        exact .inr (.inr (.inr (.inr (.inl ⟨a, uri, rest, rfl, hu, rfl⟩))))
      · rw [setRoot_eq_true hc] at h
        rw [hc] at hu
        cases h
        exact .inr (.inr (.inr (.inr (.inr ⟨a, uri, rest, canonical, rfl, hu, rfl⟩))))
  · cases h

theorem setTask_getElem? {i j : ℕ} {task other : Task} (h : (s.setTask i task).tasks[j]? = some other) :
    (j = i ∧ other = task) ∨ s.tasks[j]? = some other := by
  rw [Net.setTask, List.getElem?_set] at h
  split_ifs at h with hij
  · cases h; exact .inl ⟨hij.symm, rfl⟩
  · exact .inr h

theorem setTask_self {i : ℕ} {task old : Task} (h : s.tasks[i]? = some old) :
    (s.setTask i task).tasks[i]? = some task := by
  obtain ⟨hi, -⟩ := List.getElem?_eq_some_iff.1 h
  rw [Net.setTask, List.getElem?_set, if_pos rfl, if_pos hi]

theorem setTask_ne {i j : ℕ} {task : Task} (h : j ≠ i) : (s.setTask i task).tasks[j]? = s.tasks[j]? := by
  rw [Net.setTask, List.getElem?_set, if_neg h.symm]

/-! ## What holds in every state -/

variable (env) in
/-- An answer given so far: of the current list where the list has not changed since. -/
structure Given (s : Net) (a : Answer) : Prop where
  le : a.version ≤ s.version
  eq : a.version = s.version → a.roots = s.roots
  usable : (firstUsable env a.roots).isSome

variable (env) in
structure Inv (s : Net) : Prop where
  current : (firstUsable env s.roots).isSome
  tasks : ∀ (i : ℕ) (task : Task) (a : Answer), s.tasks[i]? = some task → task.answer? = some a →
    Given env s a
  /-- The roots that were passed over cannot be used. -/
  rest : ∀ (i : ℕ) (a : Answer) (rest : List String), s.tasks[i]? = some (.trying a rest) →
    firstUsable env rest = firstUsable env a.roots
  adopted : ∀ a ∈ s.adopted, Given env s a ∧ some s.root = firstUsable env a.roots

theorem inv_start {root : PathBuf} {roots : List String} (h : (firstUsable env roots).isSome) :
    Inv env (start root roots) := by
  have hnone : ∀ (i : ℕ) (task : Task), (start root roots).tasks[i]? ≠ some task := by
    intro i task ht
    cases (ht : ([] : List Task)[i]? = _)
  exact ⟨h, fun i task a ht => absurd ht (hnone i task), fun i a rest ht => absurd ht (hnone i _),
    fun a ha => by cases ha⟩

theorem Inv.setTask {i : ℕ} {task : Task} (h : Inv env s)
    (ha : ∀ a, task.answer? = some a → Given env s a)
    (hr : ∀ a rest, task = .trying a rest → firstUsable env rest = firstUsable env a.roots) :
    Inv env (s.setTask i task) := by
  refine ⟨h.current, fun j other a ht hother => ?_, fun j a rest ht => ?_, fun a hadopted => ?_⟩
  · have hgiven : Given env s a := by
      rcases setTask_getElem? ht with ⟨-, rfl⟩ | ht
      · exact ha a hother
      · exact h.tasks j other a ht hother
    exact ⟨hgiven.le, hgiven.eq, hgiven.usable⟩
  · rcases setTask_getElem? ht with ⟨-, he⟩ | ht
    · exact hr a rest he.symm
    · exact h.rest j a rest ht
  · obtain ⟨hgiven, hroot⟩ := h.adopted a hadopted
    exact ⟨⟨hgiven.le, hgiven.eq, hgiven.usable⟩, hroot⟩

theorem inv_step (h : Inv env s) (hx : Usable env x)
    (hstep : step env false s x = some s') : Inv env s' := by
  cases x with
  | change roots =>
    cases hstep
    have hgiven : ∀ a, Given env s a → Given env
        { s with roots := roots, version := s.version + 1, notices := s.notices + 1 } a := by
      intro a ha
      exact ⟨Nat.le_succ_of_le ha.le, fun he => absurd ha.le (by rw [he]; exact Nat.not_succ_le_self _),
        ha.usable⟩
    exact ⟨hx roots rfl, fun i task a ht ha => hgiven a (h.tasks i task a ht ha), h.rest,
      fun a ha => ⟨hgiven a (h.adopted a ha).1, (h.adopted a ha).2⟩⟩
  | handle =>
    rw [step] at hstep
    split_ifs at hstep
    cases hstep
    have hnew : ∀ (i : ℕ) (task : Task), (s.tasks ++ [Task.spawned])[i]? = some task →
        s.tasks[i]? = some task ∨ task = .spawned := by
      intro i task ht
      rw [List.getElem?_append] at ht
      split_ifs at ht
      · exact .inl ht
      · exact .inr (List.mem_singleton.1 (List.mem_of_getElem? ht))
    refine ⟨h.current, fun i task a ht ha => ?_, fun i a rest ht => ?_, fun a ha => ?_⟩
    · rcases hnew i task ht with ht | rfl
      · have hgiven := h.tasks i task a ht ha
        exact ⟨hgiven.le, hgiven.eq, hgiven.usable⟩
      · cases ha
    · rcases hnew i _ ht with ht | he
      · exact h.rest i a rest ht
      · cases he
    · obtain ⟨hgiven, hroot⟩ := h.adopted a ha
      exact ⟨⟨hgiven.le, hgiven.eq, hgiven.usable⟩, hroot⟩
  | move i =>
    rw [step, Option.bind_eq_some_iff] at hstep
    obtain ⟨task, ht, hstep⟩ := hstep
    rcases advance_cases hstep with ⟨rfl, rfl⟩ | ⟨rfl, rfl⟩ | ⟨a, rfl, rfl⟩ | ⟨a, rfl, rfl⟩ |
      ⟨a, uri, rest, rfl, hu, rfl⟩ | ⟨a, uri, rest, root, rfl, hu, rfl⟩
    · exact h.setTask (fun a ha => by cases ha) fun a rest he => by cases he
    · refine h.setTask (fun a ha => ?_) fun a rest he => by cases he
      cases ha
      exact ⟨Nat.le_refl _, fun _ => rfl, h.current⟩
    · refine h.setTask (fun b hb => ?_) fun b rest he => ?_
      · cases hb
        exact h.tasks i _ a ht rfl
      · cases he; rfl
    · exact h.setTask (fun a ha => by cases ha) fun a rest he => by cases he
    · have hrest := h.rest i a _ ht
      rw [firstUsable, List.findSome?_cons_of_isNone (by rw [hu]; rfl)] at hrest
      refine h.setTask (fun b hb => ?_) fun b rest' he => ?_
      · cases hb
        exact h.tasks i _ a ht rfl
      · cases he
        exact hrest
    · have hrest := h.rest i a _ ht
      rw [firstUsable, List.findSome?_cons_of_isSome (by rw [hu]; rfl), hu] at hrest
      have hgiven := h.tasks i _ a ht rfl
      have hset : Inv env (s.setTask i .finished) :=
        h.setTask (fun a ha => by cases ha) fun a rest he => by cases he
      refine ⟨hset.current, fun j other b hj hb => ?_, hset.rest, fun b hb => ?_⟩
      · have := hset.tasks j other b hj hb
        exact ⟨this.le, this.eq, this.usable⟩
      · cases hb
        exact ⟨⟨hgiven.le, hgiven.eq, hgiven.usable⟩, hrest⟩

/-! ## An answer is on its way, or adopted -/

/-- A notification, a task or the adopted root carries an answer with `P`, or will ask for one. -/
inductive Live (P : Answer → Prop) (s : Net) : Prop where
  | notice (h : 0 < s.notices)
  | asking {i : ℕ} {task : Task} (ht : s.tasks[i]? = some task) (h : task = .spawned ∨ task = .waiting)
  | answered {i : ℕ} {task : Task} {a : Answer} (ht : s.tasks[i]? = some task)
      (h : task.answer? = some a) (hp : P a)
  | adopted {a : Answer} (h : s.adopted = some a) (hp : P a)

variable {P : Answer → Prop}

/-- Other tasks keep what is on its way. -/
theorem Live.setTask {i : ℕ} {old task : Task} (h : Live P s) (hi : s.tasks[i]? = some old)
    (hask : old = .spawned ∨ old = .waiting → Live P (s.setTask i task))
    (hans : ∀ a, old.answer? = some a → P a → Live P (s.setTask i task)) : Live P (s.setTask i task) := by
  rcases h with hn | @⟨j, other, hj, hother⟩ | @⟨j, other, a, hj, hother, hp⟩ | ⟨ha, hp⟩
  · exact .notice hn
  · by_cases hji : j = i
    · subst hji
      rw [hi, Option.some.injEq] at hj
      exact hask (hj ▸ hother)
    · exact .asking ((setTask_ne hji).trans hj) hother
  · by_cases hji : j = i
    · subst hji
      rw [hi, Option.some.injEq] at hj
      exact hans a (hj ▸ hother) hp
    · exact .answered ((setTask_ne hji).trans hj) hother hp
  · exact .adopted ha hp

/-- One step keeps it, where the current list has `P` and an adoption does not lose it. -/
theorem live_step (h : Live P s) (hinv : Inv env s) (hx : ∀ roots, x ≠ .change roots)
    (hnew : P ⟨s.version, s.roots⟩)
    (hkeep : ∀ (i : ℕ) (a b : Answer) (uri : String) (rest : List String), x = .move i →
      s.tasks[i]? = some (.trying a (uri :: rest)) → (usable env uri).isSome → s.adopted = some b →
      P b → P a)
    (hstep : step env false s x = some s') : Live P s' := by
  cases x with
  | change roots => exact absurd rfl (hx roots)
  | handle =>
    rw [step] at hstep
    split_ifs at hstep
    cases hstep
    exact .asking (i := s.tasks.length) (List.getElem?_concat_length) (.inl rfl)
  | move i =>
    rw [step, Option.bind_eq_some_iff] at hstep
    obtain ⟨task, ht, hstep⟩ := hstep
    rcases advance_cases hstep with ⟨rfl, rfl⟩ | ⟨rfl, rfl⟩ | ⟨a, rfl, rfl⟩ | ⟨a, rfl, rfl⟩ |
      ⟨a, uri, rest, rfl, hu, rfl⟩ | ⟨a, uri, rest, root, rfl, hu, rfl⟩
    · exact h.setTask ht (fun _ => .asking (setTask_self ht) (.inr rfl)) fun a ha => by cases ha
    · exact .answered (setTask_self ht) rfl hnew
    · refine h.setTask ht (fun hask => by rcases hask with hask | hask <;> cases hask) fun b hb hp => ?_
      cases hb
      exact .answered (setTask_self ht) rfl hp
    · -- a list with a usable directory is not used up
      have hsome := (hinv.tasks i _ a ht rfl).usable
      rw [← hinv.rest i a [] ht] at hsome
      cases hsome
    · refine h.setTask ht (fun hask => by rcases hask with hask | hask <;> cases hask) fun b hb hp => ?_
      cases hb
      exact .answered (setTask_self ht) rfl hp
    · have hsome : (usable env uri).isSome := by rw [hu]; rfl
      rcases h with hn | @⟨j, other, hj, hother⟩ | @⟨j, other, b, hj, hother, hp⟩ | @⟨b, hb, hp⟩
      · exact .notice hn
      · have hji : j ≠ i := by
          rintro rfl
          rw [ht, Option.some.injEq] at hj
          subst hj
          rcases hother with hother | hother <;> cases hother
        exact .asking ((setTask_ne hji).trans hj) hother
      · by_cases hji : j = i
        · subst hji
          rw [ht, Option.some.injEq] at hj
          subst hj
          cases hother
          exact .adopted rfl hp
        · exact .answered ((setTask_ne hji).trans hj) hother hp
      · exact .adopted rfl (hkeep i a b uri rest rfl ht hsome hb hp)

/-- When everything has come to rest, the answer is the one adopted. -/
theorem Live.quiet (h : Live P s) (hq : s.Quiet) : ∃ a, s.adopted = some a ∧ P a := by
  obtain ⟨hn, htasks⟩ := hq
  rcases h with hpos | @⟨i, task, ht, hask⟩ | @⟨i, task, a, ht, ha, hp⟩ | ⟨ha, hp⟩
  · omega
  · rw [htasks i task ht] at hask
    rcases hask with hask | hask <;> cases hask
  · rw [htasks i task ht] at ha
    cases ha
  · exact ⟨_, ha, hp⟩

/-! ## Runs -/

/-- Steps other than a change leave the client's list as it is. -/
theorem step_version (hx : ∀ roots, x ≠ .change roots) (hstep : step env false s x = some s') :
    s'.version = s.version := by
  cases x with
  | change roots => exact absurd rfl (hx roots)
  | handle =>
    rw [step] at hstep
    split_ifs at hstep
    cases hstep; rfl
  | move i =>
    rw [step, Option.bind_eq_some_iff] at hstep
    obtain ⟨task, -, hstep⟩ := hstep
    rcases advance_cases hstep with ⟨-, rfl⟩ | ⟨-, rfl⟩ | ⟨a, -, rfl⟩ | ⟨a, -, rfl⟩ |
      ⟨a, uri, rest, -, -, rfl⟩ | ⟨a, uri, rest, root, -, -, rfl⟩ <;> rfl

/-- The newest list is on its way or adopted, as long as answers are adopted in order. -/
theorem latest_step (h : Live (·.version = s.version) s) (hinv : Inv env s)
    (horder : InOrder env s x) (hstep : step env false s x = some s') :
    Live (·.version = s'.version) s' := by
  by_cases hx : ∃ roots, x = .change roots
  · obtain ⟨roots, rfl⟩ := hx
    cases hstep
    exact .notice (Nat.succ_pos _)
  · rw [not_exists] at hx
    rw [step_version hx hstep]
    refine live_step h hinv hx rfl (fun i a b uri rest hi ht hu hb hp => ?_) hstep
    have hle := (hinv.tasks i _ a ht rfl).le
    have hba := horder i a b uri rest hi ht hu hb
    omega

/-- Some list is on its way or adopted. -/
theorem some_step (h : Live (fun _ => True) s) (hinv : Inv env s)
    (hstep : step env false s x = some s') : Live (fun _ => True) s' := by
  by_cases hx : ∃ roots, x = .change roots
  · obtain ⟨roots, rfl⟩ := hx
    cases hstep
    exact .notice (Nat.succ_pos _)
  · exact live_step h hinv (not_exists.1 hx) trivial (fun _ _ _ _ _ _ _ _ _ _ => trivial) hstep

theorem live_start {root : PathBuf} {roots : List String} : Live P (start root roots) :=
  .notice Nat.one_pos

/-- **The root of a server and the client's roots**: a pinned root stays. Any other is, once all has
    come to rest, the first usable root of a list the client has had, and of the list it has when the
    answers were adopted in the order in which they were given. -/
theorem root_converges {root : PathBuf} {roots : List String} {actions : List Action}
    (hroots : (firstUsable env roots).isSome) (hlists : ∀ x ∈ actions, Usable env x)
    (hruns : runs (step env pinned) (start root roots) actions = some s) :
    (pinned = true → s.root = root) ∧
    (pinned = false → s.Quiet →
      (∃ a, s.adopted = some a ∧ some s.root = firstUsable env a.roots) ∧
      (Along (step env pinned) (InOrder env) (start root roots) actions →
        some s.root = firstUsable env s.roots)) := by
  refine ⟨?_, ?_⟩
  · rintro rfl
    exact runs_pinned hruns
  · rintro rfl hq
    have hgood : Along (step env false) (fun _ x => Usable env x) (start root roots) actions :=
      along_of_forall fun _ x hx => hlists x hx
    have hinv : Inv env (start root roots) := inv_start hroots
    refine ⟨?_, ?_⟩
    · obtain ⟨hlive, hinv'⟩ := runs_keep (M := fun s => Live (fun _ => True) s ∧ Inv env s)
        (fun _ _ _ hm hu hx => ⟨some_step hm.1 hm.2 hx, inv_step hm.2 hu hx⟩)
        ⟨live_start, hinv⟩ hgood hruns
      obtain ⟨a, ha, -⟩ := hlive.quiet hq
      exact ⟨a, ha, (hinv'.adopted a ha).2⟩
    · intro horder
      obtain ⟨hlive, hinv'⟩ := runs_keep (M := fun s => Live (·.version = s.version) s ∧ Inv env s)
        (fun _ _ _ hm hu hx => ⟨latest_step hm.1 hm.2 hu.2 hx, inv_step hm.2 hu.1 hx⟩)
        ⟨live_start, hinv⟩ (hgood.and horder) hruns
      obtain ⟨a, ha, hv⟩ := hlive.quiet hq
      obtain ⟨hgiven, hroot⟩ := hinv'.adopted a ha
      rw [hroot, hgiven.eq hv]

/-! ## Two tasks at once -/

theorem quiet_iff : s.Quiet ↔ s.notices = 0 ∧ ∀ task ∈ s.tasks, task = .finished := by
  rw [Net.Quiet]
  constructor
  · rintro ⟨hn, h⟩
    refine ⟨hn, fun task ht => ?_⟩
    obtain ⟨i, hi⟩ := List.mem_iff_getElem?.1 ht
    exact h i task hi
  · rintro ⟨hn, h⟩
    exact ⟨hn, fun i task ht => h task (List.mem_of_getElem? ht)⟩

/-- A file system in which every path is a directory, and nothing to decode. -/
def flat : Env := ⟨some, some, fun _ => true⟩

theorem usable_change {roots : List String} (h : (firstUsable env roots).isSome) :
    Usable env (.change roots) := by
  rintro _ ⟨⟩
  exact h

theorem usable_other (h : ∀ roots, x ≠ .change roots) : Usable env x := fun roots he => absurd he (h roots)

/-- The first task finishes before the client changes its roots. -/
def inTurn : List Action :=
  [.handle, .move 0, .move 0, .move 0, .move 0, .change ["file:///b"], .handle, .move 1, .move 1, .move 1,
    .move 1]

theorem usable_inTurn : ∀ x ∈ inTurn, Usable flat x := by
  intro x hx
  by_cases hc : ∃ roots, x = .change roots
  · obtain ⟨roots, rfl⟩ := hc
    simp only [inTurn, List.mem_cons, Action.change.injEq, reduceCtorEq, false_or, List.not_mem_nil,
      or_false] at hx
    subst hx
    exact usable_change (by decide)
  · exact usable_other (not_exists.1 hc)

theorem inOrder_unadopted (h : s.adopted = none) : InOrder env s x := by
  intro i a b uri rest _ _ _ hb
  rw [h] at hb
  cases hb

theorem inOrder_other (h : ∀ i a uri rest, x = .move i → s.tasks[i]? ≠ some (.trying a (uri :: rest))) :
    InOrder env s x := fun i a _ uri rest hi ht => absurd ht (h i a uri rest hi)

theorem inOrder_inTurn :
    Along (step flat false) (InOrder flat) (start ["w"] ["file:///a"]) inTurn := by
  refine along_cons (inOrder_unadopted rfl) rfl <| along_cons (inOrder_unadopted rfl) rfl <|
    along_cons (inOrder_unadopted rfl) rfl <| along_cons (inOrder_unadopted rfl) rfl <|
    along_cons (inOrder_unadopted rfl) rfl <| ?_
  -- the first root is adopted; the second task asks anew
  refine along_cons (inOrder_other ?_) rfl <| along_cons (inOrder_other ?_) rfl <|
    along_cons (inOrder_other ?_) rfl <| along_cons (inOrder_other ?_) rfl <|
    along_cons (inOrder_other ?_) rfl <| along_cons ?_ rfl trivial
  · rintro i a uri rest ⟨⟩
  · rintro i a uri rest ⟨⟩
  · rintro i a uri rest ⟨⟩ ⟨⟩
  · rintro i a uri rest ⟨⟩ ⟨⟩
  · rintro i a uri rest ⟨⟩ ⟨⟩
  · rintro i a b uri rest ⟨⟩ ⟨⟩ _ ⟨⟩
    decide

theorem root_converges_inTurn : ∃ s, runs (step flat false) (start ["w"] ["file:///a"]) inTurn = some s ∧
    s.Quiet ∧ some s.root = firstUsable flat s.roots ∧ s.root = ["b"] := by
  have hruns : runs (step flat false) (start ["w"] ["file:///a"]) inTurn = some
      ⟨["file:///b"], 1, 0, [.finished, .finished], ["b"], some ⟨1, ["file:///b"]⟩⟩ := by decide
  have hquiet : (⟨["file:///b"], 1, 0, [.finished, .finished], ["b"],
      some ⟨1, ["file:///b"]⟩⟩ : Net).Quiet := quiet_iff.2 ⟨rfl, by decide⟩
  have h := (root_converges (by decide) usable_inTurn hruns).2 rfl hquiet
  exact ⟨_, hruns, hquiet, h.2 inOrder_inTurn, rfl⟩

/-- The first task is answered before the client changes its roots, and goes on after the second has
    finished. -/
def overtaken : List Action :=
  [.handle, .move 0, .move 0, .move 0, .change ["file:///b"], .handle, .move 1, .move 1, .move 1, .move 1,
    .move 0]

theorem root_overtaken : (firstUsable flat ["file:///a"]).isSome ∧ (∀ x ∈ overtaken, Usable flat x) ∧
    ∃ s, runs (step flat false) (start ["w"] ["file:///a"]) overtaken = some s ∧ s.Quiet ∧
      firstUsable flat s.roots = some ["b"] ∧ s.root = ["a"] := by
  refine ⟨by decide, fun x hx => ?_, ⟨["file:///b"], 1, 0, [.finished, .finished], ["a"],
    some ⟨0, ["file:///a"]⟩⟩, by decide, quiet_iff.2 ⟨rfl, by decide⟩, by decide, rfl⟩
  by_cases hc : ∃ roots, x = .change roots
  · obtain ⟨roots, rfl⟩ := hc
    simp only [overtaken, List.mem_cons, Action.change.injEq, reduceCtorEq, false_or, List.not_mem_nil,
      or_false] at hx
    subst hx
    exact usable_change (by decide)
  · exact usable_other (not_exists.1 hc)

end Hashline.Roots
