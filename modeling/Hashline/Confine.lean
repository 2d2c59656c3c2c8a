/-
  Confinement to the workspace root: what `--restrict` checks of a path, and
  where the path leads in a tree with symbolic links.
-/
import Hashline.Lib.Links
import Hashline.Mutate

namespace Hashline

variable {h : Host}

/-! ## The operating system's answers -/

/-- The place a path names in a tree, through `limit` links at most. -/
def PathBuf.place (path : PathBuf) (t : FileTree) (limit : ℕ) : Option (List String) :=
  t.find limit path.components path.slashed

/-- A machine over a tree that does not change. -/
def ofTree (t : FileTree) (limit : ℕ) : Rules h := fun _ c x =>
  match c with
  | .pathExists path => x.flag == (path.place t limit).isSome
  | .canonicalize path => match path.place t limit with
    | some place => x.fault == none && x.path == place
    | none => x.fault.isSome
  | _ => true

namespace Confine

/-- The names of the deepest ancestor that is found, and its place. Only the path itself may have a
    slash behind it, and then what is found there without the slash is no directory. -/
structure Deepest (t : FileTree) (limit : ℕ) (path : PathBuf) (existing place : List String) :
    Prop where
  pre : existing <+: path.components
  found : t.lookup limit [] existing = some place
  whole : existing = path.components → path.slashed = true → t.object place = some .directory
  next : ∀ name rest, path.components = existing ++ name :: rest →
    ∀ dst, t.lookup limit [] (existing ++ [name]) = some dst →
      rest = [] ∧ path.slashed = true ∧ t.object dst ≠ some .directory

/-- What the check lets pass. -/
def Accepts (t : FileTree) (limit : ℕ) (root path : PathBuf) : Prop :=
  ".." ∉ path.components ∧
    ∃ existing place, Deepest t limit path existing place ∧ root.components <+: place

/-- From a place, the names lead under `root`, and all but the last of them do; the root itself may be
    named. -/
structure Under (t : FileTree) (root place names : List String) : Prop where
  path : ∀ dst, t.Leads place names dst → root <+: dst
  parent : ∀ above name, names = above ++ [name] → ∀ dst, t.Leads place above dst →
    root <+: dst ∨ dst ++ [name] = root

/-- The path leads under the root, and so does its parent, unless it names the root itself. -/
def Inside (t : FileTree) (root path : PathBuf) : Prop :=
  Under t root.components [] path.components

/-- Where a link that the operating system does not follow leads in the end: to nothing, and then the
    names behind it stay under the root; or to what is found only behind more links than it follows
    or behind a `..` from nowhere, from where they lead on. -/
structure Dangles (t : FileTree) (root place rest dst : List String) : Prop where
  missing : t.object dst = none → root <+: dst ++ rest
  there : t.object dst ≠ none → Under t root dst rest

/-- No link is in the way: neither the first name that is not found, nor, where the whole path is
    found, its last name. -/
def Confinable (t : FileTree) (limit : ℕ) (root path : PathBuf) : Prop :=
  ".." ∈ path.components ∨ ∀ existing place target, Deepest t limit path existing place →
    root.components <+: place →
    (∀ name rest, path.components = existing ++ name :: rest →
      t.object (place ++ [name]) = some (.link target) →
        ∀ dst, t.Leads place [name] dst → Dangles t root.components place rest dst) ∧
    (∀ above name dir, path.components = above ++ [name] → existing = path.components →
      t.lookup limit [] above = some dir → t.object (dir ++ [name]) = some (.link target) →
        root.components <+: dir ∨ dir ++ [name] = root.components)

section
variable {t : FileTree} {limit : ℕ} {root path : PathBuf}

theorem Deepest.unique {existing existing' place place' : List String}
    (hd : Deepest t limit path existing place) (hd' : Deepest t limit path existing' place') :
    existing = existing' ∧ place = place' := by
  have main : ∀ {a b p q : List String}, Deepest t limit path a p → Deepest t limit path b q →
      a <+: b → a = b := by
    rintro a b p q ha hb ⟨more, rfl⟩
    cases more with
    | nil => rw [List.append_nil]
    | cons name more =>
      -- the longer one is found, and so is the next name of the shorter one
      obtain ⟨rest, hrest⟩ := hb.pre
      have hsome := hb.found
      rw [show a ++ name :: more = a ++ [name] ++ more by simp] at hsome
      obtain ⟨mid, hmid⟩ := FileTree.lookup_initial hsome
      obtain ⟨hnil, hslash, hno⟩ := ha.next name (more ++ rest) (by rw [← hrest]; simp) mid hmid
      obtain ⟨rfl, rfl⟩ := List.append_eq_nil_iff.1 hnil
      rw [List.append_nil] at hsome hrest
      rw [hmid] at hsome
      obtain rfl := Option.some.inj hsome
      exact absurd (hb.whole hrest hslash) hno
  have heq : existing = existing' := by
    rcases List.prefix_or_prefix_of_prefix hd.pre hd'.pre with h | h
    · exact main hd hd' h
    · exact (main hd' hd h).symm
  subst heq
  exact ⟨rfl, Option.some.inj (hd.found.symm.trans hd'.found)⟩

/-- What is found is its own deepest ancestor. -/
theorem deepest_of_place {place : List String} (hfound : path.place t limit = some place) :
    Deepest t limit path path.components place where
  pre := List.prefix_rfl
  found := (FileTree.find_eq_some.1 hfound).1
  whole _ := (FileTree.find_eq_some.1 hfound).2
  next name rest heq := by
    have hlen := congrArg List.length heq
    rw [List.length_append, List.length_cons] at hlen
    omega

/-! ## What the check decides -/

/-- Where a path is not found, its deepest ancestor is that of its parent. -/
theorem Deepest.of_parent {parent : PathBuf} {existing place : List String}
    (hp : path.parent = some parent) (hnone : path.place t limit = none)
    (hd : Deepest t limit parent existing place) : Deepest t limit path existing place := by
  obtain ⟨⟨last, -, hlast⟩, hslash, -⟩ := PathBuf.parent_eq_some hp
  refine ⟨hd.pre.trans (hlast ▸ List.prefix_append _ _), hd.found, fun he => ?_, ?_⟩
  · have hlen := hd.pre.length_le
    rw [he, hlast, List.length_append, List.length_singleton] at hlen
    omega
  · intro name rest heq dst hdst
    rcases List.eq_nil_or_concat' rest with rfl | ⟨more, last', rfl⟩
    · rw [← heq] at hdst
      by_contra hno
      have hplace : path.place t limit = some dst := FileTree.find_eq_some.2
        ⟨hdst, fun hs => by_contra fun hdir => hno ⟨rfl, hs, hdir⟩⟩
      rw [hnone] at hplace
      cases hplace
    · rw [hlast, ← List.cons_append, ← List.append_assoc] at heq
      obtain ⟨-, hs, -⟩ := hd.next name more (List.append_inj' heq rfl).1 dst hdst
      rw [hslash] at hs
      cases hs

variable {who : ℕ} {s : State h}

theorem existingAncestor_spec {n : ℕ} (hn : path.length < n) :
    (existingAncestor n path : Op h String PathBuf).wp (step (ofTree t limit) who)
      (fun r _ => ∃ existing place, r = .ok existing ∧ PathBuf.place existing t limit = some place ∧
        Deepest t limit path (PathBuf.components existing) place) s := by
  induction n generalizing path s with
  | zero => omega
  | succ n ih =>
    refine wp_call fun x w a s' hr hw ha ht => ?_
    have hflag : x.flag = (path.place t limit).isSome := by simpa [ofTree] using hr
    cases ha
    rw [hflag]
    rcases hl : path.place t limit with _ | place
    · rw [if_neg (by decide)]
      rcases hp : path.parent with _ | parent
      · -- the root of the tree is there
        have hroot : path.place t limit = some [] := FileTree.find_eq_some.2
          ⟨by rw [PathBuf.parent_eq_none.1 hp]; cases limit <;> rfl, fun _ => t.root⟩
        rw [hl] at hroot
        cases hroot
      · have hlen := (PathBuf.parent_eq_some hp).2.2
        refine Proc.wp_mono (ih (by omega)) fun r _ hq => ?_
        obtain ⟨existing, place, rfl, hplace, hdeep⟩ := hq
        exact ⟨existing, place, rfl, hplace, hdeep.of_parent hp hl⟩
    · rw [if_pos Option.isSome_some]
      exact ⟨path, place, rfl, hl, deepest_of_place hl⟩

theorem confineToRoot_spec : (confineToRoot root path : Op h String Unit).wp (step (ofTree t limit) who)
    (fun r _ => r = .ok () ∧ Accepts t limit root path ∨
      (∃ e, r = Exec.fail e) ∧ ¬Accepts t limit root path) s := by
  unfold confineToRoot
  split_ifs with hup
  · exact .inr ⟨⟨_, rfl⟩, fun h => h.1 hup⟩
  · refine Proc.wp_bind_of (existingAncestor_spec (Nat.lt_succ_self _)) ?_ ?_
    · rintro existing s' ⟨_, place, he, hplace, hdeep⟩
      cases he
      refine wp_call fun x w a s' hr hw ha ht => ?_
      have hx : x.fault = none ∧ x.path = place := by simpa [ofTree, hplace] using hr
      rcases Choice.fallible_eq_some.1 ha with ⟨e, he, -⟩ | ⟨-, ha⟩
      · rw [hx.1] at he; cases he
      · cases ha
        rw [hx.2, Proc.orElse_ok]
        show Proc.wp _ (if root.components.isPrefixOf place then _ else _) _ _
        split_ifs with hp
        · exact .inl ⟨rfl, hup, _, place, hdeep, List.isPrefixOf_iff_prefix.1 hp⟩
        · refine .inr ⟨⟨_, rfl⟩, fun hacc => hp ?_⟩
          obtain ⟨-, existing', place', hdeep', hpre⟩ := hacc
          rw [(hdeep.unique hdeep').2]
          exact List.isPrefixOf_iff_prefix.2 hpre
    · rintro e s' ⟨_, _, he, -⟩; cases he

theorem resolve_spec (durability : Durability) (name : String) :
    (Workspace.resolve ⟨root, true, durability⟩ name : Op h String PathBuf).wp
      (step (ofTree t limit) who)
      (fun r _ => r = .ok (resolvePath root name) ∧ Accepts t limit root (resolvePath root name) ∨
        (∃ e, r = Exec.fail e) ∧ ¬Accepts t limit root (resolvePath root name)) s := by
  unfold Workspace.resolve
  simp only [if_true]
  refine Proc.wp_bind.2 (Proc.wp_mapErr.2 (Proc.wp_mono confineToRoot_spec fun r s' hr => ?_))
  rcases hr with ⟨rfl, hacc⟩ | ⟨⟨e, rfl⟩, hno⟩
  · exact .inl ⟨rfl, hacc⟩
  · exact .inr ⟨⟨_, rfl⟩, hno⟩

theorem all_existingAncestor (n : ℕ) (path : PathBuf) :
    (existingAncestor n path : Op h String PathBuf).All
      fun c => (∃ p, c = .pathExists p) ∨ ∃ p, c = .canonicalize p := by
  induction n generalizing path with
  | zero => exact Proc.all_fail _
  | succ n ih =>
    refine Proc.All.bind (Proc.all_ask (.inl ⟨path, rfl⟩)) fun a => ?_
    cases a
    · rcases path.parent with _ | parent
      · exact Proc.all_fail _
      · exact ih parent
    · exact Proc.all_pure _

theorem all_resolve (workspace : Workspace) (name : String) :
    (workspace.resolve name : Op h String PathBuf).All
      fun c => (∃ p, c = .pathExists p) ∨ ∃ p, c = .canonicalize p := by
  unfold Workspace.resolve
  simp only
  split_ifs
  · refine Proc.All.bind (Proc.All.mapErr ?_ _) fun _ => Proc.all_pure _
    unfold confineToRoot
    split_ifs
    · exact Proc.all_fail _
    · refine Proc.All.bind (all_existingAncestor _ _) fun existing => ?_
      refine Proc.All.bind (Proc.all_ask (.inr ⟨existing, rfl⟩)) fun r => ?_
      refine Proc.All.bind (Proc.all_orElse _ _) fun canon => ?_
      split_ifs
      · exact Proc.all_pure _
      · exact Proc.all_fail _
  · exact Proc.all_pure _

/-- The machine answers every check. -/
theorem ofTree_answers (c : Call h) (s : State h)
    (hc : (∃ p, c = .pathExists p) ∨ ∃ p, c = .canonicalize p) :
    ∃ x r s', step (ofTree t limit) who x c s = some (r, s') := by
  rcases hc with ⟨p, rfl⟩ | ⟨p, rfl⟩
  · exact ⟨{ flag := (p.place t limit).isSome }, _, _, by
      rw [step, if_pos (by simp [ofTree])]; rfl⟩
  · rcases hl : p.place t limit with _ | place
    · exact ⟨{ fault := some .noSuchFile }, _, _, by
        rw [step, if_pos (by simp [ofTree, hl])]; rfl⟩
    · exact ⟨{ path := place }, _, _, by
        rw [step, if_pos (by simp [ofTree, hl])]; rfl⟩

/-- What passes is resolved, in some run. -/
theorem exists_resolve (durability : Durability) (name : String) (who : ℕ) (s : State h)
    (hacc : Accepts t limit root (resolvePath root name)) : ∃ xs s',
      Prog.runs (step (ofTree t limit) who) xs (Workspace.resolve ⟨root, true, durability⟩ name, s) =
        some (.ret (.ok (resolvePath root name)), s') := by
  obtain ⟨xs, r, s', hr⟩ := Prog.exists_run ofTree_answers
    (all_resolve (h := h) ⟨root, true, durability⟩ name) s
  rcases Proc.wp_runs (resolve_spec durability name) hr with ⟨rfl, -⟩ | ⟨-, hno⟩
  · exact ⟨xs, s', hr⟩
  · exact absurd hacc hno

/-! ## Where accepted paths lead -/

/-- Beyond the last place that is found, where no link stands, a path leads on by its names. -/
theorem leads_beyond {place : List String} {name : String} {rest names : List String}
    (hnone : t.object (place ++ [name]) = none) (hup : ".." ∉ name :: rest)
    (hn : names <+: name :: rest) : t.Leads place names (place ++ names) := by
  rcases names with _ | ⟨n, names⟩
  · rw [List.append_nil]; exact .here _
  · obtain ⟨rfl, hrest⟩ := List.cons_prefix_cons.1 hn
    rw [List.mem_cons, not_or] at hup
    refine .down (Ne.symm hup.1) (fun target hl => by rw [hnone] at hl; cases hl) ?_
    rw [show place ++ n :: names = place ++ [n] ++ names by simp]
    exact FileTree.leads_missing hnone fun hm => hup.2 (hrest.subset hm)

/-- Under the root, names that no link follows stay there. -/
theorem under_of_missing {root place : List String} {name : String} {rest : List String}
    (hnone : t.object (place ++ [name]) = none) (hup : ".." ∉ name :: rest) (hroot : root <+: place) :
    Under t root place (name :: rest) := by
  have hall : ∀ names, names <+: name :: rest → ∀ dst, t.Leads place names dst → root <+: dst := by
    intro names hn dst hdst
    rw [hdst.unique (leads_beyond hnone hup hn)]
    exact hroot.trans (List.prefix_append _ _)
  refine ⟨hall _ List.prefix_rfl, fun above last heq dst hdst => .inl ?_⟩
  exact hall above (heq ▸ List.prefix_append _ _) dst hdst

/-- And behind a name that leads to nothing. -/
theorem under_of_nothing {root dst rest : List String} (hnone : t.object dst = none)
    (hup : ".." ∉ rest) (hroot : root <+: dst ++ rest) : Under t root dst rest := by
  refine ⟨fun end_ hend => ?_, fun above last heq end_ hend => ?_⟩
  · rwa [hend.unique (FileTree.leads_missing hnone hup)]
  · subst heq
    rw [List.mem_append, not_or] at hup
    rw [hend.unique (FileTree.leads_missing hnone hup.1)]
    rw [← List.append_assoc] at hroot
    rcases List.prefix_concat_iff.1 hroot with he | hpre
    · exact .inr he.symm
    · exact .inl hpre

theorem under_nil {root place : List String} (hroot : root <+: place) : Under t root place [] :=
  ⟨fun dst hdst => by cases hdst; exact hroot, fun above name he => by simp at he⟩

/-- From a place under the root, a name may lead to where the others stay under it. -/
theorem under_cons {root place : List String} {name : String} {rest : List String}
    (hroot : root <+: place) (hu : ∀ dst, t.Leads place [name] dst → Under t root dst rest) :
    Under t root place (name :: rest) := by
  refine ⟨fun end_ hend => ?_, fun above last heq dir hdir => ?_⟩
  · obtain ⟨mid, hmid, hrest⟩ := hend.split (show name :: rest = [name] ++ rest from rfl)
    exact (hu mid hmid).path end_ hrest
  · rcases List.append_eq_cons_iff.1 heq.symm with ⟨rfl, -⟩ | ⟨more, rfl, hmore⟩
    · cases hdir
      exact .inl hroot
    · obtain ⟨mid, hmid, hrest⟩ := hdir.split (show name :: more = [name] ++ more from rfl)
      exact (hu mid hmid).parent more last hmore dir hrest

/-- What is no link leads to itself. -/
theorem leads_one {place : List String} {name : String} {rest : List String} {o : FileObject}
    (ho : t.object (place ++ [name]) = some o) (hl : ∀ target, o ≠ .link target)
    (hup : ".." ∉ name :: rest) : t.Leads place [name] (place ++ [name]) :=
  .down (fun he => hup (he ▸ List.mem_cons_self))
    (fun target he => hl target (Option.some.inj (ho.symm.trans he))) (.here _)

/-- Behind names that lead to a place, the others lead on from there. -/
theorem Under.of_append {root place dst names rest : List String} (hl : t.Leads place names dst)
    (hne : rest ≠ []) (hu : Under t root dst rest) : Under t root place (names ++ rest) := by
  refine ⟨fun end_ hend => ?_, fun above last heq dir hdir => ?_⟩
  · obtain ⟨mid, hmid, hrest⟩ := hend.split rfl
    rw [hmid.unique hl] at hrest
    exact hu.path end_ hrest
  · obtain ⟨more, last', rfl⟩ := (List.eq_nil_or_concat' rest).resolve_left hne
    rw [← List.append_assoc] at heq
    obtain ⟨rfl, hlast⟩ := List.append_inj' heq rfl
    cases hlast
    obtain ⟨mid, hmid, hmore⟩ := hdir.split rfl
    rw [hmid.unique hl] at hmore
    exact hu.parent more last rfl dir hmore

/-- And what leads on from there leads under the root as the whole does. -/
theorem Under.right {root place dst names rest : List String} (hl : t.Leads place names dst)
    (hu : Under t root place (names ++ rest)) : Under t root dst rest := by
  refine ⟨fun end_ hend => hu.path end_ (hl.append hend), fun above last heq dir hdir => ?_⟩
  exact hu.parent (names ++ above) last (by rw [heq, List.append_assoc]) dir (hl.append hdir)

theorem inside_of_accepts (hacc : Accepts t limit root path) (hc : Confinable t limit root path) :
    Inside t root path := by
  obtain ⟨hup, existing, place, hdeep, hroot⟩ := hacc
  have hlink := fun target => hc.resolve_left hup existing place target hdeep hroot
  have hleads := FileTree.Leads.of_lookup hdeep.found
  obtain ⟨more, hmore⟩ := hdeep.pre
  unfold Inside
  rcases more with _ | ⟨name, rest⟩
  · -- the whole path is found
    rw [List.append_nil] at hmore
    subst hmore
    refine ⟨fun dst hdst => by rwa [hdst.unique hleads], fun above name habove dir hdir => ?_⟩
    obtain ⟨mid, hmid⟩ := FileTree.lookup_initial (habove ▸ hdeep.found)
    obtain rfl := hdir.unique (.of_lookup hmid)
    obtain ⟨mid', hq, hname⟩ := hleads.split habove
    obtain rfl := hq.unique hdir
    cases hname with
    | up _ => exact absurd (habove ▸ List.mem_append_right _ List.mem_cons_self) hup
    | down _ _ hend =>
      cases hend
      rcases List.prefix_concat_iff.1 hroot with he | hpre
      · exact .inr he.symm
      · exact .inl hpre
    | follow ho _ => exact (hlink _).2 above name _ habove rfl hmid ho
  · rw [← hmore] at hup ⊢
    have hup' : ".." ∉ name :: rest := fun hm => hup (List.mem_append_right _ hm)
    have hrest : ".." ∉ rest := fun hm => hup' (List.mem_cons_of_mem _ hm)
    refine Under.of_append hleads (List.cons_ne_nil _ _) ?_
    rcases ho : t.object (place ++ [name]) with _ | o
    · exact under_of_missing ho hup' hroot
    · refine under_cons hroot fun dst hdst => ?_
      cases o with
      | link target =>
        have hd := (hlink target).1 name rest hmore.symm ho dst hdst
        by_cases hnone : t.object dst = none
        · exact under_of_nothing hnone hrest (hd.missing hnone)
        · exact hd.there hnone
      | directory =>
        have hname := FileTree.lookup_snoc hdeep.found ho (fun _ => by simp)
        exact absurd ho (hdeep.next name rest hmore.symm _ hname).2.2
      | file =>
        have hname := FileTree.lookup_snoc hdeep.found ho (fun _ => by simp)
        obtain ⟨rfl, -, -⟩ := hdeep.next name rest hmore.symm _ hname
        rw [hdst.unique (leads_one ho (fun _ => by simp) hup')]
        exact under_nil (hroot.trans (List.prefix_append _ _))

end

/-- In the root `/w`, `l` is a link to `/out/x`, where there is nothing yet. -/
def danglingObject (place : List String) : Option FileObject :=
  if place ∈ [[], ["w"], ["out"]] then some .directory
  else if place = ["w", "l"] then some (.link ⟨true, ["out", "x"]⟩)
  else none

def danglingTree : FileTree where
  object := danglingObject
  root := by decide
  parent place name h := by
    have hmem : place ++ [name] ∈ [[], ["w"], ["out"], ["w", "l"]] := by
      by_contra hno
      simp only [List.mem_cons, List.not_mem_nil, or_false, not_or] at hno
      simp [danglingObject, hno] at h
    simp only [List.mem_cons, List.not_mem_nil, or_false] at hmem
    rcases hmem with h | h | h | h
    · simp at h
    · obtain ⟨rfl, -⟩ := List.append_inj' (show place ++ [name] = [] ++ ["w"] from h) rfl; rfl
    · obtain ⟨rfl, -⟩ := List.append_inj' (show place ++ [name] = [] ++ ["out"] from h) rfl; rfl
    · obtain ⟨rfl, -⟩ := List.append_inj' (show place ++ [name] = ["w"] ++ ["l"] from h) rfl; rfl
  names place := by
    have hno : place ++ [".."] ∉ [[], ["w"], ["out"], ["w", "l"]] := by
      intro hmem
      simp only [List.mem_cons, List.not_mem_nil, or_false] at hmem
      rcases hmem with h | h | h | h <;>
        exact absurd (congrArg List.getLast? h) (by simp)
    simp only [List.mem_cons, List.not_mem_nil, or_false, not_or] at hno
    simp [danglingObject, hno]

end Confine

end Hashline
