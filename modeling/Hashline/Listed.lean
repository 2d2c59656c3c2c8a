/-
  What a listing lists: the newest files first, in whatever order the walk
  found them, by paths that lead back to them.
-/
import Hashline.Confine
import Hashline.Lossless
import Hashline.Tools

namespace Hashline

variable {h : Host}

/-! ## The order -/

/-- Newer, or as new and with the lesser path, byte by byte. -/
def GlobEntry.Before (a b : GlobEntry) : Prop :=
  b.modified < a.modified ∨ a.modified = b.modified ∧ utf8 a.path < utf8 b.path

/-- What entries are sorted by. -/
def GlobEntry.key (entry : GlobEntry) : ℤ ×ₗ List ℕ :=
  toLex (-entry.modified, (utf8 entry.path).map UInt8.toNat)

theorem map_toNat_lt {xs ys : Bytes} : xs.map UInt8.toNat < ys.map UInt8.toNat ↔ xs < ys := by
  induction xs generalizing ys with
  | nil => cases ys <;> simp
  | cons x xs ih =>
    cases ys with
    | nil => simp
    | cons y ys =>
      rw [List.map_cons, List.map_cons, List.cons_lt_cons_iff, List.cons_lt_cons_iff, ih,
        UInt8.toNat_inj, UInt8.lt_iff_toNat_lt]

theorem GlobEntry.before_iff {a b : GlobEntry} : a.Before b ↔ a.key < b.key := by
  rw [key, key, Prod.Lex.toLex_lt_toLex, neg_lt_neg_iff, neg_inj, map_toNat_lt, Before]

theorem GlobEntry.path_of_key {a b : GlobEntry} (hkey : a.key = b.key) : a.path = b.path := by
  have hbytes := (Prod.mk.inj (toLex.injective hkey)).2
  exact utf8_inj (List.map_injective_iff.2 (fun _ _ => UInt8.toNat_inj.1) hbytes)

section
variable {entries entries' : List GlobEntry} (hpaths : (entries.map GlobEntry.path).Nodup)
include hpaths

theorem nodup_keys : (entries.map GlobEntry.key).Nodup := by
  rw [List.Nodup, List.pairwise_map] at hpaths ⊢
  exact hpaths.imp fun hne hkey => hne (GlobEntry.path_of_key hkey)

/-- The order of the walk is not seen. -/
theorem listing_congr (hperm : entries'.Perm entries) (maxResults : ℕ) :
    listing entries' maxResults = listing entries maxResults := by
  have hsort : sortReferenceGlobEntries entries' = sortReferenceGlobEntries entries :=
    sortByKey_congr (nodup_keys hpaths) hperm
  rw [listing, listing, hsort, hperm.length_eq]

theorem sorted_before : (sortReferenceGlobEntries entries).Pairwise GlobEntry.Before :=
  (sortByKey_pairwise (nodup_keys hpaths)).imp fun hlt => GlobEntry.before_iff.2 hlt

end

/-- What is in order stays as it is. -/
theorem sort_of_before {entries : List GlobEntry} (h : entries.Pairwise GlobEntry.Before) :
    sortReferenceGlobEntries entries = entries := by
  have hlt : entries.Pairwise fun a b => a.key < b.key := h.imp GlobEntry.before_iff.1
  have hkeys : (entries.map GlobEntry.key).Nodup := List.pairwise_map.2 (hlt.imp ne_of_lt)
  exact eq_of_sorted GlobEntry.key (sortByKey_pairwise hkeys) hlt (sortByKey_perm _ _)

/-- **A listing is determined by the set of files**: the first of them in the order, up to the cap. -/
theorem listing_deterministic {entries entries' : List GlobEntry}
    (hpaths : (entries.map GlobEntry.path).Nodup) (hpaths' : (entries'.map GlobEntry.path).Nodup)
    (hsame : ∀ e, e ∈ entries' ↔ e ∈ entries) (maxResults : ℕ) :
    (listing entries' maxResults).render = (listing entries maxResults).render ∧
    (∃ sorted : List GlobEntry, sorted.Perm entries ∧ sorted.Pairwise GlobEntry.Before ∧
      (∀ other : List GlobEntry, other.Perm entries → other.Pairwise GlobEntry.Before → other = sorted) ∧
      (listing entries maxResults).entries = sorted.take (min entries.length maxResults)) ∧
    (∀ a ∈ (listing entries maxResults).entries, ∀ b ∈ entries,
      b ∉ (listing entries maxResults).entries → a.Before b) ∧
    ((listing entries maxResults).summary.truncated = true ↔ maxResults < entries.length) := by
  have hperm : entries'.Perm entries :=
    (List.perm_ext_iff_of_nodup (.of_map _ hpaths') (.of_map _ hpaths)).2 hsame
  have hsorted := sorted_before hpaths
  have hentries : (sortReferenceGlobEntries entries).Perm entries := sortByKey_perm _ _
  have hlisted : (listing entries maxResults).entries =
    (sortReferenceGlobEntries entries).take maxResults := rfl
  refine ⟨by rw [listing_congr hpaths hperm], ⟨_, hentries, hsorted, ?_, ?_⟩, ?_, ?_⟩
  · intro other hother hbefore
    exact eq_of_sorted GlobEntry.key (hbefore.imp GlobEntry.before_iff.1)
      (hsorted.imp GlobEntry.before_iff.1) (hother.trans hentries.symm)
  · rw [hlisted, ← hentries.length_eq, Nat.min_comm, ← List.take_eq_take_min]
  · intro a ha b hb hno
    rw [hlisted] at ha hno
    rw [← List.take_append_drop maxResults (sortReferenceGlobEntries entries)] at hsorted
    have hwithheld : b ∈ (sortReferenceGlobEntries entries).drop maxResults := by
      rw [← hentries.mem_iff, ← List.take_append_drop maxResults (sortReferenceGlobEntries entries),
        List.mem_append] at hb
      exact hb.resolve_left hno
    exact (List.pairwise_append.1 hsorted).2.2 a ha b hwithheld
  · exact decide_eq_true_iff

/-- Two files of one time, walked in either order, under a cap of one. -/
theorem listing_deterministic_two :
    let entries : List GlobEntry := [⟨"b", 1⟩, ⟨"a", 1⟩]
    let entries' : List GlobEntry := [⟨"a", 1⟩, ⟨"b", 1⟩]
    (listing entries' 1).render = (listing entries 1).render ∧
    (∃ sorted : List GlobEntry, sorted.Perm entries ∧ sorted.Pairwise GlobEntry.Before ∧
      (∀ other : List GlobEntry, other.Perm entries → other.Pairwise GlobEntry.Before →
        other = sorted) ∧
      (listing entries 1).entries = sorted.take (min entries.length 1)) ∧
    (∀ a ∈ (listing entries 1).entries, ∀ b ∈ entries,
      b ∉ (listing entries 1).entries → a.Before b) ∧
    ((listing entries 1).summary.truncated = true ↔ 1 < entries.length) :=
  listing_deterministic (by decide) (by decide) (fun e => by simp [or_comm]) 1

/-! ## Paths as strings -/

/-- A name the operating system gives a file. -/
structure IsName (name : String) : Prop where
  ne_nil : name ≠ ""
  ne_dot : name ≠ "."
  slash : '/' ∉ name.toList

theorem IsName.isComponent {name : String} (hname : IsName name) :
    PathBuf.isComponent name = true := by
  simpa [PathBuf.isComponent] using ⟨hname.ne_nil, hname.ne_dot⟩

namespace PathBuf

/-- The characters of a relative path are its names with slashes between them. -/
theorem splitOn_relative {names : PathBuf} (hnames : ∀ name ∈ names, IsName name)
    (hne : names ≠ []) : (relative names).toList.splitOn '/' = names.map String.toList := by
  have hslash : ("/" : String).toList = ['/'] := rfl
  rw [relative, String.toList_intercalate, hslash]
  refine List.splitOn_intercalate '/' ?_ (by simpa using hne)
  intro l hl
  obtain ⟨name, hname, rfl⟩ := List.mem_map.1 hl
  exact (hnames name hname).slash

/-- What a relative path starts with is no slash. -/
theorem head_relative {names : PathBuf} (hnames : ∀ name ∈ names, IsName name) :
    (relative names).toList.head? ≠ some '/' := by
  rcases names with _ | ⟨name, names⟩
  · rw [relative, String.intercalate_nil]
    decide
  · intro hhead
    obtain ⟨cs, hcs⟩ := List.head?_eq_some_iff.1 hhead
    have hsplit := splitOn_relative hnames (List.cons_ne_nil _ _)
    rw [hcs, List.map_cons] at hsplit
    have hfirst := List.splitOn_append_cons_self (a := '/') [] cs
    rw [List.nil_append, hsplit] at hfirst
    have hnil : name.toList = [] := (List.cons.inj hfirst).1
    exact (hnames name List.mem_cons_self).ne_nil (String.toList_inj.1 hnil)

/-- **A joined path has the names behind what stands in its first part.** -/
theorem pieces_joinDisplay (start : String) {names : PathBuf}
    (hnames : ∀ name ∈ names, IsName name) (hne : names ≠ []) :
    ∃ before : PathBuf, pieces (joinDisplay start (relative names)) = before ++ names ∧
      before.components = components (ofString start) := by
  have hrel := splitOn_relative hnames hne
  have hid : (names.map String.toList).map String.ofList = names := by
    rw [List.map_map, show String.ofList ∘ String.toList = id from
      funext fun s => String.ofList_toList, List.map_id]
  have hslash : ("/" : String).toList = ['/'] := rfl
  rw [components_ofString, pieces, joinDisplay]
  split_ifs with hstart
  · rcases hstart with rfl | hend
    · rw [String.empty_append, hrel, hid]
      exact ⟨[], rfl, rfl⟩
    · rw [String.endsWith_eq_endsWith_toSlice, String.Slice.endsWith_string_iff,
        String.copy_toSlice, hslash] at hend
      obtain ⟨init, hinit⟩ := hend
      refine ⟨(init.splitOn '/').map String.ofList, ?_, ?_⟩
      · rw [String.toList_append, ← hinit, List.append_assoc, List.singleton_append,
          List.splitOn_append_cons_self, List.map_append, hrel, hid]
      · rw [pieces, ← hinit, List.splitOn_append_cons_self, List.map_append, components_append,
          List.splitOn_nil]
        exact (List.append_nil _).symm
  · refine ⟨pieces start, ?_, rfl⟩
    rw [String.toList_append, String.toList_append, hslash, List.append_assoc, List.singleton_append,
      List.splitOn_append_cons_self, List.map_append, hrel, hid]
    rfl

theorem isAbsolute_joinDisplay (start : String) {names : PathBuf}
    (hnames : ∀ name ∈ names, IsName name) :
    isAbsolute (joinDisplay start (relative names)) = isAbsolute start := by
  have hhead : ∀ s : String, isAbsolute s = decide (s.toList.head? = some '/') := fun _ => rfl
  rw [hhead, hhead]
  by_cases hempty : start = ""
  · rw [joinDisplay, if_pos (.inl hempty), hempty, String.empty_append,
      decide_eq_false (head_relative hnames)]
    rfl
  · have hne : start.toList ≠ [] := fun he => hempty (String.toList_inj.1 he)
    obtain ⟨c, cs, hcs⟩ := List.exists_cons_of_ne_nil hne
    rw [joinDisplay]
    split_ifs <;> simp only [String.toList_append, hcs, List.cons_append, List.head?_cons]

end PathBuf

/-! ## Reported paths lead back -/

/-- A file that a walk below the place yields: no link is on the way to it. -/
structure WalkedFile (t : FileTree) (place : List String) (relative : PathBuf) : Prop where
  file : t.object (place ++ relative) = some .file
  names : ∀ name ∈ relative, IsName name

/-- It is found by its names below a path that is found there. -/
theorem WalkedFile.place {t : FileTree} {place : List String} {relative : PathBuf} {limit : ℕ}
    {path below : PathBuf} (hwalked : WalkedFile t place relative)
    (hfound : path.place t limit = some place) (hbelow : below.components = path.components ++ relative)
    (hslash : below.slashed = false) : below.place t limit = some (place ++ relative) := by
  refine FileTree.find_eq_some.2 ⟨?_, fun hs => by rw [hslash] at hs; cases hs⟩
  rw [hbelow]
  exact FileTree.lookup_append (FileTree.find_eq_some.1 hfound).1 hwalked.file fun target he => by
    cases he

/-- Every run of the resolution ends with the path, and there is one. -/
def ResolvesTo (h : Host) (t : FileTree) (limit : ℕ) (workspace : Workspace) (name : String)
    (path : PathBuf) : Prop :=
  ∀ (who : ℕ) (s : State h),
    (∃ xs s', Prog.runs (step (ofTree t limit) who) xs (workspace.resolve name, s) =
      some (.ret (.ok path), s')) ∧
    ∀ xs r s', Prog.runs (step (ofTree t limit) who) xs (workspace.resolve name, s) =
      some (.ret r, s') → r = .ok path

section
variable {t : FileTree} {limit : ℕ} {workspace : Workspace} {name : String} {root path : PathBuf}
  {place : List String} {relative : PathBuf}

/-- **Below what is accepted and found, files are accepted and found.** -/
theorem accepts_append (hacc : Confine.Accepts t limit root path)
    (hfound : path.place t limit = some place) (hwalked : WalkedFile t place relative)
    {below : PathBuf} (hbelow : below.components = path.components ++ relative)
    (hslash : below.slashed = false) :
    Confine.Accepts t limit root below := by
  have hplace := hwalked.place hfound hbelow hslash
  obtain ⟨hup, existing, place', hdeep, hroot⟩ := hacc
  obtain ⟨rfl, rfl⟩ := hdeep.unique (Confine.deepest_of_place hfound)
  refine ⟨?_, _, _, Confine.deepest_of_place hplace, hroot.trans (List.prefix_append _ _)⟩
  rw [hbelow, List.mem_append, not_or]
  exact ⟨hup, FileTree.up_notMem hwalked.file⟩

/-- What a workspace accepts: a restricted one only what the check lets pass. -/
def AcceptedBy (t : FileTree) (limit : ℕ) (workspace : Workspace) (path : PathBuf) : Prop :=
  workspace.restrict = true → Confine.Accepts t limit workspace.root path

theorem unrestricted_spec (durability : Durability) {who : ℕ} {s : State h} :
    (Workspace.resolve ⟨root, false, durability⟩ name : Op h String PathBuf).wp
      (step (ofTree t limit) who) (fun r _ => r = .ok (resolvePath root name)) s := by
  rw [Workspace.resolve]
  rfl

theorem acceptedBy_of_run {who : ℕ} {s s' : State h} {xs : List Choice}
    (hr : Prog.runs (step (ofTree t limit) who) xs (workspace.resolve name, s) =
      some (.ret (.ok path), s')) :
    path = resolvePath workspace.root name ∧ AcceptedBy t limit workspace path := by
  obtain ⟨root, restrict, durability⟩ := workspace
  cases restrict with
  | false =>
    have hpure := Proc.wp_runs (unrestricted_spec durability) hr
    exact ⟨Except.ok.inj hpure, fun hrestrict => by cases hrestrict⟩
  | true =>
    rcases Proc.wp_runs (Confine.resolve_spec durability name) hr with ⟨he, hacc⟩ | ⟨⟨e, he⟩, -⟩
    · cases he
      exact ⟨rfl, fun _ => hacc⟩
    · cases he

theorem resolvesTo_of_accepted
    (hacc : AcceptedBy t limit workspace (resolvePath workspace.root name)) :
    ResolvesTo h t limit workspace name (resolvePath workspace.root name) := by
  obtain ⟨root, restrict, durability⟩ := workspace
  intro who s
  cases restrict with
  | false =>
    refine ⟨⟨[], s, rfl⟩, fun xs r s' hr => ?_⟩
    have hpure := Proc.wp_runs (unrestricted_spec durability) hr
    exact hpure
  | true =>
    refine ⟨Confine.exists_resolve durability name who s (hacc rfl), fun xs r s' hr => ?_⟩
    rcases Proc.wp_runs (Confine.resolve_spec durability name) hr with ⟨he, -⟩ | ⟨-, hno⟩
    · exact he
    · exact absurd (hacc rfl) hno

end

section
variable {isMatch : PathBuf → Bool} {request : Option String} {relative : PathBuf}
  {modified : Option ℤ} {e : GlobEntry}

/-- What is put before the paths of a walk. -/
theorem entry_path (he : GlobWalked.entry isMatch (request.filter (· ≠ "."))
      (.file (some relative) modified) = some e) :
    e.path = joinDisplay ((request.filter (· ≠ ".")).getD "") (PathBuf.relative relative) := by
  rw [GlobWalked.entry] at he
  split_ifs at he
  cases he
  rcases request.filter (· ≠ ".") with _ | start
  · rw [Option.getD_none, joinDisplay, if_pos (.inl rfl), String.empty_append]
    rfl
  · rfl

/-- **A reported path is resolved below the walk's root**, with no slash behind it. -/
theorem resolvePath_entry (root : PathBuf) (hnames : ∀ name ∈ relative, IsName name)
    (hne : relative ≠ []) (he : GlobWalked.entry isMatch (request.filter (· ≠ "."))
      (.file (some relative) modified) = some e) :
    (resolvePath root e.path).components =
        (resolvePath root (request.getD ".")).components ++ relative ∧
      (resolvePath root e.path).slashed = false := by
  have hclean : ∀ name ∈ relative, PathBuf.isComponent name = true := fun name hname =>
    (hnames name hname).isComponent
  have hstart : (resolvePath root ((request.filter (· ≠ ".")).getD "")).components =
      (resolvePath root (request.getD ".")).components := by
    have hdot : (resolvePath root "").components = (resolvePath root ".").components := by
      rw [resolvePath, resolvePath, if_neg (by decide), if_neg (by decide),
        PathBuf.components_append, PathBuf.components_append]
      exact congrArg _ (by decide)
    rcases request with _ | start
    · exact hdot
    · by_cases heq : start = "."
      · rw [heq]
        exact hdot
      · rw [Option.filter_some_pos (by simpa using heq)]
        rfl
  obtain ⟨before, hpieces, hbefore⟩ := PathBuf.pieces_joinDisplay
    ((request.filter (· ≠ ".")).getD "") hnames hne
  have hcomps : PathBuf.components (.ofString e.path) =
      PathBuf.components (.ofString ((request.filter (· ≠ ".")).getD "")) ++ relative := by
    rw [PathBuf.components_ofString, entry_path he, hpieces, PathBuf.components_append,
      hbefore, PathBuf.components_eq_self hclean]
  have hslash : PathBuf.slashed (.ofString e.path) = false := by
    rw [PathBuf.slashed_ofString, entry_path he, hpieces, PathBuf.slashed_append hne]
    exact PathBuf.slashed_eq_false hclean
  have habs : PathBuf.isAbsolute e.path =
      PathBuf.isAbsolute ((request.filter (· ≠ ".")).getD "") := by
    rw [entry_path he, PathBuf.isAbsolute_joinDisplay _ hnames]
  rw [← hstart, resolvePath, resolvePath, habs]
  split_ifs
  · exact ⟨hcomps, hslash⟩
  · rw [PathBuf.components_append, PathBuf.components_append, hcomps, List.append_assoc]
    exact ⟨rfl, (PathBuf.slashed_append (PathBuf.ofString_ne_nil _)).trans hslash⟩

/-- **Reported paths feed the other tools**: a file that matches is reported, and what is reported
    resolves to the files that were walked, each to its own. -/
theorem glob_paths_resolve (t : FileTree) (limit : ℕ) (workspace : Workspace)
    (request : Option String) (isMatch : PathBuf → Bool) {who : ℕ} {s s' : State h}
    {xs : List Choice} {walkRoot : PathBuf} {place : List String}
    (haccepted : Prog.runs (step (ofTree t limit) who) xs
      (workspace.resolve (request.getD "."), s) = some (.ret (.ok walkRoot), s'))
    (hfound : walkRoot.place t limit = some place) (hdir : t.object place = some .directory) :
    let entry := GlobWalked.entry isMatch (request.filter (· ≠ "."))
    (∀ relative modified, isMatch relative = true ↔
      ∃ e, entry (.file (some relative) modified) = some e) ∧
    (∀ relative modified e, WalkedFile t place relative →
      entry (.file (some relative) modified) = some e →
      ∃ path, ResolvesTo h t limit workspace e.path path ∧
        path.components = walkRoot.components ++ relative ∧
        path.place t limit = some (place ++ relative)) ∧
    ∀ relative relative' modified modified' e e', WalkedFile t place relative →
      WalkedFile t place relative' → entry (.file (some relative) modified) = some e →
      entry (.file (some relative') modified') = some e' → e.path = e'.path →
      relative = relative' := by
  obtain ⟨rfl, hacc⟩ := acceptedBy_of_run haccepted
  have hne : ∀ relative, WalkedFile t place relative → relative ≠ [] := by
    rintro relative hwalked rfl
    have hfile := hwalked.file
    rw [List.append_nil, hdir] at hfile
    cases hfile
  refine ⟨fun relative modified => ?_, fun relative modified e hwalked he => ?_,
    fun relative relative' modified modified' e e' hwalked hwalked' he he' hsame => ?_⟩
  · rw [GlobWalked.entry]
    split_ifs with hmatch
    · simp [hmatch]
    · simp [hmatch]
  · obtain ⟨hcomps, hslash⟩ := resolvePath_entry workspace.root hwalked.names (hne _ hwalked) he
    exact ⟨_, resolvesTo_of_accepted fun hrestrict =>
      accepts_append (hacc hrestrict) hfound hwalked hcomps hslash, hcomps,
        hwalked.place hfound hcomps hslash⟩
  · have hpath := (resolvePath_entry workspace.root hwalked.names (hne _ hwalked) he).1
    have hpath' := (resolvePath_entry workspace.root hwalked'.names (hne _ hwalked') he').1
    rw [hsame, hpath', List.append_cancel_left_eq] at hpath
    exact hpath.symm

end

/-- In the root `/w`, a directory with one file. -/
def listedTree : FileTree :=
  .ofList [([], .directory), (["w"], .directory), (["w", "src"], .directory),
      (["w", "src", "b.rs"], .file)]
    (by decide) (by decide) (by decide)

/-- A listing of the directory, in a restricted workspace: the file is reported by its path. -/
theorem glob_paths_resolve_src :
    let workspace : Workspace := ⟨["w"], true, .full⟩
    let entry := GlobWalked.entry (fun _ => true) ((some "src/").filter (· ≠ "."))
    WalkedFile listedTree ["w", "src"] ["b.rs"] ∧
      entry (.file (some ["b.rs"]) none) = some ⟨"src/b.rs", 0⟩ ∧
      ∃ path, ResolvesTo Host.sample listedTree 40 workspace "src/b.rs" path ∧
        path.components = ["w", "src"] ++ ["b.rs"] ∧
        path.place listedTree 40 = some (["w", "src"] ++ ["b.rs"]) := by
  have hwalked : WalkedFile listedTree ["w", "src"] ["b.rs"] := by
    refine ⟨by decide, fun name hname => ?_⟩
    rw [List.mem_singleton.1 hname]
    exact ⟨by decide, by decide, by decide⟩
  have hall := glob_paths_resolve listedTree 40 ⟨["w"], true, .full⟩ (some "src/") (fun _ => true)
    (show Prog.runs (step (ofTree listedTree 40) 0) [{ flag := true }, { path := ["w", "src"] }]
      (Workspace.resolve ⟨["w"], true, .full⟩ "src/", (⟨World.sample [] none, []⟩ : State Host.sample)) =
        some (.ret (.ok ["w", "src", ""]), _) from rfl)
    (show PathBuf.place ["w", "src", ""] listedTree 40 = some ["w", "src"] by decide) (by decide)
  have hslash : ("src/" : String).endsWith "/" = true := by
    rw [String.endsWith_eq_endsWith_toSlice, String.Slice.endsWith_string_iff, String.copy_toSlice]
    decide
  have hjoined : joinDisplay "src/" "b.rs" = "src/b.rs" := by
    rw [joinDisplay, if_pos (.inr hslash)]
    rfl
  have hentry : GlobWalked.entry (fun _ => true) ((some "src/").filter (· ≠ "."))
      (.file (some ["b.rs"]) none) = some ⟨"src/b.rs", 0⟩ := by
    rw [← hjoined]
    rfl
  exact ⟨hwalked, hentry, hall.2.1 ["b.rs"] none ⟨"src/b.rs", 0⟩ hwalked hentry⟩

end Hashline
