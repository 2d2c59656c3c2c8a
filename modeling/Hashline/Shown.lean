/-
  The paths a search shows: which file they denote when a later tool resolves
  them against the workspace root.
-/
import Hashline.Confine
import Hashline.NoPanic
import Hashline.Truncation

namespace Hashline

open FileTree

variable {h : Host}

/-! ## A path as text -/

/-- A name a directory entry can have. -/
structure FileName (name : String) : Prop where
  ne_empty : name ≠ ""
  ne_dot : name ≠ "."
  ne_up : name ≠ ".."
  slash : '/' ∉ name.toList

theorem FileName.isComponent {name : String} (hname : FileName name) :
    PathBuf.isComponent name = true := by
  simpa [PathBuf.isComponent] using ⟨hname.ne_empty, hname.ne_dot⟩

namespace PathBuf
variable {rel : PathBuf}

theorem fileName_of_mem {path name : String} (hm : name ∈ components (ofString path))
    (hup : name ≠ "..") : FileName name := by
  rw [components_ofString, mem_components] at hm
  obtain ⟨hm, hne⟩ := hm
  obtain ⟨w, hw, rfl⟩ := List.mem_map.1 hm
  simp only [isComponent, ne_eq, decide_eq_true_eq] at hne
  refine ⟨hne.1, hne.2, hup, ?_⟩
  rw [String.toList_ofList]
  exact Lines.notMem_of_mem_splitOn hw

theorem isAbsolute_relative (hrel : ∀ name ∈ rel, FileName name) :
    isAbsolute rel.relative = false := by
  rcases rel with _ | ⟨name, rest⟩
  · rfl
  obtain ⟨c, cs, hc⟩ : ∃ c cs, name.toList = c :: cs := by
    rcases hn : name.toList with _ | ⟨c, cs⟩
    · exact absurd (String.toList_eq_nil_iff.1 hn) (hrel name List.mem_cons_self).ne_empty
    · exact ⟨c, cs, rfl⟩
  have hslash := (hrel name List.mem_cons_self).slash
  have hhead : (relative (name :: rest)).toList.head? = some c := by
    rw [relative, String.toList_intercalate, List.map_cons, hc]
    cases rest with
    | nil => simp [List.intercalate]
    | cons name' rest => simp [List.intercalate_cons_cons]
  rw [isAbsolute, hhead, decide_eq_false_iff_not, Option.some.injEq]
  rintro rfl
  exact hslash (by rw [hc]; exact List.mem_cons_self)

/-- **A relative path is read back from its text.** -/
theorem ofString_relative (hrel : ∀ name ∈ rel, FileName name) (hne : rel ≠ []) :
    ofString rel.relative = rel := by
  have hsplit : rel.relative.toList.splitOn '/' = rel.map String.toList := by
    rw [relative, String.toList_intercalate]
    refine List.splitOn_intercalate '/' (fun w hw => ?_) (by simpa using hne)
    obtain ⟨name, hname, rfl⟩ := List.mem_map.1 hw
    exact (hrel name hname).slash
  have hid : (String.ofList ∘ String.toList) = id := funext fun s => String.ofList_toList
  rw [ofString, isAbsolute_relative hrel, if_neg (by decide), hsplit, List.map_map, hid, List.map_id]

end PathBuf

/-- A relative path that is shown is joined onto the root again, and has no slash behind its name. -/
theorem components_resolvePath {rel : PathBuf} (root : PathBuf)
    (hrel : ∀ name ∈ rel, FileName name) :
    (resolvePath root rel.relative).components = root.components ++ rel ∧
      (rel ≠ [] → (resolvePath root rel.relative).slashed = false) := by
  rw [resolvePath, PathBuf.isAbsolute_relative hrel, if_neg (by decide), PathBuf.components_append]
  have hclean : ∀ name ∈ rel, PathBuf.isComponent name = true :=
    fun name hname => (hrel name hname).isComponent
  rcases eq_or_ne rel [] with rfl | hne
  · exact ⟨rfl, fun hne => absurd rfl hne⟩
  · rw [PathBuf.ofString_relative hrel hne, PathBuf.components_eq_self hclean]
    exact ⟨rfl, fun _ => (PathBuf.slashed_append hne).trans (PathBuf.slashed_eq_false hclean)⟩

/-! ## What a shown path denotes -/

/-- Where the search of a request starts. -/
def searchRoot (workspace : Workspace) (input : GrepRequest) : PathBuf :=
  resolvePath workspace.root (input.path.getD ".")

/-- A later call resolves the path, and finds at it what stands at the place. -/
def Denotes (t : FileTree) (limit : ℕ) (workspace : Workspace) (shown : String) (place : PathBuf)
    (s : State h) : Prop :=
  ∀ who, (workspace.resolve shown : Op h String PathBuf).wp (step (ofTree t limit) who)
    (fun r _ => ∃ path, r = .ok path ∧ PathBuf.place path t limit = some place) s

/-- Below the root, the relative path leads to the place through a link. -/
def LinkedBack (t : FileTree) (limit : ℕ) (root rel place : PathBuf) : Prop :=
  ∃ n, 0 < n ∧ n ≤ limit ∧ t.Finds n root rel place

section
variable {t : FileTree} {limit : ℕ} {workspace : Workspace} {place : PathBuf} {s : State h}

/-- A path is found where no check stands against it. -/
theorem denotes_iff {shown : String} : Denotes t limit workspace shown place s ↔
    (resolvePath workspace.root shown).place t limit = some place ∧
      (workspace.restrict = true →
        Confine.Accepts t limit workspace.root (resolvePath workspace.root shown)) := by
  obtain ⟨root, restrict, durability⟩ := workspace
  cases restrict with
  | false =>
    have hrun : (Workspace.resolve ⟨root, false, durability⟩ shown : Op h String PathBuf) =
      pure (resolvePath root shown) := by simp [Workspace.resolve]
    simp only [Denotes, hrun]
    constructor
    · intro hd
      obtain ⟨path, hp, hl⟩ := hd 0
      cases hp
      exact ⟨hl, fun hr => by cases hr⟩
    · rintro ⟨hl, -⟩ who
      exact ⟨_, rfl, hl⟩
  | true =>
    have hspec := fun who => @Confine.resolve_spec h t limit root who s durability shown
    constructor
    · intro hd
      obtain ⟨xs, r, s', hr⟩ : ∃ xs r s', Prog.runs (step (ofTree t limit) 0) xs
          ((Workspace.resolve ⟨root, true, durability⟩ shown : Op h String PathBuf), s) =
            some (.ret r, s') :=
        Prog.exists_run Confine.ofTree_answers (Confine.all_resolve ⟨root, true, durability⟩ shown) s
      obtain ⟨path, rfl, hl⟩ := Proc.wp_runs (hd 0) hr
      rcases Proc.wp_runs (hspec 0) hr with ⟨he, hacc⟩ | ⟨⟨e, he⟩, -⟩
      · cases he
        exact ⟨hl, fun _ => hacc⟩
      · cases he
    · rintro ⟨hl, hacc⟩ who
      refine Proc.wp_mono (hspec who) fun r _ hr => ?_
      rcases hr with ⟨rfl, -⟩ | ⟨-, hno⟩
      · exact ⟨_, rfl, hl⟩
      · exact absurd (hacc rfl) hno

/-- What is found at an accepted path is under the root. -/
theorem Confine.Accepts.below_root {root path : PathBuf} (hacc : Confine.Accepts t limit root path)
    (hl : path.place t limit = some place) : root.components <+: place := by
  obtain ⟨-, existing, place', hdeep, hpre⟩ := hacc
  rwa [((Confine.deepest_of_place hl).unique hdeep).2]

theorem Confine.accepts_of_place {root path : PathBuf} (hup : ".." ∉ path.components)
    (hl : path.place t limit = some place) (hpre : root.components <+: place) :
    Confine.Accepts t limit root path := ⟨hup, _, place, Confine.deepest_of_place hl, hpre⟩

/-- **What a relative path denotes**, for a place that the confinement does not exclude. -/
theorem denotes_relative_iff {rel : PathBuf}
    (hroot : t.lookup 0 [] workspace.root.components = some workspace.root.components)
    (hdir : t.object workspace.root.components = some .directory)
    (hrel : ∀ name ∈ rel, FileName name)
    (hpre : workspace.restrict = true → workspace.root.components <+: place) :
    Denotes t limit workspace rel.relative place s ↔
      t.Finds 0 workspace.root.components rel place ∨
        LinkedBack t limit workspace.root.components rel place := by
  obtain ⟨hcomps, hslash⟩ := components_resolvePath workspace.root hrel
  have hplace : (resolvePath workspace.root rel.relative).place t limit = some place ↔
      ∃ n ≤ limit, t.Finds n workspace.root.components rel place := by
    rw [PathBuf.place, find_eq_some, hcomps, lookup_below hroot]
    refine and_iff_left_of_imp ?_
    rintro ⟨n, -, hf⟩ hs
    -- only the search root itself is shown with a slash behind it
    have hnil : rel = [] := by_contra fun hne => by rw [hslash hne] at hs; cases hs
    subst hnil
    cases hf
    exact hdir
  rw [denotes_iff, hplace]
  have hup : ".." ∉ (resolvePath workspace.root rel.relative).components := by
    obtain ⟨n, -, hf⟩ := lookup_eq_some.1 hroot
    rw [hcomps, List.mem_append, not_or]
    exact ⟨hf.up_notMem (List.not_mem_nil), fun hm => (hrel _ hm).ne_up rfl⟩
  constructor
  · rintro ⟨⟨n, hle, hf⟩, -⟩
    rcases Nat.eq_zero_or_pos n with rfl | hn
    · exact .inl hf
    · exact .inr ⟨n, hn, hle, hf⟩
  · intro hcases
    have hfinds : ∃ n ≤ limit, t.Finds n workspace.root.components rel place := by
      rcases hcases with hf | ⟨n, -, hle, hf⟩
      · exact ⟨0, Nat.zero_le _, hf⟩
      · exact ⟨n, hle, hf⟩
    exact ⟨hfinds, fun hr => Confine.accepts_of_place hup (hplace.2 hfinds) (hpre hr)⟩

end

/-! ## The files a search reports -/

section
variable (contentId : Bytes → SnapshotId) (quote : String → String) (granted : Bool)
  (ctx : SearchContext)

theorem renderHit_rel {bytes : Bytes} {rel : PathBuf} {matched : List ℕ} {hit : FileHit}
    (hr : renderHit contentId quote granted ctx bytes rel matched = .ok hit) : hit.rel = rel := by
  unfold renderHit at hr
  split_ifs at hr
  · cases hr; rfl
  · simp only [Exec.bind_eq_ok] at hr
    obtain ⟨_, -, _, -, _, -, _, -, hr⟩ := hr
    cases hr; rfl

theorem searchText_rel {bytes : Bytes} {rel : PathBuf} {matched : Option (List ℕ)} {hit : FileHit}
    (hr : searchText contentId quote granted ctx bytes rel matched = .ok (.hit hit)) :
    hit.rel = rel := by
  rcases matched with _ | _ | ⟨line, lines⟩
  · cases hr
  · cases hr
  · unfold searchText at hr
    simp only at hr
    rcases he : renderHit contentId quote granted ctx bytes rel (line :: lines) with (_ | _) | found
    · rw [he] at hr; cases hr
    · rw [he] at hr; cases hr
    · rw [he] at hr; cases hr
      exact renderHit_rel contentId quote granted ctx he

theorem searchFile_rel {path rel : PathBuf} {target : GrepTarget} {content : Except IoError Bytes}
    {hit : FileHit}
    (hr : searchFile contentId quote granted ctx path rel target content = .ok (.hit hit)) :
    hit.rel = rel := by
  rcases content with source | bytes
  · cases target <;> cases hr
  · rw [searchFile, Exec.bind_eq_ok] at hr
    obtain ⟨decision, -, hr⟩ := hr
    rcases decision with text | _ | _
    · exact searchText_rel contentId quote granted ctx hr
    · cases hr
    · cases hr

end

/-- What is reported was taken from the hits. -/
theorem mem_of_mem_takeHits {maxMatches : ℕ} {hit : FileHit} : ∀ {hits : List FileHit} {shown : ℕ},
    hit ∈ (takeHits maxMatches shown hits).1 → hit ∈ hits
  | [], _, hm => by cases hm
  | first :: hits, shown, hm => by
    rw [takeHits] at hm
    split_ifs at hm
    · cases hm
    · rcases List.mem_cons.1 hm with rfl | hm
      · exact List.mem_cons_self
      · exact List.mem_cons_of_mem _ (mem_of_mem_takeHits hm)

/-- A file that is reported is an entry of the tree. -/
theorem rel_of_reported {contentId : Bytes → SnapshotId} {quote : String → String} {matcher : Matcher}
    {root : PathBuf} {tree : SearchTree} {input : GrepRequest} {report : Report}
    (ha : Answers contentId quote matcher root tree input (.ok report)) :
    ∀ hit ∈ report.reported, hit.rel ∈ tree.entries.filterMap TreeEntry.rel? := by
  intro hit hhit
  obtain ⟨seen, rest, hperm, -, he⟩ := (answers_iff contentId quote matcher root input).1 ha
  have hpart := SearchTree.part_left hperm
  cases he
  have hfound := List.mem_map_of_mem (f := FileHit.found) hhit
  rw [hpart.reported contentId quote matcher root input] at hfound
  have hmem := (Budget.spend_initial Prod.snd input.budget 0 _).subset hfound
  obtain ⟨e, hseen, hef⟩ := List.mem_filterMap.1 ((mem_filesOf matcher).1 hmem)
  exact List.mem_filterMap.2 ⟨e, hpart.subset hseen, rel_of_found hef⟩

/-- A file the walk finds below a place: it follows no link. -/
structure Walked (t : FileTree) (place rel : PathBuf) : Prop where
  names : ∀ name ∈ rel, FileName name
  found : t.Finds 0 place rel (place ++ rel)

section
variable {t : FileTree} {limit : ℕ} {workspace : Workspace} {input : GrepRequest} {place : PathBuf}
  {s : State h}

/-- The file that is named is no directory, so that its path ends in its name. -/
theorem exists_fileName (hdir : t.object workspace.root.components = some .directory)
    (hroot : t.lookup 0 [] workspace.root.components = some workspace.root.components)
    (hfound : (searchRoot workspace input).place t limit = some place)
    (hfile : t.object place = some .file) :
    ∃ name, (searchRoot workspace input).named = [name] ∧ FileName name := by
  have hlookup := (find_eq_some.1 hfound).1
  obtain ⟨init, name, hcomps, hmem⟩ : ∃ init name,
      (searchRoot workspace input).components = init ++ [name] ∧
        name ∈ PathBuf.components (.ofString (input.path.getD ".")) := by
    have hsplit : ∃ above, (searchRoot workspace input).components =
        above ++ PathBuf.components (.ofString (input.path.getD ".")) ∧
          ∀ dst, t.lookup limit [] above = some dst → t.object dst = some .directory := by
      unfold searchRoot resolvePath
      split_ifs
      · refine ⟨[], rfl, fun dst hdst => ?_⟩
        obtain ⟨n, -, hf⟩ := lookup_eq_some.1 hdst
        cases hf
        exact t.root
      · refine ⟨workspace.root.components, PathBuf.components_append _ _, fun dst hdst => ?_⟩
        rw [(Leads.of_lookup hdst).unique (.of_lookup hroot)]
        exact hdir
    obtain ⟨above, heq, habove⟩ := hsplit
    rw [heq] at hlookup ⊢
    rcases List.eq_nil_or_concat' (PathBuf.components (.ofString (input.path.getD "."))) with
      hnil | ⟨init, name, hc⟩
    · rw [hnil, List.append_nil] at hlookup
      rw [habove place hlookup] at hfile
      cases hfile
    · rw [hc]
      exact ⟨above ++ init, name, by simp, by simp⟩
  have hup : name ≠ ".." := by
    -- what is found at `..` is a directory
    rintro rfl
    rw [hcomps] at hlookup
    obtain ⟨n, -, hf⟩ := lookup_eq_some.1 hlookup
    obtain ⟨n₁, n₂, mid, -, -, hr⟩ := hf.split rfl
    cases hr with
    | up hd hend =>
      cases hend
      rcases List.eq_nil_or_concat' mid with rfl | ⟨above, last, rfl⟩
      · rw [List.dropLast_nil, t.root] at hfile; cases hfile
      · rw [List.dropLast_concat, t.parent above last (by rw [hd]; rfl)] at hfile; cases hfile
    | down hne _ _ _ _ => exact absurd rfl hne
    | follow hne _ _ _ => exact absurd rfl hne
  refine ⟨name, ?_, PathBuf.fileName_of_mem hmem hup⟩
  rw [PathBuf.named, PathBuf.fileName, hcomps, List.getLast?_concat,
    Option.filter_some_pos (by simpa using hup)]

/-- The search of a named file reports it by its name. -/
theorem meets_searchExplicit_rel {Overrides : Type} (crates : Crates Overrides) (ctx : SearchContext)
    (path : PathBuf) (input : GrepRequest) :
    (Grep.searchExplicit crates ctx path input : Op h _ _).Meets
      (fun report => ∀ hit ∈ report.reported, hit.rel = path.named) Anything := by
  refine (meets_fsRead _).bind fun content _ => Proc.meets_call fun granted => ?_
  refine Proc.Meets.bind (V := fun searched => ∀ hit, searched = .hit hit → hit.rel = path.named)
    (Proc.meets_ofExec.2 ?_) fun searched hs => ?_
  · have hmeets : (searchFile h.contentId crates.quote granted ctx path path.named
      .explicitFile content).Meets Anything ProtocolError.Consistent := meets_searchFile _ _ _ _
    rcases hr : searchFile h.contentId crates.quote granted ctx path path.named
      .explicitFile content with (e | _) | searched
    · trivial
    · rw [hr] at hmeets; exact hmeets
    · intro hit hsearched
      rw [hsearched] at hr
      exact searchFile_rel h.contentId crates.quote granted ctx hr
  · cases searched with
    | hit hit =>
      intro found hmem
      rw [List.mem_singleton.1 (mem_of_mem_takeHits hmem)]
      exact hs hit rfl
    | nothing => intro hit hm; cases hm
    | skipBinary => intro hit hm; cases hm
    | skipInvalidUtf8 => intro hit hm; cases hm

/-- **When a file that is reported can be edited as reported.** In a tree, exactly when the search
    started at the workspace root, or a link below the workspace root happens to lead to the file;
    one file that was named, exactly when it stands in the workspace root, or such a link leads to it.
    The path that is shown is the one below the search root, and is resolved against the other. -/
theorem reported_denotes_iff {Overrides : Type} (crates : Crates Overrides)
    (hroot : t.lookup 0 [] workspace.root.components = some workspace.root.components)
    (hdir : t.object workspace.root.components = some .directory)
    (hfound : (searchRoot workspace input).place t limit = some place)
    (hres : workspace.restrict = true →
      Confine.Accepts t limit workspace.root (searchRoot workspace input)) :
    (∀ matcher tree report, (∀ rel ∈ tree.entries.filterMap TreeEntry.rel?, Walked t place rel) →
      Answers h.contentId crates.quote matcher (searchRoot workspace input) tree input (.ok report) →
      ∀ hit ∈ report.reported,
        t.lookup limit [] ((searchRoot workspace input).components ++ hit.rel) =
          some (place ++ hit.rel) ∧
        (Denotes t limit workspace hit.rel.relative (place ++ hit.rel) s ↔
          place = workspace.root.components ∨
            LinkedBack t limit workspace.root.components hit.rel (place ++ hit.rel))) ∧
    (t.object place = some .file → ∀ ctx,
      (Grep.searchExplicit crates ctx (searchRoot workspace input) input : Op h _ _).Meets
        (fun report => ∀ hit ∈ report.reported,
          (Denotes t limit workspace hit.rel.relative place s ↔
            place = workspace.root.components ++ hit.rel ∨
              LinkedBack t limit workspace.root.components hit.rel place)) Anything) := by
  have hpre : workspace.restrict = true → workspace.root.components <+: place :=
    fun hr => (hres hr).below_root hfound
  obtain ⟨n, hle, hf⟩ := lookup_eq_some.1 (find_eq_some.1 hfound).1
  have hup : ∀ {rel : PathBuf}, (∀ name ∈ rel, FileName name) → ".." ∉ rel :=
    fun hrel hm => (hrel _ hm).ne_up rfl
  constructor
  · intro matcher tree report hwalked ha hit hhit
    obtain ⟨hrel, hbelow⟩ := hwalked _ (rel_of_reported ha hit hhit)
    refine ⟨lookup_eq_some.2 ⟨n + 0, hle, hf.append hbelow⟩, ?_⟩
    rw [denotes_relative_iff hroot hdir hrel fun hr => (hpre hr).trans (List.prefix_append _ _)]
    refine or_congr_left ⟨fun hz => ?_, fun he => ?_⟩
    · exact List.append_cancel_right (hz.eq_append rfl (hup hrel))
    · rw [← he]; exact hbelow
  · intro hfile ctx
    obtain ⟨name, he, hname⟩ := exists_fileName hdir hroot hfound hfile
    have hrel : ∀ n ∈ [name], FileName n := fun n hn => List.mem_singleton.1 hn ▸ hname
    have hiff : Denotes t limit workspace (PathBuf.relative [name]) place s ↔
        place = workspace.root.components ++ [name] ∨
          LinkedBack t limit workspace.root.components [name] place := by
      rw [denotes_relative_iff hroot hdir hrel hpre]
      refine or_congr_left ⟨fun hz => hz.eq_append rfl (hup hrel), fun hp => ?_⟩
      rw [hp] at hfile ⊢
      exact .down hname.ne_up hdir hfile (by simp) (.here _)
    refine (meets_searchExplicit_rel crates ctx _ input).mono (fun report hreport hit hmem => ?_)
      fun _ h => h
    rw [hreport hit hmem, he]
    exact hiff

end

/-- In the root `/w`, the directory `sub` with the file `a`. -/
def subTree : FileTree := .ofList [([], .directory), (["w"], .directory), (["w", "sub"], .directory),
  (["w", "sub", "a"], .file)] (by decide) (by decide) (by decide)

/-- One file with one line, which matches. -/
def oneFile (rel : PathBuf) : SearchTree where
  entries := [.file rel (.ok [109, lf])]
  distinct := by simp [TreeEntry.rel?]
  fits rel' bytes h := by
    simp only [List.mem_singleton, TreeEntry.file.injEq, Except.ok.injEq] at h
    rw [h.2]; decide

/-- The file is reported. -/
theorem exists_reported (rel root : PathBuf) (input : GrepRequest) : ∃ report,
    Answers Host.sample.contentId id everyLine root (oneFile rel) input (.ok report) ∧
      ∃ hit ∈ report.reported, hit.rel = rel := by
  have hpart := (oneFile rel).part_all
  refine ⟨_, answers_all Host.sample.contentId id everyLine root input, ?_⟩
  have hreported := hpart.reported Host.sample.contentId id everyLine root input
  have hfiles : filesOf everyLine (oneFile rel).entries = [(rel, 1)] := by
    have hfound : (oneFile rel).entries.filterMap (TreeEntry.found everyLine) = [(rel, 1)] := rfl
    refine List.perm_singleton.1 ?_
    rw [← hfound]
    exact sortByKey_perm _ _
  have hbudget : ¬input.budget ≤ 0 := by unfold GrepRequest.budget; omega
  rw [hfiles, Budget.spend, if_neg hbudget, Budget.spend] at hreported
  obtain ⟨hit, hhit, he⟩ := List.mem_map.1 (hreported ▸ List.mem_cons_self :
    (rel, 1) ∈ List.map FileHit.found _)
  exact ⟨hit, hhit, congrArg Prod.fst he⟩

/-- The search of `sub` shows its file as `a`, and there is no `/w/a`. -/
theorem reported_elsewhere : ∃ report,
    Answers Host.sample.contentId id everyLine
        (searchRoot ⟨["w"], false, .full⟩ { searchRequest with path := some "sub" }) (oneFile ["a"])
        { searchRequest with path := some "sub" } (.ok report) ∧
      ∃ hit ∈ report.reported, subTree.lookup 40 [] (["w", "sub"] ++ hit.rel) =
          some (["w", "sub"] ++ hit.rel) ∧
        ¬Denotes subTree 40 ⟨["w"], false, .full⟩ hit.rel.relative (["w", "sub"] ++ hit.rel)
          (⟨World.sample [] none, []⟩ : State Host.sample) := by
  obtain ⟨report, ha, hit, hhit, hrel⟩ := exists_reported ["a"]
    (searchRoot ⟨["w"], false, .full⟩ { searchRequest with path := some "sub" })
    { searchRequest with path := some "sub" }
  refine ⟨report, ha, hit, hhit, ?_⟩
  rw [hrel, denotes_iff]
  exact ⟨by decide, fun hd => absurd hd.1 (by decide)⟩

/-- The search of the whole root shows it as `sub/a`. -/
theorem reported_denotes_sub : ∃ report,
    Answers Host.sample.contentId id everyLine (searchRoot ⟨["w"], false, .full⟩ searchRequest)
        (oneFile ["sub", "a"]) searchRequest (.ok report) ∧
      ∃ hit ∈ report.reported, Denotes subTree 40 ⟨["w"], false, .full⟩ hit.rel.relative
        (["w"] ++ hit.rel) (⟨World.sample [] none, []⟩ : State Host.sample) := by
  have hwalked : Walked subTree ["w"] ["sub", "a"] := by
    refine ⟨fun name hname => ?_, ?_⟩
    · simp only [List.mem_cons, List.not_mem_nil, or_false] at hname
      rcases hname with rfl | rfl <;> exact ⟨by decide, by decide, by decide, by decide⟩
    · obtain ⟨n, hle, hf⟩ := lookup_eq_some.1
        (show subTree.lookup 0 ["w"] ["sub", "a"] = some ["w", "sub", "a"] by decide)
      rwa [Nat.le_zero.1 hle] at hf
  obtain ⟨report, ha, hit, hhit, hrel⟩ := exists_reported ["sub", "a"]
    (searchRoot ⟨["w"], false, .full⟩ searchRequest) searchRequest
  refine ⟨report, ha, hit, hhit, ?_⟩
  exact (((reported_denotes_iff (⟨fun _ _ => .ok everyLine, fun _ _ => .ok (), fun _ => .ok fun _ => true,
    id⟩ : Crates Unit) (by decide) (by decide) (by decide) (fun hr => by cases hr)).1 everyLine _ report
    (fun rel hmem => by
      rw [List.mem_singleton.1 hmem]; exact hwalked) ha hit hhit).2).2 (.inl rfl)

end Hashline
