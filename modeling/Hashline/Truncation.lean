/-
  What the answers of a parallel search depend on: the files it visited before
  it quit, and so when every schedule gives the same, honest answer.
-/
import Hashline.Grep
import Mathlib.Data.List.Flatten

namespace Hashline

open Machine

variable (contentId : Bytes → SnapshotId) (quote : String → String) (matcher : Matcher)
  (root : PathBuf) {tree : SearchTree} (input : GrepRequest)

namespace GrepRequest

theorem budget_le : input.budget ≤ 2 ^ 16 := by
  have := input.maxMatches.toNat_lt
  unfold GrepRequest.budget; omega

theorem quitThreshold_eq :
    (input.searchContext matcher root).quitThreshold = 8 * input.budget := by
  have := input.budget_le
  show min (input.budget * 8) u64Max = _
  unfold u64Max; omega

end GrepRequest

/-! ## Hits and files -/

/-- What a report says whatever the mode: the files with their counts, and the counters. -/
def Report.view (r : Report) : List FileMatches × GrepSummary :=
  (r.reported.map FileHit.found, r.summary)

/-- The hits of some entries, in the mode of the request. -/
def hitsOf (entries : List TreeEntry) : List FileHit :=
  entries.flatMap (TreeEntry.hits contentId quote (input.searchContext matcher root))

/-- What is reported of some entries. -/
def reportOf (entries : List TreeEntry) : Report :=
  report (sortHits (hitsOf contentId quote matcher root input entries)) input.budget
    (entries.countP TreeEntry.isBinary) (entries.countP TreeEntry.isInvalidUtf8)

theorem SearchTree.entry_fits (tree : SearchTree) : ∀ e ∈ tree.entries, e.Fits :=
  fun _ he rel bytes hb => tree.fits rel bytes (hb ▸ he)

theorem map_found_hits {e : TreeEntry} (h : e.Fits) :
    (e.hits contentId quote (input.searchContext matcher root)).map FileHit.found =
      (e.found matcher).toList := by
  obtain ⟨_, _, -, -, hv⟩ := grepVisitor_visit contentId quote (input.searchContext matcher root) h []
    SearchShared.start
  exact hv.found

theorem map_found_hitsOf {entries : List TreeEntry} (h : ∀ e ∈ entries, e.Fits) :
    (hitsOf contentId quote matcher root input entries).map FileHit.found =
      entries.filterMap (TreeEntry.found matcher) := by
  induction entries with
  | nil => rfl
  | cons e entries ih =>
    rw [List.forall_mem_cons] at h
    rw [hitsOf, List.flatMap_cons, List.map_append, map_found_hits _ _ _ _ _ h.1, List.filterMap_cons]
    rw [hitsOf] at ih
    rw [ih h.2]
    cases e.found matcher <;> rfl

variable {matcher} in
theorem rel_of_found {e : TreeEntry} {f : FileMatches} (h : e.found matcher = some f) :
    e.rel? = some f.1 := by
  rcases e with _ | _ | ⟨rel, _ | bytes⟩ <;> simp only [TreeEntry.found, reduceCtorEq] at h
  split_ifs at h
  cases h; rfl

/-- Some of the entries of the tree. -/
def SearchTree.Part (tree : SearchTree) (entries : List TreeEntry) : Prop :=
  entries.Subperm tree.entries

/-- The files of some entries that have matches, in path order. -/
def filesOf (entries : List TreeEntry) : List FileMatches :=
  sortByKey Prod.fst (entries.filterMap (TreeEntry.found matcher))

theorem SearchTree.nodup_found (tree : SearchTree) (matcher : Matcher) :
    ((tree.found matcher).map Prod.fst).Nodup := by
  refine List.Nodup.sublist ?_ tree.distinct
  rw [SearchTree.found]
  induction tree.entries with
  | nil => exact List.Sublist.slnil
  | cons e entries ih =>
    rw [List.filterMap_cons, List.filterMap_cons]
    rcases hf : e.found matcher with _ | f
    · rcases e.rel? with _ | rel
      · exact ih
      · exact ih.cons _
    · rw [rel_of_found hf]
      exact ih.cons_cons _

namespace SearchTree.Part
variable {entries : List TreeEntry} (h : tree.Part entries)

include h

theorem fits : ∀ e ∈ entries, e.Fits := fun e he => tree.entry_fits e (h.subset he)

theorem found : (entries.filterMap (TreeEntry.found matcher)).Subperm (tree.found matcher) := by
  obtain ⟨l, hl, hs⟩ := h
  exact ⟨_, hl.filterMap _, hs.filterMap _⟩

theorem nodup_found : ((entries.filterMap (TreeEntry.found matcher)).map Prod.fst).Nodup :=
  nodup_map_of_subperm (tree.nodup_found matcher) (h.found matcher)

theorem nodup_hits : ((hitsOf contentId quote matcher root input entries).map FileHit.rel).Nodup := by
  have hn := h.nodup_found matcher
  rw [← map_found_hitsOf contentId quote matcher root input h.fits, List.map_map] at hn
  exact hn

theorem subperm_hits : (hitsOf contentId quote matcher root input entries).Subperm
    (hitsOf contentId quote matcher root input tree.entries) := by
  obtain ⟨l, hl, hs⟩ := h
  exact ⟨_, hl.flatMap_right _, hs.flatMap _⟩

theorem map_found_sortHits :
    (sortHits (hitsOf contentId quote matcher root input entries)).map FileHit.found =
      filesOf matcher entries := by
  have hmap : (sortHits (hitsOf contentId quote matcher root input entries)).map FileHit.found =
      sortByKey Prod.fst ((hitsOf contentId quote matcher root input entries).map FileHit.found) :=
    map_sortByKey Prod.fst (fun _ => rfl) (h.nodup_hits contentId quote matcher root input)
  rw [hmap, map_found_hitsOf contentId quote matcher root input h.fits, filesOf]

theorem files_sublist : (filesOf matcher entries).Sublist (filesOf matcher tree.entries) :=
  sortByKey_sublist (tree.nodup_found matcher) (h.found matcher)

theorem total_hits : Budget.total FileHit.matches_ (hitsOf contentId quote matcher root input entries) =
    Budget.total Prod.snd (filesOf matcher entries) := by
  rw [filesOf, Budget.total_perm _ (sortByKey_perm _ _),
    ← map_found_hitsOf contentId quote matcher root input h.fits, Budget.total_map]
  rfl

/-- **What a report says** of files and counters, in every mode. -/
theorem view_reportOf : (reportOf contentId quote matcher root input entries).view =
    (Budget.spend Prod.snd input.budget 0 (filesOf matcher entries),
      ⟨min (Budget.total Prod.snd (Budget.spend Prod.snd input.budget 0 (filesOf matcher entries)))
        u64Max,
      decide (Budget.spend Prod.snd input.budget 0 (filesOf matcher entries) ≠ filesOf matcher entries),
      entries.countP TreeEntry.isBinary, entries.countP TreeEntry.isInvalidUtf8⟩) := by
  have hb : input.budget ≤ u64Max := input.budget_le.trans (by decide)
  set hits := sortHits (hitsOf contentId quote matcher root input entries) with hhits
  have hfiles : filesOf matcher entries = hits.map FileHit.found :=
    (h.map_found_sortHits contentId quote matcher root input).symm
  have hspend : Budget.spend Prod.snd input.budget 0 (filesOf matcher entries) =
      (Budget.spend FileHit.matches_ input.budget 0 hits).map FileHit.found := by
    rw [hfiles, ← Budget.map_spend]; rfl
  have hne : Budget.spend Prod.snd input.budget 0 (filesOf matcher entries) ≠ filesOf matcher entries ↔
      Budget.spend FileHit.matches_ input.budget 0 hits ≠ hits := by
    rw [hspend, hfiles]
    refine not_congr ⟨fun he => (Budget.spend_initial _ _ 0 _).eq_of_length ?_, fun he => by rw [he]⟩
    have := congrArg List.length he
    rwa [List.length_map, List.length_map] at this
  rw [reportOf, report_eq hb, Report.view, decide_eq_decide.2 hne, hspend, Budget.total_map]
  rfl

/-- **What is reported**: the first files in path order until the budget is used up. -/
theorem reported : (reportOf contentId quote matcher root input entries).reported.map FileHit.found =
    Budget.spend Prod.snd input.budget 0 (filesOf matcher entries) :=
  congrArg Prod.fst (h.view_reportOf contentId quote matcher root input)

/-- **When it is marked as truncated**: where the budget ends before the files do. -/
theorem truncated : (reportOf contentId quote matcher root input entries).summary.truncated = true ↔
    Budget.spend Prod.snd input.budget 0 (filesOf matcher entries) ≠ filesOf matcher entries := by
  have hview := congrArg (GrepSummary.truncated ∘ Prod.snd)
    (h.view_reportOf contentId quote matcher root input)
  change (reportOf contentId quote matcher root input entries).summary.truncated = _ at hview
  rw [hview]
  exact decide_eq_true_iff

theorem reportOf_perm {entries' : List TreeEntry} (hp : entries'.Perm entries) :
    reportOf contentId quote matcher root input entries' =
      reportOf contentId quote matcher root input entries := by
  have hsort : sortHits (hitsOf contentId quote matcher root input entries') =
      sortHits (hitsOf contentId quote matcher root input entries) :=
    sortByKey_congr (h.nodup_hits contentId quote matcher root input) (hp.flatMap_right _)
  rw [reportOf, reportOf, hsort, hp.countP_eq, hp.countP_eq]

end SearchTree.Part

/-! ## The answers there are -/

theorem SearchTree.part_left {seen rest : List TreeEntry} (h : (seen ++ rest).Perm tree.entries) :
    tree.Part seen := (List.sublist_append_left seen rest).subperm.trans h.subperm

/-- What a walk that has ended answers. -/
theorem finish_eq {seen : List TreeEntry} (h : tree.Part seen) {s : SearchShared} {q : Bool}
    (hc : Collected contentId quote (input.searchContext matcher root) seen [] s q) :
    s.finish input.budget = .ok (reportOf contentId quote matcher root input seen) := by
  have hhits : sortHits s.collected.flatten =
      sortHits (hitsOf contentId quote matcher root input seen) :=
    sortByKey_congr (h.nodup_hits contentId quote matcher root input) hc.hits
  rw [SearchShared.finish, hc.panicked, if_neg (by decide), hc.error, hhits, hc.binary,
    hc.invalidUtf8, reportOf]

/-- **Every answer is the report of some entries**: all of them, or any whose matches exceed the
    threshold. -/
theorem answers_iff {answer : Exec ProtocolError Report} :
    Answers contentId quote matcher root tree input answer ↔
      ∃ seen rest, (seen ++ rest).Perm tree.entries ∧
        (rest = [] ∨ 8 * input.budget < Budget.total Prod.snd (filesOf matcher seen)) ∧
        answer = .ok (reportOf contentId quote matcher root input seen) := by
  have hI := Collected.invariant contentId quote (input.searchContext matcher root)
  have hstart := Collected.start contentId quote (input.searchContext matcher root)
  constructor
  · rintro ⟨workers, moves, w, hr, hend, rfl⟩
    obtain ⟨seen, hperm, hseen, hfin⟩ := Walk.ended hI (fun _ => hstart (workers + 1)) hr hend
    have hpart := SearchTree.part_left hperm
    have hc := hseen hpart.fits
    refine ⟨seen, w.remaining, hperm, ?_, finish_eq contentId quote matcher root input hpart hc⟩
    rcases hq : w.quit with _ | _
    · exact .inl (hfin hq)
    · have := hc.quit hq
      rw [hc.total, GrepRequest.quitThreshold_eq] at this
      exact .inr (by rwa [← hpart.total_hits contentId quote matcher root input])
  · rintro ⟨seen, rest, hperm, hq, rfl⟩
    have hpart := SearchTree.part_left hperm
    obtain ⟨workers, moves, w, hr, hend, hrem⟩ := Walk.exists_run
      (grepVisitor contentId quote true (input.searchContext matcher root)) [] SearchShared.start hperm
      (hq.symm.imp_left fun hq => visitEach_quits contentId quote _ hpart.fits _ (Nat.zero_le _) (by
        rw [GrepRequest.quitThreshold_eq]
        have := hpart.total_hits contentId quote matcher root input
        rw [hitsOf] at this
        rwa [this, show SearchShared.start.total = 0 from rfl, Nat.zero_add]))
    obtain ⟨seen', hperm', hseen', -⟩ := Walk.ended hI (fun _ => hstart (workers + 1)) hr hend
    have hsame : seen'.Perm seen :=
      (List.perm_append_right_iff rest).1 ((hrem.symm.append_left seen').trans
        (hperm'.trans hperm.symm))
    have hpart' := SearchTree.part_left hperm'
    refine ⟨workers, moves, w, hr, hend, ?_⟩
    rw [finish_eq contentId quote matcher root input hpart' (hseen' hpart'.fits),
      hpart.reportOf_perm contentId quote matcher root input hsame]

theorem answers_all : Answers contentId quote matcher root tree input
    (.ok (reportOf contentId quote matcher root input tree.entries)) :=
  (answers_iff contentId quote matcher root input).2
    ⟨tree.entries, [], by rw [List.append_nil], .inl rfl, rfl⟩

/-- A walk that quits after exactly the entries kept. -/
theorem answers_filter (keep : TreeEntry → Bool)
    (h : 8 * input.budget < Budget.total Prod.snd (filesOf matcher (tree.entries.filter keep))) :
    Answers contentId quote matcher root tree input
      (.ok (reportOf contentId quote matcher root input (tree.entries.filter keep))) :=
  (answers_iff contentId quote matcher root input).2
    ⟨_, _, List.filter_append_perm keep tree.entries, .inr h, rfl⟩

theorem SearchTree.part_filter (tree : SearchTree) (keep : TreeEntry → Bool) :
    tree.Part (tree.entries.filter keep) := List.filter_sublist.subperm

theorem SearchTree.part_all (tree : SearchTree) : tree.Part tree.entries := List.Subperm.refl _

namespace SearchTree.Part
variable {entries : List TreeEntry} (h : tree.Part entries)

include h

theorem sorted : (filesOf matcher entries).Pairwise fun a b => a.1 < b.1 :=
  sortByKey_pairwise (h.nodup_found matcher)

theorem nodup_files : (filesOf matcher entries).Nodup := nodup_sortByKey (h.nodup_found matcher)

end SearchTree.Part

theorem mem_filesOf {entries : List TreeEntry} {f : FileMatches} :
    f ∈ filesOf matcher entries ↔ f ∈ entries.filterMap (TreeEntry.found matcher) := mem_sortByKey

/-- The entries with these files. -/
def keepFiles (files : List FileMatches) (e : TreeEntry) : Bool := (e.found matcher).any (· ∈ files)

theorem filesOf_keepFiles {files : List FileMatches}
    (h : files.Sublist (filesOf matcher tree.entries)) :
    filesOf matcher (tree.entries.filter (keepFiles matcher files)) = files := by
  have hpart := tree.part_filter (keepFiles matcher files)
  have hsub : files.Pairwise fun a b => a.1 < b.1 := (tree.part_all.sorted matcher).sublist h
  refine eq_of_sorted Prod.fst (hpart.sorted matcher) hsub ?_
  refine (List.perm_ext_iff_of_nodup (hpart.nodup_files matcher)
    (h.nodup (tree.part_all.nodup_files matcher))).2 fun f => ?_
  rw [mem_filesOf, List.mem_filterMap]
  constructor
  · rintro ⟨e, he, hf⟩
    have hk := (List.mem_filter.1 he).2
    rwa [keepFiles, hf, Option.any_some, decide_eq_true_eq] at hk
  · intro hf
    obtain ⟨e, he, hfe⟩ := List.mem_filterMap.1 ((mem_filesOf matcher).1 (h.subset hf))
    exact ⟨e, List.mem_filter.2 ⟨he, by rw [keepFiles, hfe]; simpa using hf⟩, hfe⟩

/-! ## The truncation flag -/

/-- The flag tells whether a file with matches is missing. -/
def Report.Honest (matcher : Matcher) (tree : SearchTree) (r : Report) : Prop :=
  r.summary.truncated = true ↔ ∃ f ∈ tree.found matcher, f ∉ r.reported.map FileHit.found

/-- Some but not all of the files have more matches than the walk goes on for, though all of them but
    the last leave the budget room. -/
def SearchTree.Overrun (tree : SearchTree) (matcher : Matcher) (budget : ℕ) : Prop :=
  ∃ seen, seen.Sublist (filesOf matcher tree.entries) ∧ seen ≠ filesOf matcher tree.entries ∧
    8 * budget < Budget.total Prod.snd seen ∧ Budget.total Prod.snd seen.dropLast < budget

/-- A report is dishonest exactly where it shows all the files it was made of, and these are not all. -/
theorem honest_reportOf {entries : List TreeEntry} (h : tree.Part entries) :
    (reportOf contentId quote matcher root input entries).Honest matcher tree ↔
      (Budget.spend Prod.snd input.budget 0 (filesOf matcher entries) = filesOf matcher entries →
        filesOf matcher entries = filesOf matcher tree.entries) := by
  have hsub := h.files_sublist matcher
  have hmem : ∀ f, f ∈ tree.found matcher ↔ f ∈ filesOf matcher tree.entries := fun f =>
    (mem_filesOf matcher).symm
  rw [Report.Honest, h.truncated, h.reported]
  simp only [hmem]
  constructor
  · intro hh hall
    rw [hall] at hh
    refine hsub.eq_of_length_le ((List.subperm_of_subset (tree.part_all.nodup_files matcher)
      fun f hf => ?_).length_le)
    by_contra hf'
    exact hh.2 ⟨f, hf, hf'⟩ rfl
  · intro hh
    constructor
    · intro hne
      by_contra hno
      push Not at hno
      refine hne ((Budget.spend_initial _ _ 0 _).eq_of_length_le ?_)
      exact (List.subperm_of_subset (h.nodup_files matcher) fun f hf =>
        hno f (hsub.subset hf)).length_le
    · rintro ⟨f, hf, hf'⟩ hall
      rw [hall, hh hall] at hf'
      exact hf' hf

/-- **When the flag is honest**: every schedule gives an honest answer exactly on the trees without an
    overrun. -/
theorem truncated_honest : (∀ answer, Answers contentId quote matcher root tree input answer →
      ∃ r, answer = .ok r ∧ r.Honest matcher tree) ↔ ¬tree.Overrun matcher input.budget := by
  constructor
  · rintro hall ⟨seen, hsub, hne, htotal, hlast⟩
    have hfiles := filesOf_keepFiles matcher hsub
    obtain ⟨r, hr, hhonest⟩ := hall _ (answers_filter contentId quote matcher root input
      (keepFiles matcher seen) (by rwa [hfiles]))
    cases hr
    rw [honest_reportOf _ _ _ _ _ (tree.part_filter _), hfiles] at hhonest
    exact hne (hhonest (Budget.spend_eq_self.2 (.inr (by rwa [Nat.zero_add]))))
  · intro hno answer ha
    obtain ⟨seen, rest, hperm, hq, rfl⟩ := (answers_iff contentId quote matcher root input).1 ha
    have hpart := SearchTree.part_left hperm
    refine ⟨_, rfl, (honest_reportOf _ _ _ _ _ hpart).2 fun hall => ?_⟩
    rcases hq with rfl | hq
    · rw [List.append_nil] at hperm
      exact sortByKey_congr (tree.nodup_found matcher) (hperm.filterMap _)
    · by_contra hne
      rcases Budget.spend_eq_self.1 hall with hnil | hlast
      · rw [hnil, Budget.total_nil] at hq; omega
      · exact hno ⟨_, hpart.files_sublist matcher, hne, hq, by rwa [Nat.zero_add] at hlast⟩

/-- A pattern that matches every line. -/
def everyLine : Matcher := fun bytes => some (List.range' 1 (bytes.count lf), false)

/-- `a` with nine lines, and `b` with one. -/
def searchSample : SearchTree where
  entries := [.file ["a"] (.ok (List.replicate 9 [109, lf]).flatten), .file ["b"] (.ok [109, lf])]
  distinct := by decide
  fits := by
    intro rel bytes h
    simp only [List.mem_cons, TreeEntry.file.injEq, Except.ok.injEq, List.not_mem_nil, or_false] at h
    rcases h with ⟨-, rfl⟩ | ⟨-, rfl⟩ <;> decide

/-- One match is asked for. -/
def searchRequest : GrepRequest := ⟨"m", none, none, false, none, none, none, 1, .filesWithMatches⟩

theorem filesOf_sample : filesOf everyLine searchSample.entries = [(["a"], 9), (["b"], 1)] := by
  have hfound : searchSample.entries.filterMap (TreeEntry.found everyLine) =
      [(["a"], 9), (["b"], 1)] := by decide
  exact eq_of_sorted Prod.fst (searchSample.part_all.sorted _) (by decide)
    ((sortByKey_perm _ _).trans (List.Perm.of_eq hfound))

/-- The walk may end with `a`. -/
theorem answers_sample : Answers (fun _ => ⟨0⟩) id everyLine [] searchSample searchRequest
    (.ok (reportOf (fun _ => ⟨0⟩) id everyLine [] searchRequest
      (searchSample.entries.filter (keepFiles everyLine [(["a"], 9)])))) := by
  refine answers_filter _ _ _ _ _ _ ?_
  rw [filesOf_keepFiles everyLine (by rw [filesOf_sample]; decide)]
  decide

/-- `b` is missing, and the answer does not say so. -/
theorem truncated_dishonest : ∃ answer,
    Answers (fun _ => ⟨0⟩) id everyLine [] searchSample searchRequest answer ∧
      ∀ r, answer = .ok r → ¬r.Honest everyLine searchSample := by
  refine ⟨_, answers_sample, fun r hr => ?_⟩
  cases hr
  rw [honest_reportOf _ _ _ _ _ (searchSample.part_filter _),
    filesOf_keepFiles everyLine (by rw [filesOf_sample]; decide), filesOf_sample]
  decide

/-! ## Independence of the schedule -/

/-- The files with matches that the budget reaches. -/
def SearchTree.shown (tree : SearchTree) (matcher : Matcher) (budget : ℕ) : List FileMatches :=
  Budget.spend Prod.snd budget 0 (filesOf matcher tree.entries)

/-- The walk never quits, or it can quit only after all files that are shown, with more besides, in a
    tree where nothing is skipped. -/
def SearchTree.Settled (tree : SearchTree) (matcher : Matcher) (budget : ℕ) : Prop :=
  Budget.total Prod.snd (filesOf matcher tree.entries) ≤ 8 * budget ∨
    (∀ e ∈ tree.entries, e.isBinary = false ∧ e.isInvalidUtf8 = false) ∧
    (∀ f ∈ tree.shown matcher budget,
      Budget.total Prod.snd (filesOf matcher tree.entries) ≤ 8 * budget + f.2) ∧
    (tree.shown matcher budget ≠ filesOf matcher tree.entries →
      Budget.total Prod.snd (tree.shown matcher budget) ≤ 8 * budget)

/-- Entries with more matches than the walk goes on for have all files that are shown, and more. -/
theorem SearchTree.Part.reportOf_settled {entries : List TreeEntry} (h : tree.Part entries)
    (hskip : ∀ e ∈ tree.entries, e.isBinary = false ∧ e.isInvalidUtf8 = false)
    (hshown : ∀ f ∈ tree.shown matcher input.budget,
      Budget.total Prod.snd (filesOf matcher tree.entries) ≤ 8 * input.budget + f.2)
    (hmore : tree.shown matcher input.budget ≠ filesOf matcher tree.entries →
      Budget.total Prod.snd (tree.shown matcher input.budget) ≤ 8 * input.budget)
    (hq : 8 * input.budget < Budget.total Prod.snd (filesOf matcher entries)) :
    reportOf contentId quote matcher root input entries =
      reportOf contentId quote matcher root input tree.entries := by
  have hb : input.budget ≤ u64Max := input.budget_le.trans (by decide)
  set all := sortHits (hitsOf contentId quote matcher root input tree.entries) with hall
  set part := sortHits (hitsOf contentId quote matcher root input entries) with hpart
  have hfilesAll : filesOf matcher tree.entries = all.map FileHit.found :=
    (tree.part_all.map_found_sortHits contentId quote matcher root input).symm
  have hfiles : filesOf matcher entries = part.map FileHit.found :=
    (h.map_found_sortHits contentId quote matcher root input).symm
  have hspend : tree.shown matcher input.budget =
      (Budget.spend FileHit.matches_ input.budget 0 all).map FileHit.found := by
    rw [SearchTree.shown, hfilesAll, ← Budget.map_spend]; rfl
  have hsub : part.Sublist all :=
    sortByKey_sublist (tree.part_all.nodup_hits contentId quote matcher root input)
      (h.subperm_hits contentId quote matcher root input)
  have hnodup : all.Nodup :=
    nodup_sortByKey (tree.part_all.nodup_hits contentId quote matcher root input)
  rw [hfilesAll, hspend, Budget.total_map] at hshown hmore
  rw [hfiles, Budget.total_map] at hq
  have hmem : Budget.spend FileHit.matches_ input.budget 0 all ⊆ part := by
    intro hit hhit
    by_contra hnot
    have hone := hshown _ (List.mem_map_of_mem hhit)
    have hlost := Budget.total_sublist_of_notMem FileHit.matches_ hsub
      ((Budget.spend_initial _ _ 0 all).subset hhit) hnot
    change Budget.total FileHit.matches_ all ≤ 8 * input.budget + hit.matches_ at hone
    change 8 * input.budget < Budget.total FileHit.matches_ part at hq
    omega
  have hsame := Budget.spend_sublist hsub hmem hnodup
  have htrunc : Budget.spend FileHit.matches_ input.budget 0 part ≠ part ↔
      Budget.spend FileHit.matches_ input.budget 0 all ≠ all := by
    rw [hsame]
    constructor
    · intro hne he
      rw [he] at hmem
      exact hne (he.trans (hsub.eq_of_length_le (List.subperm_of_subset hnodup hmem).length_le).symm)
    · intro hne he
      have := hmore fun heq => hne ((Budget.spend_initial _ _ 0 all).eq_of_length (by
        have := congrArg List.length heq
        rwa [List.length_map, List.length_map] at this))
      change 8 * input.budget < Budget.total FileHit.matches_ part at hq
      rw [← he] at hq
      change Budget.total FileHit.matches_ _ ≤ _ at this
      omega
  have hzero : ∀ (k : TreeEntry → Bool), (∀ e ∈ tree.entries, k e = false) →
      entries.countP k = tree.entries.countP k := by
    intro k hk
    rw [List.countP_eq_zero.2 fun e he => by rw [hk e (h.subset he)]; decide,
      List.countP_eq_zero.2 fun e he => by rw [hk e he]; decide]
  rw [reportOf, reportOf, report_eq hb, report_eq hb, ← hpart, ← hall, decide_eq_decide.2 htrunc, hsame,
    hzero _ fun e he => (hskip e he).1, hzero _ fun e he => (hskip e he).2]

/-- **On a settled tree there is one answer.** -/
theorem SearchTree.Settled.answer {answer : Exec ProtocolError Report}
    (h : tree.Settled matcher input.budget)
    (ha : Answers contentId quote matcher root tree input answer) :
    answer = .ok (reportOf contentId quote matcher root input tree.entries) := by
  obtain ⟨seen, rest, hperm, hq, rfl⟩ := (answers_iff contentId quote matcher root input).1 ha
  have hpart := SearchTree.part_left hperm
  rcases hq with rfl | hq
  · rw [List.append_nil] at hperm
    rw [tree.part_all.reportOf_perm contentId quote matcher root input hperm]
  · rcases h with hfew | ⟨hskip, hshown, hmore⟩
    · have := Budget.total_sublist Prod.snd (hpart.files_sublist matcher)
      omega
    · exact congrArg _ (hpart.reportOf_settled contentId quote matcher root input hskip hshown hmore hq)

/-- The entries that are not skipped. -/
def unskipped (e : TreeEntry) : Bool := !e.isBinary && !e.isInvalidUtf8

theorem not_binary_of_unskipped {e : TreeEntry} (h : unskipped e = true) : ¬e.isBinary = true := by
  rw [unskipped, Bool.and_eq_true, Bool.not_eq_true'] at h
  rw [h.1]; decide

theorem not_invalid_of_unskipped {e : TreeEntry} (h : unskipped e = true) :
    ¬e.isInvalidUtf8 = true := by
  rw [unskipped, Bool.and_eq_true, Bool.not_eq_true', Bool.not_eq_true'] at h
  rw [h.2]; decide

theorem unskipped_of_found {e : TreeEntry} {f : FileMatches} (h : e.found matcher = some f) :
    unskipped e = true := by
  rcases e with _ | _ | ⟨rel, _ | bytes⟩ <;> simp only [TreeEntry.found, reduceCtorEq] at h
  split_ifs at h with hm
  have ht : IsText bytes := by
    by_contra ht
    exact hm (if_neg ht)
  simp [unskipped, TreeEntry.isBinary, TreeEntry.isInvalidUtf8, ht.nul, ht.utf8]

theorem filesOf_unskipped (entries : List TreeEntry) :
    filesOf matcher (entries.filter unskipped) = filesOf matcher entries := by
  refine congrArg (sortByKey Prod.fst) ?_
  induction entries with
  | nil => rfl
  | cons e entries ih =>
    rw [List.filter_cons, List.filterMap_cons]
    rcases hf : e.found matcher with _ | f
    · split_ifs
      · rw [List.filterMap_cons, hf, ih]
      · exact ih
    · rw [if_pos (unskipped_of_found matcher hf), List.filterMap_cons, hf, ih]

/-- The request in another mode. -/
def GrepRequest.inMode (input : GrepRequest) (mode : GrepOutputMode) : GrepRequest :=
  { input with outputMode := mode }

/-- **When answers do not depend on the schedule**, in one mode and between modes: exactly on the
    settled trees. -/
theorem answers_settled :
    ((∀ a₁ a₂, Answers contentId quote matcher root tree input a₁ →
        Answers contentId quote matcher root tree input a₂ →
        a₁.map (Report.render input.outputMode) = a₂.map (Report.render input.outputMode)) ∧
      ∀ m₁ m₂ a₁ a₂, Answers contentId quote matcher root tree (input.inMode m₁) a₁ →
        Answers contentId quote matcher root tree (input.inMode m₂) a₂ →
        a₁.map Report.view = a₂.map Report.view) ↔ tree.Settled matcher input.budget := by
  constructor
  · rintro ⟨-, hviews⟩
    have hview : ∀ keep : TreeEntry → Bool,
        8 * input.budget < Budget.total Prod.snd (filesOf matcher (tree.entries.filter keep)) →
        (reportOf contentId quote matcher root input (tree.entries.filter keep)).view =
          (reportOf contentId quote matcher root input tree.entries).view := fun keep hk =>
      Except.ok.inj (hviews input.outputMode input.outputMode _ _
        (answers_filter contentId quote matcher root input keep hk)
        (answers_all contentId quote matcher root input))
    simp only [(tree.part_filter _).view_reportOf, tree.part_all.view_reportOf, Prod.mk.injEq,
      GrepSummary.mk.injEq] at hview
    rw [SearchTree.Settled, or_iff_not_imp_left, not_le]
    intro hmany
    refine ⟨?_, fun f hf => ?_, fun hne => ?_⟩
    · -- a walk that quits before the entries that would be skipped
      have hfiles := filesOf_unskipped matcher tree.entries
      have hcount := (hview unskipped (by rwa [hfiles])).2.2.2
      simp only [List.countP_eq_zero.2 fun e he => not_binary_of_unskipped (List.mem_filter.1 he).2,
        List.countP_eq_zero.2 fun e he => not_invalid_of_unskipped (List.mem_filter.1 he).2,
        eq_comm (a := 0), List.countP_eq_zero, Bool.not_eq_true] at hcount
      exact fun e he => ⟨hcount.1 e he, hcount.2 e he⟩
    · -- a walk that quits before `f`, which is shown
      by_contra hlost
      rw [not_le] at hlost
      have hmem : f ∈ filesOf matcher tree.entries := (Budget.spend_initial _ _ 0 _).subset hf
      have hsub : ((filesOf matcher tree.entries).erase f).Sublist (filesOf matcher tree.entries) :=
        List.erase_sublist
      have hfiles := filesOf_keepFiles matcher hsub
      have htotal := Budget.total_perm Prod.snd (List.perm_cons_erase hmem)
      rw [Budget.total_cons] at htotal
      have hsame := (hview _ (by rw [hfiles]; omega)).1
      rw [hfiles] at hsame
      rw [SearchTree.shown, ← hsame] at hf
      exact (tree.part_all.nodup_files matcher).not_mem_erase ((Budget.spend_initial _ _ 0 _).subset hf)
    · -- a walk that quits after just the files that are shown
      by_contra hlost
      rw [not_le] at hlost
      have hfiles := filesOf_keepFiles matcher
        (Budget.spend_initial Prod.snd input.budget 0 (filesOf matcher tree.entries)).sublist
      have hsame := (hview _ (by rw [hfiles]; exact hlost)).2.2.1
      rw [hfiles, Budget.spend_spend, decide_eq_decide] at hsame
      exact hsame.2 hne rfl
  · intro h
    refine ⟨fun a₁ a₂ h₁ h₂ => ?_, fun m₁ m₂ a₁ a₂ h₁ h₂ => ?_⟩
    · rw [h.answer contentId quote matcher root input h₁, h.answer contentId quote matcher root input h₂]
    · rw [SearchTree.Settled.answer contentId quote matcher root (input.inMode m₁) h h₁,
        SearchTree.Settled.answer contentId quote matcher root (input.inMode m₂) h h₂]
      show Except.ok _ = Except.ok _
      rw [tree.part_all.view_reportOf, tree.part_all.view_reportOf]
      rfl

theorem render_truncated {mode : GrepOutputMode} {reported : List FileHit} {m b u : ℕ} :
    (Report.mk reported ⟨m, true, b, u⟩).render mode ≠
      (Report.mk reported ⟨m, false, b, u⟩).render mode := by
  intro h
  have hlen := congrArg List.length h
  simp only [Report.render, GrepSummary.render, List.length_append, length_utf8,
    String.utf8ByteSize_append] at hlen
  have h₁ : (toString true).utf8ByteSize = 4 := by decide
  have h₂ : (toString false).utf8ByteSize = 5 := by decide
  omega

/-- Visiting `b` or not decides the text. -/
theorem answers_unsettled : ∃ a₁ a₂,
    Answers (fun _ => ⟨0⟩) id everyLine [] searchSample searchRequest a₁ ∧
      Answers (fun _ => ⟨0⟩) id everyLine [] searchSample searchRequest a₂ ∧
      a₁.map (Report.render searchRequest.outputMode) ≠
        a₂.map (Report.render searchRequest.outputMode) := by
  have hits : ∀ entries hits, hitsOf (fun _ => ⟨0⟩) id everyLine [] searchRequest entries = hits →
      (hits.Pairwise fun a b => a.rel < b.rel) → searchSample.Part entries →
      sortHits (hitsOf (fun _ => ⟨0⟩) id everyLine [] searchRequest entries) = hits :=
    fun entries hits heq hs hpart => eq_of_sorted FileHit.rel
      (sortByKey_pairwise (hpart.nodup_hits _ _ _ _ _)) hs ((sortByKey_perm _ _).trans (List.Perm.of_eq heq))
  have hall : reportOf (fun _ => ⟨0⟩) id everyLine [] searchRequest searchSample.entries =
      ⟨[⟨["a"], [], [], 9⟩], 9, true, 0, 0⟩ := by
    rw [reportOf, hits _ [⟨["a"], [], [], 9⟩, ⟨["b"], [], [], 1⟩] (by decide) (by decide)
      searchSample.part_all]
    decide
  have hone : reportOf (fun _ => ⟨0⟩) id everyLine [] searchRequest
      (searchSample.entries.filter (keepFiles everyLine [(["a"], 9)])) =
      ⟨[⟨["a"], [], [], 9⟩], 9, false, 0, 0⟩ := by
    rw [reportOf, hits _ [⟨["a"], [], [], 9⟩] (by decide) (by decide) (searchSample.part_filter _)]
    decide
  refine ⟨_, _, answers_all _ _ _ _ _, answers_sample, fun h => ?_⟩
  rw [hall, hone] at h
  exact render_truncated (Except.ok.inj h)

end Hashline
