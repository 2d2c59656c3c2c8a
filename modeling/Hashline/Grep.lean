/-
  The parallel search of a tree: what its visitors collect, under any order of
  the visits, and when the answer is the same.
-/
import Hashline.Lib.SortKey
import Hashline.Lib.Walk
import Hashline.Search
import Mathlib.Data.List.Lex
import Mathlib.Data.String.Basic

namespace Hashline

open Machine

/-! ## The visitor -/

/-- What the walk hands to a visitor: a failure, something that is no file, or a file, with what
    reading it gives. -/
inductive TreeEntry where
  | failed
  | other
  | file (rel : PathBuf) (content : Except IoError Bytes)
  deriving DecidableEq

/-- What the workers share. -/
structure SearchShared where
  total : ℕ
  skippedBinary : ℕ
  skippedInvalidUtf8 : ℕ
  error : Option ProtocolError
  panicked : Bool
  collected : List (List FileHit)

def SearchShared.start : SearchShared := ⟨0, 0, 0, none, false, []⟩

section
variable (contentId : Bytes → SnapshotId) (quote : String → String) (granted : Bool)
  (ctx : SearchContext)

/-- What is made of the search of one entry; the flag is `WalkState::Quit`. -/
def record (hits : List FileHit) (s : SearchShared) :
    Exec ProtocolError Searched → List FileHit × SearchShared × Bool
  | .ok (.hit hit) =>
    let found := s.total + hit.matches_
    (hits ++ [hit], { s with total := found }, decide (found > ctx.quitThreshold))
  | .ok .nothing => (hits, s, false)
  | .ok .skipBinary => (hits, { s with skippedBinary := s.skippedBinary + 1 }, false)
  | .ok .skipInvalidUtf8 => (hits, { s with skippedInvalidUtf8 := s.skippedInvalidUtf8 + 1 }, false)
  | .error (.err error) => (hits, { s with error := s.error.or (some error) }, true)
  | .error .panic => (hits, { s with panicked := true }, true)

/-- `GrepVisitor`: its hits are collected when it is dropped. -/
def grepVisitor : Visiting TreeEntry (List FileHit) SearchShared where
  visit
    | .file rel content, hits, s => record ctx hits s
      (searchFile contentId quote granted ctx (ctx.root ++ rel) rel .treeEntry content)
    | _, hits, s => (hits, s, false)
  drop hits s := if hits = [] then s else { s with collected := s.collected ++ [hits] }

end

/-- `hits.sort_by(|a, b| a.rel.cmp(&b.rel))`. -/
def sortHits (hits : List FileHit) : List FileHit := sortByKey FileHit.rel hits

/-- What `run` answers after the walk. -/
def SearchShared.finish (maxMatches : ℕ) (s : SearchShared) : Exec ProtocolError Report :=
  if s.panicked then Exec.panic
  else match s.error with
    | some error => Exec.fail error
    | none => .ok (report (sortHits s.collected.flatten) maxMatches s.skippedBinary
        s.skippedInvalidUtf8)

/-- The match budget of a request. -/
def GrepRequest.budget (input : GrepRequest) : ℕ := max input.maxMatches.toNat 1

/-- `usize::saturating_mul`. -/
def saturatingMul (a b : ℕ) : ℕ := min (a * b) u64Max

def GrepRequest.searchContext (input : GrepRequest) (matcher : Matcher) (root : PathBuf) :
    SearchContext :=
  ⟨matcher, root, input.effectiveContext.1.toNat, input.effectiveContext.2.toNat,
    saturatingMul input.budget 8, input.outputMode⟩

/-! ## Trees -/

def TreeEntry.rel? : TreeEntry → Option PathBuf
  | .file rel _ => some rel
  | _ => none

/-- The entries of a tree: paths that differ, and contents that fit a vector. -/
structure SearchTree where
  entries : List TreeEntry
  distinct : (entries.filterMap TreeEntry.rel?).Nodup
  fits : ∀ rel bytes, .file rel (.ok bytes) ∈ entries → bytes.length ≤ maxFileBytes

/-- An answer the parallel search of the tree can give: the workers are any number, and the schedule
    is any. -/
def Answers (contentId : Bytes → SnapshotId) (quote : String → String) (matcher : Matcher)
    (root : PathBuf) (tree : SearchTree) (input : GrepRequest)
    (answer : Exec ProtocolError Report) : Prop :=
  ∃ workers moves w, (Walk.start workers tree.entries [] SearchShared.start).runs
      (grepVisitor contentId quote true (input.searchContext matcher root)) moves = some w ∧
    w.live = [] ∧ answer = w.shared.finish input.budget

/-! ## What one entry comes to -/

/-- The path of a file and how many of its lines match. -/
abbrev FileMatches := PathBuf × ℕ

def FileHit.found (hit : FileHit) : FileMatches := (hit.rel, hit.matches_)

/-- The matching lines of a text that is searched. -/
def matchesOf (matcher : Matcher) (bytes : Bytes) : List ℕ :=
  if IsText bytes then (matchLines matcher bytes).getD [] else []

/-- A file with matches. -/
def TreeEntry.found (matcher : Matcher) : TreeEntry → Option FileMatches
  | .file rel (.ok bytes) =>
    if matchesOf matcher bytes = [] then none else some (rel, (matchesOf matcher bytes).length)
  | _ => none

/-- A file left out for a NUL byte. -/
def TreeEntry.isBinary : TreeEntry → Bool
  | .file _ (.ok bytes) => decide ((0 : UInt8) ∈ bytes)
  | _ => false

/-- A file left out as no UTF-8. -/
def TreeEntry.isInvalidUtf8 : TreeEntry → Bool
  | .file _ (.ok bytes) => decide ((0 : UInt8) ∉ bytes ∧ ¬Utf8.Valid bytes)
  | _ => false

namespace SearchTree
variable (matcher : Matcher) (tree : SearchTree)

/-- The files of the tree that have matches. -/
def found : List FileMatches := tree.entries.filterMap (TreeEntry.found matcher)

end SearchTree

/-! ## What one visit does -/

def Searched.hits : Searched → List FileHit
  | hit h => [h]
  | _ => []

/-- The contents of a file fit a vector. -/
def TreeEntry.Fits (e : TreeEntry) : Prop :=
  ∀ rel bytes, e = .file rel (.ok bytes) → bytes.length ≤ maxFileBytes

theorem classifyGrepText_tree {bytes : Bytes} (h : bytes.length ≤ maxFileBytes) :
    ((0 : UInt8) ∈ bytes ∧ classifyGrepText bytes .treeEntry = .ok .skipBinary) ∨
    ((0 : UInt8) ∉ bytes ∧ ¬Utf8.Valid bytes ∧
      classifyGrepText bytes .treeEntry = .ok .skipInvalidUtf8) ∨
    ∃ ht : IsText bytes, classifyGrepText bytes .treeEntry = .ok (.search ⟨bytes, ht.utf8⟩) := by
  unfold classifyGrepText
  rcases validateText_cases h with ⟨h0, byte, hv⟩ | ⟨h0, hn, n, hv⟩ | ⟨ht, hv⟩
  · exact .inl ⟨h0, by rw [hv]; rfl⟩
  · exact .inr (.inl ⟨h0, hn, by rw [hv]; rfl⟩)
  · exact .inr (.inr ⟨ht, by rw [hv]⟩)

/-- The counts one visit adds. -/
structure Visited (matcher : Matcher) (e : TreeEntry) (hits : List FileHit) (s s' : SearchShared) :
    Prop where
  found : hits.map FileHit.found = (e.found matcher).toList
  total : s'.total = s.total + Budget.total FileHit.matches_ hits
  binary : s'.skippedBinary = s.skippedBinary + e.isBinary.toNat
  invalidUtf8 : s'.skippedInvalidUtf8 = s.skippedInvalidUtf8 + e.isInvalidUtf8.toNat
  error : s'.error = s.error
  panicked : s'.panicked = s.panicked
  collected : s'.collected = s.collected

section
variable (contentId : Bytes → SnapshotId) (quote : String → String) (ctx : SearchContext)

/-- The hits of one entry: one, or none. -/
def TreeEntry.hits : TreeEntry → List FileHit
  | .file rel content =>
    match searchFile contentId quote true ctx (ctx.root ++ rel) rel .treeEntry content with
    | .ok searched => searched.hits
    | .error _ => []
  | _ => []

/-- What the search of a file of a tree gives. -/
theorem searchFile_tree {bytes : Bytes} (h : bytes.length ≤ maxFileBytes) (path rel : PathBuf) :
    ((0 : UInt8) ∈ bytes ∧
      searchFile contentId quote true ctx path rel .treeEntry (.ok bytes) = .ok .skipBinary) ∨
    ((0 : UInt8) ∉ bytes ∧ ¬Utf8.Valid bytes ∧
      searchFile contentId quote true ctx path rel .treeEntry (.ok bytes) = .ok .skipInvalidUtf8) ∨
    (IsText bytes ∧ matchesOf ctx.matcher bytes = [] ∧
      searchFile contentId quote true ctx path rel .treeEntry (.ok bytes) = .ok .nothing) ∨
    (IsText bytes ∧ matchesOf ctx.matcher bytes ≠ [] ∧ ∃ hit,
      searchFile contentId quote true ctx path rel .treeEntry (.ok bytes) = .ok (.hit hit) ∧
        hit.found = (rel, (matchesOf ctx.matcher bytes).length)) := by
  rcases classifyGrepText_tree h with ⟨h0, hc⟩ | ⟨h0, hv, hc⟩ | ⟨ht, hc⟩
  · exact .inl ⟨h0, by rw [searchFile, hc]; rfl⟩
  · exact .inr (.inl ⟨h0, hv, by rw [searchFile, hc]; rfl⟩)
  · have hs : searchFile contentId quote true ctx path rel .treeEntry (.ok bytes) =
        searchText contentId quote true ctx bytes rel (matchLines ctx.matcher bytes) := by
      rw [searchFile, hc]; rfl
    rw [hs, matchesOf, if_pos ht]
    rcases hm : matchLines ctx.matcher bytes with _ | _ | ⟨line, lines⟩
    · exact .inr (.inr (.inl ⟨ht, rfl, rfl⟩))
    · exact .inr (.inr (.inl ⟨ht, rfl, rfl⟩))
    · obtain ⟨hit, hhit, hrel, hmatches⟩ :=
        renderHit_eq_ok contentId quote ctx ht rel (line :: lines)
      refine .inr (.inr (.inr ⟨ht, List.cons_ne_nil _ _, hit, by
        rw [searchText, hhit]; simp, ?_⟩))
      rw [FileHit.found, hrel, hmatches]; rfl

theorem grepVisitor_visit_of {rel : PathBuf} {content : Except IoError Bytes} {r : Searched}
    (hr : searchFile contentId quote true ctx (ctx.root ++ rel) rel .treeEntry content = .ok r)
    (hits : List FileHit) (s : SearchShared) :
    (TreeEntry.file rel content).hits contentId quote ctx = r.hits ∧
      (grepVisitor contentId quote true ctx).visit (.file rel content) hits s =
        record ctx hits s (.ok r) := by
  simp only [grepVisitor, TreeEntry.hits, hr, and_self]

/-- **A visit** adds the hits of its entry, and asks to quit when they exceed the threshold. -/
theorem grepVisitor_visit {e : TreeEntry} (h : e.Fits) (hits : List FileHit) (s : SearchShared) :
    ∃ s' q, (grepVisitor contentId quote true ctx).visit e hits s =
        (hits ++ e.hits contentId quote ctx, s', q) ∧
      (q = true ↔ e.hits contentId quote ctx ≠ [] ∧ ctx.quitThreshold < s'.total) ∧
      Visited ctx.matcher e (e.hits contentId quote ctx) s s' := by
  rcases e with _ | _ | ⟨rel, error | bytes⟩
  · exact ⟨s, false, by simp [grepVisitor, TreeEntry.hits], by simp [TreeEntry.hits],
      rfl, rfl, rfl, rfl, rfl, rfl, rfl⟩
  · exact ⟨s, false, by simp [grepVisitor, TreeEntry.hits], by simp [TreeEntry.hits],
      rfl, rfl, rfl, rfl, rfl, rfl, rfl⟩
  · exact ⟨s, false, by simp [grepVisitor, TreeEntry.hits, searchFile, record, Searched.hits],
      by simp [TreeEntry.hits, searchFile, Searched.hits], rfl, rfl, rfl, rfl, rfl, rfl, rfl⟩
  · rcases searchFile_tree contentId quote ctx (h rel bytes rfl)
      (ctx.root ++ rel) rel with ⟨h0, hr⟩ | ⟨h0, hv, hr⟩ | ⟨ht, hm, hr⟩ | ⟨ht, hm, hit, hr, hfound⟩
    all_goals
      obtain ⟨hhits, hvisit⟩ := grepVisitor_visit_of contentId quote ctx hr hits s
      rw [hhits, hvisit]
    · have hno : matchesOf ctx.matcher bytes = [] := if_neg fun ht => ht.nul h0
      exact ⟨{ s with skippedBinary := s.skippedBinary + 1 }, false,
        by simp [record, Searched.hits], by simp [Searched.hits],
        by simp [TreeEntry.found, hno, Searched.hits], rfl, by simp [TreeEntry.isBinary, h0],
        by simp [TreeEntry.isInvalidUtf8, h0], rfl, rfl, rfl⟩
    · have hno : matchesOf ctx.matcher bytes = [] := if_neg fun ht => hv ht.utf8
      exact ⟨{ s with skippedInvalidUtf8 := s.skippedInvalidUtf8 + 1 }, false,
        by simp [record, Searched.hits], by simp [Searched.hits],
        by simp [TreeEntry.found, hno, Searched.hits], rfl, by simp [TreeEntry.isBinary, h0],
        by simp [TreeEntry.isInvalidUtf8, h0, hv], rfl, rfl, rfl⟩
    · exact ⟨s, false, by simp [record, Searched.hits], by simp [Searched.hits],
        by simp [TreeEntry.found, hm, Searched.hits], rfl, by simp [TreeEntry.isBinary, ht.nul],
        by simp [TreeEntry.isInvalidUtf8, ht.utf8], rfl, rfl, rfl⟩
    · exact ⟨_, _, rfl, by simp [Searched.hits],
        by simp [TreeEntry.found, hm, Searched.hits, hfound], by simp [Searched.hits],
        by simp [TreeEntry.isBinary, ht.nul], by simp [TreeEntry.isInvalidUtf8, ht.utf8], rfl, rfl, rfl⟩

end

/-! ## What a walk collects -/

/-- What the visitors hold and have handed in is what the entries seen come to. -/
structure Collected (contentId : Bytes → SnapshotId) (quote : String → String) (ctx : SearchContext)
    (seen : List TreeEntry) (vs : List (List FileHit)) (s : SearchShared) (quit : Bool) : Prop where
  hits : (vs.flatten ++ s.collected.flatten).Perm (seen.flatMap (TreeEntry.hits contentId quote ctx))
  total : s.total = Budget.total FileHit.matches_ (seen.flatMap (TreeEntry.hits contentId quote ctx))
  binary : s.skippedBinary = seen.countP TreeEntry.isBinary
  invalidUtf8 : s.skippedInvalidUtf8 = seen.countP TreeEntry.isInvalidUtf8
  error : s.error = none
  panicked : s.panicked = false
  quit : quit = true → ctx.quitThreshold < s.total

section
variable (contentId : Bytes → SnapshotId) (quote : String → String) (ctx : SearchContext)

theorem Collected.start (workers : ℕ) :
    Collected contentId quote ctx [] (List.replicate workers []) SearchShared.start false :=
  ⟨by simp [SearchShared.start], rfl, rfl, rfl, rfl, rfl, fun h => by cases h⟩

theorem Collected.invariant : Walk.Invariant (grepVisitor contentId quote true ctx)
    fun seen vs s quit => (∀ e ∈ seen, e.Fits) → Collected contentId quote ctx seen vs s quit where
  perm seen vs vs' s quit hp h hfit := by
    obtain ⟨hhits, htotal, hb, hu, he, hpan, hq⟩ := h hfit
    exact ⟨(hp.symm.flatten.append_right _).trans hhits, htotal, hb, hu, he, hpan, hq⟩
  visit seen e v vs s quit h hfit := by
    rw [List.forall_mem_cons] at hfit
    obtain ⟨hhits, htotal, hb, hu, he, hpan, hq⟩ := h hfit.2
    obtain ⟨s', q, hvisit, hq', hv⟩ :=
      grepVisitor_visit contentId quote ctx hfit.1 v s
    rw [hvisit]
    refine ⟨?_, ?_, ?_, ?_, hv.error.trans he, hv.panicked.trans hpan, fun hquit => ?_⟩
    · rw [hv.collected, List.flatMap_cons, List.perm_iff_count]
      intro a
      have := List.perm_iff_count.1 hhits a
      simp only [List.flatten_cons, List.count_append] at this ⊢
      omega
    · rw [hv.total, htotal, List.flatMap_cons, Budget.total_append, Nat.add_comm]
    · rw [hv.binary, hb, List.countP_cons]; cases e.isBinary <;> rfl
    · rw [hv.invalidUtf8, hu, List.countP_cons]; cases e.isInvalidUtf8 <;> rfl
    · rcases Bool.or_eq_true_iff.1 hquit with h | h
      · exact (hq h).trans_le (by rw [hv.total]; exact Nat.le_add_right _ _)
      · exact (hq'.1 h).2
  leave seen v vs s quit h hfit := by
    obtain ⟨hhits, htotal, hb, hu, he, hpan, hq⟩ := h hfit
    simp only [grepVisitor]
    split_ifs with hv
    · subst hv
      exact ⟨hhits, htotal, hb, hu, he, hpan, hq⟩
    · refine ⟨?_, htotal, hb, hu, he, hpan, hq⟩
      rw [List.perm_iff_count]
      intro a
      have := List.perm_iff_count.1 hhits a
      simp only [List.flatten_cons, List.flatten_append, List.flatten_nil, List.append_nil,
        List.count_append] at this ⊢
      omega

/-- Entries whose hits exceed the threshold make a visitor quit. -/
theorem visitEach_quits {seen : List TreeEntry} (hfit : ∀ e ∈ seen, e.Fits) :
    ∀ s : SearchShared, s.total ≤ ctx.quitThreshold → ctx.quitThreshold < s.total +
      Budget.total FileHit.matches_ (seen.flatMap (TreeEntry.hits contentId quote ctx)) →
    (Walk.visitEach (grepVisitor contentId quote true ctx) [] seen s).2.2 = true := by
  induction seen with
  | nil =>
    intro s hle hlt
    rw [List.flatMap_nil, Budget.total_nil] at hlt
    omega
  | cons e seen ih =>
    intro s hle hlt
    rw [List.forall_mem_cons] at hfit
    obtain ⟨s', q, hvisit, hq, hv⟩ :=
      grepVisitor_visit contentId quote ctx hfit.1 [] s
    rw [List.flatMap_cons, Budget.total_append] at hlt
    simp only [Walk.visitEach, hvisit, Bool.or_eq_true]
    by_cases hex : ctx.quitThreshold < s'.total
    · -- the total grew, so this entry has a hit
      refine .inl (hq.2 ⟨fun hnil => ?_, hex⟩)
      rw [hv.total, hnil, Budget.total_nil] at hex
      omega
    · exact .inr (ih hfit.2 s' (by omega) (by rw [hv.total]; omega))

end

end Hashline
