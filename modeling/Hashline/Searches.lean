/-
  Searches among mutations: the search of one file that is named reads one
  version of it, whatever is put in its place meanwhile.
-/
import Hashline.Served

namespace Hashline

open Machine Object

variable {h : Host} {n : ℕ} {ε α : Type}

/-- The thread found something at the place that is no regular file. -/
def State.SawOther (s : State h) (who : ℕ) (l : Loc) : Prop :=
  ∃ d ∈ s.trace, d.who = who ∧ ∃ f, d.after.entries l = some f ∧ (d.after.files f).type ≠ .regular

theorem State.SawOther.grown {s s' : State h} {who : ℕ} {l : Loc} (hs : s.SawOther who l)
    (hg : s.trace <:+ s'.trace) : s'.SawOther who l := by
  obtain ⟨d, hd, hfound⟩ := hs
  exact ⟨d, hg.subset hd, hfound⟩

/-! ## What reading a whole file answers -/

section
variable {f inode : ℕ} {b : Bytes} {E : ε → Prop}

/-- What is read so far is a part of the bytes, and all of them unless the limit is reached. -/
theorem readToEnd_beheld {limit : ℕ} : ∀ (rounds : ℕ) {bytes : Bytes}, bytes <+: b →
    limit ≤ bytes.length + rounds → (readToEnd f limit rounds bytes : Op h ε _).Within (beholding f b inode)
      (fun r => ∀ all, r = .ok all → limit ≤ all.length ∨ all = b) E
  | 0, bytes, _, hr => by
    rintro _ ⟨⟩
    exact .inl hr
  | rounds + 1, bytes, hp, hr => by
    rw [readToEnd]
    split_ifs with hlimit
    · rintro _ ⟨⟩
      exact .inl hlimit
    refine Proc.within_call trivial fun a ha => ?_
    change Except IoError Bytes at a
    rcases a with e | chunk
    · rintro all ⟨⟩
    obtain ⟨k, hk, rfl⟩ := ha rfl (by omega)
    obtain ⟨hgrow, hend⟩ := prefix_read hp hk
    show Proc.Within _ _ _ (if (b.drop bytes.length).take k = [] then _ else _)
    split_ifs with hc
    · rintro _ ⟨⟩
      exact .inr (hend hc)
    · refine readToEnd_beheld rounds hgrow ?_
      have hpos := List.length_pos_iff.2 hc
      rw [List.length_append]
      omega

theorem readVec_beheld (size : ℕ) : (readVec f size : Op h ε _).Within (beholding f b inode)
    (fun r => ∀ all, r = .ok all → all = b) E := by
  refine Proc.within_call trivial fun granted _ => ?_
  change Bool at granted
  cases granted with
  | false => exact nofun
  | true =>
    refine (readToEnd_beheld _ List.nil_prefix (Nat.le_add_left _ _)).bind fun r hr => ?_
    rcases r with e | all
    · exact nofun
    show Proc.Within _ _ _ (if maxVecBytes < all.length then _ else _)
    split_ifs with hlarge
    · exact nofun
    · rintro _ ⟨⟩
      exact (hr all rfl).resolve_left (by omega)

end

/-! ## The report on one file -/

namespace Grep
variable {Overrides : Type} (crates : Crates Overrides) (workspace : Workspace)

/-- The place a search begins at. -/
def root (input : GrepRequest) : PathBuf := Hashline.resolvePath workspace.root (input.path.getD ".")

/-- The bytes report the search of a file with the content. -/
def Shows (h : Host) (input : GrepRequest) (content bytes : Bytes) : Prop :=
  ∃ matcher granted searched, crates.buildMatcher input.pattern input.ignoreCase = .ok matcher ∧
    searchFile h.contentId crates.quote granted (input.searchContext matcher (root workspace input))
      (root workspace input) (root workspace input).named .explicitFile (.ok content) = .ok searched ∧
    bytes = (report searched.hits input.budget 0 0).render input.outputMode

/-- The bytes report the search of a tree. -/
def ShowsTree (walker : Walker h Overrides crates) (input : GrepRequest) (bytes : Bytes) : Prop :=
  ∃ matcher report, crates.buildMatcher input.pattern input.ignoreCase = .ok matcher ∧
    searchTree crates walker (input.searchContext matcher (root workspace input)) (root workspace input)
      input = .ok report ∧ bytes = report.render input.outputMode

end Grep

namespace Service
variable {V : Service h n} {rules : Rules h} {i : Fin n} {s s' : State h}

section
variable (hc : rules.Closed)
include hc

/-- **Reading a whole file** answers what stood at the place when it was opened. -/
theorem fsRead_safe {path : PathBuf} (hi : V.Inv s) : (fsRead path : Op h ε _).Safe (step rules i) everywhere
    (V.contract i) (fun r s' => V.Inv s' ∧ V.Keeps i s s' ∧ (V.Public (h.locate path) →
      ∀ bytes, r = .ok (.ok bytes) → s'.Saw i (h.locate path) bytes)) s := by
  by_cases hpub : V.Public (h.locate path)
  swap
  · have hwithin : (fsRead path : Op h ε _).Within modestly Anything Anything :=
      (meets_fsRead path).within (modest_of_calm (fsRead_calm path))
    exact Proc.safe_mono (modestly_safe hc hwithin hi) fun r s' hr =>
      ⟨hr.2.1, hr.2.2, fun h => absurd h hpub⟩
  refine safe_modest (c := .openRead path) hc trivial fun s₁ x a s₂ hk₁ hk₂ _ hi₂ _ hm => ?_
  have hk := hk₁.trans hk₂
  obtain ⟨hw, ⟨e, -, rfl⟩ | ⟨f, hf, rfl⟩ | ⟨-, rfl⟩⟩ := act_openRead hm.act
  · exact ⟨hi₂, hk, fun _ => nofun⟩
  swap
  · exact ⟨hi₂, hk, fun _ => nofun⟩
  have hent : s₂.world.entries (h.locate path) = some f := by
    rw [hw]
    exact hf
  have hshows : V.Shows f (s₂.world.files f).content (s₂.world.files f).inode s₂ :=
    ⟨⟨_, hpub, .inl hent⟩, rfl, rfl⟩
  have hsaw : s₂.Saw i (h.locate path) (s₂.world.files f).content :=
    ⟨_, hm.trace ▸ List.mem_cons_self, rfl, World.contentAt_of_entry _ hent⟩
  refine Proc.safe_mono (within_safe hc (D := beholding f (s₂.world.files f).content (s₂.world.files f).inode)
    (W := fun r => ∀ all, r = .ok all → all = (s₂.world.files f).content) (E := Anything) (fun _ h => h)
    (fun _ _ hk hs => hs.retains hk.retains) (fun _ _ _ _ _ _ hs hx hm => beholding_answer hs hx hm)
    ?_ hi₂ hshows) fun r s' hr => ?_
  · refine Proc.within_call trivial fun a _ => ?_
    change Except IoError Metadata at a
    rcases a with e | m <;> exact readVec_beheld _
  obtain ⟨hr, hi', hk'⟩ := hr
  refine ⟨hi', hk.trans hk', fun _ bytes he => ?_⟩
  subst he
  rw [hr bytes rfl]
  exact hsaw.grown hk'.grown

variable {Overrides : Type} {crates : Crates Overrides} {walker : Walker h Overrides crates}
  {workspace : Workspace} {input : GrepRequest}

/-- What the search of one file comes to: if there is a report, it is on bytes that the thread found. -/
theorem searchExplicit_safe (hi : V.Inv s) {matcher : Matcher}
    (hm : crates.buildMatcher input.pattern input.ignoreCase = .ok matcher) :
    (Grep.searchExplicit crates (input.searchContext matcher (Grep.root workspace input))
      (Grep.root workspace input) input : Op h _ _).Safe (step rules i) everywhere (V.contract i)
      (fun r s' => V.Inv s' ∧ (V.Public (h.locate (Grep.root workspace input)) → ∀ report, r = .ok report →
        ∃ content, s'.Saw i (h.locate (Grep.root workspace input)) content ∧
          Grep.Shows crates workspace h input content (report.render input.outputMode))) s := by
  set path := Grep.root workspace input with hpath
  refine Proc.safe_bind_of (fsRead_safe hc hi) (fun content s₁ hr => ?_)
    fun e s₁ hr => ⟨hr.1, fun _ => nofun⟩
  obtain ⟨hi₁, hk₁, hsaw⟩ := hr
  rcases content with source | content
  · exact safe_modest (c := .reserve 0) hc trivial fun s₂ x granted s₃ _ _ _ hi₃ _ _ => ⟨hi₃, fun _ => nofun⟩
  refine safe_modest (c := .reserve content.length) hc trivial fun s₂ x granted s₃ hk₂ hk₃ _ hi₃ _ _ => ?_
  change Bool at granted
  have hshows : ∀ searched, searchFile h.contentId crates.quote granted (input.searchContext matcher path)
      path path.named .explicitFile (.ok content) = .ok searched → V.Public (h.locate path) →
      ∃ content, s₃.Saw i (h.locate path) content ∧ Grep.Shows crates workspace h input content
        ((report searched.hits input.budget 0 0).render input.outputMode) := fun searched hs hpub =>
    ⟨content, (hsaw hpub content rfl).grown (hk₂.trans hk₃).grown, matcher, granted, searched, hm, hs, rfl⟩
  rcases hsearch : searchFile h.contentId crates.quote granted (input.searchContext matcher path) path
    path.named .explicitFile (.ok content)
    with e | searched
  · exact ⟨hi₃, fun _ => nofun⟩
  have hshows := hshows searched hsearch
  cases searched <;> exact ⟨hi₃, fun hpub _ he => by cases he; exact hshows hpub⟩

/-- **A search among mutations**: it reports on one content of the file it was asked to search, as the
    thread found it, or on the tree below what it found there. -/
theorem grep_safe (hi : V.Inv s) :
    (Grep.run crates walker workspace input : Op h _ _).Safe (step rules i) everywhere (V.contract i)
      (fun r s' => V.Public (h.locate (Grep.root workspace input)) → ∀ bytes, r = .ok bytes →
        (∃ content, s'.Saw i (h.locate (Grep.root workspace input)) content ∧
          Grep.Shows crates workspace h input content bytes) ∨
        s'.SawOther i (h.locate (Grep.root workspace input)) ∧
          Grep.ShowsTree crates workspace walker input bytes) s := by
  unfold Grep.run
  rcases input.validate.mapErr ProtocolError.ofContract with e | _
  · exact fun _ _ => nofun
  show Proc.Safe _ _ _ (Proc.orElse _ _ >>= _) _ _
  rcases hmatcher : crates.buildMatcher input.pattern input.ignoreCase with e | matcher
  · exact fun _ _ => nofun
  show Proc.Safe _ _ _ (workspace.resolvePath (input.path.getD ".") >>= _) _ _
  have hresolve : (workspace.resolvePath (input.path.getD ".") : Op h _ _).Within modestly
      (· = Grep.root workspace input) Anything :=
    (meets_resolvePath workspace _ fun _ => trivial).within (modest_of_calm (resolvePath_calm workspace _))
  refine Proc.safe_bind_of (modestly_safe hc hresolve hi) (fun path s₁ hr => ?_) fun e s₁ hr _ => nofun
  obtain ⟨rfl, hi₁, -⟩ := hr
  refine safe_modest (c := .fileType _) hc trivial fun s₂ x a s₃ _ _ _ hi₃ _ hm => ?_
  obtain ⟨hw, hanswer⟩ := act_fileType hm.act
  change Except IoError FileType at a
  rcases a with e | type
  · exact fun _ _ => nofun
  show Proc.Safe _ _ _ (if type = .regular then _ else _) _ _
  split_ifs with htype
  · refine Proc.safe_bind_of (searchExplicit_safe hc hi₃ hmatcher) (fun report s₄ hr hpub bytes he => ?_)
      fun e s₄ _ _ => nofun
    cases he
    exact .inl (hr.2 hpub report rfl)
  · rcases htree : Grep.searchTree crates walker (input.searchContext matcher (Grep.root workspace input))
      (Grep.root workspace input) input with e | report
    · exact fun _ _ => nofun
    · rintro _ bytes ⟨⟩
      obtain ⟨e, -, he⟩ | ⟨f, hf, he⟩ | ⟨-, he⟩ := hanswer <;> cases he
      refine .inr ⟨⟨_, hm.trace ▸ List.mem_cons_self, rfl, f, ?_, ?_⟩, matcher, report, hmatcher, htree, rfl⟩
      · rw [hw]
        exact hf
      · rw [hw]
        exact htype

end

end Service

end Hashline
