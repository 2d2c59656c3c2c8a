/-
  Reads that go on from page to page: if all of them are answered, they show one
  version of the file, however many mutations take effect between them, and an
  edit of what they show is done on that version.
-/
import Hashline.Cursor
import Hashline.Reads
import Hashline.Reread

namespace Hashline

open Machine Object

/-! ## Pages that follow one another -/

/-- A read and the page it was answered with. -/
abbrev PageRead := ReadRequest × Page

/-- The reads go on where a footer says, until there is none. -/
def GoOn : Option PageCursor → List PageRead → Prop
  | footer, [] => footer = none
  | footer, (input, page) :: rest => footer ≠ none ∧ input.cursor = footer ∧ GoOn page.footer rest

/-- A client reads a file from the first line to the end, each time from the footer of the page before. -/
def Paged : List PageRead → Prop
  | [] => False
  | (input, page) :: rest =>
    input.cursor = none ∧ (input.startLine = none ∨ input.startLine = some 1) ∧ GoOn page.footer rest

section
variable {contentId : Bytes → SnapshotId} {snapshot snapshot' : Snapshot contentId} {granted : Bool}
  {page : Page} {first last : ℕ}

/-- It was answered of bytes that are one of those. -/
def PageOf (contentId : Bytes → SnapshotId) (S : Set Bytes) (r : PageRead) : Prop :=
  ∃ granted, ∃ snapshot : Snapshot contentId, snapshot.bytes ∈ S ∧ readSnapshot granted snapshot r.1 = .ok r.2

/-- A page is of the bytes, whatever the stamp. -/
theorem Page.Shows.alike (h : page.Shows snapshot first last) (hb : snapshot.bytes = snapshot'.bytes) :
    page.Shows snapshot' first last := by
  have hid : snapshot.id = snapshot'.id := by rw [snapshot.id_eq, snapshot'.id_eq]; exact congrArg _ hb
  have hcount : snapshot.lineCount = snapshot'.lineCount := by
    rw [snapshot.lineCount_eq', snapshot'.lineCount_eq', hb]
  refine ⟨hb ▸ h.rows, fun hlt => ?_, fun he => h.done (he.trans hcount.symm)⟩
  obtain ⟨cursor, hfooter, hsnapshot, hat⟩ := h.more (hcount ▸ hlt)
  exact ⟨cursor, hfooter, hsnapshot.trans hid, hb ▸ hat⟩

/-- A footer that names a line of the snapshot, or none at its end. -/
def FooterAt (snapshot : Snapshot contentId) (line : ℕ) (footer : Option PageCursor) : Prop :=
  footer = none ∧ line = snapshot.lineCount + 1 ∨
    ∃ cursor, footer = some cursor ∧ cursor.At snapshot line ∧ line ≤ snapshot.lineCount

theorem Page.Shows.footerAt (h : page.Shows snapshot first last) (hl : last ≤ snapshot.lineCount) :
    FooterAt snapshot (last + 1) page.footer := by
  rcases Nat.lt_or_eq_of_le hl with hlt | he
  · obtain ⟨cursor, hfooter, hat⟩ := h.more hlt
    exact .inr ⟨cursor, hfooter, hat, hlt⟩
  · exact .inl ⟨h.done he, congrArg (· + 1) he⟩

/-- A cursor that is answered with a page names the snapshot the page is of. -/
theorem readSnapshot_cursor {input : ReadRequest} {cursor : PageCursor} (hc : input.cursor = some cursor)
    (h : readSnapshot granted snapshot input = .ok page) :
    cursor.snapshot = snapshot.id ∧ input.startLine = none := by
  obtain ⟨u, hvalid, h⟩ := Exec.bind_eq_ok.1 h
  obtain ⟨line, hstart, -⟩ := Exec.bind_eq_ok.1 h
  constructor
  · rw [pageStart, hc] at hstart
    change validateCursorOnSnapshot _ _ _ _ = _ at hstart
    rw [validateCursorOnSnapshot_refines] at hstart
    obtain ⟨context, -, hr⟩ := validateReferenceCursor_eq snapshot input.path cursor
    rw [hr] at hstart
    by_contra hne
    rw [if_pos hne] at hstart
    cases hstart
  · have hvalid := Exec.mapErr_eq_ok.1 hvalid
    unfold ReadRequest.validate at hvalid
    rw [hc] at hvalid
    split_ifs at hvalid with _ _ hboth
    · cases hvalid
    · cases hvalid
    · cases hvalid
    · simpa using hboth

variable {S : Set Bytes}

/-- What follows a footer shows the lines from the one it names on. -/
theorem goOn_shown (hinj : Set.InjOn contentId S) (hs : snapshot.bytes ∈ S) {reads : List PageRead} :
    ∀ {footer line}, FooterAt snapshot line footer → 1 ≤ line → GoOn footer reads →
      (∀ r ∈ reads, PageOf contentId S r) →
      ((reads.map Prod.snd).flatMap Page.rows).map ContextLine.view =
        (List.range' line (snapshot.lineCount + 1 - line)).map (lineView snapshot.bytes) ∧
      ∀ r ∈ reads, r.2.header = snapshot.header r.1.path := by
  induction reads with
  | nil =>
    rintro footer line (⟨-, rfl⟩ | ⟨cursor, rfl, -⟩) - hgo -
    · simp
    · cases hgo
  | cons r rest ih =>
    obtain ⟨input, page⟩ := r
    rintro footer line (⟨rfl, -⟩ | ⟨cursor, rfl, hat, hle⟩) hpos ⟨hne, hcursor, hgo⟩ hall
    · exact absurd rfl hne
    obtain ⟨granted, snapshot', hs', hpage⟩ := hall _ List.mem_cons_self
    obtain ⟨hid, hnone⟩ := readSnapshot_cursor hcursor hpage
    -- the footer names the snapshot that answers it, so the bytes are the same
    have hb : snapshot'.bytes = snapshot.bytes := by
      refine hinj hs' hs ?_
      exact snapshot'.id_eq.symm.trans ((hid.symm.trans hat.1).trans snapshot.id_eq)
    have hcount : snapshot'.lineCount = snapshot.lineCount := by
      rw [snapshot'.lineCount_eq', snapshot.lineCount_eq', hb]
    have hstarts : input.StartsAt snapshot' line :=
      .inr ⟨cursor, hcursor, ⟨hid, hat.2.1, hb ▸ hat.2.2⟩, hnone⟩
    obtain ⟨hlimit, hshows⟩ := readSnapshot_from hstarts hpos (hcount ▸ hle) hpage
    replace hshows := hshows.alike hb
    rw [hcount] at hshows
    set last := min (line + input.limit.toNat - 1) snapshot.lineCount with hlast
    obtain ⟨hrows, hheaders⟩ := ih (hshows.footerAt (Nat.min_le_right _ _)) (by omega) hgo
      fun r hr => hall r (List.mem_cons_of_mem _ hr)
    constructor
    · rw [List.map_cons, List.flatMap_cons, List.map_append, hshows.rows, hrows, ← List.map_append,
        range'_append_range' (by omega) (Nat.min_le_right _ _)]
    · refine List.forall_mem_cons.2 ⟨?_, hheaders⟩
      rw [(readSnapshot_ok hpage).1, Snapshot.header, Snapshot.header, hcount, snapshot'.byteLen_eq,
        snapshot.byteLen_eq, snapshot'.id_eq, snapshot.id_eq]
      exact congrArg (fun b : Bytes => SnapshotHeader.mk input.path (contentId b) snapshot.lineCount b.length) hb

/-- **Pages that are all answered are of one version** of the file, and show all of it. -/
theorem Paged.showAll {reads : List PageRead} (hp : Paged reads) (hinj : Set.InjOn contentId S)
    (hall : ∀ r ∈ reads, PageOf contentId S r) :
    ∃ bytes ∈ S, IsText bytes ∧ ShowAll contentId bytes (reads.map Prod.snd) := by
  rcases reads with _ | ⟨⟨input, page⟩, rest⟩
  · exact hp.elim
  obtain ⟨hcursor, hline, hgo⟩ := hp
  obtain ⟨granted, snapshot, hs, hpage⟩ := hall _ List.mem_cons_self
  have hstarts : input.StartsAt snapshot 1 := by
    refine .inl ⟨hcursor, ?_⟩
    rcases hline with h | h <;> rw [h] <;> rfl
  have hpos : 1 ≤ snapshot.lineCount := by
    rw [snapshot.lineCount_eq']
    exact lineCount_pos _
  obtain ⟨hlimit, hshows⟩ := readSnapshot_from hstarts le_rfl hpos hpage
  set last := min (1 + input.limit.toNat - 1) snapshot.lineCount with hlast
  obtain ⟨hrows, hheaders⟩ := goOn_shown hinj hs (hshows.footerAt (Nat.min_le_right _ _)) (by omega) hgo
    fun r hr => hall r (List.mem_cons_of_mem _ hr)
  refine ⟨snapshot.bytes, hs, snapshot.isText, ?_, List.cons_ne_nil _ _, ?_⟩
  · rw [List.map_cons, List.flatMap_cons, List.map_append, hshows.rows, hrows, ← List.map_append,
      range'_append_range' (by omega) (Nat.min_le_right _ _), snapshot.lineCount_eq', Nat.add_sub_cancel]
  · intro p hp
    obtain ⟨r, hr, rfl⟩ := List.mem_map.1 hp
    have hheader : r.2.header = snapshot.header r.1.path := by
      rcases List.mem_cons.1 hr with rfl | hr
      · exact (readSnapshot_ok hpage).1
      · exact hheaders r hr
    rw [hheader]
    exact ⟨snapshot.id_eq, snapshot.lineCount_eq', snapshot.byteLen_eq⟩

end

/-! ## Among mutations -/

variable {h : Host} {n : ℕ}

/-- What has stood at the place. -/
def State.bore (s : State h) (l : Loc) : Set Bytes :=
  {b | ∃ d ∈ s.trace, d.was.contentAt l = some b ∨ d.after.contentAt l = some b}

/-- A thread read the place, and was told the page. -/
structure ReadBy (quote : String → String) (workspace : Workspace) (tasks : Fin n → Task) (l : Loc)
    (P : Pool (Fin n) (Call h) Answer (Exec ProtocolError Reply) (State h)) (i : Fin n) (r : PageRead) :
    Prop where
  task : tasks i = .read r.1
  place : h.locate (resolvePath workspace.root r.1.path) = l
  plain : r.2.Plain
  told : P.threads i = .ret (.ok (.text (r.2.render quote)))

theorem Witnessed.mem_bore {tasks : Fin n → Task} {w : World h} {l : Loc} {order : List (Fin n)}
    {reply : Fin n → Reply} {s : State h} {mine : Did h → Prop} {bytes : Bytes}
    (hw : Witnessed tasks w l order reply s mine bytes) : bytes ∈ s.bore l := by
  obtain ⟨first, d, ds, -, -, hd, -, hat, -⟩ := hw
  exact ⟨d, hd.subset List.mem_cons_self, .inr hat⟩

namespace Seemly
variable {workspace : Workspace} {tasks : Fin n → Task} {w : World h} {ho : Seemly workspace tasks w}
  {rules : Rules h} {l : Loc} {latest : List (Fin n)} {reply : Fin n → Reply} {Q : Fin n → Prop}

/-- **A mutation in the order** is done on what those before it leave, which stood at the place. -/
theorem taken_up {s : State h} (hi : (ho.service rules).Inv s) (hl : ¬h.IsTemp w.counter l)
    (hrecord : List.Forall₂ (fun (c : Change ℕ (Option Bytes)) (i : Fin n) => c.who = i.val ∧ Q i ∧
      (tasks i).Does h.contentId c.old (reply i) c.new) (s.ledger l) latest)
    {j : Fin n} (hj : j ∈ latest) : ∃ before after old new, latest.reverse = before ++ j :: after ∧
      Serial (Task.Does h.contentId) (w.contentAt l) (before.map fun i => (tasks i, reply i)) old ∧
      (tasks j).Does h.contentId old (reply j) new ∧ ∃ d ∈ s.trace, d.was.contentAt l = old := by
  obtain ⟨c, hc, hwho⟩ := (mem_of_record hrecord).1 hj
  obtain ⟨later, earlier, hsplit⟩ := List.append_of_mem hc
  have hthen := List.forall₂_drop later.length hrecord
  rw [hsplit, List.drop_left] at hthen
  have hlog := hi.leads l hl
  rw [hsplit] at hlog
  rcases hrest : latest.drop later.length with _ | ⟨i, rest⟩ <;> rw [hrest] at hthen
  · cases hthen
  obtain ⟨⟨hi', -, hdoes⟩, hearlier⟩ := List.forall₂_cons.1 hthen
  obtain rfl := Fin.ext (hwho.symm.trans hi')
  refine ⟨rest.reverse, (latest.take later.length).reverse, c.old, c.new, ?_, ?_, hdoes, ?_⟩
  · conv_lhs => rw [← List.take_append_drop later.length latest, hrest]
    rw [List.reverse_append, List.reverse_cons, List.append_assoc, List.singleton_append]
  · rw [List.map_reverse]
    exact hlog.before.serial (List.forall₂_map_right_iff.2 (hearlier.imp fun c i hci => hci.2.2))
  · obtain ⟨d, hd, hputs⟩ := List.mem_filterMap.1 hc
    obtain ⟨put, -, hchange⟩ := Option.bind_eq_some_iff.1 hputs
    split_ifs at hchange
    cases hchange
    exact ⟨d, hd, rfl⟩

end Seemly

/-- What is done one after another leaves something there. -/
theorem Task.ne_none_of_serial {contentId : Bytes → SnapshotId} {v v' : Option Bytes}
    {calls : List (Task × Reply)} (hs : Serial (Task.Does contentId) v calls v') (hv : v ≠ none) :
    v' ≠ none := by
  induction hs with
  | nil => exact hv
  | cons hc _ ih =>
    obtain ⟨request, response, bytes, -, -, rfl, -⟩ := hc
    exact ih (Option.some_ne_none _)

section
variable {Overrides : Type} {crates : Crates Overrides} {walker : Walker h Overrides crates}
  {rules : Rules h} {workspace : Workspace} {tasks : Fin n → Task} {w : World h}
  (ho : Orderly workspace tasks w) (hb : w.Blank) (hc : rules.Closed) {ms : List (Fin n × Choice)}
  {P : Pool (Fin n) (Call h) Answer _ (State h)}
  (hruns : (taskPool crates walker workspace tasks w).runs (fun i : Fin n => step rules i) everywhere ms =
    some P) {l : Loc} (hl : ¬h.IsTemp w.counter l) (hquote : Function.Injective crates.quote)
  (hline : ∀ s, '\n' ∉ (crates.quote s).toList) (hinj : Set.InjOn h.contentId (P.state.bore l))

section
include hb hl hquote hline

/-- A page that a client was told is of bytes that stood at the place. -/
theorem ReadBy.page {latest : List (Fin n)} {reply : Fin n → Reply} {Q : Fin n → Prop}
    (hi : (ho.service rules).Inv P.state)
    (hout : ∀ i r, P.threads i = .ret r → ho.Ends crates walker rules i r P.state)
    (hrecord : List.Forall₂ (fun (c : Change ℕ (Option Bytes)) (i : Fin n) => c.who = i.val ∧ Q i ∧
      (tasks i).Does h.contentId c.old (reply i) c.new) (P.state.ledger l) latest)
    {i : Fin n} {r : PageRead} (hr : ReadBy crates.quote workspace tasks l P i r) :
    ∃ granted, ∃ snapshot : Snapshot h.contentId, readSnapshot granted snapshot r.1 = .ok r.2 ∧
      Witnessed tasks w l latest.reverse reply P.state (fun d => d.who = i.val ∨ P.state.Joined i)
        snapshot.bytes := by
  obtain ⟨htask, rfl, hplain, htold⟩ := hr
  obtain ⟨res, he, hshown⟩ := (hout i _ htold).answered r.1 htask hb hl
  rcases res with e | bytes <;> cases he
  obtain ⟨snapshot, hgiven, granted, page, hpage, htext⟩ := hshown.1 _ rfl
  obtain rfl := Page.render_inj hquote hline hplain (readSnapshot_ok hpage).2 htext
  exact ⟨granted, snapshot, hpage, Seemly.witnessed_of_given hi hl hrecord hgiven⟩

include hinj in
/-- The pages of a chain are of one content that each of them witnesses. -/
theorem Paged.witnessed {latest : List (Fin n)} {reply : Fin n → Reply} {Q : Fin n → Prop}
    (hi : (ho.service rules).Inv P.state)
    (hout : ∀ i r, P.threads i = .ret r → ho.Ends crates walker rules i r P.state)
    (hrecord : List.Forall₂ (fun (c : Change ℕ (Option Bytes)) (i : Fin n) => c.who = i.val ∧ Q i ∧
      (tasks i).Does h.contentId c.old (reply i) c.new) (P.state.ledger l) latest)
    {reads : List (Fin n × PageRead)} (hp : Paged (reads.map Prod.snd))
    (hall : ∀ r ∈ reads, ReadBy crates.quote workspace tasks l P r.1 r.2) :
    ∃ bytes ∈ P.state.bore l, ShowAll h.contentId bytes (reads.map fun r => r.2.2) ∧ ∀ r ∈ reads,
      Witnessed tasks w l latest.reverse reply P.state (fun d => d.who = r.1.val ∨ P.state.Joined r.1)
        bytes := by
  have hpage := fun r hr => (hall r hr).page ho hb hl hquote hline hi hout hrecord
  obtain ⟨bytes, hbytes, -, hshow⟩ := hp.showAll hinj fun r hr => by
    obtain ⟨q, hq, rfl⟩ := List.mem_map.1 hr
    obtain ⟨granted, snapshot, hread, hw⟩ := hpage q hq
    exact ⟨granted, snapshot, hw.mem_bore, hread⟩
  rw [List.map_map] at hshow
  refine ⟨bytes, hbytes, hshow, fun r hr => ?_⟩
  obtain ⟨granted, snapshot, hread, hw⟩ := hpage r hr
  -- the header names the snapshot that the page is of
  have hid : h.contentId snapshot.bytes = h.contentId bytes := by
    rw [← (hshow.headers _ (List.mem_map_of_mem hr)).1]
    show _ = r.2.2.header.snapshot
    rw [(readSnapshot_ok hread).1]
    exact snapshot.id_eq.symm
  rwa [hinj hw.mem_bore hbytes hid] at hw

end

include ho hb hc hruns hl hquote hline hinj

/-- **A read in pages is of one version**: whatever mutations take effect between its pages, if each page
    is answered they show all of one content, every line once, and this is what a first part of the one
    order of the mutations leaves; it stood at the place after a call of each page's own, unless it joined
    the load of another. -/
theorem pages_serialize : ∃ (order : List (Fin n)) (reply : Fin n → Reply),
    Serial (Task.Does h.contentId) (w.contentAt l) (order.map fun i => (tasks i, reply i))
      (P.state.world.contentAt l) ∧
    (∀ i p r, (tasks i).target workspace = some p → h.locate p = l → P.threads i = .ret r →
      (∃ e, r = .error e) ∧ i ∉ order ∨ r = .ok (reply i) ∧ i ∈ order) ∧
    ∀ reads : List (Fin n × PageRead), Paged (reads.map Prod.snd) →
      (∀ r ∈ reads, ReadBy crates.quote workspace tasks l P r.1 r.2) →
      ∃ bytes, ShowAll h.contentId bytes (reads.map fun r => r.2.2) ∧ ∀ r ∈ reads,
        Witnessed tasks w l order reply P.state (fun d => d.who = r.1.val ∨ P.state.Joined r.1) bytes := by
  obtain ⟨hi, hout⟩ := ho.sound hc hruns
  obtain ⟨latest, reply, hrecord, hserial, hreplied⟩ := Seemly.in_order hi hl hout
  refine ⟨latest.reverse, reply, hserial, hreplied, fun reads hpaged hall => ?_⟩
  obtain ⟨bytes, -, hshow, hw⟩ := hpaged.witnessed ho hb hl hquote hline hinj hi hout hrecord hall
  exact ⟨bytes, hshow, hw⟩

/-- **An edit is done on what its client was shown**: where a client has read a file to its end, in pages
    that others may have come between, and an edit with the snapshot of their headers succeeds, the
    mutations that take effect before it leave exactly the content that was shown; made of the rows, it
    leaves the rows with each operation done on them. -/
theorem edits_of_shown : ∃ (order : List (Fin n)) (reply : Fin n → Reply),
    Serial (Task.Does h.contentId) (w.contentAt l) (order.map fun i => (tasks i, reply i))
      (P.state.world.contentAt l) ∧
    ∀ (reads : List (Fin n × PageRead)) (j : Fin n) (request : EditRequest) (response : Reply),
      Paged (reads.map Prod.snd) →
      (∀ r ∈ reads, ReadBy crates.quote workspace tasks l P r.1 r.2) →
      tasks j = .mutate (.edit request) → h.locate (workspace.pathOf (.edit request)) = l →
      P.threads j = .ret (.ok response) →
      (∀ r ∈ reads, request.snapshot = r.2.2.header.snapshot) →
      ∃ before after shown made, order = before ++ j :: after ∧
        ShowAll h.contentId shown (reads.map fun r => r.2.2) ∧
        Serial (Task.Does h.contentId) (w.contentAt l) (before.map fun i => (tasks i, reply i))
          (some shown) ∧
        (tasks j).Does h.contentId (some shown) (reply j) (some made) ∧
        (MadeOf (reads.map fun r => r.2.2) request → (lines made).map stripTerminator =
          Splice.edited ((shownRows (reads.map fun r => r.2.2)).map fun row => [row])
            (request.edits.map (EditOperation.onRows (shownRows (reads.map fun r => r.2.2)).length))) := by
  obtain ⟨hi, hout⟩ := ho.sound hc hruns
  obtain ⟨latest, reply, hrecord, hserial, hreplied⟩ := Seemly.in_order hi hl hout
  refine ⟨latest.reverse, reply, hserial, fun reads j request response hpaged hall htask hplace hret hid => ?_⟩
  obtain ⟨shown, hshown, hshow, -⟩ := hpaged.witnessed ho hb hl hquote hline hinj hi hout hrecord hall
  have htarget : (tasks j).target workspace = some (workspace.pathOf (.edit request)) := by
    rw [htask]
    rfl
  have hj : j ∈ latest := by
    rcases hreplied j _ _ htarget hplace hret with ⟨⟨e, he⟩, -⟩ | ⟨-, hj⟩
    · cases he
    · exact List.mem_reverse.1 hj
  obtain ⟨before, after, old, new, horder, hbefore, hdoes, d, hd, hwas⟩ :=
    Seemly.taken_up hi hl hrecord hj
  -- what it found is what was shown, for it named its identity
  have hthere : w.contentAt l ≠ none := by
    have hedits := ho.there j _ htarget (by rw [htask]; trivial)
    rw [hplace] at hedits
    rw [World.contentAt, World.fileAt, Option.map_map, Ne, Option.map_eq_none_iff]
    exact hedits
  obtain ⟨found, rfl⟩ := Option.ne_none_iff_exists'.1 (Task.ne_none_of_serial hbefore hthere)
  obtain ⟨_, answer, made, he, hreply, rfl, haccomplishes⟩ := id hdoes
  rw [htask] at he
  cases he
  have hfound : found = shown := by
    refine hinj ⟨d, hd, .inl hwas⟩ hshown ?_
    obtain ⟨page, rest, hpages⟩ := List.exists_cons_of_ne_nil hshow.ne_nil
    obtain ⟨r, hr, rfl⟩ : ∃ r ∈ reads, r.2.2 = page :=
      List.mem_map.1 (hpages ▸ List.mem_cons_self)
    rw [← (hshow.headers r.2.2 (List.mem_map_of_mem hr)).1, ← hid r hr]
    exact haccomplishes.1.symm
  subst hfound
  refine ⟨before, after, found, made, horder, hshow, hbefore, hdoes, fun hm => ?_⟩
  obtain ⟨-, rfl⟩ := applyReferenceEdits_eq_ok.1 haccomplishes.2.1
  exact hm.rows_edited hshow

end

/-! ### Two pages, and an edit that begins between them -/

/-- Two rows, the second without a terminator. -/
def sampleText : Bytes := [97, 10, 98]

def Crates.quoting : Crates Unit := { Crates.sample with quote := jsonString }

def Walker.quoting : Walker Host.sample Unit Crates.quoting where
  entries _ _ := []
  collect _ _ _ := SearchShared.start
  collects _ _ _ := ⟨true, 0, [.leave 0], _, rfl, rfl, rfl⟩
  files _ := []

def samplePages : List (Fin 3 × PageRead) :=
  let header : SnapshotHeader := ⟨"f", Host.sample.contentId sampleText, 2, 3⟩
  let next : PageCursor := ⟨Host.sample.contentId sampleText, secondRow⟩
  [(0, ⟨"f", 1, none, none⟩, ⟨header, [⟨firstRow, [97]⟩], some next⟩),
    (1, ⟨"f", 1, some next, none⟩, ⟨header, [⟨next.next, [98]⟩], none⟩)]

/-- The first two read the file in pages, and the third edits both rows. -/
def samplePaging (i : Fin 3) : Task :=
  if i = 2 then .mutate (.edit { twoRowsRequest with snapshot := Host.sample.contentId sampleText })
  else .read ((samplePages.map fun r => r.2.1).getD i.val ⟨"f", 1, none, none⟩)

/-- The edit loads the file before the second page is read, and replaces it after that. -/
def samplePagingTurns : List (Fin 3 × Choice) :=
  [(0, 30), (2, 10), (1, 14), (2, 26)].flatMap fun (m : Fin 3 × ℕ) =>
    List.replicate m.2 (m.1, { amount := 9, inode := 2 })

def samplePool : Pool (Fin 3) (Call Host.sample) Answer (Exec ProtocolError Reply) (State Host.sample) :=
  taskPool Crates.quoting Walker.quoting ⟨["w"], false, .none⟩ samplePaging
    (World.sample ["w", "f"] (some sampleText))

/-- The pages are told, and the edit succeeds. -/
def sampleTold (i : Fin 3) : Exec ProtocolError Reply → Bool
  | .ok (.text bytes) => i ≠ 2 ∧ ∀ r ∈ samplePages, r.1 = i → bytes = r.2.2.render jsonString
  | .ok (.mutated _) => i = 2
  | .error _ => false

/-- Only the text and what the edit makes of it have stood at the place. -/
def sampleBore (P : Pool (Fin 3) (Call Host.sample) Answer (Exec ProtocolError Reply) (State Host.sample)) :
    Bool :=
  P.state.trace.all fun d => [d.was, d.after].all fun w =>
    w.contentAt (Host.sample.locate ["w", "f"]) = some sampleText ∨
      w.contentAt (Host.sample.locate ["w", "f"]) = some [120, 10, 121, 10, 122]

theorem sampleTold_page {i : Fin 3} {e : Exec ProtocolError Reply} (ht : sampleTold i e = true)
    {r : Fin 3 × PageRead} (hr : r ∈ samplePages) (hi : r.1 = i) :
    e = .ok (.text (r.2.2.render jsonString)) := by
  have hne : ∀ r ∈ samplePages, r.1 ≠ 2 := by decide
  rcases e with e | ⟨_ | bytes⟩
  · cases ht
  · exact absurd (hi.trans (of_decide_eq_true ht)) (hne r hr)
  · rw [(of_decide_eq_true ht).2 r hr hi]

theorem samplePool_runs : ∃ P response, samplePool.runs (fun i : Fin 3 => step Rules.sole i) everywhere
      samplePagingTurns = some P ∧
    (∀ r ∈ samplePages, ReadBy Crates.quoting.quote ⟨["w"], false, .none⟩ samplePaging
      (Host.sample.locate ["w", "f"]) P r.1 r.2) ∧
    P.threads 2 = .ret (.ok response) ∧
    Set.InjOn Host.sample.contentId (P.state.bore (Host.sample.locate ["w", "f"])) := by
  have hran : (samplePool.runs (fun i : Fin 3 => step Rules.sole i) everywhere samplePagingTurns).any
      (fun P => allReturned sampleTold P && sampleBore P) = true := by decide +kernel
  obtain ⟨P, hP, hran⟩ := (Option.any_eq_true _ _).1 hran
  rw [Bool.and_eq_true] at hran
  obtain ⟨_, res, he, htold⟩ := exists_returned sampleTold (o := some P) hran.1
  obtain rfl := Option.some.inj he
  obtain ⟨response, hresponse⟩ : ∃ response, res 2 = .ok response := by
    have h2 := (htold 2).2
    rcases hres : res 2 with e | response <;> rw [hres] at h2
    · cases h2
    · exact ⟨response, rfl⟩
  refine ⟨P, response, hP, fun r hr => ?_, by rw [(htold 2).1, hresponse], ?_⟩
  · obtain ⟨htask, hplace, hplain⟩ : samplePaging r.1 = .read r.2.1 ∧
        Host.sample.locate (resolvePath ["w"] r.2.1.path) = Host.sample.locate ["w", "f"] ∧
        ∀ row ∈ r.2.2.rows, lf ∉ row.content := by
      revert r
      refine List.forall_mem_cons.2 ⟨⟨rfl, rfl, by decide⟩, List.forall_mem_singleton.2 ⟨rfl, rfl, by decide⟩⟩
    refine ⟨htask, hplace, hplain, ?_⟩
    rw [(htold r.1).1, sampleTold_page (htold r.1).2 hr rfl]
    rfl
  · have hbore : ∀ b ∈ P.state.bore (Host.sample.locate ["w", "f"]),
        b = sampleText ∨ b = [120, 10, 121, 10, 122] := by
      rintro b ⟨d, hd, hat⟩
      have hall := List.all_eq_true.1 hran.2 d hd
      simp only [List.all_cons, List.all_nil, Bool.and_true, Bool.and_eq_true, decide_eq_true_eq] at hall
      rcases hat with hat | hat <;> rw [hat] at hall
      · exact hall.1.imp Option.some.inj Option.some.inj
      · exact hall.2.imp Option.some.inj Option.some.inj
    have hne : Host.sample.contentId sampleText ≠ Host.sample.contentId [120, 10, 121, 10, 122] := by decide
    intro b hb b' hb' he
    rcases hbore b hb with rfl | rfl <;> rcases hbore b' hb' with rfl | rfl
    · rfl
    · exact absurd he hne
    · exact absurd he.symm hne
    · rfl

theorem samplePaging_orderly : Orderly ⟨["w"], false, .none⟩ samplePaging
    (World.sample ["w", "f"] (some sampleText)) := by
  refine World.sample_orderly fun i p hp => ?_
  rw [samplePaging] at hp
  split_ifs at hp
  · exact (Option.some.inj hp).symm
  · cases hp

theorem samplePages_paged : Paged (samplePages.map Prod.snd) :=
  ⟨rfl, .inl rfl, Option.some_ne_none _, rfl, rfl⟩

theorem samplePages_madeOf : MadeOf (samplePages.map fun r => r.2.2)
    { twoRowsRequest with snapshot := Host.sample.contentId sampleText } := by
  have hfirst : OfRow (samplePages.map fun r => r.2.2) firstRow :=
    ⟨_, List.mem_cons_self, rfl⟩
  have hsecond : OfRow (samplePages.map fun r => r.2.2) secondRow :=
    ⟨_, List.mem_cons_of_mem _ List.mem_cons_self, rfl⟩
  have hend : OfEnd (samplePages.map fun r => r.2.2) endOfRows :=
    List.forall_mem_cons.2 ⟨⟨rfl, rfl⟩, List.forall_mem_singleton.2 ⟨rfl, rfl⟩⟩
  refine ⟨by decide, by decide, ?_, ?_, by decide, by decide, ?_⟩
  · exact List.forall_mem_cons.2 ⟨hfirst, List.forall_mem_singleton.2 hsecond⟩
  · exact List.forall_mem_cons.2 ⟨.inl ⟨hsecond, by decide⟩, List.forall_mem_singleton.2 (.inr hend)⟩
  · refine List.pairwise_cons.2 ⟨List.forall_mem_singleton.2 ?_, List.pairwise_singleton _ _⟩
    rw [Splice.Clash, Splice.exists_covers_iff]
    decide

theorem pages_serialize_two : ∃ P, samplePool.runs (fun i : Fin 3 => step Rules.sole i) everywhere
      samplePagingTurns = some P ∧
    (∀ r ∈ samplePages, ReadBy Crates.quoting.quote ⟨["w"], false, .none⟩ samplePaging
      (Host.sample.locate ["w", "f"]) P r.1 r.2) ∧
    ∃ (order : List (Fin 3)) (reply : Fin 3 → Reply) (bytes : Bytes),
      Serial (Task.Does Host.sample.contentId) (some sampleText)
        (order.map fun i => (samplePaging i, reply i))
        (P.state.world.contentAt (Host.sample.locate ["w", "f"])) ∧
      ShowAll Host.sample.contentId bytes (samplePages.map fun r => r.2.2) ∧ ∀ r ∈ samplePages,
        Witnessed samplePaging (World.sample ["w", "f"] (some sampleText)) (Host.sample.locate ["w", "f"])
          order reply P.state (fun d => d.who = r.1.val ∨ P.state.Joined r.1) bytes := by
  obtain ⟨P, response, hruns, hreads, -, hinj⟩ := samplePool_runs
  obtain ⟨order, reply, hserial, -, hpages⟩ := pages_serialize samplePaging_orderly (World.sample_blank _ _)
    Rules.sole_closed hruns (World.sample_named rfl) jsonString_injective lf_notMem_jsonString hinj
  obtain ⟨bytes, hshow, hwitnessed⟩ := hpages samplePages samplePages_paged hreads
  exact ⟨P, hruns, hreads, order, reply, bytes, hserial, hshow, hwitnessed⟩

theorem edits_of_shown_two : ∃ P response, samplePool.runs (fun i : Fin 3 => step Rules.sole i) everywhere
      samplePagingTurns = some P ∧
    (∀ r ∈ samplePages, ReadBy Crates.quoting.quote ⟨["w"], false, .none⟩ samplePaging
      (Host.sample.locate ["w", "f"]) P r.1 r.2) ∧
    P.threads 2 = .ret (.ok response) ∧
    ∃ (order : List (Fin 3)) (reply : Fin 3 → Reply) (before after : List (Fin 3)) (shown made : Bytes),
      Serial (Task.Does Host.sample.contentId) (some sampleText)
        (order.map fun i => (samplePaging i, reply i))
        (P.state.world.contentAt (Host.sample.locate ["w", "f"])) ∧
      order = before ++ 2 :: after ∧
      ShowAll Host.sample.contentId shown (samplePages.map fun r => r.2.2) ∧
      Serial (Task.Does Host.sample.contentId) (some sampleText)
        (before.map fun i => (samplePaging i, reply i)) (some shown) ∧
      (samplePaging 2).Does Host.sample.contentId (some shown) (reply 2) (some made) ∧
      (lines made).map stripTerminator = [[120], [121], [122]] := by
  obtain ⟨P, response, hruns, hreads, hresponse, hinj⟩ := samplePool_runs
  obtain ⟨order, reply, hserial, hedits⟩ := edits_of_shown samplePaging_orderly (World.sample_blank _ _)
    Rules.sole_closed hruns (World.sample_named rfl) jsonString_injective lf_notMem_jsonString hinj
  obtain ⟨before, after, shown, made, horder, hshow, hbefore, hdoes, hrows⟩ := hedits samplePages 2
    { twoRowsRequest with snapshot := Host.sample.contentId sampleText } response samplePages_paged hreads
    rfl rfl hresponse (by decide)
  refine ⟨P, response, hruns, hreads, hresponse, order, reply, before, after, shown, made, hserial, horder,
    hshow, hbefore, hdoes, ?_⟩
  rw [hrows samplePages_madeOf]
  decide

end Hashline
