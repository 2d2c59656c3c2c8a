/-
  Listing files: the entries a walk yields, their order, and the listing under
  one cap.
-/
import Hashline.Lib.SortKey
import Hashline.Path
import Hashline.Read
import Mathlib.Data.List.Lex
import Mathlib.Data.Prod.Lex
import Mathlib.Data.UInt

namespace Hashline

open Machine

/-- One discovered file; `modified` counts from the epoch. -/
structure GlobEntry where
  path : String
  modified : ℤ
  deriving DecidableEq

/-- Newest first, then the bytes of the path. -/
def sortReferenceGlobEntries (entries : List GlobEntry) : List GlobEntry :=
  sortByKey (fun entry => toLex (-entry.modified, (utf8 entry.path).map UInt8.toNat)) entries

/-- Terminal counters of a glob response. -/
structure GlobSummary where
  files : ℕ
  truncated : Bool
  deriving DecidableEq

def GlobSummary.render (s : GlobSummary) : Bytes :=
  utf8 s!"[hashline files={s.files} truncated={s.truncated}]"

/-- What the walk yields: a failure, something that is no file, or a file by its path below the root,
    `none` where that is no UTF-8, and its modification time, if it has one. -/
inductive GlobWalked where
  | failed
  | other
  | file (relative : Option PathBuf) (modified : Option ℤ)
  deriving DecidableEq

/-- `Path::new(prefix).join(relative)`. -/
def joinDisplay (start relative : String) : String :=
  if start = "" ∨ start.endsWith "/" then start ++ relative else start ++ "/" ++ relative

/-- The entry a file is reported as, if it matches. -/
def GlobWalked.entry (isMatch : PathBuf → Bool) (displayPrefix : Option String) :
    GlobWalked → Option GlobEntry
  | .file (some relative) modified =>
    if isMatch relative then
      let path := "/".intercalate relative
      some ⟨displayPrefix.elim path fun start => joinDisplay start path, modified.getD 0⟩
    else none
  | _ => none

/-- What a listing says: the files it reports and the counters. -/
structure Listing where
  entries : List GlobEntry
  summary : GlobSummary
  deriving DecidableEq

def listing (entries : List GlobEntry) (maxResults : ℕ) : Listing :=
  let reported := (sortReferenceGlobEntries entries).take maxResults
  ⟨reported, ⟨reported.length, decide (entries.length > maxResults)⟩⟩

/-- The listing as text. -/
def Listing.render (l : Listing) : Bytes :=
  l.entries.flatMap (fun entry => utf8 (entry.path ++ "\n")) ++ l.summary.render

end Hashline
