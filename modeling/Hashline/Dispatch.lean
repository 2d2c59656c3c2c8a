/-
  The dispatch of the server: arguments decoded, one tool run, and its response
  or its error as the text of a tool result.
-/
import Hashline.NoPanic

namespace Hashline

open Machine

variable {h : Host}

/-! ## JSON -/

/-- A JSON value; a number is `mantissa * 10 ^ exponent`. -/
inductive Json where
  | null
  | bool (b : Bool)
  | number (mantissa exponent : ℤ)
  | string (text : Bytes)
  | array (items : List Json)
  | object (fields : List (String × Json))

namespace Json

def text (s : String) : Json := .string (utf8 s)

def count (n : ℕ) : Json := .number n 0

end Json

def ErrorCode.text : ErrorCode → String
  | invalidRequest => "invalid_request"
  | invalidSnapshot => "invalid_snapshot"
  | invalidPosition => "invalid_position"
  | invalidRange => "invalid_range"
  | overlappingEdits => "overlapping_edits"
  | invalidUtf8 => "invalid_utf8"
  | binaryFile => "binary_file"
  | fileTooLarge => "file_too_large"
  | notFound => "not_found"
  | notAFile => "not_a_file"
  | permissionDenied => "permission_denied"
  | rootEscape => "root_escape"
  | snapshotConflict => "snapshot_conflict"
  | alreadyExists => "already_exists"
  | invalidPattern => "invalid_pattern"
  | io => "io"

def SnapshotHeader.json (header : SnapshotHeader) : Json :=
  .object [("path", .text header.path), ("snapshot", .text header.snapshot.display),
    ("lines", .count header.lines), ("bytes", .count header.bytes)]

def ContextLine.json (line : ContextLine) : Json :=
  .object [("position", .text line.position.display), ("content", .string line.content)]

def SnapshotConflict.json (c : SnapshotConflict) : Json :=
  .object [("requested_snapshot", .text c.requestedSnapshot.display),
    ("current_header", c.currentHeader.json), ("context", .array (c.context.map ContextLine.json))]

def ExistingFile.json (x : ExistingFile) : Json :=
  .object [("current_header", x.currentHeader.json), ("context", .array (x.context.map ContextLine.json))]

def ProtocolError.json (e : ProtocolError) : Json :=
  .object ([("code", .text e.code.text), ("message", .text e.message), ("retryable", .bool e.retryable)] ++
    (e.conflict.map fun c => ("conflict", c.json)).toList ++
    (e.existing.map fun x => ("existing", x.json)).toList)

/-- The protocol tag. -/
def protocolTag : String := "hashline"

/-- `ErrorResponse::new`, as JSON. -/
def ProtocolError.envelope (e : ProtocolError) : Json :=
  .object [("protocol", .text protocolTag), ("error", e.json)]

def EditSuccess.json (s : EditSuccess) : Json :=
  .object [("protocol", .text protocolTag), ("path", .text s.path),
    ("previous_snapshot", .text s.previousSnapshot.display), ("snapshot", .text s.snapshot.display),
    ("applied", .count s.applied), ("bytes", .count s.bytes), ("lines", .count s.lines)]

def WriteSuccess.json (s : WriteSuccess) : Json :=
  .object [("protocol", .text protocolTag), ("path", .text s.path),
    ("snapshot", .text s.snapshot.display), ("bytes", .count s.bytes), ("lines", .count s.lines),
    ("created", .bool s.created)]

/-- `serde_json`: requests out of JSON, and JSON as text. -/
structure Serde where
  readRequest : Json → Except String ReadRequest
  editRequest : Json → Except String EditRequest
  writeRequest : Json → Except String WriteRequest
  grepRequest : Json → Except String GrepRequest
  globRequest : Json → Except String GlobRequest
  toStringPretty : Json → Except String String

/-! ## Outcomes -/

/-- Rendered text and whether it is of a failure. -/
structure ToolOutcome where
  text : Bytes
  isError : Bool
  deriving DecidableEq

namespace ToolOutcome

def success (text : Bytes) : ToolOutcome := ⟨text, false⟩

def error (text : String) : ToolOutcome := ⟨utf8 text, true⟩

end ToolOutcome

/-- An error of the protocol below the tools. -/
inductive McpError where
  | invalidParams (message : String)
  | internalError (message : String)
  deriving DecidableEq, Repr

structure CallToolResult where
  content : Bytes
  isError : Bool
  deriving DecidableEq

section
variable (serde : Serde)

def protocolOutcome (error : ProtocolError) : ToolOutcome :=
  match serde.toStringPretty error.envelope with
  | .ok text => .error text
  | .error _ => .error error.message

def successOutcome (value : Json) : ToolOutcome :=
  match serde.toStringPretty value with
  | .ok text => .success (utf8 text)
  | .error e => .error s!"Failed to encode tool success: {e}"

/-- What a tool comes to, where `view` renders its response. -/
def toolOutcome {α : Type} (view : α → ToolOutcome) : Except ProtocolError α → ToolOutcome
  | .ok value => view value
  | .error error => protocolOutcome serde error

section
variable {Overrides : Type} (crates : Crates Overrides) (walker : Walker h Overrides crates)
  (workspace : Workspace)

def runRead (input : ReadRequest) : Op h McpError ToolOutcome := do
  let result ← (Read.run crates.quote workspace input).attempt
  pure (toolOutcome serde .success result)

def runEdit (input : EditRequest) : Op h McpError ToolOutcome := do
  let result ← (Edit.run workspace input).attempt
  pure (toolOutcome serde (fun value => successOutcome serde value.json) result)

def runWrite (input : WriteRequest) : Op h McpError ToolOutcome := do
  let result ← (Write.run workspace input).attempt
  pure (toolOutcome serde (fun value => successOutcome serde value.json) result)

def runGrep (input : GrepRequest) : Op h McpError ToolOutcome := do
  let result ← (Grep.run crates walker workspace input).attempt
  pure (toolOutcome serde .success result)

def runGlob (input : GlobRequest) : Op h McpError ToolOutcome := do
  let result ← (Glob.run crates walker workspace input).attempt
  pure (toolOutcome serde .success result)

/-- On a blocking thread: a panic is an error of the server. -/
def onBlockingThread (name : String) (x : Op h McpError ToolOutcome) : Op h McpError ToolOutcome :=
  x.onPanic (Exec.fail (.internalError s!"{name} task failed: {h.joinError}"))

/-- The tool is run on arguments that decode; others are its failure. -/
def decoded {α : Type} (name : String) (run : α → Op h McpError ToolOutcome) :
    Except String α → Op h McpError ToolOutcome
  | .ok input => run input
  | .error e => pure (.error s!"Invalid arguments for {name}: {e}")

/-- The outcome of one tool call. -/
def callTool (name : String) (arguments : Json) : Op h McpError ToolOutcome :=
  match name with
  | "read" => decoded name (runRead serde crates workspace) (serde.readRequest arguments)
  | "edit" => decoded name (runEdit serde workspace) (serde.editRequest arguments)
  | "write" => decoded name (runWrite serde workspace) (serde.writeRequest arguments)
  | "grep" => decoded name (fun input => onBlockingThread name
      (runGrep serde crates walker workspace input)) (serde.grepRequest arguments)
  | "glob" => decoded name (fun input => onBlockingThread name
      (runGlob serde crates walker workspace input)) (serde.globRequest arguments)
  | other => Proc.fail (.invalidParams s!"Unknown tool: {other}")

def dispatch (name : String) (arguments : Json) : Op h McpError CallToolResult := do
  let outcome ← callTool serde crates walker workspace name arguments
  pure ⟨outcome.text, outcome.isError⟩

end

/-! ## The taxonomy at the boundary -/

/-- What `to_string_pretty` does: an object is written, between braces. -/
structure Serde.Faithful : Prop where
  object : ∀ fields, ∃ text, serde.toStringPretty (.object fields) = .ok text ∧
    (utf8 text).head? = some 123

/-- The names of the tools. -/
def toolNames : List String := ["read", "edit", "write", "grep", "glob"]

/-- The arguments decode to the request type of the tool. -/
def Serde.decodes (name : String) (arguments : Json) : Bool :=
  match name with
  | "read" => (serde.readRequest arguments).isOk
  | "edit" => (serde.editRequest arguments).isOk
  | "write" => (serde.writeRequest arguments).isOk
  | "grep" => (serde.grepRequest arguments).isOk
  | "glob" => (serde.globRequest arguments).isOk
  | _ => false

/-- The text of an error envelope. -/
def Enveloped (text : Bytes) : Prop :=
  ∃ e : ProtocolError, ∃ json, serde.toStringPretty e.envelope = .ok json ∧ text = utf8 json

/-- Where the outcome is a failure, it is an error envelope. -/
def ToolOutcome.Structured (outcome : ToolOutcome) : Prop :=
  outcome.isError = true → Enveloped serde outcome.text

/-- `Ok`, and an error envelope where it is flagged. -/
def Answered (r : Exec McpError CallToolResult) : Prop :=
  ∃ result, r = .ok result ∧ (result.isError = true → Enveloped serde result.content)

theorem meets_decoded {α : Type} {name : String} {run : α → Op h McpError ToolOutcome}
    {r : Except String α} {P : ToolOutcome → Prop} {E : McpError → Prop} (hr : r.isOk = true)
    (hrun : ∀ input, (run input).Meets P E) : (decoded name run r).Meets P E := by
  cases r with
  | error e => cases hr
  | ok input => exact hrun input

theorem decoded_error {α : Type} {name : String} {run : α → Op h McpError ToolOutcome}
    {r : Except String α} (hr : r.isOk = false) : ∃ e : String,
      decoded name run r = pure (.error s!"Invalid arguments for {name}: {e}") := by
  cases r with
  | error e => exact ⟨e, rfl⟩
  | ok input => cases hr

theorem meets_onBlockingThread {name : String} {x : Op h McpError ToolOutcome}
    {P : ToolOutcome → Prop} {E : McpError → Prop} (hx : x.Meets P E) :
    (onBlockingThread name x).Meets P E := by
  refine Prog.Ends.bind hx fun r hr => ?_
  rcases r with (e | _) | a
  · exact hr
  · exact hr.elim
  · exact hr

section
variable {serde} (hs : serde.Faithful)
include hs

theorem protocolOutcome_structured (error : ProtocolError) :
    (protocolOutcome serde error).Structured serde := by
  intro _
  obtain ⟨text, ht, -⟩ := hs.object [("protocol", .text protocolTag), ("error", error.json)]
  exact ⟨error, text, ht, by rw [protocolOutcome, ProtocolError.envelope, ht]; rfl⟩

theorem successOutcome_structured (fields : List (String × Json)) :
    (successOutcome serde (.object fields)).Structured serde := by
  obtain ⟨text, ht, -⟩ := hs.object fields
  intro he
  rw [successOutcome, ht] at he
  cases he

/-- A tool that ends in a response or an error has a structured outcome. -/
theorem meets_tool {α : Type} {x : Op h ProtocolError α} {view : α → ToolOutcome}
    (hx : x.Meets Anything Anything) (hview : ∀ value, (view value).Structured serde) :
    (do
      let result ← x.attempt
      pure (toolOutcome serde view result) : Op h McpError ToolOutcome).Meets
        (ToolOutcome.Structured serde) fun _ => False :=
  hx.attempt_bind (fun value _ => hview value) fun error _ => protocolOutcome_structured hs error

/-- **A call whose arguments decode** ends in a structured outcome. -/
theorem meets_callTool {Overrides : Type} {crates : Crates Overrides}
    {walker : Walker h Overrides crates} {workspace : Workspace} {name : String} {arguments : Json}
    (hd : serde.decodes name arguments = true) :
    (callTool serde crates walker workspace name arguments).Meets (ToolOutcome.Structured serde)
      fun _ => False := by
  have htext : ∀ text : Bytes, (ToolOutcome.success text).Structured serde := fun _ he => by cases he
  unfold Serde.decodes at hd
  split at hd
  · exact meets_decoded hd fun input => meets_tool hs
      ((Read.meets_run _ _ _).mono (fun _ h => h) fun _ _ => trivial) htext
  · exact meets_decoded hd fun input => meets_tool hs (Edit.meets_run _ _)
      fun value => successOutcome_structured hs _
  · exact meets_decoded hd fun input => meets_tool hs (Write.meets_run _ _)
      fun value => successOutcome_structured hs _
  · exact meets_decoded hd fun input => meets_onBlockingThread (meets_tool hs
      ((Grep.meets_run _ _).mono (fun _ h => h) fun _ _ => trivial) htext)
  · exact meets_decoded hd fun input => meets_onBlockingThread (meets_tool hs
      ((Glob.meets_run _ _).mono (fun _ h => h) fun _ _ => trivial) htext)
  · cases hd

/-- The text of the plain failure is no envelope. -/
theorem not_enveloped (name e : String) :
    ¬Enveloped serde (utf8 s!"Invalid arguments for {name}: {e}") := by
  rintro ⟨error, json, hj, ht⟩
  obtain ⟨text, hx, hbrace⟩ := hs.object [("protocol", .text protocolTag), ("error", error.json)]
  rw [ProtocolError.envelope, hx] at hj
  rw [Except.ok.inj hj, ← ht] at hbrace
  have hfirst : (utf8 "Invalid arguments for ").head? = some 73 := by rw [utf8_eq]; decide
  simp only [toString, utf8_append, List.head?_append, hfirst, Option.some_or, Option.some.injEq]
    at hbrace
  exact absurd hbrace (by decide)

end

end

/-- Arguments that do not decode are answered at once, in plain text. -/
theorem dispatch_undecoded {serde : Serde} {Overrides : Type} (crates : Crates Overrides)
    (walker : Walker h Overrides crates) (workspace : Workspace) {name : String} {arguments : Json}
    (hn : name ∈ toolNames) (hd : serde.decodes name arguments = false) : ∃ e : String,
      dispatch serde crates walker workspace name arguments =
        pure ⟨utf8 s!"Invalid arguments for {name}: {e}", true⟩ := by
  have hcall : ∃ e : String, callTool serde crates walker workspace name arguments =
      pure (.error s!"Invalid arguments for {name}: {e}") := by
    simp only [toolNames, List.mem_cons, List.not_mem_nil, or_false] at hn
    rcases hn with rfl | rfl | rfl | rfl | rfl
    · exact decoded_error hd
    · exact decoded_error hd
    · exact decoded_error hd
    · exact decoded_error hd
    · exact decoded_error hd
  obtain ⟨e, he⟩ := hcall
  exact ⟨e, by rw [dispatch, he]; rfl⟩

/-- **Failures are envelopes exactly where the arguments decode.** In every run, whatever others do
    and whichever calls fail, a call of a tool whose arguments decode is answered with `Ok`, and with
    an error envelope where the result is flagged; a call whose arguments do not decode never is. -/
theorem dispatch_answered {serde : Serde} (hs : serde.Faithful) {Overrides : Type}
    (crates : Crates Overrides) (walker : Walker h Overrides crates) (workspace : Workspace)
    (name : String) (hn : name ∈ toolNames) (arguments : Json) (rules : Rules h) (who : ℕ)
    (s : State h) :
    (∀ xs r s', Prog.runs (step rules who) xs
      (dispatch serde crates walker workspace name arguments, s) = some (.ret r, s') →
        Answered serde r) ↔ serde.decodes name arguments = true := by
  constructor
  · intro hall
    by_contra hd
    obtain ⟨e, he⟩ := dispatch_undecoded crates walker workspace hn (Bool.not_eq_true _ ▸ hd)
    obtain ⟨result, hr, hflag⟩ := hall [] _ s (by rw [he]; rfl)
    cases hr
    exact not_enveloped hs name e (hflag rfl)
  · intro hd xs r s' hrun
    have hends : (dispatch serde crates walker workspace name arguments).Meets
        (fun result => result.isError = true → Enveloped serde result.content) fun _ => False :=
      (meets_callTool hs hd).bind fun outcome ho => ho
    have hr := Proc.wp_runs (hends.wp s) hrun
    rcases r with (e | _) | result
    · exact hr.elim
    · exact hr.elim
    · exact ⟨result, rfl, hr⟩

/-! ## A call without its required argument -/

/-- Strings of one-byte characters, as they are. -/
def asciiString (bytes : Bytes) : String := String.ofList (bytes.map fun b => Char.ofNat b.toNat)

mutual

/-- Two more blanks for each level; strings that need no escapes. -/
def Json.pretty : ℕ → Json → String
  | _, .null => "null"
  | _, .bool b => toString b
  | _, .number mantissa exponent =>
    toString mantissa ++ if exponent = 0 then "" else "e" ++ toString exponent
  | _, .string bytes => "\"" ++ asciiString bytes ++ "\""
  | depth, .array items => "[" ++ prettyItems (depth + 1) items ++ "]"
  | depth, .object fields => "\x7b" ++ (prettyFields (depth + 1) fields ++ "\x7d")

def Json.prettyItems : ℕ → List Json → String
  | _, [] => ""
  | depth, item :: items => "\n" ++ "".pushn ' ' (2 * depth) ++ item.pretty depth ++
      (if items.isEmpty then "\n" ++ "".pushn ' ' (2 * depth - 2) else "," ++ prettyItems depth items)

def Json.prettyFields : ℕ → List (String × Json) → String
  | _, [] => ""
  | depth, (name, value) :: fields => "\n" ++ "".pushn ' ' (2 * depth) ++ "\"" ++ name ++ "\": " ++
      value.pretty depth ++
      (if fields.isEmpty then "\n" ++ "".pushn ' ' (2 * depth - 2) else "," ++ prettyFields depth fields)

end

/-- Requests that name a path, and nothing else. -/
def Serde.sample : Serde where
  readRequest
    | .object fields => match fields.lookup "path" with
      | some (.string path) => .ok ⟨asciiString path, 2000, none, none⟩
      | _ => .error "missing field `path`"
    | _ => .error "invalid type"
  editRequest _ := .error "missing field `file_path`"
  writeRequest _ := .error "missing field `file_path`"
  grepRequest _ := .error "missing field `pattern`"
  globRequest _ := .error "missing field `pattern`"
  toStringPretty json := .ok (json.pretty 0)

theorem Serde.sample_faithful : Serde.sample.Faithful where
  object fields := by
    refine ⟨_, rfl, ?_⟩
    have hfirst : (utf8 "\x7b").head? = some 123 := by rw [utf8_eq]; decide
    rw [Json.pretty, utf8_append, List.head?_append, hfirst]
    rfl

/-- Patterns that match nothing. -/
def Crates.sample : Crates Unit where
  buildMatcher _ _ := .ok fun _ => some ([], false)
  buildOverrides _ _ := .ok ()
  buildGlob _ := .ok fun _ => false
  quote s := "\"" ++ s ++ "\""

/-- A walk that finds nothing, by one worker. -/
def Walker.sample : Walker Host.sample Unit Crates.sample where
  entries _ _ := []
  collect _ _ _ := SearchShared.start
  collects _ _ _ := ⟨true, 0, [.leave 0], _, rfl, rfl, rfl⟩
  files _ := []

/-- `read` with the path `f`, where there is no such file: the arguments decode, and the answer is an
    envelope. -/
theorem dispatch_answered_read :
    Serde.sample.decodes "read" (.object [("path", .string [102])]) = true ∧
    ∃ xs result s', Prog.runs (step (fun _ _ _ => true) 0) xs
      (dispatch Serde.sample Crates.sample Walker.sample ⟨["w"], false, .full⟩ "read"
        (.object [("path", .string [102])]), (⟨World.sample ["w", "f"] none, []⟩ : State Host.sample)) =
          some (.ret (.ok result), s') ∧
      result.isError = true ∧ Enveloped Serde.sample result.content := by
  have hd : Serde.sample.decodes "read" (.object [("path", .string [102])]) = true := by decide
  refine ⟨hd, List.replicate 11 {}, _, _, rfl, rfl, ?_⟩
  obtain ⟨result, hr, hflag⟩ := (dispatch_answered Serde.sample_faithful Crates.sample Walker.sample
    ⟨["w"], false, .full⟩ "read" (by decide) (.object [("path", .string [102])])
    (fun _ _ _ => true) 0 ⟨World.sample ["w", "f"] none, []⟩).2 hd (List.replicate 11 {}) _ _ rfl
  cases hr
  exact hflag rfl

/-- `read` without a path is answered in plain text. -/
theorem dispatch_unstructured : ∃ xs r s', Prog.runs (step (fun _ _ _ => true) 0) xs
    (dispatch Serde.sample Crates.sample Walker.sample ⟨["w"], false, .full⟩ "read" (.object []),
      (⟨World.sample ["w", "f"] none, []⟩ : State Host.sample)) = some (.ret r, s') ∧
    ¬Answered Serde.sample r := by
  refine ⟨[], _, _, rfl, ?_⟩
  rintro ⟨result, hr, hflag⟩
  cases hr
  exact not_enveloped Serde.sample_faithful "read" "missing field `path`" (hflag rfl)

end Hashline
