import OmniRush.Lib.Json
import OmniRush.Lib.Utf16
import OmniRush.Server.TurnDiff

/-!
# The event of a turn

`turn-diff.ts`: the diffs of the files of a turn, put together as one event of the trace. The
bytes of an entry are measured before its diff is made, with the other fields at their widest, and
the diff gets what is left under the cap. Times may be of any type that can be added and compared.
-/

namespace OmniRush.Server.TurnDiff

/-- A diff gets a place in the event only while at least this much is left. -/
def minDiffRoomBytes : Nat := 1024

def maxDiffComparisons : Int := 5000000

def maxSafeInteger : Nat := 9007199254740991

/-! ## Entries -/

inductive TurnDiffStatus where
  | added
  | modified
  | deleted
  | skipped
  | noBase
  deriving DecidableEq, Repr

def TurnDiffStatus.name : TurnDiffStatus → String
  | added => "added"
  | modified => "modified"
  | deleted => "deleted"
  | skipped => "skipped"
  | noBase => "no_base"

inductive TurnDiffReason where
  | binary
  | tooLarge
  | recordCap
  deriving DecidableEq, Repr

def TurnDiffReason.name : TurnDiffReason → String
  | binary => "binary"
  | tooLarge => "too_large"
  | recordCap => "record_cap"

structure TurnDiffFile where
  path : String
  status : TurnDiffStatus
  beforeSha256 : Option String
  afterSha256 : Option String
  additions : Option Nat
  deletions : Option Nat
  diff : Option String
  /-- The diff was cut. -/
  truncated : Bool
  reason : Option TurnDiffReason
  deriving DecidableEq, Repr

structure TurnDiffEvent where
  files : List TurnDiffFile
  fileCount : Nat
  omittedFileCount : Nat
  truncated : Bool
  deriving DecidableEq, Repr

structure TurnDiffInput where
  path : String
  status : TurnDiffStatus
  beforeSha256 : Option String
  afterSha256 : Option String
  before : Option String
  after : Option String
  reason : Option TurnDiffReason
  deriving DecidableEq, Repr

/-! ## JSON -/

def orNull {α : Type} (f : α → Json) : Option α → Json
  | none => .null
  | some x => f x

def TurnDiffFile.json (file : TurnDiffFile) : Json :=
  .obj [("path", .str file.path), ("status", .str file.status.name),
    ("before_sha256", orNull .str file.beforeSha256),
    ("after_sha256", orNull .str file.afterSha256),
    ("additions", orNull (fun n => .num (n : Nat)) file.additions),
    ("deletions", orNull (fun n => .num (n : Nat)) file.deletions),
    ("diff", orNull .str file.diff), ("truncated", .bool file.truncated),
    ("reason", orNull (fun reason => .str reason.name) file.reason)]

def TurnDiffEvent.json (event : TurnDiffEvent) : Json :=
  .obj [("schema_version", .num 1), ("files", .arr (event.files.map TurnDiffFile.json)),
    ("file_count", .num event.fileCount), ("omitted_file_count", .num event.omittedFileCount),
    ("truncated", .bool event.truncated)]

/-- An instant as it is written in the trace, in any year of four digits. -/
structure Timestamp where
  text : String
  length : text.toList.length = 24
  plain : ∀ c ∈ text.toList, c.isDigit = true ∨ c ∈ ['-', ':', '.', 'T', 'Z']

/-- The event as the trace carries it. -/
def traceEvent (time : String) (data : Json) : Json :=
  .obj [("at", .str time), ("type", .str "turn.diff"), ("data", data)]

/-- `EVENT_ENVELOPE_BYTES`: the event around its entries, every count at its widest. -/
@[irreducible] def eventEnvelopeBytes : Nat :=
  (traceEvent "1970-01-01T00:00:00.000Z"
    (TurnDiffEvent.json ⟨[], maxSafeInteger, maxSafeInteger, false⟩)).byteLength

/-! ## The builder -/

structure TurnDiffBuilder (Time : Type) where
  files : List TurnDiffFile
  /-- Bytes of the event so far, its envelope reserved from the start. -/
  used : Nat
  omitted : Nat
  truncated : Bool
  /-- Time spent diffing so far. -/
  diffMs : Time

/-- What the builder is made with. -/
structure TurnDiffLimits (Time : Type) where
  maxEventBytes : Nat
  maxFileBytes : Nat
  maxDiffMs : Time

namespace TurnDiffInput

variable (input : TurnDiffInput)

def diffed : Bool :=
  input.status = .added || input.status = .modified || input.status = .deleted

/-- The text before the turn, of a file that has one. -/
def textBefore : Option String := if input.status = .added then none else input.before

def textAfter : Option String := if input.status = .deleted then none else input.after

def hasText : Bool := input.diffed && (input.textBefore.isSome || input.textAfter.isSome)

/-- The entry as it is measured, without its diff. -/
def widest : TurnDiffFile :=
  { path := input.path, status := input.status
    beforeSha256 := input.beforeSha256, afterSha256 := input.afterSha256
    additions :=
      if input.hasText then some (utf16 (input.textAfter.getD "").toList).length else none
    deletions :=
      if input.hasText then some (utf16 (input.textBefore.getD "").toList).length else none
    diff := none, truncated := false
    reason :=
      if input.status = .skipped then some (input.reason.getD .binary)
      else if input.hasText then some .recordCap else none }

/-- The entry with its diff. -/
def diffedFile (limit maxFileBytes : Nat) : TurnDiffFile :=
  let result := unifiedDiff input.path input.textBefore input.textAfter limit maxDiffComparisons
  { input.widest with
    additions := some result.additions, deletions := some result.deletions
    diff := some result.diff, truncated := result.truncated
    reason := if result.truncated then some (if limit < maxFileBytes then .recordCap else .tooLarge)
      else none }

end TurnDiffInput

/-- A call of the builder, and the time its diff took. -/
inductive TurnDiffCall (Time : Type) where
  | add (input : TurnDiffInput) (elapsed : Time)
  | omit

namespace TurnDiffBuilder

variable {Time : Type} [Zero Time] [Add Time] [LE Time] [DecidableLE Time]
  (limits : TurnDiffLimits Time)

def new : TurnDiffBuilder Time := ⟨[], eventEnvelopeBytes, 0, false, 0⟩

/-- No further diff fits. -/
def full (builder : TurnDiffBuilder Time) : Bool :=
  limits.maxEventBytes < builder.used + minDiffRoomBytes || limits.maxDiffMs ≤ builder.diffMs

def omitFile (builder : TurnDiffBuilder Time) : TurnDiffBuilder Time :=
  { builder with omitted := builder.omitted + 1, truncated := true }

def add (builder : TurnDiffBuilder Time) (input : TurnDiffInput) (elapsed : Time) :
    TurnDiffBuilder Time :=
  if input.diffed && builder.full limits then builder.omitFile
  else
    -- the entry without its diff, plus the comma between entries
    let overhead := input.widest.json.byteLength + 1
    let room : Int := limits.maxEventBytes - builder.used - overhead
    if room < (if input.hasText then minDiffRoomBytes else 0 : Nat) then builder.omitFile
    else if input.hasText then
      let file := input.diffedFile (min limits.maxFileBytes room.toNat) limits.maxFileBytes
      { files := builder.files ++ [file], used := builder.used + file.json.byteLength + 1
        omitted := builder.omitted, truncated := builder.truncated || file.truncated
        diffMs := builder.diffMs + elapsed }
    else
      { builder with
        files := builder.files ++ [input.widest], used := builder.used + overhead }

def step (builder : TurnDiffBuilder Time) : TurnDiffCall Time → TurnDiffBuilder Time
  | .add input elapsed => builder.add limits input elapsed
  | .omit => builder.omitFile

def run (calls : List (TurnDiffCall Time)) : TurnDiffBuilder Time :=
  calls.foldl (step limits) new

def finish (builder : TurnDiffBuilder Time) : TurnDiffEvent :=
  { files := builder.files, fileCount := builder.files.length + builder.omitted
    omittedFileCount := builder.omitted, truncated := builder.truncated }

end TurnDiffBuilder

end OmniRush.Server.TurnDiff
