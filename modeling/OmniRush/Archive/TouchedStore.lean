import OmniRush.Archive.Pack
import OmniRush.Archive.Touched
import OmniRush.Lib.LineLog
import OmniRush.Lib.Machine

/-!
# The touched paths of a session on disk

`TouchedPathStore` of `touched.ts`. The paths a session touched are appended to one file a
session, a header and then one path a line, a moment after they are reported. `known` holds
what the file has, `pending` what was reported since, `writing` what is being appended.

The file work of a session runs in order (`serial`), so its first task is the one that may be
under way; what the store does between two awaits is one event. The timer that calls `flush`
is not modelled, a flush may come at any time. `clear` (sign-out) is left out. Reads succeed:
a file that cannot be read counts as missing in the code too, but is not missing then.

A write may stop after any of its bytes, with an error that the store sees, or because the
app ended, after which a new store starts on the files as they are.
-/

namespace OmniRush.Archive

/-! ## Lines -/

def maxOutsidePathChars : Nat := 4096

/-- The archive path of an absolute file path, on a system with `/` paths. -/
def outsideArchivePath (absolute : String) : Option String :=
  let parts := archiveParts (String.ofList (absolute.toList.drop 1))
  if absolute.isEmpty || (utf16 absolute.toList).length > maxOutsidePathChars
      || absolute.toList.contains (Char.ofNat 0) || absolute.toList.head? ≠ some '/'
      || parts.length < 2 || parts.any fun part => part = "" || part = "." || part = ".." then none
  else some (outsideRootName ++ "/" ++ "/".intercalate parts)

/-- An absolute path of plain parts is its own `resolve`. -/
def isOutsideTouchedPath (path : String) : Bool := (outsideArchivePath path).isSome

namespace TouchedPathStore

def header (sessionId : String) : List Char :=
  Json.chars (.obj [("v", .num 1), ("session_id", .str sessionId)])

/-- The line of a path: one outside the workspace is an object line. -/
def pathLine (path : String) : List Char :=
  Json.chars (if isOutsideTouchedPath path then .obj [("outside", .str path)] else .str path)

/-- What `load` reads from a line. -/
def readLine (line : List Char) : Option String :=
  if line = [] then none
  else
    match Json.parseChars line with
    | some (.str path) => if (touchedPathParts path).isSome then some path else none
    | some (.obj fields) =>
        match Json.field fields "outside" with
        | some (.str path) => if isOutsideTouchedPath path then some path else none
        | _ => none
    | _ => none

/-- `Set.add`. -/
def add (paths : List String) (path : String) : List String :=
  if paths.contains path then paths else paths ++ [path]

def addAll (paths more : List String) : List String := more.foldl add paths

structure Loaded where
  paths : List String
  /-- There is no usable file. -/
  fresh : Bool
  /-- Its last line has no end. -/
  torn : Bool
  deriving DecidableEq, Repr

def load (sessionId : String) : Option (List UInt8) → Loaded
  | none => ⟨[], true, false⟩
  | some bytes =>
      let lines := textLines bytes
      if lines.head? = some (header sessionId) then
        ⟨addAll [] (lines.tail.filterMap readLine), false,
          (decodeUtf8From none bytes).getLast? ≠ some '\n'⟩
      else ⟨[], true, false⟩

/-! ## Sessions -/

def maxTouchedPaths : Nat := 100000

inductive Mode where
  | unknown
  | tracked
  | ignored
  deriving DecidableEq, Repr

structure TouchedSession where
  mode : Mode
  known : Option (List String) := none
  pending : List String := []
  writing : List String := []
  torn : Bool := false
  capped : Bool := false
  deriving DecidableEq, Repr

namespace TouchedSession

def has (t : TouchedSession) (path : String) : Bool :=
  (t.known.getD []).contains path || t.pending.contains path

/-- How many paths count against the limit. -/
def count (t : TouchedSession) : Nat :=
  (t.known.getD []).length + t.pending.length + t.writing.length

/-- The limit refuses the path. -/
def refuses (t : TouchedSession) (path : String) : Bool :=
  t.mode ≠ .ignored && !t.has path
    && ((touchedPathParts path).isSome || isOutsideTouchedPath path)
    && maxTouchedPaths ≤ t.count

def note (t : TouchedSession) (path : String) : TouchedSession :=
  if t.mode = .ignored || t.has path then t
  else if (touchedPathParts path).isNone && !isOutsideTouchedPath path then t
  else if t.refuses path then { t with capped := true }
  else { t with pending := add t.pending path }

def drop (t : TouchedSession) : TouchedSession :=
  { t with mode := .ignored, known := none, pending := [] }

end TouchedSession

/-! ## File work -/

inductive Task where
  | write
  /-- `snapshot` and `outside`: a write, and then the paths of one kind. -/
  | snapshot (outside : Bool)
  | remove
  deriving DecidableEq, Repr

/-- How far the first task is. -/
inductive Stage where
  | queued
  | loading
  /-- `known` is the set the write started with. -/
  | appending (header : Bool) (known batch : List String) (text : List UInt8)
  | collecting
  | removing
  deriving DecidableEq, Repr

/-- What there is of one session: its entries of `sessions` and `tails`, and its file. -/
structure Slot where
  session : Option TouchedSession := none
  tail : List Task := []
  stage : Stage := .queued
  file : Option (List UInt8) := none
  deriving DecidableEq, Repr

namespace Slot

variable (sessionId : String) (s : Slot)

def note (path : String) : Slot :=
  { s with session := some ((s.session.getD { mode := .unknown }).note path) }

def track : Slot :=
  { s with session := some { s.session.getD { mode := .tracked } with mode := .tracked } }

/-- `modeOf` has answered. -/
def decided (mode : Mode) : Slot :=
  match s.session with
  | some t =>
      if t.mode ≠ .unknown then s
      else
        match mode with
        | .unknown => s
        | .tracked => s.track
        | .ignored => { s with session := some t.drop }
  | none => s

def snapshot (outside : Bool) : Slot :=
  { s.track with tail := s.tail ++ [.snapshot outside] }

def forget : Slot :=
  { s with
    session := some ((s.session.map (·.drop)).getD { mode := .ignored })
    tail := s.tail ++ [.remove] }

def flush : Slot :=
  if s.session.any fun t => t.mode = .tracked && t.pending ≠ [] then
    { s with tail := s.tail ++ [.write] }
  else s

/-- `write` has returned. -/
def wrote : Slot :=
  match s.tail with
  | .snapshot _ :: _ => { s with stage := .collecting }
  | _ => { s with tail := s.tail.tail, stage := .queued }

def lines (t : TouchedSession) (header : List Char) : List Char :=
  (if header = [] then (if t.torn then ['\n'] else []) else header ++ ['\n'])
    ++ ['\n'].intercalate (t.pending.map pathLine) ++ ['\n']

/-- The rest of `write`, with the session's file loaded. -/
def append (t : TouchedSession) (known : List String) (fresh : Bool) : Slot :=
  if t.pending = [] then
    { s with session := some { t with known := if fresh then none else some known } }.wrote
  else
    { s with
      session := some { t with known := some known, pending := [], writing := t.pending }
      stage := .appending fresh known t.pending
        (encodeText (lines t (if fresh then header sessionId else []))) }

def startWrite : Slot :=
  match s.session with
  | some t =>
      if t.mode = .tracked then
        match t.known with
        | some known => s.append sessionId t known false
        | none => { s with stage := .loading }
      else s.wrote
  | none => s.wrote

def start : Option Slot :=
  match s.stage, s.tail with
  | .queued, .remove :: _ => some { s with stage := .removing }
  | .queued, _ :: _ => some (s.startWrite sessionId)
  | _, _ => none

def loaded : Option Slot :=
  match s.stage, s.session with
  | .loading, some t =>
      let l := load sessionId s.file
      if t.mode = .tracked then
        some (s.append sessionId
          { t with
            known := some l.paths
            pending := t.pending.filter fun path => !l.paths.contains path
            torn := l.torn } l.paths l.fresh)
      else some s.wrote
  | _, _ => none

/-- The file when some first bytes of a write have landed, or none of it happened at all. -/
def landed (fresh : Bool) (text : List UInt8) : Option Nat → Option (List UInt8)
  | none => s.file
  | some n => some (if fresh then text.take n else s.file.getD [] ++ text.take n)

/-- The append was a success. The set the write started with is the session's unless the
session was forgotten meanwhile. -/
def appended : Option Slot :=
  match s.stage, s.session with
  | .appending fresh _ batch text, some t =>
      some { s with
        session := some { t with
          known := t.known.map (addAll · batch), writing := [], torn := false }
        file := s.landed fresh text (some text.length) }.wrote
  | _, _ => none

def failed (n : Option Nat) : Option Slot :=
  match s.stage, s.session with
  | .appending fresh known batch text, some t =>
      some { s with
        session := some { t with
          pending := addAll t.pending (batch.filter fun path => !known.contains path)
          known := if fresh then none else t.known
          writing := [] }
        file := s.landed fresh text n
        tail := s.tail.tail
        stage := .queued }
  | _, _ => none

/-- The answer of a snapshot whose write is done. -/
def answer : Option (Bool × List String) :=
  match s.stage, s.tail with
  | .collecting, .snapshot outside :: _ =>
      let paths := (s.session.map fun t => addAll (t.known.getD []) t.pending).getD []
      some (outside, paths.filter fun path => isOutsideTouchedPath path = outside)
  | _, _ => none

def collected : Option Slot :=
  match s.stage with
  | .collecting => some { s with tail := s.tail.tail, stage := .queued }
  | _ => none

def removed (gone : Bool) : Option Slot :=
  match s.stage with
  | .removing => some { s with
      file := if gone then none else s.file, tail := s.tail.tail, stage := .queued }
  | _ => none

/-- The app ended and a new store is there: a write under way may have landed in part, a
removal may have happened. -/
def restart (n : Option Nat) : Slot :=
  match s.stage with
  | .appending fresh _ _ text => { file := s.landed fresh text n }
  | .removing => { file := if n.isSome then none else s.file }
  | _ => { file := s.file }

end Slot

/-! ## The store -/

/-- What happens to one session. -/
inductive Act where
  | note (path : String)
  | decided (mode : Mode)
  | track
  | snapshot (outside : Bool)
  | forget
  | start
  | loaded
  | appended
  | failed (n : Option Nat)
  | collected
  | removed (gone : Bool)
  deriving DecidableEq, Repr

def Slot.step (sessionId : String) (s : Slot) : Act → Option Slot
  | .note path => some (s.note path)
  | .decided mode => some (s.decided mode)
  | .track => some s.track
  | .snapshot outside => some (s.snapshot outside)
  | .forget => some s.forget
  | .start => s.start sessionId
  | .loaded => s.loaded sessionId
  | .appended => s.appended
  | .failed n => s.failed n
  | .collected => s.collected
  | .removed gone => s.removed gone

inductive Event where
  | session (sessionId : String) (act : Act)
  | flush
  | restart (landed : String → Option Nat)

/-- `sessions`, `tails` and the folder of the store. -/
abbrev Store := String → Slot

def Store.step (store : Store) : Event → Option Store
  | .session sessionId act =>
      ((store sessionId).step sessionId act).map (Function.update store sessionId)
  | .flush => some fun sessionId => (store sessionId).flush
  | .restart landed => some fun sessionId => (store sessionId).restart (landed sessionId)

end TouchedPathStore

end OmniRush.Archive
