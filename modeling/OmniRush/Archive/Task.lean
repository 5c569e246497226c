import OmniRush.Archive.Commit
import OmniRush.Archive.Capture

/-!
# What runs under a session's lock

Everything that changes a session's record runs under the session's lock: the
captures, and what the drain asks for when the server answers (`requestStop`,
`finalAccepted`, `rewindRefusedFinal`, `recoverSequenceConflict`,
`resetToNoBase`). Each is a sequence of stages. A stage reads the files and the
generation when it is reached, with no `await` in between, and comes down to a
program of file operations and, for a capture with something to send, an archive
still to be committed. The file operations are then awaited one by one.

What a scan finds and what the server answers are parameters of the stages. The
times a record carries are left out, and so is a save that only moves them.
-/

namespace OmniRush.Archive

open OmniRush

/-- What `captureBaseLocked` settles for a session it starts. -/
structure Registration where
  marker : String
  v2 : Bool := false
  filesUsed : Bool := false
  turnSeen : Option Nat := none
  deriving DecidableEq, Repr

def Registration.state (r : Registration) (sessionId : String) : SessionState :=
  { SessionState.fresh sessionId r.marker r.v2 r.filesUsed with turnSeen := r.turnSeen }

/-- What a capture's scan comes to. -/
inductive Scan where
  | unchanged (turn : Nat) (options : CaptureOptions)
  | changed (p : Packed)
  deriving DecidableEq

/-- The scan of a turn captured again. -/
def Scan.again (turn : Nat) : Scan → Scan
  | .unchanged _ _ => .unchanged turn { trigger := some .turn }
  | .changed p => .changed { p with turn := turn, options := { trigger := some .turn } }

inductive Stage where
  /-- `captureDelta` and `captureBase`: the turns seen, or only the activity. -/
  | noteTurn (turnSeen : Option Nat)
  /-- `captureBaseLocked`: a session whose base waits. -/
  | register (r : Registration)
  /-- `captureBaseLocked` after a base that threw. -/
  | rescue (r : Registration)
  /-- `captureBase`: a chain stopped by a sequence conflict is asked for again. -/
  | retryConflict (answer : ServerChain)
  /-- `captureArchive`: the server's chain, before a base. -/
  | askServer (r : Option Registration) (answer : ServerChain)
  /-- `captureArchiveOnce` up to the packed archive. -/
  | capture (r : Option Registration) (scan : Scan)
  /-- `captureFinalLocked`: a final that is not captured. -/
  | skipFinal (ended : Bool)
  /-- `requestStop`. -/
  | stop (code : String)
  /-- `finalAccepted`. -/
  | acceptFinal (sequence : Nat)
  /-- `rewindRefusedFinal`. -/
  | rewind (sequence : Nat) (scan : Option Scan)
  /-- `recoverSequenceConflict`. -/
  | continueChain (found : SessionState) (scan : Option Scan)
  /-- `resetToNoBase`. -/
  | reset
  deriving DecidableEq

/-- The stages `captureBase`, `captureDelta`, `captureFinal` and `captureState` go
through. -/
def Stage.ofCapture : Stage → Bool
  | .noteTurn _ | .register _ | .retryConflict _ | .askServer _ _ | .capture _ _
  | .skipFinal _ => true
  | _ => false

/-! ## Programs -/

/-- File operations nothing is done about when they fail. -/
def asSteps (ops : List FileOp) : List (Step FileOp) := ops.map fun op => ⟨op, []⟩

def removeBaseline (name : Option String) : List FileOp := name.toList.map .rmBaseline

/-- The jobs of a session from a sequence on, deleted. -/
def Disk.dropJobs (d : Disk) (sessionId : String) (sequence : Nat) : List FileOp :=
  ((d.jobs sessionId).filter fun r => sequence ≤ r.request.sequence).flatMap deleteJob

/-- `markStopped`. -/
def markStopped (d : Disk) (sessionId code : String) : List FileOp :=
  d.dropJobs sessionId 0 ++
    match d.loadSession sessionId with
    | some s => if s.stopped.isSome then [] else [.saveSession { s with stopped := some code }]
    | none => []

/-- The record a capture works on: the session's, or the one just registered while
the session has no base. -/
def startState (r : Option Registration) (sessionId : String) (d : Disk) : Option SessionState :=
  match r with
  | none => d.loadSession sessionId
  | some r =>
      if d.nextSequence sessionId = 0 then some (r.state sessionId) else d.loadSession sessionId

/-- Whether `readBaseline` answers a list. -/
def Disk.readsBaseline (d : Disk) (s : SessionState) : Bool :=
  match s.baseline with
  | none => s.serverChain
  | some name => name ∈ d.baselines

/-- `noteUnchanged`, as the save it makes. -/
def saveUnchanged (s : SessionState) (turn : Nat) (options : CaptureOptions) : List FileOp :=
  if nextKind s = .delta ∧ options.trigger = some .final ∧ s.finalDue = false ∧
      options.ended = false then []
  else [.saveSession (noteUnchanged s (nextKind s) turn options)]

/-- The record of a chain sent back to its rewind point. -/
def rewoundState (s : SessionState) (p : ChainPoint) : SessionState :=
  { s.atPoint p with rewind := none, finalDue := true }

/-- The record of a session whose base is to be captured again. -/
def resetState (s : SessionState) : SessionState :=
  { s with
    nextSequence := 0
    lastArchiveId := none
    lastTurn := none
    baseline := none
    rewind := none }

/-- The last turn among dropped jobs that were no final archives. -/
def droppedTurn (jobs : List QueueRecord) : Option Nat :=
  ((jobs.filter fun r => r.trigger ≠ some .final).map (·.request.turn)).max?

/-- What a stage comes down to: the file operations to await, the stages after
them, and the archive a capture packs. -/
structure Expansion where
  steps : List (Step FileOp) := []
  stages : List Stage
  packed : Option Captured := none

/-! ## Stages -/

section

variable (current : Bool) (sessionId : String) (d : Disk) (rest : List Stage)

def expandRetryConflict (answer : ServerChain) : List FileOp :=
  match d.loadSession sessionId with
  | none => []
  | some s =>
      if s.stopped = some "archive_sequence_conflict" then
        match continueServerChain { s with stopped := none } answer (!current) with
        | .continue found =>
            removeBaseline s.baseline ++ [.saveSession { found with stopped := none, ended := false }]
        | _ => []
      else []

def expandAskServer (r : Option Registration) (answer : ServerChain) : Expansion :=
  match startState r sessionId d with
  | none => ⟨[], rest, none⟩
  | some s =>
      if s.stopped.isSome ∨ s.nextSequence ≠ 0 then ⟨[], rest, none⟩
      else
        match continueServerChain s answer (!current) with
        | .continue found => ⟨asSteps [.saveSession found], rest, none⟩
        | .stop code => ⟨asSteps (markStopped d sessionId code), [], none⟩
        | .fresh => ⟨[], rest, none⟩
        | .wait _ => ⟨[], rest, none⟩

/-- The baseline that cannot be read stops the session whatever the generation is;
what is unchanged is noted only in the capture's own generation. -/
def expandCapture (r : Option Registration) (scan : Scan) : Expansion :=
  match startState r sessionId d with
  | none => ⟨[], rest, none⟩
  | some s =>
      if s.stopped.isSome then ⟨[], rest, none⟩
      else if s.nextSequence ≠ 0 ∧ d.readsBaseline s = false then
        ⟨asSteps (markStopped d sessionId "baseline_missing"), [], none⟩
      else
        match scan with
        | .unchanged turn options =>
            ⟨if current then asSteps (saveUnchanged s turn options) else [], rest, none⟩
        | .changed p =>
            ⟨[⟨.writePartial p.archiveId, [.rmPartial p.archiveId]⟩], rest, some (p.captured s)⟩

/-- The record first, then the baseline it no longer names, then the jobs. -/
def expandRewind (sequence : Nat) (scan : Option Scan) : Expansion :=
  match d.loadSession sessionId with
  | none => ⟨asSteps (d.dropJobs sessionId sequence), rest, none⟩
  | some s =>
      if s.stopped.isSome then ⟨asSteps (d.dropJobs sessionId sequence), rest, none⟩
      else
        match s.rewind with
        | none => ⟨asSteps (markStopped d sessionId "archive_parent_mismatch"), rest, none⟩
        | some p =>
            if p.nextSequence ≠ sequence then
              ⟨asSteps (markStopped d sessionId "archive_parent_mismatch"), rest, none⟩
            else
              let jobs := (d.jobs sessionId).filter fun r => sequence ≤ r.request.sequence
              let again := (droppedTurn jobs).filter fun turn => p.lastTurn.all (· < turn)
              ⟨asSteps (.saveSession (rewoundState s p)
                  :: removeBaseline (s.baseline.filter fun b => p.baseline ≠ some b)
                  ++ d.dropJobs sessionId sequence),
                (again.bind fun turn => scan.map fun scan => .capture none (scan.again turn)).toList
                  ++ rest, none⟩

def expandContinueChain (found : SessionState) (scan : Option Scan) : Expansion :=
  match d.loadSession sessionId with
  | none => ⟨asSteps (d.dropJobs sessionId 0), rest, none⟩
  | some s =>
      if s.stopped.isSome then ⟨asSteps (d.dropJobs sessionId 0), rest, none⟩
      else
        let continued := continuedState s found
        ⟨asSteps (d.dropJobs sessionId 0
            ++ (if continued = s then [] else [.saveSession continued])
            ++ (if continued.baseline = none then removeBaseline s.baseline else [])
            ++ (if continued.rewind = none then removeBaseline (s.rewind.bind (·.baseline))
              else [])),
          (scan.map fun scan => .capture none scan).toList ++ rest, none⟩

/-- The baselines first, then the record that names none. -/
def expandReset : List FileOp :=
  d.dropJobs sessionId 0 ++
    match d.loadSession sessionId with
    | none => []
    | some s =>
        if s.stopped.isSome then []
        else removeBaseline s.baseline ++ removeBaseline (s.rewind.bind (·.baseline))
          ++ [.saveSession (resetState s)]

/-- The rewind point's baseline first, then the record without the point. -/
def expandAcceptFinal (sequence : Nat) : List FileOp :=
  match d.loadSession sessionId with
  | none => []
  | some s =>
      match s.rewind with
      | none => []
      | some p =>
          if sequence < p.nextSequence then []
          else removeBaseline (p.baseline.filter fun b => s.baseline ≠ some b)
            ++ [.saveSession { s with rewind := none }]

/-- A save of the session's record with some fields changed, while it goes on. -/
def saveChanged (change : SessionState → SessionState) : List FileOp :=
  match d.loadSession sessionId with
  | none => []
  | some s => if s.stopped.isSome then [] else [.saveSession (change s)]

/-- What a stage comes down to when it is reached; `current` is whether the
generation is still the one it started in. -/
def Stage.expand : Stage → Expansion
  | .noteTurn turnSeen =>
      ⟨if current then asSteps (saveChanged sessionId d fun s => { s with turnSeen := turnSeen })
        else [], rest, none⟩
  | .register r =>
      ⟨if current ∧ d.nextSequence sessionId = 0 ∧
          (d.loadSession sessionId).all (·.stopped.isNone)
        then asSteps [.saveSession (r.state sessionId)] else [], rest, none⟩
  | .rescue r =>
      ⟨if current ∧ d.loadSession sessionId = none
        then asSteps [.saveSession (r.state sessionId)] else [], rest, none⟩
  | .retryConflict answer =>
      ⟨if current then asSteps (expandRetryConflict current sessionId d answer) else [], rest, none⟩
  | .askServer r answer => expandAskServer current sessionId d rest r answer
  | .capture r scan => expandCapture current sessionId d rest r scan
  | .skipFinal ended =>
      ⟨if current ∧ ended then
          asSteps (saveChanged sessionId d fun s => { s with finalDue := false, ended := true })
        else [], rest, none⟩
  | .stop code => ⟨if current then asSteps (markStopped d sessionId code) else [], rest, none⟩
  | .acceptFinal sequence =>
      ⟨if current then asSteps (expandAcceptFinal sessionId d sequence) else [], rest, none⟩
  | .rewind sequence scan =>
      if current then expandRewind sessionId d rest sequence scan else ⟨[], rest, none⟩
  | .continueChain found scan =>
      if current then expandContinueChain sessionId d rest found scan else ⟨[], rest, none⟩
  | .reset => ⟨if current then asSteps (expandReset sessionId d) else [], rest, none⟩

end

/-! ## Tasks -/

/-- The holder of a session's lock. -/
structure Task where
  /-- The archiver's generation when the lock was taken or asked for. -/
  generation : Nat
  /-- Whether a capture is under way. -/
  capturing : Bool := false
  stages : List Stage := []
  /-- A packed archive whose commit is still to be decided. -/
  packed : Option Captured := none
  /-- File operations still to be awaited, and those done, of the present stage. -/
  steps : List (Step FileOp) := []
  done : List FileOp := []
  /-- The record to keep when a session's first base throws. -/
  rescue : Option Registration := none
  deriving DecidableEq

/-- The next stage, or the commit of what is packed: `cancelled` is whether
archiving is off, the session was stopped, or the capture was aborted. -/
def Task.enter (k : StateKey) (flags : CommitFlags) (current cancelled : Bool)
    (sessionId : String) (d : Disk) (t : Task) : Option Task :=
  if t.steps ≠ [] then none
  else
    match t.packed, t.stages with
    | some c, _ =>
        some { t with
          packed := none
          done := []
          steps := if current && !cancelled then commitSteps k flags c
            else [⟨.rmPartial c.archiveId, []⟩] }
    | none, [] => none
    | none, stage :: rest =>
        let e := stage.expand current sessionId d rest
        some { t with
          capturing := t.capturing || stage.ofCapture
          stages := e.stages
          packed := e.packed
          done := []
          steps := e.steps }

/-- The next file operation done. -/
def Task.next (t : Task) : Option (FileOp × Task) :=
  match t.steps with
  | [] => none
  | s :: rest => some (s.op, { t with steps := rest, done := t.done ++ [s.op] })

/-- The next file operation failed: its handlers run, and nothing else of the task
but the record a session's first base leaves, unless the capture answers `paused`. -/
def Task.fail (paused : Bool) (t : Task) : Option Task :=
  match t.steps with
  | [] => none
  | s :: _ =>
      some { t with
        stages := if paused then [] else (t.rescue.map .rescue).toList
        packed := none
        steps := asSteps s.onError
        done := [] }

end OmniRush.Archive
