import Mathlib.Data.List.Sort
import OmniRush.Archive.Commit
import OmniRush.Archive.Task

/-!
# The archiver at work

The whole archiver as one machine. A state holds the files, the generation, the
holder of each session's lock and what waits for one, the drain's pass over the
queue, and the archives the server has accepted. An action is one thing that can
happen between two awaits: a file operation done or failed, a stage reached, an
answer of the server, a bump of the generation (`signOut`, `discardAll`, the end of
`stop`), or a crash with the recovery at the next start. Any order of possible
actions is a run.

The drain takes no lock. It lists the queue's names, reads the records one by one
and goes over them in upload order. The sets that only keep the drain off a session
(`stoppedSessions`, `resettingSessions`, `held`) are not kept: the drain may skip
or drop any record.
-/

namespace OmniRush.Archive

open OmniRush

/-- Asked for, and waiting for the session's lock. -/
structure Waiting where
  sessionId : String
  generation : Nat
  stage : Stage
  deriving DecidableEq

/-- The drain: nothing under way, reading the listed names, or going over the
records, each with the file operations and the requests it leaves. -/
inductive Drain where
  | idle
  | listing (names : List String) (found : List QueueRecord)
  | passing (records : List QueueRecord) (ops : List FileOp) (asks : List (String × Stage))
  deriving DecidableEq

structure World where
  disk : Disk := {}
  generation : Nat := 0
  tasks : String → Option Task := fun _ => none
  waiting : List Waiting := []
  drain : Drain := .idle
  /-- What the server has accepted. -/
  accepted : List QueueRecord := []
  /-- The queue records commits have written and not yet saved a session record
  past. Nothing reads this. -/
  opened : List QueueRecord := []

/-- What the uploader answers for a record. -/
inductive Outcome where
  | uploaded
  /-- `retry_later`. -/
  | deferred (nextAttemptAt : String)
  | stopSession (code : String)
  | disabled (code : String)
  /-- `archive_parent_mismatch` on a final archive. -/
  | refusedFinal (scan : Option Scan)
  /-- `archive_sequence_conflict`, and the chain the server holds. -/
  | conflict (answer : ServerChain) (nextAttemptAt : String) (scan : Option Scan)
  | rekey (code : String)
  /-- `blocked` and `aborted`. -/
  | ended
  deriving DecidableEq

inductive Action where
  /-- A capture takes its session's lock. -/
  | capture (sessionId : String) (stages : List Stage) (rescue : Option Registration)
  /-- What waited for the lock takes it. -/
  | begin (waiting : Waiting)
  | enter (sessionId : String) (cancelled : Bool) (flags : CommitFlags)
  | write (sessionId : String)
  | fail (sessionId : String) (paused : Bool)
  | finish (sessionId : String)
  | list
  | read
  | pass
  | skip
  /-- `stoppedSessions`. -/
  | drop
  | persist (upload : Option ArchiveUploadState) (recreates : Nat)
  /-- The server accepts the record under way, whether or not the answer comes. -/
  | accept
  | answer (outcome : Outcome)
  | drainWrite
  | ask
  | abort
  | bump
  | recover (expired : QueueRecord → Bool) (order : List QueueRecord)

/-! ## The drain -/

def created (jobs : List QueueRecord) : String := (jobs.head?.map (·.createdAt)).getD ""

/-- `orderedQueue`: a session's jobs by sequence, sessions by their first job's time. -/
def orderedQueue (records : List QueueRecord) : List QueueRecord :=
  let sessions := (records.map (·.request.sessionId)).eraseDups.map fun sessionId =>
    (records.filter fun r => r.request.sessionId = sessionId).insertionSort
      fun r s => r.request.sequence ≤ s.request.sequence
  (sessions.insertionSort fun a b => created a ≤ created b).flatten

/-- The rest of a pass that leaves a session alone. -/
def hold (sessionId : String) (records : List QueueRecord) : List QueueRecord :=
  records.filter fun r => r.request.sessionId ≠ sessionId

def deferRecord (r : QueueRecord) (nextAttemptAt : String) : QueueRecord :=
  { r with attempts := r.attempts + 1, nextAttemptAt := some nextAttemptAt }

section

variable (d : Disk) (r : QueueRecord) (rest : List QueueRecord)

/-- `stopSession`. -/
def drainStop (code : String) : Drain :=
  let sessionId := r.request.sessionId
  .passing (hold sessionId rest) (d.dropJobs sessionId 0) [(sessionId, .stop code)]

def drainDefer (nextAttemptAt : String) : Drain :=
  .passing (hold r.request.sessionId rest) [.writeQueue (deferRecord r nextAttemptAt)] []

/-- `recoverSequenceConflict`. -/
def drainConflict (answer : ServerChain) (nextAttemptAt : String) (scan : Option Scan) : Drain :=
  let sessionId := r.request.sessionId
  match d.loadSession sessionId with
  | none => drainStop d r rest "archive_sequence_conflict"
  | some s =>
      if s.stopped.isSome then drainStop d r rest "archive_sequence_conflict"
      else
        match continueServerChain s answer false with
        | .wait _ => drainDefer r rest nextAttemptAt
        | .stop code => drainStop d r rest code
        | .fresh => drainStop d r rest "archive_sequence_conflict"
        | .continue found =>
            let turn := (found.lastTurn.getD 0 :: (d.jobs sessionId).map (·.request.turn)).foldl max 0
            .passing (hold sessionId rest) (d.dropJobs sessionId 0)
              [(sessionId, .continueChain found (scan.map (·.again turn)))]

/-- What the drain does with an answer. -/
def drainAnswer : Outcome → Drain
  | .uploaded =>
      .passing rest (deleteJob r)
        (if r.trigger = some .final
          then [(r.request.sessionId, .acceptFinal r.request.sequence)] else [])
  | .deferred nextAttemptAt => drainDefer r rest nextAttemptAt
  | .stopSession code => drainStop d r rest code
  | .disabled code =>
      .passing [] (d.queue.flatMap deleteJob)
        (d.queue.map fun job => (job.request.sessionId, .stop code))
  | .refusedFinal scan =>
      .passing (hold r.request.sessionId rest) []
        [(r.request.sessionId, .rewind r.request.sequence scan)]
  | .conflict answer nextAttemptAt scan => drainConflict d r rest answer nextAttemptAt scan
  | .rekey code =>
      if r.request.kind = .base then
        .passing (hold r.request.sessionId rest) (d.dropJobs r.request.sessionId 0)
          [(r.request.sessionId, .reset)]
      else drainStop d r rest code
  | .ended => .idle

end

/-! ## The machine -/

/-- The bookkeeping of a commit's file operation. -/
def noteOpened (op : FileOp) (opened : List QueueRecord) : List QueueRecord :=
  match op with
  | .writeQueue r => r :: opened
  | .saveSession s => opened.filter fun r =>
      ¬ (r.request.sessionId = s.sessionId ∧ r.request.sequence < s.nextSequence)
  | _ => opened

def World.setTask (w : World) (sessionId : String) (t : Option Task) : World :=
  { w with tasks := fun id => if id = sessionId then t else w.tasks id }

/-- A file operation of a task. -/
def World.perform (w : World) (op : FileOp) : World :=
  { w with disk := op.apply w.disk, opened := noteOpened op w.opened }

section

variable (k : StateKey) (w : World)

def stepTask (sessionId : String) (f : Task → Option World) : Option World :=
  (w.tasks sessionId).bind f

/-- The record under way, once nothing is left to do for the one before it. -/
def stepRecord (f : QueueRecord → List QueueRecord → World) : Option World :=
  match w.drain with
  | .passing (r :: rest) [] [] => some (f r rest)
  | _ => none

def World.step : Action → Option World
  | .capture sessionId stages rescue =>
      if (w.tasks sessionId).isNone ∧ stages.all Stage.ofCapture then
        some (w.setTask sessionId (some
          { generation := w.generation, capturing := true, stages := stages, rescue := rescue }))
      else none
  | .begin waiting =>
      if waiting ∈ w.waiting ∧ (w.tasks waiting.sessionId).isNone then
        let w' := { w with waiting := w.waiting.erase waiting }
        some (w'.setTask waiting.sessionId (some
          { generation := waiting.generation, stages := [waiting.stage] }))
      else none
  | .enter sessionId cancelled flags =>
      stepTask w sessionId fun t =>
        (t.enter k flags (t.generation = w.generation) cancelled sessionId w.disk).map fun t' =>
          w.setTask sessionId (some t')
  | .write sessionId =>
      stepTask w sessionId fun t =>
        t.next.map fun (op, t') => (w.perform op).setTask sessionId (some t')
  | .fail sessionId paused =>
      stepTask w sessionId fun t =>
        (t.fail paused).map fun t' => w.setTask sessionId (some t')
  | .finish sessionId =>
      stepTask w sessionId fun t =>
        if t.steps = [] ∧ t.packed = none ∧ t.stages = [] then some (w.setTask sessionId none)
        else none
  | .list =>
      if w.drain = .idle then
        some { w with drain := .listing (w.disk.queue.map (·.archiveId)) [] }
      else none
  | .read =>
      match w.drain with
      | .listing (name :: names) found =>
          let read := w.disk.queue.find? fun r => r.archiveId = name
          some { w with drain := .listing names (found ++ read.toList) }
      | _ => none
  | .pass =>
      match w.drain with
      | .listing [] found => some { w with drain := .passing (orderedQueue found) [] [] }
      | _ => none
  | .skip => stepRecord w fun _ rest => { w with drain := .passing rest [] [] }
  | .drop => stepRecord w fun r rest => { w with drain := .passing rest (deleteJob r) [] }
  | .persist upload recreates =>
      stepRecord w fun r rest =>
        let r' := { r with upload := upload, recreates := recreates }
        { w with drain := .passing (r' :: rest) [.writeQueue r'] [] }
  | .accept => stepRecord w fun r _ => { w with accepted := r :: w.accepted }
  | .answer outcome =>
      stepRecord w fun r rest =>
        { w with
          accepted := if outcome = .uploaded then r :: w.accepted else w.accepted
          drain := drainAnswer w.disk r rest outcome }
  | .drainWrite =>
      match w.drain with
      | .passing records (op :: ops) asks =>
          some { w with disk := op.apply w.disk, drain := .passing records ops asks }
      | _ => none
  | .ask =>
      match w.drain with
      | .passing records [] ((sessionId, stage) :: asks) =>
          some { w with
            drain := .passing records [] asks
            waiting := w.waiting ++ [⟨sessionId, w.generation, stage⟩] }
      | _ => none
  | .abort => some { w with drain := .idle }
  | .bump => some { w with generation := w.generation + 1 }
  | .recover expired order =>
      if order.Perm w.disk.queue then
        some { disk := recover k expired order w.disk, accepted := w.accepted }
      else none

end

end OmniRush.Archive
