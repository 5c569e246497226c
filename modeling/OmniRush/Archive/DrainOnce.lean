import Mathlib.Algebra.Order.Ring.Int
import OmniRush.Archive.Process
import OmniRush.Archive.Upload

/-!
# One pass over the upload queue

`drainOnce` goes by the list it made at its beginning, each session's jobs by their number.
It waits for the uploader, for the files it writes and removes, and for what it asks the
server. What holds a session's lock goes on meanwhile: a capture that commits a job or stops
its session, and what an earlier outcome asked for, a stop (`markStopped`) or a reset of the
chain. Between two waits nothing comes in, so the jobs a pass leaves alone are one step with
the job it looks at.

The uploader's outcome is an input, and so is the answer of the server on a chain whose
number it holds already. A sign-out ends a pass and all that is in memory, and is left out.
File operations succeed.
-/

namespace OmniRush.Archive

def maxJobAgeMs : Int := 7 * 24 * 60 * 60 * 1000

def jobRetryBaseMs : Int := 60 * 1000

def jobRetryMaxMs : Int := 60 * 60 * 1000

/-- `Date.parse` and `toISOString`. -/
structure DrainClock where
  parse : String → Option Int
  iso : Int → String

/-- What a pass noted of the jobs it came to, by the record it had listed. -/
inductive PassEntry where
  | handed (record : QueueRecord)
  | ended (record : QueueRecord) (outcome : UploadOutcome)
  /-- Of a stopped session. -/
  | dropped (record : QueueRecord)
  | expired (record : QueueRecord)
  /-- Its next attempt is not due. -/
  | waiting (record : QueueRecord)
  deriving DecidableEq

def PassEntry.record : PassEntry → QueueRecord
  | .handed r | .ended r _ | .dropped r | .expired r | .waiting r => r

/-- Why a pass removes the jobs of a session. -/
inductive DropReason where
  | stopSession
  | resetToNoBase
  /-- The number the server's chain goes on with. -/
  | recoverSequenceConflict (next : Nat)
  deriving DecidableEq, Repr

/-- What is done under a session's lock, and keeps it out of the drain until then. -/
inductive ChainTask where
  /-- `rewindRefusedFinal`: back to before the final archive of this number. -/
  | rewind (from_ : Nat)
  /-- The chain goes on with this number, without the jobs there are. -/
  | restart (next : Nat)
  deriving DecidableEq, Repr

/-- What `continueServerChain` comes to for a job whose number the server holds. -/
inductive ChainAnswer where
  | later
  | stop
  | goOn (next : Nat)
  deriving DecidableEq, Repr

inductive PassStage where
  /-- The names of the queue that are still to be read, and the records read. -/
  | listing (names : List String) (found : List QueueRecord)
  | looking
  /-- The record the pass listed, and as it is rewritten. -/
  | uploading (listed record : QueueRecord)
  /-- What has to go of a session: to be listed, then to be removed one by one. -/
  | dropping (session : String) (jobs : Option (List QueueRecord)) (reason : DropReason)
  deriving DecidableEq

structure DrainPass where
  nowMs : Int := 0
  /-- The jobs in upload order, and those of them it has not come to. -/
  listed : List QueueRecord := []
  todo : List QueueRecord := []
  held : List String := []
  stage : PassStage
  log : List PassEntry := []
  deriving DecidableEq

structure DrainState where
  queue : List QueueRecord
  /-- `next_sequence` of each session's record. -/
  next : String → Nat
  /-- Sessions whose record says they are stopped. -/
  ended : List String := []
  stoppedSessions : List String := []
  resettingSessions : List String := []
  /-- The sessions a `markStopped` waits for. -/
  stops : List String := []
  tasks : List (String × ChainTask) := []
  /-- How many `disable` have not listed the queue, and what the others have to remove. -/
  disables : Nat := 0
  disabling : List QueueRecord := []
  finalsAccepted : Bool := false
  pass : Option DrainPass := none

inductive DrainAct where
  /-- A pass begins, with the names in the order the directory gives them. -/
  | begin (names : List String)
  | read
  | order (nowMs : Int)
  | look
  /-- The uploader writes how far it is. -/
  | persist (upload : Option ArchiveUploadState) (recreates : Nat)
  | outcome (outcome : UploadOutcome) (answer : ChainAnswer)
  /-- The next step of a removal. -/
  | drop
  | finish
  | abort
  | disableList
  | disableNext
  /-- A capture queues an archive. -/
  | commit (record : QueueRecord)
  /-- A capture stops its session; `chain` when the server's chain cannot be continued. -/
  | captureStop (session : String) (chain : Bool)
  /-- A capture goes on from the server's chain. -/
  | captureContinue (session : String) (next : Nat)
  /-- A capture learns that archiving is off. -/
  | captureDisable
  | runStop (session : String)
  /-- `rewindPoint`: whether the session's record has the point to go back to. -/
  | runTask (session : String) (task : ChainTask) (rewindPoint : Bool)
  /-- `resettingSessions.delete`. -/
  | release (session : String)
  deriving DecidableEq

def QueueRecord.session (r : QueueRecord) : String := r.request.sessionId

namespace DrainState

variable (clock : DrainClock) (sessionOf : String → String) (d : DrainState)

/-! ## The queue -/

def removeJobs (gone : QueueRecord → Bool) : DrainState :=
  { d with queue := d.queue.filter fun r => !gone r }

def deleteJob (record : QueueRecord) : DrainState :=
  d.removeJobs fun r => r.archiveId = record.archiveId

def deleteSession (session : String) : DrainState :=
  d.removeJobs fun r => r.session = session

/-- `writeJsonAtomic`: over the record of this id, which may have been removed. -/
def writeRecord (record : QueueRecord) : DrainState :=
  { d with queue :=
      if d.queue.any fun r => r.archiveId = record.archiveId then
        d.queue.map fun r => if r.archiveId = record.archiveId then record else r
      else d.queue ++ [record] }

/-! ## State transitions -/

def requestStop (session : String) : DrainState :=
  if session ∈ d.stoppedSessions then d
  else { d with
    stoppedSessions := session :: d.stoppedSessions
    stops := session :: d.stops }

def markStopped (session : String) : DrainState :=
  { d.deleteSession session with ended := session :: d.ended }

/-- A task waits for the session's lock, and the drain leaves the session alone. -/
def addTask (session : String) (task : ChainTask) : DrainState :=
  { d with
    resettingSessions := session :: d.resettingSessions
    tasks := (session, task) :: d.tasks }

def dropped (session : String) : DropReason → DrainState
  | .stopSession => d.requestStop session
  | .resetToNoBase => d.addTask session (.restart 0)
  | .recoverSequenceConflict next => d.addTask session (.restart next)

def runTask (session : String) (rewindPoint : Bool) : ChainTask → DrainState
  | .rewind from_ =>
      if session ∈ d.ended ∨ rewindPoint then
        let t := d.removeJobs fun r => r.session = session && from_ ≤ r.request.sequence
        if session ∈ d.ended then t else { t with next := Function.update d.next session from_ }
      else
        { d.markStopped session with stoppedSessions := session :: d.stoppedSessions }
  | .restart next =>
      let t := d.deleteSession session
      if session ∈ d.ended then t else { t with next := Function.update d.next session next }

/-! ## The pass -/

/-- Whether the loop goes on to the next job at once. -/
def skips (p : DrainPass) (record : QueueRecord) : Bool :=
  record.session ∈ p.held || record.session ∈ d.resettingSessions

def isExpired (nowMs : Int) (record : QueueRecord) : Bool :=
  match clock.parse record.createdAt with
  | some created => nowMs - created > maxJobAgeMs
  | none => false

def isWaiting (nowMs : Int) (record : QueueRecord) : Bool :=
  match record.nextAttemptAt.bind clock.parse with
  | some due => due > nowMs
  | none => false

def look (p : DrainPass) : DrainState :=
  match p.todo.dropWhile (d.skips p) with
  | [] => { d with pass := some { p with todo := [] } }
  | record :: todo =>
      if record.session ∈ d.stoppedSessions then
        { d.deleteJob record with
          pass := some { p with todo := todo, log := p.log ++ [.dropped record] } }
      else if isExpired clock p.nowMs record then
        { d with pass := some { p with
            todo := todo
            stage := .dropping record.session none .stopSession
            log := p.log ++ [.expired record] } }
      else if isWaiting clock p.nowMs record then
        { d with pass := some { p with
            todo := todo
            held := record.session :: p.held
            log := p.log ++ [.waiting record] } }
      else
        { d with pass := some { p with
            todo := todo
            stage := .uploading record record
            log := p.log ++ [.handed record] } }

/-- A job with its next attempt. -/
def later (nowMs : Int) (record : QueueRecord) : QueueRecord :=
  deferRecord record
    (clock.iso (nowMs + min jobRetryMaxMs (jobRetryBaseMs * 2 ^ record.attempts)))

/-- The pass leaves the session alone from here on. -/
def hold (p : DrainPass) (session : String) : Option DrainPass :=
  some { p with stage := .looking, held := session :: p.held }

def startDrop (p : DrainPass) (session : String) (reason : DropReason) : DrainState :=
  { d with pass := some { p with stage := .dropping session none reason } }

/-- The record is written with its next attempt, and its session held. -/
def putOff (p : DrainPass) (record : QueueRecord) : DrainState :=
  { d.writeRecord (later clock p.nowMs record) with pass := hold p record.session }

/-- The `switch` over the outcome. -/
def answer (p : DrainPass) (record : QueueRecord) (chain : ChainAnswer) :
    UploadOutcome → DrainState
  | .uploaded =>
      { d.deleteJob record with
        finalsAccepted := d.finalsAccepted || record.trigger = some .final
        pass := some { p with stage := .looking } }
  | .disabled _ => { d with disables := d.disables + 1, pass := none }
  | .blocked _ | .aborted => { d with pass := none }
  | .stopSession code =>
      if record.trigger = some .final ∧ code = "archive_parent_mismatch" ∧ !d.finalsAccepted then
        { d.addTask record.session (.rewind record.request.sequence) with
          pass := hold p record.session }
      else if code = "archive_sequence_conflict" then
        match chain with
        | .later => d.putOff clock p record
        | .stop => d.startDrop p record.session .stopSession
        | .goOn next => d.startDrop p record.session (.recoverSequenceConflict next)
      else d.startDrop p record.session .stopSession
  | .rekey _ =>
      d.startDrop p record.session
        (if record.request.kind = .base then .resetToNoBase else .stopSession)
  | .retryLater _ => d.putOff clock p record

def drop (p : DrainPass) (session : String) (reason : DropReason) :
    Option (List QueueRecord) → DrainState
  | none =>
      let jobs := d.queue.filter fun r => r.session = session
      { d with pass := some { p with stage := .dropping session (some jobs) reason } }
  | some (job :: jobs) =>
      { d.deleteJob job with
        pass := some { p with stage := .dropping session (some jobs) reason } }
  | some [] => { d.dropped session reason with pass := hold p session }

/-- The steps of a pass, by what it is at. -/
def passStep (p : DrainPass) : DrainAct → Option DrainState
  | .read =>
      match p.stage with
      | .listing (name :: names) found =>
          let read := d.queue.find? fun r => r.archiveId = name
          some { d with pass := some { p with stage := .listing names (found ++ read.toList) } }
      | _ => none
  | .order nowMs =>
      match p.stage with
      | .listing [] found =>
          let listed := orderedQueue found
          let p := { p with nowMs := nowMs, listed := listed, todo := listed, stage := .looking }
          some { d with pass := some p }
      | _ => none
  | .look => if p.stage = .looking ∧ p.todo ≠ [] then some (d.look clock p) else none
  | .persist upload recreates =>
      match p.stage with
      | .uploading listed record =>
          let record := { record with upload, recreates }
          some { d.writeRecord record with
            pass := some { p with stage := .uploading listed record } }
      | _ => none
  | .outcome outcome chain =>
      match p.stage with
      | .uploading listed record =>
          some (d.answer clock { p with log := p.log ++ [.ended listed outcome] } record chain
            outcome)
      | _ => none
  | .drop =>
      match p.stage with
      | .dropping session jobs reason => some (d.drop p session reason jobs)
      | _ => none
  | .finish => if p.stage = .looking ∧ p.todo = [] then some { d with pass := none } else none
  | .abort => if p.stage = .looking then some { d with pass := none } else none
  | _ => none

/-- The steps of what goes on beside a pass. -/
def otherStep : DrainAct → Option DrainState
  | .begin names =>
      if d.pass.isNone ∧ names.Perm (d.queue.map (·.archiveId)) then
        some { d with pass := some { stage := .listing names [] } }
      else none
  | .disableList =>
      if 0 < d.disables then
        some { d with disables := d.disables - 1, disabling := d.disabling ++ d.queue }
      else none
  | .disableNext =>
      match d.disabling with
      | record :: rest =>
          some { (d.deleteJob record).requestStop record.session with disabling := rest }
      | [] => none
  | .commit record =>
      if (record.session ∈ d.stoppedSessions → record.session ∈ d.stops)
          ∧ record.session ∉ d.ended
          ∧ record.request.sequence = d.next record.session
          ∧ record.archiveId ∉ d.queue.map (·.archiveId)
          ∧ sessionOf record.archiveId = record.session then
        some { d with
          queue := d.queue ++ [record]
          next := Function.update d.next record.session (d.next record.session + 1) }
      else none
  | .captureStop session chain =>
      let t := d.markStopped session
      some (if chain then { t with stoppedSessions := session :: d.stoppedSessions } else t)
  | .captureContinue session next =>
      if session ∈ d.stoppedSessions then none
      else some { d with
        ended := d.ended.filter (· ≠ session)
        next := Function.update d.next session next }
  | .captureDisable => some { d with disables := d.disables + 1 }
  | .runStop session =>
      if session ∈ d.stops then
        some { d.markStopped session with stops := d.stops.filter (· ≠ session) }
      else none
  | .runTask session task rewindPoint =>
      if (session, task) ∈ d.tasks then
        some { d.runTask session rewindPoint task with tasks := d.tasks.erase (session, task) }
      else none
  | .release session =>
      if session ∈ d.tasks.map (·.1) then none
      else some { d with resettingSessions := d.resettingSessions.filter (· ≠ session) }
  | _ => none

def step (act : DrainAct) : Option DrainState :=
  match d.pass.bind fun p => d.passStep clock p act with
  | some t => some t
  | none => d.otherStep sessionOf act

end DrainState

end OmniRush.Archive
