import OmniRush.Archive.Disk

/-!
# Captures of one session, with failures

A session's captures run one after the other under its lock. Each packs an
archive, then commits it; any step of the commit can throw. What a capture
answers depends on the error, what it leaves on disk on the step.
-/

namespace OmniRush.Archive

open OmniRush

/-- The steps of a commit that can throw. -/
inductive CommitStep where
  | rename
  | queueRecord
  | baseline
  | session
  | previous
  | hashCache
  deriving DecidableEq, Repr

inductive Errno where
  | enospc
  | edquot
  | other (code : String)
  deriving DecidableEq, Repr

structure Fault where
  step : CommitStep
  error : Errno
  deriving DecidableEq, Repr

/-- The step of the commit an operation is. -/
def FileOp.commitStep : FileOp → Option CommitStep
  | .renamePending _ => some .rename
  | .writeQueue _ => some .queueRecord
  | .writeBaseline _ => some .baseline
  | .saveSession _ => some .session
  | .rmBaseline _ => some .previous
  | .saveHashCache => some .hashCache
  | _ => none

def Fault.hits (fault : Option Fault) (op : FileOp) : Bool :=
  op.commitStep.isSome && op.commitStep = fault.map (·.step)

inductive CommitResult where
  | queued
  | paused
  | failed
  deriving DecidableEq, Repr

/-- What a capture packed. -/
structure Packed where
  turn : Nat
  options : CaptureOptions := {}
  archiveId : String
  files : List ScannedEntry := []
  size : Nat
  sha256 : String
  kid : String
  createdAt : String
  deriving DecidableEq

/-- A base until the session has one, then deltas. -/
def nextKind (state : SessionState) : ArchiveKind :=
  if state.nextSequence = 0 then .base else .delta

def Packed.captured (p : Packed) (state : SessionState) : Captured where
  state := state
  kind := nextKind state
  turn := p.turn
  options := p.options
  archiveId := p.archiveId
  files := p.files
  size := p.size
  sha256 := p.sha256
  kid := p.kid
  createdAt := p.createdAt

section

variable (k : StateKey) (flags : CommitFlags)

/-- The commit with at most one step that throws. A full disk answers `paused`. -/
def runCommit (c : Captured) (fault : Option Fault) (d : Disk) : CommitResult × Disk :=
  match runSteps FileOp.apply (Fault.hits fault) (commitSteps k flags c) d, fault with
  | (true, d'), _ => (.queued, d')
  | (false, d'), some ⟨_, .enospc⟩ => (.paused, d')
  | (false, d'), some ⟨_, .edquot⟩ => (.paused, d')
  | (false, d'), _ => (.failed, d')

/-- One capture: what it packed, and where its commit fails. -/
structure Attempt extends Packed where
  fault : Option Fault := none

/-- The record a session's capture starts from: the saved one, or a fresh one. -/
def currentState (fresh : SessionState) (d : Disk) : SessionState :=
  (d.loadSession fresh.sessionId).getD fresh

/-- A capture that found something to send: packed, then committed. -/
def Attempt.run (fresh : SessionState) (a : Attempt) (d : Disk) : CommitResult × Disk :=
  runCommit k flags (a.captured (currentState fresh d)) a.fault
    ((FileOp.writePartial a.archiveId).apply d)

def runAttempts (fresh : SessionState) (attempts : List Attempt) (d : Disk) : Disk :=
  attempts.foldl (fun d a => (a.run k flags fresh d).2) d

/-- The archive is committed: its record, sealed file and baseline are there, and
the session's record is past its sequence. -/
def Committed (c : Captured) (d : Disk) : Prop :=
  (∃ s, d.loadSession c.state.sessionId = some s ∧ s.nextSequence = c.state.nextSequence + 1) ∧
    commitRecord k flags c ∈ d.queue ∧ sealedFileName c.archiveId ∈ d.pending ∧
    commitBaseline k c ∈ d.baselines

end

/-- Nothing of the archive is left, and the session's record is as it was. -/
def Untouched (c : Captured) (before after : Disk) : Prop :=
  after.loadSession c.state.sessionId = before.loadSession c.state.sessionId ∧
    (∀ r ∈ after.queue, r.archiveId ≠ c.archiveId) ∧ sealedFileName c.archiveId ∉ after.pending

/-- Where the sequences of a session's next archive start. -/
def Disk.nextSequence (d : Disk) (sessionId : String) : Nat :=
  (d.loadSession sessionId).elim 0 (·.nextSequence)

def Disk.jobs (d : Disk) (sessionId : String) : List QueueRecord :=
  d.queue.filter fun r => r.request.sessionId = sessionId

/-- The queued jobs of a session have distinct sequences, all below the next one. -/
structure InOrder (sessionId : String) (d : Disk) : Prop where
  distinct : ((d.jobs sessionId).map (·.request.sequence)).Nodup
  below : ∀ r ∈ d.jobs sessionId, r.request.sequence < d.nextSequence sessionId

/-- A fault the handlers clean up after, or that comes after the commit. -/
def Fault.cleanedUp (fault : Option Fault) : Prop :=
  ∀ f ∈ fault, f.step ≠ .baseline ∧ f.step ≠ .session

/-!
## Recovery at start

`recover` runs before anything else uses the archiver's files. It empties `tmp/`,
goes over the queue once in the order the directory lists it, and keeps a record
only when its session is known, not stopped and past it, its sealed file is there
and it is not too old. A record that fails one of the last two stops its session.
Then the sealed files no kept record names go, and the baselines no session names.

The directory's order is a parameter, and so is which records are too old.
-/

/-- The pass over the queue: the files so far, and the sealed files kept. -/
structure RecoverPass where
  disk : Disk
  kept : List String := []

section

variable (k : StateKey)

/-- The session a record belongs to. -/
def Disk.sessionOf (d : Disk) (sessionKey : String) : Option SessionState :=
  d.sessions.find? fun s => k.key s.sessionId = sessionKey

def RecoverPass.delete (p : RecoverPass) (record : QueueRecord) : RecoverPass :=
  { p with disk := applyAll FileOp.apply (deleteJob record) p.disk }

def RecoverPass.stop (p : RecoverPass) (session : SessionState) (code : String) : RecoverPass :=
  { p with disk := (FileOp.saveSession { session with stopped := some code }).apply p.disk }

/-- One record; `pendingFiles` is what `pending/` held before the pass. -/
def recoverRecord (pendingFiles : List String) (expired : QueueRecord → Bool) (p : RecoverPass)
    (record : QueueRecord) : RecoverPass :=
  match p.disk.sessionOf k record.sessionKey with
  | none => p.delete record
  | some session =>
      if session.stopped.isSome ∨ session.nextSequence ≤ record.request.sequence then
        p.delete record
      else if record.sealedFile ∉ pendingFiles then
        (p.delete record).stop session "archive_file_missing"
      else if expired record then (p.delete record).stop session "archive_expired"
      else { p with kept := p.kept ++ [record.sealedFile] }

def recoverQueue (pendingFiles : List String) (expired : QueueRecord → Bool)
    (order : List QueueRecord) (p : RecoverPass) : RecoverPass :=
  order.foldl (recoverRecord k pendingFiles expired) p

def Disk.namedBaselines (d : Disk) : List String := d.sessions.flatMap (·.namedBaselines)

/-- `recover`, the queue listed in `order`. -/
def recover (expired : QueueRecord → Bool) (order : List QueueRecord) (d : Disk) : Disk :=
  let p := recoverQueue k d.pending expired order ⟨{ d with tmp := [] }, []⟩
  { p.disk with
    pending := p.disk.pending.filter (· ∈ p.kept)
    baselines := p.disk.baselines.filter (· ∈ p.disk.namedBaselines) }

/-- Whether the next capture of an unstopped session can read a baseline. -/
def CanCompare (d : Disk) (s : SessionState) : Prop :=
  (∀ b ∈ s.namedBaselines, b ∈ d.baselines) ∧
    (s.nextSequence = 0 ∨ s.baseline.isSome ∨ s.serverChain)

/-- The queue invariant recovery is there for. -/
structure Restored (d : Disk) : Prop where
  queue : ∀ r ∈ d.queue, ∃ s ∈ d.sessions, k.key s.sessionId = r.sessionKey ∧
    s.stopped = none ∧ r.request.sequence < s.nextSequence ∧ r.sealedFile ∈ d.pending
  pending : ∀ name ∈ d.pending, ∃ r ∈ d.queue, r.sealedFile = name
  baselines : ∀ name ∈ d.baselines, ∃ s ∈ d.sessions, name ∈ s.namedBaselines
  sessions : ∀ s ∈ d.sessions, s.stopped = none → CanCompare d s

/-- A record of an unstopped session that is past it. -/
def isLive (session : SessionState) (record : QueueRecord) : Bool :=
  k.key session.sessionId = record.sessionKey && record.request.sequence < session.nextSequence

/-- A record that stops its session when it is live. -/
def stopsSession (pendingFiles : List String) (expired : QueueRecord → Bool)
    (record : QueueRecord) : Bool :=
  record.sealedFile ∉ pendingFiles || expired record

/-- No session is stopped after one of its records was kept: when a live record of
it stops it, the first one listed does. -/
def Orderly (pendingFiles : List String) (expired : QueueRecord → Bool)
    (order : List QueueRecord) (d : Disk) : Prop :=
  ∀ s ∈ d.sessions, s.stopped = none →
    (∃ r ∈ order, isLive k s r ∧ stopsSession pendingFiles expired r) →
    ∀ r ∈ order.find? (isLive k s), stopsSession pendingFiles expired r

end

end OmniRush.Archive
