import OmniRush.Lib.Bytes
import OmniRush.Lib.Json
import OmniRush.Automations.Schedule

/-!
# The automation tables

The rows of `automation`, `automation_revision` and `automation_run`, with the columns
that decide what happens to a run or to the schedule. Instants are milliseconds, as the
columns keep them.

A database is the three tables. A statement reads rows or updates the rows its `where`
selects, and is atomic.
-/

namespace OmniRush.Automations

inductive AutomationState where
  | active
  | inactive
  | needsAttention
  | archived
  deriving DecidableEq, Repr

inductive RunStatus where
  | queued
  | claimed
  | running
  | succeeded
  | failed
  | cancelled
  | skipped
  deriving DecidableEq, Repr

/-- `terminalRunStatuses`. -/
def RunStatus.isTerminal : RunStatus → Bool
  | .succeeded | .failed | .cancelled | .skipped => true
  | _ => false

/-- The statuses of a run somebody has taken. -/
def RunStatus.isLeased : RunStatus → Bool
  | .claimed | .running => true
  | _ => false

inductive RunTrigger where
  | scheduled
  | recovery
  | manual
  deriving DecidableEq, Repr

inductive ExecutionTarget where
  | desktop
  | cloud
  deriving DecidableEq, Repr

structure AutomationError where
  code : String
  message : String
  retryable : Bool
  deriving DecidableEq, Repr

structure AutomationRow where
  id : String
  organizationId : String
  ownerMemberId : String
  name : String
  state : AutomationState
  currentRevisionId : String
  nextDueAt : Option Int
  latestRunAt : Option Int := none
  archivedAt : Option Int := none
  updatedAt : Int
  deriving DecidableEq, Repr

structure RevisionRow where
  id : String
  automationId : String
  version : Nat
  schedule : AutomationSchedule
  executionTarget : ExecutionTarget
  digest : String
  createdAt : Int
  deriving DecidableEq, Repr

structure RunRow where
  id : String
  automationId : String
  revisionId : String
  trigger : RunTrigger
  scheduledFor : Option Int
  idempotencyKey : String
  status : RunStatus
  executionTarget : ExecutionTarget
  claimDeadlineAt : Option Int
  leaseOwner : Option String := none
  leaseExpiresAt : Option Int := none
  heartbeatAt : Option Int := none
  attemptCount : Nat := 0
  engineSequence : Nat := 0
  startedAt : Option Int := none
  finishedAt : Option Int
  error : Option AutomationError := none
  resultSummary : Option String
  cancelRequestedAt : Option Int := none
  createdAt : Int
  updatedAt : Int
  deriving DecidableEq, Repr

structure Db where
  automations : List AutomationRow := []
  revisions : List RevisionRow := []
  runs : List RunRow := []
  deriving DecidableEq, Repr

/-! ## Statements -/

def Db.updateRuns (db : Db) (selects : RunRow → Bool) (set : RunRow → RunRow) : Db :=
  { db with runs := db.runs.map fun r => if selects r then set r else r }

def Db.updateAutomations (db : Db) (selects : AutomationRow → Bool)
    (set : AutomationRow → AutomationRow) : Db :=
  { db with automations := db.automations.map fun a => if selects a then set a else a }

def Db.automation (db : Db) (id : String) : Option AutomationRow :=
  db.automations.find? fun a => a.id = id

def Db.revision (db : Db) (id : String) : Option RevisionRow :=
  db.revisions.find? fun r => r.id = id

def Db.run (db : Db) (id : String) : Option RunRow := db.runs.find? fun r => r.id = id

/-- The automation of a run belongs to a member of an organization. -/
def Db.owned (db : Db) (organizationId ownerMemberId : String) (r : RunRow) : Bool :=
  (db.automation r.automationId).any fun a =>
    a.organizationId = organizationId && a.ownerMemberId = ownerMemberId

end OmniRush.Automations

/-!
## The statements of the automation repository

`DenAutomationRepository` of `repository.ts`. A transaction that locks the rows it
reads is one function of the database. A method that reads and then updates in
statements of their own is two: what it read is an argument of the second.

Every update says which rows it selects. Some compare the status or the lease again,
some only the id.
-/

namespace OmniRush.Automations

open OmniRush

def automationMaximumAttempts : Nat := 2

def automationMinClaimWindowMs : Int := 60000

/-! ## Occurrence keys -/

def isUriUnreserved (b : UInt8) : Bool :=
  let c := Char.ofNat b.toNat
  b < 128 && (c.isAlphanum || "-_.!~*'()".toList.contains c)

def upperHexDigit (n : Nat) : Char := (Nat.digitChar n).toUpper

def encodeUriByte (b : UInt8) : List Char :=
  if isUriUnreserved b then [Char.ofNat b.toNat]
  else ['%', upperHexDigit (b.toNat / 16), upperHexDigit (b.toNat % 16)]

/-- `encodeURIComponent`, on the UTF-8 bytes of a text. -/
def encodeUriComponent (text : String) : List Char :=
  text.toUTF8.data.toList.flatMap encodeUriByte

/-- `automationOccurrenceIdentity`: the idempotency key, none for a manual run without
a nonce. -/
def automationOccurrenceIdentity (automationId : String) (scheduledFor : Option Int)
    (nonce : Option String) : Option String :=
  let occurrence :=
    match scheduledFor, nonce with
    | some t, _ => some (String.ofList (Json.intChars t))
    | none, some nonce => if nonce = "" then none else some ("manual:" ++ nonce)
    | none, none => none
  occurrence.map fun occurrence =>
    "automation:" ++ String.ofList (encodeUriComponent automationId) ++ ":"
      ++ String.ofList (encodeUriComponent occurrence)

def desktopClaimDeadline (now windowMs : Int) (nextDueAt : Option Int) : Int :=
  let requested := now + windowMs
  let bounded := nextDueAt.elim requested (min requested)
  let floor := now + min windowMs automationMinClaimWindowMs
  max floor bounded

/-! ## The automation row -/

/-- An automation with the revision it names, as it was read. -/
structure Item where
  automation : AutomationRow
  revision : RevisionRow
  deriving DecidableEq, Repr

def Db.item (db : Db) (a : AutomationRow) : Option Item :=
  (db.revision a.currentRevisionId).map fun r => ⟨a, r⟩

section

variable (zones : TimeZones)

structure NewAutomation where
  automationId : String
  revisionId : String
  organizationId : String
  ownerMemberId : String
  name : String
  schedule : AutomationSchedule
  executionTarget : ExecutionTarget
  digest : String
  now : Int

/-- `create`. The ids are drawn fresh. -/
def Db.create (db : Db) (input : NewAutomation) : Db :=
  { db with
    revisions := db.revisions ++
      [{ id := input.revisionId
         automationId := input.automationId
         version := 1
         schedule := input.schedule
         executionTarget := input.executionTarget
         digest := input.digest
         createdAt := input.now }]
    automations := db.automations ++
      [{ id := input.automationId
         organizationId := input.organizationId
         ownerMemberId := input.ownerMemberId
         name := input.name
         state := .active
         currentRevisionId := input.revisionId
         nextDueAt := nextAutomationOccurrence zones input.schedule input.now
         updatedAt := input.now }] }

/-- The changes of an edit, and the digest of the definition they lead to. -/
structure Changes where
  organizationId : String
  ownerMemberId : String
  automationId : String
  newRevisionId : String
  name : Option String
  schedule : Option AutomationSchedule
  digest : String
  now : Int

/-- `update`, one locking transaction. -/
def Db.update (db : Db) (input : Changes) : Except String Db :=
  match db.automations.find? fun a => a.id = input.automationId
      && a.organizationId = input.organizationId && a.ownerMemberId = input.ownerMemberId with
  | none => .error "automation_not_found"
  | some automation =>
      if automation.state = .archived then .error "automation_not_found"
      else
        match db.revision automation.currentRevisionId with
        | none => .error "automation_revision_not_found"
        | some current =>
            let schedule := input.schedule.getD current.schedule
            if input.digest = current.digest then
              .ok (db.updateAutomations (fun a => a.id = automation.id) fun a =>
                { a with name := input.name.getD automation.name, updatedAt := input.now })
            else
              let inserted : Db := { db with
                revisions := db.revisions ++
                  [{ id := input.newRevisionId
                     automationId := automation.id
                     version := current.version + 1
                     schedule := schedule
                     executionTarget := current.executionTarget
                     digest := input.digest
                     createdAt := input.now }] }
              .ok (inserted.updateAutomations (fun a => a.id = automation.id) fun a =>
                { a with
                  name := input.name.getD automation.name
                  currentRevisionId := input.newRevisionId
                  nextDueAt := nextAutomationOccurrence zones schedule input.now
                  state := .active
                  updatedAt := input.now })

/-- The update of `setState`, with the item it read. -/
def Db.setState (db : Db) (current : Item) (state : AutomationState) (now : Int) : Db :=
  if current.automation.state = state then db
  else
    db.updateAutomations (fun a => a.id = current.automation.id) fun a =>
      { a with
        state := state
        nextDueAt :=
          if state = .active then nextAutomationOccurrence zones current.revision.schedule now
          else none
        archivedAt := if state = .archived then some now else none
        updatedAt := now }

/-- `listDue`, its order and limit left to the caller. -/
def Db.listDue (db : Db) (now : Int) : List Item :=
  (db.automations.filter fun a =>
    a.state = .active && a.nextDueAt.any fun due => due ≤ now).filterMap db.item

def Db.markNeedsAttention (db : Db) (automationId expectedRevisionId : String) (now : Int) : Db :=
  db.updateAutomations (fun a => a.id = automationId && a.currentRevisionId = expectedRevisionId
      && a.state = .active) fun a =>
    { a with state := .needsAttention, nextDueAt := none, updatedAt := now }

/-! ## Claims -/

structure ClaimInput where
  item : Item
  trigger : RunTrigger
  scheduledFor : Option Int
  nonce : Option String
  newRunId : String
  leaseMs : Int
  claimDeadlineMs : Option Int
  now : Int

inductive ClaimAnswer where
  | duplicate (run : RunRow)
  | overlap (run : RunRow)
  | claimed (run : RunRow)
  deriving DecidableEq, Repr

def ClaimInput.nextDueAt (input : ClaimInput) : Option Int :=
  if input.trigger = .manual then input.item.automation.nextDueAt
  else nextAutomationOccurrence zones input.item.revision.schedule
    (input.scheduledFor.getD input.now)

/-- The run a claim inserts. -/
def ClaimInput.run (input : ClaimInput) (idempotencyKey : String) (overlap : Bool) : RunRow :=
  { id := input.newRunId
    automationId := input.item.automation.id
    revisionId := input.item.revision.id
    trigger := input.trigger
    scheduledFor := input.scheduledFor
    idempotencyKey := idempotencyKey
    status := if overlap then .skipped else .queued
    executionTarget := input.item.revision.executionTarget
    claimDeadlineAt :=
      if overlap then none
      else some (desktopClaimDeadline input.now (input.claimDeadlineMs.getD input.leaseMs)
        (input.nextDueAt zones))
    finishedAt := if overlap then some input.now else none
    resultSummary :=
      if overlap then some "Skipped because another occurrence is already active." else none
    createdAt := input.now
    updatedAt := input.now }

/-- `claim`, one transaction that locks the automation. -/
def Db.claim (db : Db) (input : ClaimInput) : Except String (ClaimAnswer × Db) :=
  let canRun := (db.automation input.item.automation.id).any fun a =>
    a.state = .active || (input.trigger = .manual && a.state = .inactive)
  if canRun then
    match automationOccurrenceIdentity input.item.automation.id input.scheduledFor input.nonce with
    | none => .error "A manual occurrence needs a nonce"
    | some idempotencyKey =>
        match db.runs.find? fun r => r.idempotencyKey = idempotencyKey with
        | some run => .ok (.duplicate run, db)
        | none =>
            let overlap := db.runs.any fun r => r.automationId = input.item.automation.id
              && (r.status = .queued || r.status.isLeased)
            let run := input.run zones idempotencyKey overlap
            let inserted : Db := { db with runs := db.runs ++ [run] }
            let db := inserted.updateAutomations (fun a => a.id = input.item.automation.id) fun a =>
              { a with
                nextDueAt := input.nextDueAt zones
                latestRunAt := some input.now
                updatedAt := input.now }
            .ok (if overlap then .overlap run else .claimed run, db)
  else .error "automation_not_active"

end

/-! ## Taking a run -/

def RunRow.take (r : RunRow) (leaseOwner : String) (leaseMs now : Int) : RunRow :=
  { r with
    status := .running
    leaseOwner := some leaseOwner
    leaseExpiresAt := some (now + leaseMs)
    heartbeatAt := some now
    attemptCount := r.attemptCount + 1
    startedAt := some (r.startedAt.getD now)
    updatedAt := now }

/-- `claimCloud`, one serializable transaction. -/
def Db.claimCloud (db : Db) (runId leaseOwner : String) (leaseMs : Int) (maxConcurrency : Nat)
    (now : Int) : Db :=
  let active := db.runs.filter fun r => r.executionTarget = .cloud && r.status.isLeased
  if (active.take maxConcurrency).length ≥ maxConcurrency then db
  else
    match db.runs.find? fun r => r.id = runId && r.status = .queued && r.executionTarget = .cloud
        && (db.automation r.automationId).isSome with
    | none => db
    | some run =>
        match db.revision run.revisionId with
        | none => db
        | some _ =>
            db.updateRuns (fun r => r.id = run.id && r.status = .queued) fun r =>
              r.take leaseOwner leaseMs now

/-- `claimDesktop`. A run already leased to the runner is answered and left as it is. -/
def Db.claimDesktop (db : Db) (organizationId ownerMemberId leaseOwner : String) (leaseMs : Int)
    (runId : String) (now : Int) : Db :=
  let existing := db.runs.find? fun r => db.owned organizationId ownerMemberId r
    && r.leaseOwner = some leaseOwner && r.id = runId && r.status.isLeased
  match existing with
  | some _ => db
  | none =>
      match db.runs.find? fun r => db.owned organizationId ownerMemberId r && r.status = .queued
          && r.id = runId && r.executionTarget = .desktop
          && r.claimDeadlineAt.any fun deadline => deadline > now with
      | none => db
      | some run =>
          db.updateRuns (fun r => r.id = run.id && r.status = .queued) fun r =>
            r.take leaseOwner leaseMs now

/-! ## Heartbeats -/

def RunRow.renew (r : RunRow) (leaseMs now : Int) : RunRow :=
  { r with heartbeatAt := some now, leaseExpiresAt := some (now + leaseMs), updatedAt := now }

def Db.heartbeat (db : Db) (runId leaseOwner : String) (leaseMs now : Int) : Db :=
  db.updateRuns (fun r => r.id = runId && r.leaseOwner = some leaseOwner && r.status.isLeased)
    fun r => r.renew leaseMs now

def Db.heartbeatCloud (db : Db) (runId leaseOwner : String) (leaseMs now : Int) : Db :=
  db.updateRuns (fun r => r.id = runId && r.leaseOwner = some leaseOwner && r.status = .running
    && r.leaseExpiresAt.any fun expires => expires > now) fun r => r.renew leaseMs now

def Db.heartbeatDesktop (db : Db) (runId leaseOwner : String) (attempt : Nat)
    (leaseMs now : Int) : Db :=
  db.updateRuns (fun r => r.id = runId && r.leaseOwner = some leaseOwner
    && r.attemptCount = attempt && r.status = .running
    && r.leaseExpiresAt.any fun expires => expires > now) fun r => r.renew leaseMs now

/-! ## Ends -/

/-- How a run ends. -/
abbrev FinalStatus := { status : RunStatus // status.isTerminal = true }

/-- `complete`, one transaction that locks the run. -/
def Db.complete (db : Db) (runId leaseOwner : String) (attempt : Option Nat) (status : FinalStatus)
    (resultSummary : Option String) (error : Option AutomationError) (now : Int) :
    Except String Db :=
  let mine := fun r : RunRow => r.id = runId && r.leaseOwner = some leaseOwner
    && attempt.all fun attempt => r.attemptCount = attempt
  match db.runs.find? mine with
  | none => .error "automation_run_complete_lease_lost"
  | some current =>
      if current.status.isTerminal then
        if current.status ≠ status.1 then .error "automation_run_terminal_result_conflict"
        else .ok db
      else if current.status ≠ .running
          ∨ current.leaseExpiresAt.all (fun expires => expires ≤ now) then
        .error "automation_run_complete_lease_lost"
      else
        .ok (db.updateRuns (fun r => mine r && r.status = .running
            && r.leaseExpiresAt.any fun expires => expires > now) fun r =>
          { r with
            status := status.1
            resultSummary := resultSummary
            error := error
            finishedAt := some now
            leaseExpiresAt := none
            heartbeatAt := some now
            updatedAt := now })

/-- `skipRun`. -/
def Db.skipRun (db : Db) (runId code message : String) (now : Int) : Db :=
  db.updateRuns (fun r => r.id = runId && (r.status = .queued || r.status = .running)) fun r =>
    { r with
      status := .skipped
      error := some ⟨code, message, false⟩
      resultSummary := some message
      leaseOwner := none
      leaseExpiresAt := none
      finishedAt := some now
      updatedAt := now }

/-- What `expireUnclaimedDesktop` reads. -/
def Db.unclaimedDesktop (db : Db) (now : Int) : List RunRow :=
  db.runs.filter fun r => r.status = .queued && r.executionTarget = .desktop
    && r.claimDeadlineAt.any (fun deadline => deadline ≤ now)
    && (db.automation r.automationId).isSome

/-- Its update of one of them, with the reason it found. -/
def Db.expireDesktop (db : Db) (runId message : String) (now : Int) : Db :=
  db.updateRuns (fun r => r.id = runId && r.status = .queued) fun r =>
    { r with
      status := .skipped
      error := some ⟨"runner_unavailable", message, false⟩
      resultSummary := some message
      finishedAt := some now
      updatedAt := now }

/-- What `recoverExpiredLeases` reads. -/
def Db.expiredLeases (db : Db) (now : Int) : List RunRow :=
  db.runs.filter fun r => r.status.isLeased && r.leaseExpiresAt.any fun expires => expires < now

/-- Its update for one of them: the id, the lease's owner and its expiry select, the
status does not. -/
def Db.recoverLease (db : Db) (run : RunRow) (now : Int) : Db :=
  match run.leaseOwner with
  | none => db
  | some leaseOwner =>
      let retry := run.attemptCount < automationMaximumAttempts
      db.updateRuns (fun r => r.id = run.id && r.leaseOwner = some leaseOwner
          && r.leaseExpiresAt.any fun expires => expires < now) fun r =>
        { r with
          status := if retry then .queued else .failed
          leaseOwner := none
          leaseExpiresAt := none
          engineSequence := if retry then 0 else run.engineSequence
          error := if retry then none
            else some ⟨"lease_lost", "The execution lease expired.", false⟩
          finishedAt := if retry then none else some now
          updatedAt := now }

/-- The update of `requestCancellation`, with the run it read. It selects by id. -/
def Db.cancelRun (db : Db) (run : RunRow) (now : Int) : Db :=
  let immediate := run.status = .queued
  db.updateRuns (fun r => r.id = run.id) fun r =>
    { r with
      cancelRequestedAt := some now
      status := if immediate then .cancelled else run.status
      finishedAt := if immediate then some now else run.finishedAt
      updatedAt := now }

/-- What `queueRetry` reads. -/
def Db.retryable (db : Db) (runId leaseOwner : String) : Option RunRow :=
  (db.runs.find? fun r => r.id = runId && r.leaseOwner = some leaseOwner
    && r.status = .running).filter fun r => r.attemptCount < automationMaximumAttempts

/-- Its update. It selects by id. -/
def Db.queueRetry (db : Db) (runId : String) (now : Int) : Db :=
  db.updateRuns (fun r => r.id = runId) fun r =>
    { r with
      status := .queued
      leaseOwner := none
      leaseExpiresAt := none
      heartbeatAt := none
      engineSequence := 0
      updatedAt := now }

end OmniRush.Automations
