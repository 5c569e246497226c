import OmniRush.Automations.Server

/-!
# The state table, the event table and what a cloud run leaves behind

The remaining writers of the automation repository. `complete` and the update of the
automation in `completeCloud` are two statements, so the second one writes a state for an
automation that was read when the run began. `recordSkippedManual` inserts a run that
never waits. An event is stored by one transaction that locks the run.
-/

namespace OmniRush.Automations

open OmniRush

/-! ## The states of an automation -/

/-- `transitions`. -/
def transitions : AutomationState → List AutomationState
  | .active => [.inactive, .needsAttention, .archived]
  | .inactive => [.active, .needsAttention, .archived]
  | .needsAttention => [.active, .inactive, .archived]
  | .archived => []

def canTransitionAutomation (state next : AutomationState) : Bool :=
  state = next || (transitions state).contains next

/-! ## The end of a cloud run -/

/-- What a finished cloud run writes to its automation. -/
inductive CloudArtifactStateUpdate where
  | succeeded (latestSuccessfulRunId : String) (latestSuccessfulResult : Option Json)
  /-- The reason has the code `connect_access_unavailable`. -/
  | failed (message : String) (occurredAt : Int)

def CloudArtifactStateUpdate.state : CloudArtifactStateUpdate → AutomationState
  | .succeeded _ _ => .active
  | .failed _ _ => .needsAttention

/-- `cloudArtifactStateUpdate`, with the value of a run that succeeded or the message of
one that did not. -/
def cloudArtifactStateUpdate (runId : String) (result : Except String (Option Json)) (now : Int) :
    CloudArtifactStateUpdate :=
  match result with
  | .ok value => .succeeded runId value
  | .error message => .failed message now

/-- The input of `completeCloud`. The status is never `skipped`. -/
structure CloudCompletion where
  automationId : String
  runId : String
  leaseOwner : String
  status : FinalStatus
  resultSummary : String
  validatedResult : Option Json := none
  updateArtifactState : Bool := true
  error : Option AutomationError := none
  now : Int

def CloudCompletion.artifactState (input : CloudCompletion) : CloudArtifactStateUpdate :=
  cloudArtifactStateUpdate input.runId
    (if input.status.1 = .succeeded then .ok input.validatedResult
      else .error ((input.error.map (·.message)).getD input.resultSummary))
    input.now

/-- The transaction `completeCloud` begins with. -/
def Db.completeCloud (db : Db) (input : CloudCompletion) : Except String Db :=
  db.complete input.runId input.leaseOwner none input.status (some input.resultSummary)
    input.error input.now

/-- Its last update, by the automation's id. -/
def Db.writeArtifactState (db : Db) (input : CloudCompletion) : Db :=
  db.updateAutomations (fun a => a.id = input.automationId) fun a =>
    { a with state := input.artifactState.state, updatedAt := input.now }

/-! ## Manual runs that policy refuses -/

structure SkippedManual where
  organizationId : String
  ownerMemberId : String
  item : Item
  nonce : String
  newRunId : String
  code : String
  message : String
  now : Int

def SkippedManual.run (input : SkippedManual) (idempotencyKey : String) : RunRow where
  id := input.newRunId
  automationId := input.item.automation.id
  revisionId := input.item.revision.id
  trigger := .manual
  scheduledFor := none
  idempotencyKey := idempotencyKey
  status := .skipped
  executionTarget := input.item.revision.executionTarget
  claimDeadlineAt := none
  finishedAt := some input.now
  error := some ⟨input.code, input.message, false⟩
  resultSummary := some input.message
  createdAt := input.now
  updatedAt := input.now

/-- `recordSkippedManual`, one transaction that locks the automation. The index on the
idempotency key refuses a second run of an occurrence. -/
def Db.recordSkippedManual (db : Db) (input : SkippedManual) : Except String Db :=
  match db.automations.find? fun a => a.id = input.item.automation.id
      && a.organizationId = input.organizationId && a.ownerMemberId = input.ownerMemberId with
  | none => .error "automation_not_found"
  | some automation =>
      if automation.state = .archived then .error "automation_not_found"
      else if automation.currentRevisionId ≠ input.item.revision.id then
        .error "automation_revision_changed"
      else
        match automationOccurrenceIdentity input.item.automation.id none (some input.nonce) with
        | none => .error "A manual occurrence needs a nonce"
        | some idempotencyKey =>
            if db.runs.any fun r => r.idempotencyKey = idempotencyKey then
              .error "automation_run_occurrence"
            else
              let inserted : Db := { db with runs := db.runs ++ [input.run idempotencyKey] }
              .ok (inserted.updateAutomations (fun a => a.id = input.item.automation.id) fun a =>
                { a with latestRunAt := some input.now, updatedAt := input.now })

/-! ## Run events -/

inductive RunEventType where
  | user
  | assistant
  | capabilitySearch
  | capabilityExecution
  | usage
  | warning
  | terminal
  deriving DecidableEq, Repr

structure EventRow where
  runId : String
  attempt : Nat
  sequence : Nat
  engineIdempotencyKey : String
  engineExecutionId : String
  type : RunEventType
  payload : Json
  createdAt : Int

/-- One delivery of an event. -/
structure EventInput where
  runId : String
  leaseOwner : String
  attempt : Nat
  sequence : Nat
  type : RunEventType
  payload : Json
  now : Int

/-- The two callers of `appendClaimedEvent`, which differ in the key. -/
inductive EventSource where
  | desktop
  | cloud
  deriving DecidableEq, Repr

/-- The idempotency key of `appendDesktopEvent` and of `appendCloudEvent`. -/
def EventInput.idempotencyKey (input : EventInput) (source : EventSource) : List Char :=
  (match source with
    | .desktop => "desktop"
    | .cloud => input.leaseOwner).toList
    ++ ':' :: input.runId.toList ++ ':' :: Json.natChars input.attempt
    ++ ':' :: Json.natChars input.sequence

def EventInput.row (input : EventInput) (source : EventSource) : EventRow where
  runId := input.runId
  attempt := input.attempt
  sequence := input.sequence
  engineIdempotencyKey := String.ofList (input.idempotencyKey source)
  engineExecutionId := input.leaseOwner
  type := input.type
  payload := input.payload
  createdAt := input.now

/-- The run a delivery is for, while its attempt holds the lease. -/
def EventInput.claims (input : EventInput) (r : RunRow) : Bool :=
  r.id = input.runId && r.leaseOwner = some input.leaseOwner && r.attemptCount = input.attempt
    && r.status = .running && r.leaseExpiresAt.any fun expires => expires > input.now

/-- `appendClaimedEvent`, one transaction that locks the run, with the event it answers.
The two unique indexes of the table refuse a second row. -/
def appendClaimedEvent (db : Db) (events : List EventRow) (input : EventInput)
    (source : EventSource) : Except String (EventRow × Db × List EventRow) :=
  match db.runs.find? input.claims with
  | none => .error "automation_run_lease_lost"
  | some run =>
      let idempotencyKey := String.ofList (input.idempotencyKey source)
      match events.find? fun e => e.runId = run.id && e.attempt = input.attempt
          && e.engineIdempotencyKey = idempotencyKey with
      | some duplicate => .ok (duplicate, db, events)
      | none =>
          if input.sequence ≠ run.engineSequence + 1 then
            .error "automation_runner_event_sequence_gap"
          else if events.any fun e => e.runId = run.id
              && ((e.attempt = input.attempt && e.sequence = input.sequence)
                || e.engineIdempotencyKey = idempotencyKey) then
            .error "automation_run_event_sequence"
          else
            let row := input.row source
            .ok (row, db.updateRuns (fun r => r.id = run.id) fun r =>
              { r with engineSequence := input.sequence, updatedAt := input.now },
              events ++ [row])

/-! ## The machine with these writers -/

/-- The servers and runners with the event table. `completing` are the cloud completions
between their transaction and their last update. The last two fields are no rows: the
automations their users deactivated and did not activate or edit since, and the
deliveries that were answered with an event. -/
structure Service where
  den : Den := {}
  events : List EventRow := []
  completing : List CloudCompletion := []
  deactivated : List String := []
  accepted : List EventInput := []

inductive ServiceAction where
  | den (a : Action)
  | append (input : EventInput) (source : EventSource)
  | recordSkippedManual (input : SkippedManual)
  | completeCloud (input : CloudCompletion)
  /-- The update of the automation that ends the `index`-th completion. -/
  | writeArtifactState (index : Nat)

/-- An edit that changes the definition. -/
def Db.redefines (db : Db) (input : Changes) : Bool :=
  (db.automations.find? fun a => a.id = input.automationId
      && a.organizationId = input.organizationId && a.ownerMemberId = input.ownerMemberId).any
    fun a => a.state ≠ .archived
      && (db.revision a.currentRevisionId).any fun r => input.digest ≠ r.digest

/-- The automations that stay deactivated over a step. -/
def Service.deactivatedAfter (w : Service) : Action → List String
  | .write (.settingState item state _) _ =>
      if item.automation.state = state then w.deactivated
      else if state = .inactive then w.deactivated ++ [item.automation.id]
      else if state = .active then w.deactivated.filter fun id => id ≠ item.automation.id
      else w.deactivated
  | .update input =>
      if w.den.db.redefines input then
        w.deactivated.filter fun id => id ≠ input.automationId
      else w.deactivated
  | _ => w.deactivated

section

variable (zones : TimeZones)

def Service.step (w : Service) : ServiceAction → Option Service
  | .den a =>
      (w.den.step zones a).map fun den =>
        { w with den, deactivated := w.deactivatedAfter a }
  | .append input source =>
      match appendClaimedEvent w.den.db w.events input source with
      | .error _ => some w
      | .ok (_, db, events) =>
          some { w with
            den := { w.den with db }, events, accepted := w.accepted ++ [input] }
  | .recordSkippedManual input =>
      if w.den.db.runs.all fun r => r.id ≠ input.newRunId then
        some { w with den := { w.den with
          db := (w.den.db.recordSkippedManual input).toOption.getD w.den.db } }
      else none
  | .completeCloud input =>
      match w.den.db.completeCloud input with
      | .error _ => some w
      | .ok db =>
          some { w with
            den := { w.den with db }
            completing := if input.updateArtifactState then w.completing ++ [input]
              else w.completing }
  | .writeArtifactState index =>
      w.completing[index]?.map fun input =>
        { w with
          den := { w.den with db := w.den.db.writeArtifactState input }
          completing := w.completing.eraseIdx index }

end

end OmniRush.Automations
