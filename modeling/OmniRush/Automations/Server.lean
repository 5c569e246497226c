import OmniRush.Automations.Repository

/-!
# Servers and runners on one database

Any number of servers and runners work on the tables. A method that is one transaction
or one statement is one step. A method that reads first leaves what it read waiting
(`Pending`), and its update is a later step with whatever happened in between: a tick
claims the items it listed, a manual run the item it read, `setState` writes for the
item it read, and cancellations, retries, recoveries and expiries update the run they
read.

Who is asked for by whom is left open: every member and runner may do every step that
its own checks let through.
-/

namespace OmniRush.Automations

/-- What a method has read, before its update. -/
inductive Pending where
  | due (item : Item) (now : Int)
  | manual (item : Item)
  | settingState (item : Item) (state : AutomationState) (now : Int)
  | cancelling (run : RunRow) (now : Int)
  | retrying (run : RunRow) (leaseOwner : String) (now : Int)
  | recovering (run : RunRow) (now : Int)
  | expiring (run : RunRow) (now : Int)
  deriving DecidableEq, Repr

/-- What an update draws or is given when it is made. -/
structure Drawn where
  newRunId : String := ""
  nonce : Option String := none
  leaseMs : Int := 0
  claimDeadlineMs : Option Int := none
  message : String := ""
  now : Int := 0

structure Den where
  db : Db := {}
  pending : List Pending := []
  deriving DecidableEq, Repr

inductive Action where
  | create (input : NewAutomation)
  | update (input : Changes)
  | markNeedsAttention (automationId expectedRevisionId : String) (now : Int)
  /-- The read of a method. -/
  | read (p : Pending)
  /-- Its update. -/
  | write (p : Pending) (drawn : Drawn)
  | claimCloud (runId leaseOwner : String) (leaseMs : Int) (maxConcurrency : Nat) (now : Int)
  | claimDesktop (organizationId ownerMemberId leaseOwner : String) (leaseMs : Int)
      (runId : String) (now : Int)
  | heartbeat (runId leaseOwner : String) (leaseMs now : Int)
  | heartbeatCloud (runId leaseOwner : String) (leaseMs now : Int)
  | heartbeatDesktop (runId leaseOwner : String) (attempt : Nat) (leaseMs now : Int)
  | complete (runId leaseOwner : String) (attempt : Option Nat) (status : FinalStatus)
      (resultSummary : Option String) (error : Option AutomationError) (now : Int)
  | skipRun (runId code message : String) (now : Int)

/-- What the read of a method may find. -/
def Db.reads (db : Db) : Pending → Bool
  | .due item now => db.listDue now |>.contains item
  | .manual item =>
      (db.automations.filterMap db.item).contains item && item.automation.state ≠ .archived
  | .settingState item _ _ => (db.automations.filterMap db.item).contains item
  | .cancelling run _ => db.runs.contains run
  | .retrying run leaseOwner _ => db.retryable run.id leaseOwner = some run
  | .recovering run now => (db.expiredLeases now).contains run
  | .expiring run now => (db.unclaimedDesktop now).contains run

section

variable (zones : TimeZones)

/-- The claim of a tick or of a manual run, for the item it read. -/
def Pending.claimInput (drawn : Drawn) : Pending → Option ClaimInput
  | .due item now =>
      item.automation.nextDueAt.map fun scheduledFor =>
        { item, trigger := .scheduled, scheduledFor := some scheduledFor, nonce := none
          newRunId := drawn.newRunId, leaseMs := drawn.leaseMs
          claimDeadlineMs := drawn.claimDeadlineMs, now }
  | .manual item =>
      some
        { item, trigger := .manual, scheduledFor := none, nonce := drawn.nonce
          newRunId := drawn.newRunId, leaseMs := drawn.leaseMs
          claimDeadlineMs := some automationMinClaimWindowMs, now := drawn.now }
  | _ => none

/-- The update that follows a read. A refused claim changes nothing. -/
def Db.write (db : Db) (drawn : Drawn) (p : Pending) : Db :=
  match p with
  | .due _ _ | .manual _ =>
      match (p.claimInput drawn).map (db.claim zones) with
      | some (.ok (_, db')) => db'
      | _ => db
  | .settingState item state now => db.setState zones item state now
  | .cancelling run now => db.cancelRun run now
  | .retrying run _ now => db.queueRetry run.id now
  | .recovering run now => db.recoverLease run now
  | .expiring run now => db.expireDesktop run.id drawn.message now

/-- The ids an insert draws are new. -/
def Db.fresh (db : Db) (automationId revisionId : String) : Bool :=
  db.automations.all (fun a => a.id ≠ automationId)
    && db.runs.all (fun r => r.automationId ≠ automationId)
    && db.revisions.all fun r => r.id ≠ revisionId

def Den.step (w : Den) : Action → Option Den
  | .create input =>
      if w.db.fresh input.automationId input.revisionId then
        some { w with db := w.db.create zones input }
      else none
  | .update input =>
      if w.db.revisions.all fun r => r.id ≠ input.newRevisionId then
        some { w with db := (w.db.update zones input).toOption.getD w.db }
      else none
  | .markNeedsAttention automationId expectedRevisionId now =>
      some { w with db := w.db.markNeedsAttention automationId expectedRevisionId now }
  | .read p => if w.db.reads p then some { w with pending := w.pending ++ [p] } else none
  | .write p drawn =>
      if p ∈ w.pending ∧ w.db.runs.all (fun r => r.id ≠ drawn.newRunId) then
        some { db := w.db.write zones drawn p, pending := w.pending.erase p }
      else none
  | .claimCloud runId leaseOwner leaseMs maxConcurrency now =>
      some { w with db := w.db.claimCloud runId leaseOwner leaseMs maxConcurrency now }
  | .claimDesktop organizationId ownerMemberId leaseOwner leaseMs runId now =>
      some { w with
        db := w.db.claimDesktop organizationId ownerMemberId leaseOwner leaseMs runId now }
  | .heartbeat runId leaseOwner leaseMs now =>
      some { w with db := w.db.heartbeat runId leaseOwner leaseMs now }
  | .heartbeatCloud runId leaseOwner leaseMs now =>
      some { w with db := w.db.heartbeatCloud runId leaseOwner leaseMs now }
  | .heartbeatDesktop runId leaseOwner attempt leaseMs now =>
      some { w with db := w.db.heartbeatDesktop runId leaseOwner attempt leaseMs now }
  | .complete runId leaseOwner attempt status resultSummary error now =>
      some { w with
        db := (w.db.complete runId leaseOwner attempt status resultSummary error now).toOption.getD
          w.db }
  | .skipRun runId code message now =>
      some { w with db := w.db.skipRun runId code message now }

end

end OmniRush.Automations
