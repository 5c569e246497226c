import Mathlib.Logic.Function.Basic

/-!
# A work queue that keeps the latest value

`latest-trailing-work-queue.ts`. Work is run one pass at a time for a key. A value that comes
while a pass runs is left for one more pass, which takes the latest of them and answers all
who asked. Between two awaits nothing else runs, so there are two steps: a value is put in, and
a run ends, with all that follows of it up to the next run. A `run` that puts values in itself
does so after its start.

The log has what happened in order. Promises and runs are numbered as they come.
-/

namespace OmniRush.Server

structure WorkBatch (Value : Type) where
  value : Value
  /-- The promises to settle. -/
  waiters : List Nat
  deriving DecidableEq, Repr

/-- A `drain` that awaits a run. -/
structure WorkDrain (Key Value : Type) where
  key : Key
  /-- The `ActiveWork` it was started with. -/
  active : Nat
  run : Nat
  batch : WorkBatch Value
  deriving DecidableEq, Repr

/-- The outcome is the error of a rejection, if it is one. -/
inductive WorkEvent (Key Value Err : Type) where
  | enqueued (waiter : Nat) (key : Key) (value : Value)
  | started (run : Nat) (key : Key) (value : Value)
  | ended (run : Nat) (outcome : Option Err)
  | settled (waiter run : Nat) (outcome : Option Err)
  deriving DecidableEq, Repr

structure LatestTrailingWorkQueue (Key Value Err : Type) where
  activeByKey : Key → Option Nat := fun _ => none
  /-- `trailing` of each `ActiveWork`. -/
  trailing : Nat → Option (WorkBatch Value) := fun _ => none
  drains : List (WorkDrain Key Value) := []
  /-- How many there have been. -/
  actives : Nat := 0
  runs : Nat := 0
  waiters : Nat := 0
  log : List (WorkEvent Key Value Err) := []

inductive WorkAct (Key Value Err : Type) where
  | enqueue (key : Key) (value : Value)
  | finish (run : Nat) (outcome : Option Err)
  deriving DecidableEq, Repr

namespace LatestTrailingWorkQueue

variable {Key Value Err : Type} [DecidableEq Key] (q : LatestTrailingWorkQueue Key Value Err)

def setActive (key : Key) (active : Option Nat) : LatestTrailingWorkQueue Key Value Err :=
  { q with activeByKey := Function.update q.activeByKey key active }

def setTrailing (active : Nat) (batch : Option (WorkBatch Value)) :
    LatestTrailingWorkQueue Key Value Err :=
  { q with trailing := Function.update q.trailing active batch }

/-- A drain calls `run` for a batch. -/
def start (key : Key) (active : Nat) (batch : WorkBatch Value) :
    LatestTrailingWorkQueue Key Value Err :=
  { q with
    drains := q.drains ++ [{ key, active, run := q.runs, batch }]
    runs := q.runs + 1
    log := q.log ++ [.started q.runs key batch.value] }

/-- A value joins the batch that waits, or is the first of it. -/
def joined (trailing : Option (WorkBatch Value)) (value : Value) (waiter : Nat) :
    WorkBatch Value :=
  match trailing with
  | some batch => { value, waiters := batch.waiters ++ [waiter] }
  | none => { value, waiters := [waiter] }

def enqueue (key : Key) (value : Value) : LatestTrailingWorkQueue Key Value Err :=
  let noted : LatestTrailingWorkQueue Key Value Err := { q with
    waiters := q.waiters + 1
    log := q.log ++ [.enqueued q.waiters key value] }
  match q.activeByKey key with
  | some active => noted.setTrailing active (some (joined (q.trailing active) value q.waiters))
  | none =>
      let opened := { noted with actives := q.actives + 1 }
      ((opened.setActive key (some q.actives)).setTrailing q.actives none).start key q.actives
        { value, waiters := [q.waiters] }

/-- What a drain does once its run has ended. -/
def finish (d : WorkDrain Key Value) (outcome : Option Err) :
    LatestTrailingWorkQueue Key Value Err :=
  let noted : LatestTrailingWorkQueue Key Value Err := { q with
    drains := q.drains.filter fun other => other.run ≠ d.run
    log := q.log ++ [.ended d.run outcome]
      ++ d.batch.waiters.map fun waiter => .settled waiter d.run outcome }
  match q.trailing d.active with
  | some batch => (noted.setTrailing d.active none).start d.key d.active batch
  | none => if q.activeByKey d.key = some d.active then noted.setActive d.key none else noted

def step : WorkAct Key Value Err → Option (LatestTrailingWorkQueue Key Value Err)
  | .enqueue key value => some (q.enqueue key value)
  | .finish run outcome =>
      (q.drains.find? fun d => d.run = run).map fun d => q.finish d outcome

end LatestTrailingWorkQueue

end OmniRush.Server
