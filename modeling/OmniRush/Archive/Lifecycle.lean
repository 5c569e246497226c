import Mathlib.Algebra.Order.Ring.Int
import OmniRush.Lib.Machine

/-!
# The steps of the archived sessions

`schedule`, `bounded` and `quietPeriod` of `lifecycle.ts`. A session's steps go one behind
the other, each behind the promise of the one before it; over all sessions at most
`concurrency` have a slot. A step that finds no slot waits in one of three queues, and a
slot that comes free passes straight to the first of them.

What the code does between two awaits is one event. A step that is handed a slot goes on
only when its own continuation comes, and others may come before it (`granted`).
-/

namespace OmniRush.Archive

namespace Lifecycle

/-- How far a step has come. -/
inductive Stage where
  | queued
  | resting
  | asking
  | waiting
  | granted
  | running
  | done
  deriving DecidableEq, Repr

/-- A slot is the step's: handed over, or in use. -/
def Stage.holds : Stage → Bool
  | .granted | .running => true
  | _ => false

/-- A slot was given to the step. -/
def Stage.served : Stage → Bool
  | .granted | .running | .done => true
  | _ => false

/-- Which queue a step waits in. -/
inductive Lane where
  | high
  | normal
  | low
  deriving DecidableEq, Repr

/-- A call of `schedule`. `previous` is the session's last step at that time, and
`promptedAt` the start of the quiet period the step waits for first. -/
structure Entry where
  sessionId : String
  promptedAt : Option Int
  low : Bool
  high : Bool
  previous : Option Nat
  stage : Stage := .queued
  slots : Nat := 0
  called : Bool := false
  deriving DecidableEq, Repr

def Entry.lane (e : Entry) : Lane := if e.high then .high else if e.low then .low else .normal

def Entry.holds (e : Entry) : Bool := e.stage.holds

/-- What happens: a call, a continuation that comes at some time, a task that ends, with
or without an error, or the rest of the host. -/
inductive Event where
  | schedule (sessionId : String) (promptedAt : Option Int) (low high : Bool)
  | resume (i : Nat) (now : Int)
  | finish (i : Nat)
  | forget (i : Nat)
  | prompted (now : Int)
  | hurry
  | signOut
  | stop
  deriving DecidableEq, Repr

end Lifecycle

structure Lifecycle where
  concurrency : Nat
  enabled : Bool
  baseIdleMs : Int
  baseMaxDeferMs : Int
  signedOut : Bool := false
  stopped : Bool := false
  hurried : Bool := false
  lastPromptAt : Int := 0
  tails : String → Option Nat := fun _ => none
  running : Nat := 0
  waiting : List Nat := []
  waitingLow : List Nat := []
  waitingHigh : List Nat := []
  steps : List Lifecycle.Entry := []

namespace Lifecycle

/-- The constructor's reading of its options. -/
def new (enabled : Bool) (concurrency : Option Nat) (baseIdleMs baseMaxDeferMs : Option Int) :
    Lifecycle :=
  let idle := max 0 (baseIdleMs.getD 0)
  { concurrency := max 1 (concurrency.getD 1)
    enabled
    baseIdleMs := idle
    baseMaxDeferMs := max idle (baseMaxDeferMs.getD (idle * 5)) }

def active (s : Lifecycle) : Bool := s.enabled && !s.signedOut && !s.stopped

/-- `quietPeriod` returns: there is none, it was cut short, or it is over. -/
def quiet (s : Lifecycle) (since now : Int) : Bool :=
  s.baseIdleMs = 0 || !s.active || s.hurried ||
    min (s.lastPromptAt + s.baseIdleMs) (since + s.baseMaxDeferMs) - now ≤ 0

def put (s : Lifecycle) (i : Nat) (e : Entry) : Lifecycle := { s with steps := s.steps.set i e }

def schedule (s : Lifecycle) (sessionId : String) (promptedAt : Option Int) (low high : Bool) :
    Lifecycle :=
  { s with
    steps := s.steps ++ [{ sessionId, promptedAt, low, high, previous := s.tails sessionId }]
    tails := fun id => if id = sessionId then some s.steps.length else s.tails id }

/-- The promise of the step before, if there is one, is settled. -/
def ready (s : Lifecycle) (e : Entry) : Bool :=
  e.previous.all fun p => s.steps[p]?.any fun d => d.stage = .done

/-- The start of `bounded`. A step of a session that is off takes its slot all the same. -/
def bounded (s : Lifecycle) (i : Nat) (e : Entry) : Lifecycle :=
  if s.running < s.concurrency then
    { s with running := s.running + 1 }.put i
      { e with stage := .running, slots := e.slots + 1, called := s.active }
  else
    let s := s.put i { e with stage := .waiting }
    match e.lane with
    | .high => { s with waitingHigh := s.waitingHigh ++ [i] }
    | .low => { s with waitingLow := s.waitingLow ++ [i] }
    | .normal => { s with waiting := s.waiting ++ [i] }

/-- `next()` of a waiter. -/
def grant (s : Lifecycle) (i : Nat) : Lifecycle :=
  match s.steps[i]? with
  | some e => s.put i { e with stage := .granted, slots := e.slots + 1 }
  | none => s

/-- The `finally` of `bounded`. -/
def release (s : Lifecycle) : Lifecycle :=
  match s.waitingHigh, s.waiting, s.waitingLow with
  | i :: rest, _, _ => { s with waitingHigh := rest }.grant i
  | [], i :: rest, _ => { s with waiting := rest }.grant i
  | [], [], i :: rest => { s with waitingLow := rest }.grant i
  | [], [], [] => { s with running := s.running - 1 }

/-- A step's continuation comes. -/
def resume (s : Lifecycle) (i : Nat) (e : Entry) (now : Int) : Option Lifecycle :=
  match e.stage with
  | .queued =>
      if s.ready e then
        some (s.put i { e with
          stage := if e.promptedAt.all (s.quiet · now) then .asking else .resting })
      else none
  -- a timer, or `wakeSleepers`: the wait is worked out again
  | .resting =>
      if e.promptedAt.all (s.quiet · now) then some (s.put i { e with stage := .asking })
      else some s
  | .asking => some (s.bounded i e)
  | .granted => some (s.put i { e with stage := .running, called := s.active })
  | .waiting | .running | .done => none

def step (s : Lifecycle) : Event → Option Lifecycle
  | .schedule sessionId promptedAt low high => some (s.schedule sessionId promptedAt low high)
  | .resume i now => s.steps[i]?.bind fun e => s.resume i e now
  | .finish i => s.steps[i]?.bind fun e =>
      if e.stage = .running then some (s.put i { e with stage := .done }).release else none
  | .forget i => s.steps[i]?.bind fun e =>
      if e.stage = .done ∧ s.tails e.sessionId = some i then
        some { s with tails := fun id => if id = e.sessionId then none else s.tails id }
      else none
  | .prompted now => some { s with lastPromptAt := now }
  | .hurry => some { s with hurried := true }
  | .signOut => some { s with signedOut := true }
  | .stop => some { s with stopped := true }

/-- What is left to do for the steps there are. -/
def Stage.left : Stage → Nat
  | .queued => 6
  | .resting => 5
  | .asking => 4
  | .waiting => 3
  | .granted => 2
  | .running => 1
  | .done => 0

def left (s : Lifecycle) : Nat := (s.steps.map fun e => e.stage.left).sum

end Lifecycle

end OmniRush.Archive
