import OmniRush.Engine.Steps

/-!
# The requests of a rollover

How a rollover ends, and the requests it answers for. The pool does not list these: a
request that joins another leaves only its flags in `pendingRollover`. The lists here stand
beside the pool and change none of its steps.
-/

namespace OmniRush.Engine

/-- What `runRollover` returns, or `failed` when it throws. -/
inductive RolloverOutcome where
  | unchanged
  | reloadedInPlace
  | rolledOver
  | coalesced
  | failed
  deriving DecidableEq, Repr

namespace Pool

/-- A busy engine makes `runRollover` park or throttle the request. -/
def parks (s : Pool) (request : Request) (recent : Bool) : Bool :=
  !request.forceStandby && (s.draining.isSome || !request.manual && recent)

/-- How a rollover ends that is resumed, if it ends. -/
def outcome (s : Pool) (request : Request) : RolloverStage → Answer → Option RolloverOutcome
  | .fingerprinting, .fingerprint text =>
      if !request.manual && s.primary.any (fun g => (s.generation g).fingerprint = text) then
        some .unchanged
      else none
  | .askingBusy _ _, .busy isBusy recent =>
      if isBusy && s.parks request recent then some .coalesced else none
  | .reloading _ _, .done => some .reloadedInPlace
  | .reloading _ _, .failed => some .failed
  | .waitingDrain, .done => if s.disposed then some .unchanged else none
  | .spawning _ _, .failed => some .failed
  | .closingStandby, _ => some .failed
  | .rolledOver, .done => if (s.sweepOf request).isNone then some .rolledOver else none
  | .sweepLast sweep, .done =>
      if (s.stepSweep sweep).2.1.isNone then some .rolledOver else none
  | _, _ => none

end Pool

/-- The flags of some requests together, and the latest engines they want retired. -/
structure Request.Carries (request : Request) (requests : List Request) : Prop where
  manual : request.manual = requests.any (·.manual)
  await : request.awaitPostRefreshSync = requests.any (·.awaitPostRefreshSync)
  force : request.forceStandby = requests.any (·.forceStandby)
  retire : request.retireDrainingIf = (requests.filterMap (·.retireDrainingIf)).getLast?

/-- What a request asks for, another asks for too. -/
structure Request.Within (request other : Request) : Prop where
  manual : request.manual = true → other.manual = true
  await : request.awaitPostRefreshSync = true → other.awaitPostRefreshSync = true
  force : request.forceStandby = true → other.forceStandby = true
  retire : request.retireDrainingIf = none ∨ request.retireDrainingIf = other.retireDrainingIf

/-- A pool with the requests made of it that are not answered for: those the rollover in
flight was started for, and those that were made since. -/
structure Requested where
  world : World
  serving : List Request := []
  waiting : List Request := []

namespace Requested

/-- The two lists after an event. -/
def follow (r : Requested) : Event → List Request × List Request
  | .requestRollover request =>
      if r.world.pool.disposed then (r.serving, r.waiting)
      else if r.world.pool.inFlight then (r.serving, r.waiting ++ [request])
      else ([request], r.waiting)
  | .resume i answer =>
      match r.world.processes[i]? with
      | some (.rollover request stage) =>
          match r.world.pool.outcome request stage answer with
          | none => (r.serving, r.waiting)
          -- those of a parked request are made again with it
          | some .coalesced => (r.serving ++ r.waiting, [])
          | some _ => (r.waiting, [])
      | _ => (r.serving, r.waiting)
  | _ => (r.serving, r.waiting)

def step (r : Requested) (e : Event) : Option Requested :=
  (r.world.step e).map fun w =>
    { world := w, serving := (r.follow e).1, waiting := (r.follow e).2 }

/-- Every request is covered: the rollover in flight carries those it was started for, and
`pendingRollover` those that were made since. Without a rollover in flight there are none. -/
structure Covered (r : Requested) : Prop where
  running : r.serving ≠ [] → ∃ request stage,
    .rollover request stage ∈ r.world.processes ∧ request.Carries r.serving
  pending : r.waiting ≠ [] → ∃ request,
    r.world.pool.pendingRollover = some request ∧ request.Carries r.waiting
  idle : r.world.pool.inFlight = false → r.serving = [] ∧ r.waiting = []

/-- No event parks or throttles a rollover whose request lacks what the pending one asks
for. -/
def KeepsPending (r : Requested) : Event → Prop
  | .resume i (.busy true recent) => ∀ request fingerprint primary,
      r.world.processes[i]? = some (.rollover request (.askingBusy fingerprint primary)) →
        r.world.pool.parks request recent = true →
          ∀ pending ∈ r.world.pool.pendingRollover, pending.Within request
  | _ => True

end Requested

end OmniRush.Engine

/-!
## What a parked rollover waits for

A rollover that finds a drain, or that comes too soon after a spawn, puts its request into the
slot of the pending one and ends. The time is beside the pool here: it tells whether the last
spawn is recent.
-/

namespace OmniRush.Engine

/-- At these stages `runRollover` writes the configuration, reads its fingerprint, or asks whether
the engine is busy. -/
def RolloverStage.evaluates : RolloverStage → Bool
  | .writing => true
  | .fingerprinting => true
  | .askingBusy _ _ => true
  | _ => false

def Process.evaluates : Process → Bool
  | .rollover _ stage => stage.evaluates
  | _ => false

/-- A `rollOver` that has begun. -/
def Process.spawns : Process → Bool
  | .rollover _ (.spawning _ _) => true
  | _ => false

/-- The pool at a time, in milliseconds. -/
structure Clocked where
  world : World
  now : Nat
  lastSpawnAt : Nat

inductive Moment where
  | event (e : Event)
  | pass (ms : Nat)

/-- A rollover is asked for from outside. -/
def Moment.isRequest : Moment → Bool
  | .event (.requestRollover _) => true
  | _ => false

namespace Clocked

variable (minSpawnInterval : Nat)

/-- The last spawn is within the minimum interval. -/
def recent (c : Clocked) : Bool := c.now - c.lastSpawnAt < minSpawnInterval

/-- What an event says of the last spawn is what the time says. -/
def tells (c : Clocked) : Event → Bool
  | .resume _ (.busy _ recent) => recent = c.recent minSpawnInterval
  | _ => true

/-- The processes that an event puts in the place of one. -/
def resumed (w : World) : Event → List Process
  | .resume i answer =>
      match w.processes[i]?.bind fun process => w.pool.resume process answer with
      | some (_, processes) => processes
      | none => []
  | _ => []

def step (c : Clocked) : Moment → Option Clocked
  | .pass ms => some { c with now := c.now + ms }
  | .event e =>
      if c.tells minSpawnInterval e then
        (c.world.step e).map fun world =>
          { c with
            world := world
            lastSpawnAt := if (resumed c.world e).any (·.spawns) then c.now else c.lastSpawnAt }
      else none

/-- What a request was parked for has not come: the engine `drain` still drains or, if none did,
the interval has not passed. -/
def Holds (drain : Option Nat) (c : Clocked) : Prop :=
  match drain with
  | some g => c.world.pool.draining = some g
  | none => c.recent minSpawnInterval = true

/-- As long as it has not come, and no other rollover is asked for, none is evaluated. -/
def Rests (drain : Option Nat) (c : Clocked) : Prop :=
  ∀ c', Reach (step minSpawnInterval)
      (fun c m => Holds minSpawnInterval drain c ∧ m.isRequest = false) c c' →
    Holds minSpawnInterval drain c' → ∀ p ∈ c'.world.processes, p.evaluates = false

end Clocked

/-- The pool when the engine that was spawned first is adopted. -/
def Clocked.adopted (now : Nat) (config : ServerConfig) (prepares : Bool) (handle : Server)
    (fingerprint : String) (registered : Bool) : Clocked where
  world := .adopted config prepares handle fingerprint registered
  now := now
  lastSpawnAt := now

end OmniRush.Engine
