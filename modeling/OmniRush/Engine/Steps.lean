import OmniRush.Engine.Pool

/-!
# What a resumed process does

`runRollover` with `rollOver`, `runDeadPrimaryRecovery`, the drain monitor and
`disposeAll`, from each await to the next. `none` stands for an answer that the awaited
call does not give.
-/

namespace OmniRush.Engine

namespace Pool

/-! ## The rollover -/

/-- `runRollover` after it knows that the engine is busy. -/
def rollOverBusy (s : Pool) (request : Request) (fingerprint : String) (primary : Option Nat)
    (recent : Bool) : Pool × List Process :=
  if s.draining.isSome then
    if request.forceStandby then
      ({ s with drainWaiting := true }, [.rollover request .waitingDrain])
    -- parked: it is asked for again when this one ends
    else { s with pendingRollover := some request }.endRollover
  else if !request.manual && !request.forceStandby && recent then
    { s with pendingRollover := some request }.endRollover
  else (s, [.rollover request (.spawning fingerprint primary)])

/-- `runRollover` after it has read the fingerprint of the configuration. -/
def rollOverChanged (s : Pool) (request : Request) (fingerprint : String) :
    Pool × List Process :=
  if !request.manual && s.primary.any (fun g => (s.generation g).fingerprint = fingerprint) then
    s.endRollover
  else if request.forceStandby then s.rollOverBusy request fingerprint s.primary false
  else (s, [.rollover request (.askingBusy fingerprint s.primary)])

/-- `rollOver` once the standby is prepared. -/
def registerStandby (s : Pool) (request : Request) (g : Nat) (primary : Option Nat) :
    Pool × List Process :=
  if (s.generation g).handle.pid.isSome then
    (s.update g fun e => { e with registered := true },
      [.rollover request (.standby .registering g primary)])
  else (s, [.rollover request (.standby .sessions g primary)])

/-- `rollOver` from its flip on. -/
def rollOverFlip (s : Pool) (request : Request) (g : Nat) (primary : Option Nat) :
    Pool × List Process :=
  let (s, ticks) := (s.flip g primary).startDrainMonitor primary
  (s, .rollover request .rolledOver :: ticks)

def resumeStandby (s : Pool) (request : Request) (g : Nat) (primary : Option Nat) :
    StandbyStage → Answer → Option (Pool × List Process)
  | .health, .failed => some ((s.drop g).close g, [.rollover request .closingStandby])
  | .health, .done =>
      if s.prepares then some (s, [.rollover request (.standby .preparing g primary)])
      else some (s.registerStandby request g primary)
  | .preparing, .done => some (s.registerStandby request g primary)
  | .preparing, .failed => some (s.registerStandby request g primary)
  | .registering, .done => some (s, [.rollover request (.standby .sessions g primary)])
  | .registering, .failed => some (s, [.rollover request (.standby .sessions g primary)])
  | .sessions, .done => some (s, [.rollover request (.standby .requests g primary)])
  | .requests, .done => some (s.rollOverFlip request g primary)
  | _, _ => none

/-- The sweep of a rollover goes on, and what comes after it. -/
def resumeSweep (s : Pool) (request : Request) (stage : Sweep → RolloverStage) (sweep : Sweep)
    (after : Pool → Pool × List Process) : Pool × List Process :=
  match s.stepSweep sweep with
  | (s, some sweep, started) => (s, .rollover request (stage sweep) :: started)
  | (s, none, started) =>
      let (s, next) := after s
      (s, next ++ started)

def resumeRollover (s : Pool) (request : Request) :
    RolloverStage → Answer → Option (Pool × List Process)
  | .sweepFirst sweep, .done =>
      some (s.resumeSweep request .sweepFirst sweep fun s => (s, [.rollover request .writing]))
  | .writing, .done => some (s, [.rollover request .fingerprinting])
  | .writing, .failed => some (s, [.rollover request .fingerprinting])
  | .fingerprinting, .fingerprint text => some (s.rollOverChanged request text)
  | .askingBusy fingerprint primary, .busy isBusy recent =>
      if isBusy then some (s.rollOverBusy request fingerprint primary recent)
      else some (s, [.rollover request (.reloading fingerprint primary)])
  | .reloading fingerprint primary, .done =>
      match primary with
      | some g => some (s.update g fun e => { e with fingerprint := fingerprint }).endRollover
      | none => some s.endRollover
  | .reloading _ _, .failed => some s.endRollover
  | .waitingDrain, .done =>
      if s.drainWaiting then none
      else if s.disposed then some s.endRollover
      else some (s, [s.beginRun request])
  | .spawning _ _, .failed => some s.endRollover
  | .spawning fingerprint primary, .spawned handle =>
      let g := s.engines.length
      some ((s.spawned handle fingerprint).push g,
        [.rollover request (.standby .health g primary)])
  | .standby stage g primary, answer => s.resumeStandby request g primary stage answer
  | .closingStandby, .done => some s.endRollover
  | .closingStandby, .failed => some s.endRollover
  | .rolledOver, .done =>
      match s.sweepOf request with
      | some sweep => some (s, [.rollover request (.sweepLast sweep)])
      | none => some s.endRollover
  | .sweepLast sweep, .done =>
      some (s.resumeSweep request .sweepLast sweep fun s => s.endRollover)
  | _, _ => none

/-! ## The recovery of a dead primary -/

/-- The recovery failed: it is tried again later. -/
def failRecovery (s : Pool) : Pool × List Process :=
  ({ s with recovering := false, recoveryTimer := s.recoveryTimer || !s.disposed }, [])

/-- `runDeadPrimaryRecovery` after the orphan is closed. -/
def probePrevious (s : Pool) : Option Nat → Pool × List Process
  | some previous => (s, [.recovery (.probing previous)])
  | none => (s, [.recovery .spawning])

/-- `recoverDeadPrimary`. -/
def recoverDeadPrimary (s : Pool) : Pool × List Process :=
  if s.disposed || s.recovering then (s, [])
  else
    let s := { s with recovering := true }
    match s.recoveryOrphan with
    | some orphan => (s.close orphan, [.recovery (.closingOrphan s.primary)])
    | none => s.probePrevious s.primary

/-- `runDeadPrimaryRecovery` from its flip on. -/
def recoveryFlip (s : Pool) (g : Nat) : Pool × List Process :=
  ({ s.flip g none with
    consecutiveConnectionFailures := 0, recoveryTimer := false, recovering := false }, [])

def resumeRecovery (s : Pool) : RecoveryStage → Answer → Option (Pool × List Process)
  | .closingOrphan previous, .closed isAlive =>
      -- `disposeAll` may have taken the orphan away
      if s.recoveryOrphan.isNone || isAlive then some s.failRecovery
      else some ({ s with recoveryOrphan := none }.probePrevious previous)
  | .closingOrphan _, .failed => some s.failRecovery
  | .probing previous, .verdict dead =>
      if dead then some (s.close previous, [.recovery (.closingPrevious previous)])
      else some ({ s with consecutiveConnectionFailures := 0, recovering := false }, [])
  | .probing _, .failed => some s.failRecovery
  | .closingPrevious previous, .closed isAlive =>
      if isAlive then some s.failRecovery
      else
        let s := s.setStatus previous .dead
        if (s.generation previous).registered then
          some (s, [.recovery (.unregistering previous)])
        else some (s.drop previous, [.recovery .spawning])
  | .closingPrevious _, .failed => some s.failRecovery
  | .unregistering previous, .done => some (s.drop previous, [.recovery .spawning])
  | .unregistering previous, .failed => some (s.drop previous, [.recovery .spawning])
  | .spawning, .spawned handle =>
      some (s.spawned handle "", [.recovery (.health s.engines.length)])
  | .spawning, .failed => some s.failRecovery
  | .health g, .done => some (s, [.recovery (.fingerprinting g)])
  | .health g, .failed => some (s.close g, [.recovery (.closingReplacement g)])
  | .fingerprinting g, .fingerprint text =>
      let s := (s.update g fun e => { e with fingerprint := text }).push g
      if (s.generation g).handle.pid.isSome then
        some (s.update g fun e => { e with registered := true }, [.recovery (.registering g)])
      else some (s.recoveryFlip g)
  | .registering g, .done => some (s.recoveryFlip g)
  | .registering g, .failed => some (s.recoveryFlip g)
  | .closingReplacement g, .closed isAlive =>
      some { s with recoveryOrphan := if isAlive then some g else s.recoveryOrphan }.failRecovery
  | .closingReplacement g, .failed => some { s with recoveryOrphan := some g }.failRecovery
  | _, _ => none

/-! ## Every process -/

def resume (s : Pool) : Process → Answer → Option (Pool × List Process)
  | .rollover request stage, answer => s.resumeRollover request stage answer
  | .recovery stage, answer => s.resumeRecovery stage answer
  | .checking g, .verdict mayClose =>
      if mayClose then
        match s.beginRetire g with
        | (s, some r) => some (s, [.retiring r])
        | (s, none) => some (s, [])
      else some (s, [])
  | .retiring r, .done =>
      match s.stepRetire false r with
      | (s, some r, started) => some (s, .retiring r :: started)
      | (s, none, started) => some (s, started)
  | .sweep sweep, .done =>
      match s.stepSweep sweep with
      | (s, some sweep, started) => some (s, .sweep sweep :: started)
      | (s, none, started) => some (s, started)
  | _, _ => none

end Pool

/-! ## The pool and its processes -/

/-- Where `disposeAll` is. -/
inductive Disposal where
  | closingOrphan
  /-- It has the list of the generations, and these are left of it. -/
  | next (rest : List Nat)
  | retiring (r : Retire) (rest : List Nat)
  | resolved

structure World where
  pool : Pool
  processes : List Process := []
  disposal : Option Disposal := none

/-- `disposeAll` with the rest of its list. -/
def Pool.disposeRest (s : Pool) : List Nat → Pool × Disposal
  | [] => ({ s with generations := [] }, .resolved)
  | g :: rest =>
      match s.beginRetire g with
      | (s, some r) => (s, .retiring r rest)
      | (s, none) => (s, .next rest)

/-- The generations in the order in which `disposeAll` closes them. -/
def Pool.ordered (s : Pool) : List Nat :=
  (s.generations.filter fun g => s.status g = .draining) ++
    s.generations.filter fun g => s.status g ≠ .draining

/-- `disposeAll`, up to its first await. -/
def Pool.disposeAll (s : Pool) : Pool × Disposal :=
  let s := { s with disposed := true, pendingRollover := none, recoveryTimer := false }
  match s.recoveryOrphan with
  | some orphan => ({ s with recoveryOrphan := none }.close orphan, .closingOrphan)
  | none => s.disposeRest s.ordered

def Pool.resumeDisposal (s : Pool) : Disposal → Option (Pool × Disposal)
  | .closingOrphan => some (s.disposeRest s.ordered)
  | .next rest => some (s.disposeRest rest)
  | .retiring r rest =>
      match s.stepRetire true r with
      | (s, some r, _) => some (s, .retiring r rest)
      | (s, none, _) => some (s.disposeRest rest)
  | .resolved => none

/-- What can happen to the pool. -/
inductive Event where
  | requestRollover (request : Request)
  | retireDraining (shouldRetire : String → Bool)
  /-- Of a request to the primary or to another engine, soon after a recovery or not. -/
  | reportRequestFailure (toPrimary recent : Bool)
  | reportRequestSuccess (toPrimary : Bool)
  | recoveryTimer
  /-- A drain check, by its interval or after a request. -/
  | drainCheck (g : Nat)
  | disposeAll
  /-- A process goes on with what its call gave. -/
  | resume (i : Nat) (answer : Answer)
  | resumeDisposal

/-- `reportRequestFailure`. -/
def Pool.reportRequestFailure (s : Pool) (toPrimary recent : Bool) : Pool × List Process :=
  if !(s.primary.isSome && toPrimary) then (s, [])
  else
    let failures := s.consecutiveConnectionFailures + 1
    if failures < 3 || recent then ({ s with consecutiveConnectionFailures := failures }, [])
    else { s with consecutiveConnectionFailures := 0 }.recoverDeadPrimary

def World.start (w : World) : Pool × List Process → World
  | (pool, started) => { w with pool := pool, processes := w.processes ++ started }

def World.step (w : World) : Event → Option World
  | .requestRollover request => some (w.start (w.pool.requestRollover request))
  | .retireDraining shouldRetire =>
      some (w.start (w.pool, (beginSweep (w.pool.drainingThat shouldRetire)).toList.map .sweep))
  | .reportRequestFailure toPrimary recent =>
      some (w.start (w.pool.reportRequestFailure toPrimary recent))
  | .reportRequestSuccess toPrimary =>
      if w.pool.primary.isSome && toPrimary then
        some (w.start ({ w.pool with consecutiveConnectionFailures := 0 }, []))
      else some w
  | .recoveryTimer =>
      if w.pool.recoveryTimer then
        some (w.start { w.pool with recoveryTimer := false }.recoverDeadPrimary)
      else none
  | .drainCheck g =>
      if (w.pool.generation g).monitored then some (w.start (w.pool, w.pool.beginTick g))
      else none
  | .disposeAll =>
      if w.disposal.isSome then none
      else
        let (pool, disposal) := w.pool.disposeAll
        some { w with pool := pool, disposal := some disposal }
  | .resume i answer =>
      w.processes[i]?.bind fun process =>
        (w.pool.resume process answer).map fun after =>
          { w with processes := w.processes.eraseIdx i }.start after
  | .resumeDisposal =>
      w.disposal.bind fun disposal =>
        (w.pool.resumeDisposal disposal).map fun (pool, disposal) =>
          { w with pool := pool, disposal := some disposal }

/-- The pool after `adoptPrimary` of the engine that was spawned first. -/
def World.adopted (config : ServerConfig) (prepares : Bool) (handle : Server)
    (fingerprint : String) (registered : Bool) : World where
  pool :=
    { engines := [{ handle := handle, status := .primary, fingerprint := fingerprint,
                    registered := registered }]
      generations := [0]
      config := config
      prepares := prepares }

end OmniRush.Engine
