import OmniRush.Lib.Machine

/-!
# The engine pool

`EnginePool` of `engine-pool.ts`: a primary engine, at most one that drains, and the
standby that replaces the primary. Its methods are asynchronous. What a method does
between two awaits is one function here, and what is left of it while it waits is a
`Process`, which a later event resumes with what the awaited call gave.

A generation and the engine it was made for have one number, their place in `engines`.
Sessions, the registries and the logs are left out: they change no generation.
-/

namespace OmniRush.Engine

/-! ## Engines and generations -/

/-- `ManagedOpencodeServer`. -/
structure Server where
  url : String
  username : String
  password : String
  pid : Option Nat
  deriving DecidableEq, Repr

/-- `GenerationStatus`. -/
inductive GenerationStatus where
  | starting
  | primary
  | draining
  | dead
  deriving DecidableEq, Repr

/-- A spawned engine, and the generation that is or will be made for it. -/
structure Generation where
  handle : Server
  status : GenerationStatus := .starting
  fingerprint : String := ""
  /-- `registryId` is set. -/
  registered : Bool := false
  /-- `close()` of the handle has been called. -/
  closed : Bool := false
  /-- `drainCheck` is set. -/
  monitored : Bool := false
  deriving DecidableEq, Repr

instance : Inhabited Generation := ⟨{ handle := ⟨"", "", "", none⟩ }⟩

structure Workspace where
  /-- `workspaceType` is `remote`. -/
  isRemote : Bool
  path : String
  baseUrl : String := ""
  opencodeUsername : String := ""
  opencodePassword : String := ""
  directory : String := ""
  deriving DecidableEq, Repr

structure ServerConfig where
  opencodeBaseUrl : String
  opencodeUsername : String
  opencodePassword : String
  workspaces : List Workspace
  deriving DecidableEq, Repr

/-- The arguments of `requestRollover`. -/
structure Request where
  manual : Bool := false
  awaitPostRefreshSync : Bool := true
  forceStandby : Bool := false
  retireDrainingIf : Option (String → Bool) := none

/-- The members of the pool, and every engine it has had. -/
structure Pool where
  engines : List Generation
  generations : List Nat
  config : ServerConfig
  /-- `hooks.prepareStandby` is given. -/
  prepares : Bool := false
  /-- A rollover is `inFlight`. -/
  inFlight : Bool := false
  pendingRollover : Option Request := none
  /-- A call of `waitForDrain` is not resolved. -/
  drainWaiting : Bool := false
  /-- A recovery is in flight. -/
  recovering : Bool := false
  recoveryOrphan : Option Nat := none
  /-- `recoveryTimer` is set. -/
  recoveryTimer : Bool := false
  consecutiveConnectionFailures : Nat := 0
  disposed : Bool := false

namespace Pool

def generation (s : Pool) (g : Nat) : Generation := s.engines[g]?.getD default

def status (s : Pool) (g : Nat) : GenerationStatus := (s.generation g).status

def closed (s : Pool) (g : Nat) : Bool := (s.generation g).closed

def update (s : Pool) (g : Nat) (f : Generation → Generation) : Pool :=
  { s with engines := s.engines.modify g f }

def setStatus (s : Pool) (g : Nat) (status : GenerationStatus) : Pool :=
  s.update g fun e => { e with status := status }

/-- `handle.close()` is called. -/
def close (s : Pool) (g : Nat) : Pool := s.update g fun e => { e with closed := true }

def push (s : Pool) (g : Nat) : Pool := { s with generations := s.generations ++ [g] }

def drop (s : Pool) (g : Nat) : Pool :=
  { s with generations := s.generations.filter fun entry => entry ≠ g }

/-- The engine a spawn resolved to. -/
def spawned (s : Pool) (handle : Server) (fingerprint : String) : Pool :=
  { s with engines := s.engines ++ [{ handle := handle, fingerprint := fingerprint }] }

def primary (s : Pool) : Option Nat := s.generations.find? fun g => s.status g = .primary

def draining (s : Pool) : Option Nat := s.generations.find? fun g => s.status g = .draining

end Pool

/-- What `flip` writes into the configuration. -/
def ServerConfig.pointTo (config : ServerConfig) (handle : Server) : ServerConfig where
  opencodeBaseUrl := handle.url
  opencodeUsername := handle.username
  opencodePassword := handle.password
  workspaces := config.workspaces.map fun entry =>
    if entry.isRemote then entry
    else { entry with
      baseUrl := handle.url
      opencodeUsername := handle.username
      opencodePassword := handle.password
      directory := entry.path }

/-- `flip`. -/
def Pool.flip (s : Pool) (next : Nat) (previous : Option Nat) : Pool :=
  let s := s.setStatus next .primary
  let s := match previous with
    | some g => s.setStatus g .draining
    | none => s
  { s with config := s.config.pointTo (s.generation next).handle }

/-! ## Processes -/

/-- A `retire` that waits for `close` or for the registry. -/
inductive Retire where
  | closing (g : Nat)
  | unregistering (g : Nat)

/-- A `retireDraining`: it aborts the sessions of an engine, then retires it, and goes on
to the next one. -/
inductive Sweep where
  | aborting (g : Nat) (rest : List Nat)
  | retiring (r : Retire) (rest : List Nat)

def beginSweep : List Nat → Option Sweep
  | [] => none
  | g :: rest => some (.aborting g rest)

/-- What `rollOver` waits for once its standby runs. -/
inductive StandbyStage where
  | health
  | preparing
  | registering
  | sessions
  | requests
  deriving DecidableEq, Repr

/-- What `runRollover` waits for. `primary` is the one it read before. -/
inductive RolloverStage where
  | sweepFirst (sweep : Sweep)
  | writing
  | fingerprinting
  | askingBusy (fingerprint : String) (primary : Option Nat)
  | reloading (fingerprint : String) (primary : Option Nat)
  | waitingDrain
  | spawning (fingerprint : String) (primary : Option Nat)
  | standby (stage : StandbyStage) (g : Nat) (primary : Option Nat)
  | closingStandby
  | rolledOver
  | sweepLast (sweep : Sweep)

/-- What `runDeadPrimaryRecovery` waits for. -/
inductive RecoveryStage where
  | closingOrphan (previous : Option Nat)
  | probing (previous : Nat)
  | closingPrevious (previous : Nat)
  | unregistering (previous : Nat)
  | spawning
  | health (g : Nat)
  | fingerprinting (g : Nat)
  | registering (g : Nat)
  | closingReplacement (g : Nat)

inductive Process where
  | rollover (request : Request) (stage : RolloverStage)
  | recovery (stage : RecoveryStage)
  | checking (g : Nat)
  | retiring (r : Retire)
  | sweep (sweep : Sweep)

/-- What an awaited call gave. -/
inductive Answer where
  | done
  | failed
  | fingerprint (text : String)
  /-- Whether the engine is busy, and whether the last spawn is too recent for another. -/
  | busy (isBusy recent : Bool)
  | spawned (handle : Server)
  /-- Of `confirmPrimaryDead`: it is dead. Of a drain check: it may close. -/
  | verdict (yes : Bool)
  /-- `close` resolved; whether the process still runs. -/
  | closed (isAlive : Bool)

namespace Pool

/-! ## Rollovers that are asked for -/

/-- The engines that `retireDraining` picks. -/
def drainingThat (s : Pool) (shouldRetire : String → Bool) : List Nat :=
  s.generations.filter fun g =>
    s.status g = .draining && shouldRetire (s.generation g).handle.url

/-- The sweep that a request asks for. -/
def sweepOf (s : Pool) (request : Request) : Option Sweep :=
  request.retireDrainingIf.bind fun shouldRetire => beginSweep (s.drainingThat shouldRetire)

/-- `runRollover`, up to its first await. -/
def beginRun (s : Pool) (request : Request) : Process :=
  match s.sweepOf request with
  | some sweep => .rollover request (.sweepFirst sweep)
  | none => .rollover request .writing

/-- A request that joins the one that is pending. -/
def coalesce (s : Pool) (request : Request) : Request where
  manual := request.manual || s.pendingRollover.any (·.manual)
  awaitPostRefreshSync :=
    request.awaitPostRefreshSync || s.pendingRollover.any (·.awaitPostRefreshSync)
  forceStandby := request.forceStandby || s.pendingRollover.any (·.forceStandby)
  retireDrainingIf := request.retireDrainingIf <|> s.pendingRollover.bind (·.retireDrainingIf)

/-- `requestRollover`. -/
def requestRollover (s : Pool) (request : Request) : Pool × List Process :=
  if s.disposed then (s, [])
  else if s.inFlight then ({ s with pendingRollover := some (s.coalesce request) }, [])
  else ({ s with inFlight := true }, [s.beginRun request])

/-- The request that is pending is made again. -/
def requestPending (s : Pool) : Pool × List Process :=
  match s.pendingRollover with
  | none => (s, [])
  | some request => { s with pendingRollover := none }.requestRollover request

/-- The end of a rollover. -/
def endRollover (s : Pool) : Pool × List Process :=
  { s with inFlight := false, pendingRollover := if s.disposed then none else s.pendingRollover
    }.requestPending

/-! ## Retiring -/

/-- `retire`, up to its first await. -/
def beginRetire (s : Pool) (g : Nat) : Pool × Option Retire :=
  if s.status g = .dead then (s, none)
  else (s.update g fun e => { e with status := .dead, monitored := false, closed := true },
    some (.closing g))

/-- The end of `retire`. -/
def endRetire (s : Pool) (shutdown : Bool) (g : Nat) : Pool × List Process :=
  let s := { s.drop g with drainWaiting := false }
  if shutdown || s.inFlight || s.disposed then (s, []) else s.requestPending

def stepRetire (s : Pool) (shutdown : Bool) : Retire → Pool × Option Retire × List Process
  | .closing g =>
      if (s.generation g).registered then (s, some (.unregistering g), [])
      else let (s, started) := s.endRetire shutdown g; (s, none, started)
  | .unregistering g =>
      let (s, started) :=
        (s.update g fun e => { e with registered := false }).endRetire shutdown g
      (s, none, started)

def stepSweep (s : Pool) : Sweep → Pool × Option Sweep × List Process
  | .aborting g rest =>
      match s.beginRetire g with
      | (s, some r) => (s, some (.retiring r rest), [])
      | (s, none) => (s, beginSweep rest, [])
  | .retiring r rest =>
      match s.stepRetire false r with
      | (s, some r, started) => (s, some (.retiring r rest), started)
      | (s, none, started) => (s, beginSweep rest, started)

/-- A drain tick, up to its first await. -/
def beginTick (s : Pool) (g : Nat) : List Process :=
  if s.status g = .draining then [.checking g] else []

/-- The interval and `drainCheck` of a generation. -/
def monitor (s : Pool) (g : Nat) : Pool := s.update g fun e => { e with monitored := true }

/-- `startDrainMonitor`. -/
def startDrainMonitor (s : Pool) : Option Nat → Pool × List Process
  | none => (s, [])
  | some g => (s.monitor g, (s.monitor g).beginTick g)

end Pool

end OmniRush.Engine
