import Mathlib.Data.List.DropRight
import Mathlib.Logic.Function.Basic
import OmniRush.Lib.Record

/-!
# The reaper of idle engine instances

`engine-instance-reaper.ts`. A sweep goes over the instances it finds and awaits two things for
each that is idle, a probe whether it is busy and its disposal. Between two awaits nothing else
runs, so a step is a call that does not await, the start of a sweep up to its first await, or an
answer with all that follows of it up to the next.

Entries are objects: the map and a sweep refer to them by number. What the hooks answer, and the
readings of the clock, come with the step. The log has what happened in order.
-/

namespace OmniRush.Server

open OmniRush

structure EngineInstanceUse where
  directory : String
  workspaceId : String
  engineBaseUrl : String
  deriving DecidableEq, Repr, Inhabited

structure TrackedEngineInstance extends EngineInstanceUse where
  lastUsedAt : Int
  streamHolds : Nat
  deriving DecidableEq, Repr, Inhabited

/-- A hold of the instance is released. -/
def TrackedEngineInstance.free (tracked : TrackedEngineInstance) (now : Int) :
    TrackedEngineInstance :=
  { tracked with streamHolds := tracked.streamHolds - 1, lastUsedAt := now }

/-- What the function that `holdStream` gives out has kept. -/
structure StreamHold where
  directory : String
  engineBaseUrl : String
  released : Bool
  deriving DecidableEq, Repr

inductive ReaperEvent where
  | used (use : EngineInstanceUse) (reported : Bool)
  | held (hold : Nat) (use : EngineInstanceUse)
  | released (hold : Nat)
  | swept
  /-- A dispose starts. -/
  | began (evicted : EngineInstanceUse)
  | ended (ok : Bool)
  /-- A sweep returns. -/
  | evicted (count : Nat)
  deriving DecidableEq, Repr

inductive SweepAwait where
  | probe
  | dispose
  deriving DecidableEq, Repr

/-- A sweep that awaits something for an entry. -/
structure Sweep where
  ttl : Int
  engineBaseUrl : String
  activeDirectory : Option String
  evicted : Nat
  entry : Nat
  await : SweepAwait
  rest : List Nat
  deriving DecidableEq, Repr

structure EngineInstanceReaper where
  entries : Nat → TrackedEngineInstance := fun _ => default
  /-- How many entries there have been. -/
  made : Nat := 0
  instances : Record Nat := Record.empty
  evictedWorkspaceIds : List String := []
  closed : Bool := false
  sweeping : Option Sweep := none
  holds : List StreamHold := []
  log : List ReaperEvent := []

/-- The clock has a reading for each entry of a sweep, told by the number of entries after it. -/
inductive ReaperAct where
  | noteUsed (use : EngineInstanceUse) (now : Int)
  | holdStream (use : EngineInstanceUse) (now : Int)
  | release (hold : Nat) (now : Int)
  | close
  | sweep (ttl : Int) (engineBaseUrl activeDirectory : Option String) (clock : Nat → Int)
  /-- `directoryBusy` answers, or fails. -/
  | probed (busy : Option Bool) (clock : Nat → Int)
  | disposed (ok : Bool) (clock : Nat → Int)

namespace EngineInstanceReaper

variable (r : EngineInstanceReaper)

def update (entry : Nat) (f : TrackedEngineInstance → TrackedEngineInstance) :
    EngineInstanceReaper :=
  { r with entries := Function.update r.entries entry (f (r.entries entry)) }

def note (event : ReaperEvent) : EngineInstanceReaper := { r with log := r.log ++ [event] }

/-- `lastUsedAt` is now. -/
def touch (entry : Nat) (now : Int) : EngineInstanceReaper :=
  r.update entry fun tracked => { tracked with lastUsedAt := now }

/-- A new entry for a directory. -/
def track (use : EngineInstanceUse) (now : Int) : Nat × EngineInstanceReaper :=
  (r.made, { r with
    entries := Function.update r.entries r.made { use with lastUsedAt := now, streamHolds := 0 }
    made := r.made + 1
    instances := r.instances.set use.directory r.made })

/-- The entry a use is recorded in, which is a new one for another engine. -/
def seen (use : EngineInstanceUse) (now : Int) : Nat × EngineInstanceReaper :=
  match r.instances.get use.directory with
  | none => r.track use now
  | some entry =>
      if (r.entries entry).engineBaseUrl = use.engineBaseUrl then
        (entry, r.update entry fun tracked =>
          { tracked with workspaceId := use.workspaceId, lastUsedAt := now })
      else r.track use now

/-- It returns whether the workspace has a mark of an eviction, which it takes. -/
def noteUsed (use : EngineInstanceUse) (now : Int) : EngineInstanceReaper :=
  if r.closed then r
  else
    let marked := decide (use.workspaceId ∈ r.evictedWorkspaceIds)
    let unmarked := { (r.seen use now).2 with
      evictedWorkspaceIds := r.evictedWorkspaceIds.filter fun id => id ≠ use.workspaceId }
    unmarked.note (.used use marked)

def holdStream (use : EngineInstanceUse) (now : Int) : EngineInstanceReaper :=
  if r.closed then r
  else
    let held := (r.seen use now).2.update (r.seen use now).1 fun tracked =>
      { tracked with streamHolds := tracked.streamHolds + 1 }
    let given : StreamHold := ⟨use.directory, use.engineBaseUrl, false⟩
    let kept := { held with holds := r.holds ++ [given] }
    kept.note (.held r.holds.length use)

def release (hold : Nat) (now : Int) : EngineInstanceReaper :=
  match r.holds[hold]? with
  | none => r
  | some given =>
      if given.released then r
      else
        let freed := { r with holds := r.holds.set hold { given with released := true } }
        let noted := freed.note (.released hold)
        match r.instances.get given.directory with
        | none => noted
        | some entry =>
            if (r.entries entry).engineBaseUrl ≠ given.engineBaseUrl then noted
            else noted.update entry fun tracked => tracked.free now

def close : EngineInstanceReaper :=
  { r with closed := true, instances := Record.empty, evictedWorkspaceIds := [] }

/-! ## Sweeps -/

def returned (count : Nat) : EngineInstanceReaper :=
  { r.note (.evicted count) with sweeping := none }

/-- The loop of a sweep, from an entry on. -/
def sweepFrom (ttl : Int) (engineBaseUrl : String) (activeDirectory : Option String)
    (clock : Nat → Int) (evicted : Nat) : EngineInstanceReaper → List Nat → EngineInstanceReaper
  | r, [] => r.returned evicted
  | r, entry :: rest =>
      let tracked := r.entries entry
      if r.closed then r.returned evicted
      else if tracked.engineBaseUrl ≠ engineBaseUrl then
        sweepFrom ttl engineBaseUrl activeDirectory clock evicted
          { r with instances := r.instances.delete tracked.directory } rest
      else if activeDirectory = some tracked.directory then
        sweepFrom ttl engineBaseUrl activeDirectory clock evicted
          (r.touch entry (clock rest.length)) rest
      else if tracked.streamHolds > 0 then
        sweepFrom ttl engineBaseUrl activeDirectory clock evicted r rest
      else if clock rest.length - tracked.lastUsedAt < ttl then
        sweepFrom ttl engineBaseUrl activeDirectory clock evicted r rest
      else { r with
        sweeping := some { ttl, engineBaseUrl, activeDirectory, evicted, entry, await := .probe, rest } }

/-- A sweep goes on with the entries that are left. -/
def goOn (s : Sweep) (evicted : Nat) (clock : Nat → Int) : EngineInstanceReaper :=
  sweepFrom s.ttl s.engineBaseUrl s.activeDirectory clock evicted r s.rest

def sweep (ttl : Int) (engineBaseUrl activeDirectory : Option String) (clock : Nat → Int) :
    EngineInstanceReaper :=
  if r.closed ∨ r.sweeping.isSome ∨ ttl ≤ 0 then r
  else
    match engineBaseUrl with
    | none => r
    | some url =>
        if url = "" then r
        else sweepFrom ttl url activeDirectory clock 0 (r.note .swept)
          (r.instances.entries.map (·.2))

def probed (s : Sweep) (busy : Option Bool) (clock : Nat → Int) : EngineInstanceReaper :=
  match busy with
  | none => r.goOn s s.evicted clock
  | some true => (r.touch s.entry (clock s.rest.length)).goOn s s.evicted clock
  | some false =>
      let tracked := r.entries s.entry
      if clock s.rest.length - tracked.lastUsedAt < s.ttl then r.goOn s s.evicted clock
      else { r.note (.began tracked.toEngineInstanceUse) with
        sweeping := some { s with await := .dispose } }

def disposed (s : Sweep) (ok : Bool) (clock : Nat → Int) : EngineInstanceReaper :=
  let noted := r.note (.ended ok)
  if ok then
    let tracked := r.entries s.entry
    { noted with
      instances := r.instances.delete tracked.directory
      evictedWorkspaceIds := r.evictedWorkspaceIds.insert tracked.workspaceId }.goOn s
        (s.evicted + 1) clock
  else noted.goOn s s.evicted clock

def step : ReaperAct → Option EngineInstanceReaper
  | .noteUsed use now => some (r.noteUsed use now)
  | .holdStream use now => some (r.holdStream use now)
  | .release hold now => some (r.release hold now)
  | .close => some r.close
  | .sweep ttl engineBaseUrl activeDirectory clock =>
      some (r.sweep ttl engineBaseUrl activeDirectory clock)
  | .probed busy clock =>
      (r.sweeping.filter fun s => s.await = .probe).map fun s => r.probed s busy clock
  | .disposed ok clock =>
      (r.sweeping.filter fun s => s.await = .dispose).map fun s => r.disposed s ok clock

end EngineInstanceReaper

end OmniRush.Server
