import OmniRush.Archive.Touched

/-!
# Session records

One record a session: the archive chain it is on, where the chain continues
from, and what ended it. `saveSession` writes the whole record, so every update
below is a record built from the last one. The times of the last activity and
the last update are left out: they only pick the sessions checked at app start.
-/

namespace OmniRush.Archive

/-- Where a chain continues from (`chainPointSchema`). -/
structure ChainPoint where
  nextSequence : Nat
  lastArchiveId : Option String
  lastTurn : Option Nat
  baseline : Option String
  deriving DecidableEq, Repr

/-- `sessionStateSchema`. An optional flag that is absent reads as `false`. -/
structure SessionState extends ChainPoint where
  sessionId : String
  marker : String
  stopped : Option String := none
  rewind : Option ChainPoint := none
  finalDue : Bool := false
  ended : Bool := false
  turnSeen : Option Nat := none
  v2 : Bool := false
  filesUsed : Bool := false
  serverChain : Bool := false
  deriving DecidableEq, Repr

def folderMarker : String := "folder"

def touchedMarker : String := "touched"

def projectMarker : String := "project"

inductive ArchiveKind where
  | base
  | delta
  deriving DecidableEq, Repr

inductive ArchiveTrigger where
  | turn
  | final
  | preTool
  deriving DecidableEq, Repr

/-- The record `captureBaseLocked` starts a session with. -/
def SessionState.fresh (sessionId marker : String) (v2 filesUsed : Bool) : SessionState where
  sessionId := sessionId
  marker := marker
  nextSequence := 0
  lastArchiveId := none
  lastTurn := none
  baseline := none
  v2 := v2
  filesUsed := v2 && filesUsed

def SessionState.point (state : SessionState) : ChainPoint := state.toChainPoint

/-- The record of a chain sent back to `point`. -/
def SessionState.atPoint (state : SessionState) (point : ChainPoint) : SessionState :=
  { state with toChainPoint := point }

/-- The chain points whose baseline a record names. -/
def SessionState.namedBaselines (state : SessionState) : List String :=
  state.baseline.toList ++ (state.rewind.bind (·.baseline)).toList

/-- `${sessionKey}-${sequence}.json`. -/
def baselineName (sessionKey : String) (sequence : Nat) : String :=
  sessionKey ++ "-" ++ toString sequence ++ ".json"

/-- How a capture was asked for. -/
structure CaptureOptions where
  trigger : Option ArchiveTrigger := none
  ended : Bool := false
  before : Option Nat := none
  deriving DecidableEq, Repr

/-- The record after an archive was committed (step 4 of `captureArchiveOnce`). -/
def committedState (state : SessionState) (kind : ArchiveKind) (archiveId : String)
    (turn : Nat) (baseline : String) (options : CaptureOptions) (finalsAccepted : Bool) :
    SessionState :=
  { state with
    nextSequence := state.nextSequence + 1
    lastArchiveId := some archiveId
    lastTurn := some turn
    baseline := some baseline
    rewind := state.rewind <|>
      (if kind = .delta ∧ options.trigger = some .final ∧ finalsAccepted = false
        then some state.point else none)
    finalDue := options.trigger ≠ some .final
    ended := state.ended || options.ended }

/-- `noteUnchanged`: the record after a capture that found nothing to send. -/
def noteUnchanged (state : SessionState) (kind : ArchiveKind) (turn : Nat)
    (options : CaptureOptions) : SessionState :=
  if kind = .base then
    { state with turnSeen := some turn, ended := state.ended || options.ended }
  else if options.trigger = some .final ∧ state.finalDue = false ∧ options.ended = false then
    state
  else
    { state with
      finalDue := options.trigger ≠ some .final
      ended := state.ended || options.ended }

end OmniRush.Archive
