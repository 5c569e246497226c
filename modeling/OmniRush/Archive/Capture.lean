import OmniRush.Archive.Session
import OmniRush.Lib.Patch

/-!
# One capture, as far as its content goes

`captureArchiveOnce` reads the chain's baseline, takes a scan, works out what the
archive carries and, once it is packed, stores the new baseline. This file is
that path from the scan to the archive and the next record, for a capture whose
file operations succeed. Where they fail or interleave is another model.

A `SealedArchive` is what a replay of the chain reads: the manifest, and the paths
of the `unstable.json` member, the entries pass 2 found changed.
-/

namespace OmniRush.Archive

open OmniRush

/-- The fields of a manifest that place it in its chain, and its content. -/
structure Manifest where
  kind : ArchiveKind
  archiveId : String
  sessionId : String
  sequence : Nat
  turn : Nat
  parentArchiveId : Option String
  trigger : Option ArchiveTrigger
  marker : String
  files : List ArchiveEntry
  /-- Deltas only. -/
  deleted : Option (List String)
  deriving DecidableEq, Repr

structure SealedArchive where
  manifest : Manifest
  unstable : List String
  deriving DecidableEq, Repr

/-- The result of pass 1. Only files are hashed. -/
structure PassOne extends TouchedScanResult where
  plain : ∀ e ∈ entries, e.type ≠ .file → e.sha256 = none

/-- What one capture meets: the scan, whether files used force an archive, and
which entries pass 2 finds other than pass 1 saw them. -/
structure CaptureInput where
  archiveId : String
  turn : Nat
  options : CaptureOptions := {}
  scan : PassOne
  forced : Bool := false
  changed : ScannedEntry → Bool := fun _ => false
  finalsAccepted : Bool := false

/-- The scan a capture works with: as of `before` for a turn's or a pre-tool
state. -/
def CaptureInput.scanned (input : CaptureInput) (baseline : List ArchiveEntry) :
    List ScannedEntry :=
  match input.options.trigger, input.options.before with
  | some .preTool, some before => scanAsOf baseline before input.scan.entries
  | some .turn, some before => scanAsOf baseline before input.scan.entries
  | _, _ => input.scan.entries

/-- What an archive carries, and the chain's entry list after it. -/
structure Plan where
  files : List ScannedEntry
  deleted : Option (List String)
  next : List ArchiveEntry
  deriving Repr

/-- From the scan to the archive's content. -/
def planContent (marker : String) (kind : ArchiveKind) (baseline : List ArchiveEntry)
    (input : CaptureInput) : Plan :=
  let scanned := input.scanned baseline
  if marker = touchedMarker then
    let change := touchedChange baseline { input.scan with entries := scanned }
    ⟨change.files, if kind = .delta then some change.deleted else none, change.next⟩
  else if kind = .delta then
    let delta := computeArchiveDelta baseline scanned
    ⟨delta.files, some delta.deleted, scanned.map (·.toArchiveEntry)⟩
  else ⟨scanned, none, scanned.map (·.toArchiveEntry)⟩

/-- `none` when nothing changed. A whole folder's base is sent whatever it holds,
and files used can force a delta. -/
def planArchive (marker : String) (kind : ArchiveKind) (baseline : List ArchiveEntry)
    (input : CaptureInput) : Option Plan :=
  let plan := planContent marker kind baseline input
  let empty := plan.files.isEmpty && (plan.deleted.getD []).isEmpty
  if (marker = touchedMarker || kind = .delta) && empty && !(kind = .delta && input.forced)
    then none else some plan

/-- The entries pass 2 reports: files it streams from disk and symlinks, where
they are not what pass 1 saw. -/
def packUnstable (changed : ScannedEntry → Bool) (files : List ScannedEntry) : List String :=
  (files.filter fun e => e.type ≠ .dir && !(e.type = .file && e.content.isSome) && changed e).map
    (·.path)

/-- A session's chain: its record, the baseline files by name, and the archives
captured so far, in sequence order. -/
structure Chain where
  sessionKey : String
  state : SessionState
  baselines : String → Option String
  archives : List SealedArchive

/-- `readBaseline`: `none` when the chain cannot go on. -/
def readBaseline (state : SessionState) (baselines : String → Option String) :
    Option (List ArchiveEntry) :=
  match state.baseline with
  | none => if state.serverChain then some [] else none
  | some name => parseBaselineText (baselines name)

def setFile (files : String → Option String) (name : String) (text : Option String) :
    String → Option String :=
  fun n => if n = name then text else files n

/-- The previous baseline goes unless it is the new one or the rewind point's. -/
def removePrevious (previous : Option String) (next : SessionState)
    (files : String → Option String) : String → Option String :=
  match previous with
  | none => files
  | some name =>
      if next.baseline ≠ some name ∧ next.rewind.bind (·.baseline) ≠ some name then
        setFile files name none
      else files

/-- The packing, the manifest and the commit of one archive: the new baseline is
written, the record saved, the previous baseline removed. -/
def commitArchive (chain : Chain) (kind : ArchiveKind) (input : CaptureInput) (plan : Plan) :
    Chain :=
  let state := chain.state
  let unstable := packUnstable input.changed plan.files
  let manifest : Manifest :=
    { kind
      archiveId := input.archiveId
      sessionId := state.sessionId
      sequence := state.nextSequence
      turn := input.turn
      parentArchiveId := if kind = .base then none else state.lastArchiveId
      trigger := if kind = .delta then input.options.trigger else none
      marker := state.marker
      files := plan.files.map fun e => archiveEntry e.toArchiveEntry
      deleted := plan.deleted }
  let name := baselineName chain.sessionKey state.nextSequence
  let next := committedState state kind input.archiveId input.turn name
    input.options input.finalsAccepted
  let written := setFile chain.baselines name (some (baselineText plan.next unstable))
  { chain with
    state := next
    baselines := removePrevious state.baseline next written
    archives := chain.archives ++ [⟨manifest, unstable⟩] }

/-- `captureArchiveOnce`, its packing and file operations succeeding. -/
def captureArchiveOnce (chain : Chain) (kind : ArchiveKind) (input : CaptureInput) : Chain :=
  let state := chain.state
  match if kind = .delta then readBaseline state chain.baselines else some [] with
  | none => { chain with state := { state with stopped := some "baseline_missing" } }
  | some baseline =>
      match planArchive state.marker kind baseline input with
      | none => { chain with state := noteUnchanged state kind input.turn input.options }
      | some plan => commitArchive chain kind input plan

/-- What the callers ask for: a base until the chain has one, then deltas. -/
def Chain.nextKind (chain : Chain) : ArchiveKind :=
  if chain.state.nextSequence = 0 then .base else .delta

def Chain.capture (chain : Chain) (input : CaptureInput) : Chain :=
  captureArchiveOnce chain chain.nextKind input

def Chain.start (sessionKey : String) (state : SessionState) : Chain where
  sessionKey := sessionKey
  state := state
  baselines := fun _ => none
  archives := []

/-- The entry list the next capture compares with. -/
def Chain.baseline (chain : Chain) : Option (List ArchiveEntry) :=
  if chain.state.nextSequence = 0 then some []
  else readBaseline chain.state chain.baselines

/-- A run of captures on one chain. -/
def Chain.run (chain : Chain) (inputs : List CaptureInput) : Chain :=
  inputs.foldl Chain.capture chain

/-! ## Replay -/

/-- One archive onto the entries replayed so far. -/
def SealedArchive.apply (m : View String ArchiveEntry) (archive : SealedArchive) :
    View String ArchiveEntry :=
  applyPatch ArchiveEntry.path archive.manifest.files (archive.manifest.deleted.getD []) m

/-- The fold of a chain's archives, in sequence order. -/
def replay (archives : List SealedArchive) : View String ArchiveEntry :=
  archives.foldl SealedArchive.apply View.empty

/-- Whether the last archive that sent a path reported it unstable. -/
def reportedUnstable (archives : List SealedArchive) (path : String) : Bool :=
  archives.foldl (fun reported archive =>
    if path ∈ archive.manifest.files.map (·.path) then path ∈ archive.unstable
    else if path ∈ archive.manifest.deleted.getD [] then false
    else reported) false

/-!
## Continuing a chain from the server

A machine that lost its own record of a session asks the server where the chain
is. `continueServerChain` turns the answer into one of four: the record that
points at the server's last archive, a fresh base, wait, or stop. Two callers
use it: a base about to be captured for a session that ran before, and the drain
when the server refuses a sequence number it already holds.

Either way the next archive is a delta on the server's last one, captured with no
baseline: `readBaseline` answers the empty list for such a record.
-/

inductive TipStatus where
  | uploading
  | uploaded
  | other (status : String)
  deriving DecidableEq, Repr

structure ServerChainTip where
  archiveId : String
  sequence : Nat
  turn : Nat
  marker : Option String
  status : TipStatus
  deleted : Bool
  deriving DecidableEq, Repr

inductive ServerChain where
  | ok (nextSequence : Nat) (tip : Option ServerChainTip)
  | unsupported
  | unavailable (reason : String)
  deriving DecidableEq, Repr

inductive Continuation where
  | continue (state : SessionState)
  | fresh
  | wait (reason : String)
  | stop (code : String)
  deriving DecidableEq, Repr

/-- The record a chain continues with: the server's last archive, no baseline. -/
def pointedAt (state : SessionState) (nextSequence : Nat) (tip : ServerChainTip) :
    SessionState :=
  { state with
    nextSequence := nextSequence
    lastArchiveId := some tip.archiveId
    lastTurn := some tip.turn
    baseline := none
    rewind := none
    finalDue := true
    serverChain := true }

/-- `continueServerChain`; `signedOut` is whether the generation moved while the
server was asked. -/
def continueServerChain (state : SessionState) (answer : ServerChain) (signedOut : Bool) :
    Continuation :=
  match answer with
  | .unavailable reason => .wait reason
  | .unsupported => .fresh
  | .ok _ none => .fresh
  | .ok nextSequence (some tip) =>
      if nextSequence = 0 then .fresh
      else if tip.status = .uploading ∧ tip.deleted = false then
        .wait "server_archive_uploading"
      else if tip.status ≠ .uploaded ∨ tip.deleted ∨ tip.sequence + 1 ≠ nextSequence then
        .stop "archive_chain_ended"
      else if tip.marker.any (· ≠ state.marker) then .stop "archive_marker_changed"
      else if signedOut then .wait "signed_out"
      else .continue (pointedAt state nextSequence tip)

/-- The record `recoverSequenceConflict` captures on: `current` when it already
stands at the server's last archive, else `current` sent there. -/
def continuedState (current found : SessionState) : SessionState :=
  if current.serverChain ∧ current.lastArchiveId = found.lastArchiveId then current
  else { current with
    nextSequence := found.nextSequence
    lastArchiveId := found.lastArchiveId
    lastTurn := found.lastTurn
    baseline := none
    rewind := none
    finalDue := true
    serverChain := true }

/-- A record a continuation left at the server's last archive, without a baseline. -/
inductive PointedAtTip : SessionState → Prop where
  /-- `captureArchive`, before a base. -/
  | capture {state found : SessionState} {answer : ServerChain} {signedOut : Bool}
      (h : continueServerChain state answer signedOut = .continue found) : PointedAtTip found
  /-- `recoverSequenceConflict`, inside the drain. -/
  | conflict {state found current : SessionState} {answer : ServerChain} {signedOut : Bool}
      (h : continueServerChain state answer signedOut = .continue found)
      (hnull : (continuedState current found).baseline = none) :
      PointedAtTip (continuedState current found)

/-- The archives a capture added, folded onto what the server's chain holds. -/
def foldOnto (held : View String ArchiveEntry) (before after : Chain) :
    View String ArchiveEntry :=
  (after.archives.drop before.archives.length).foldl SealedArchive.apply held

end OmniRush.Archive
