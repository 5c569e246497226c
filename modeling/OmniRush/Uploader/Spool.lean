import Mathlib.Algebra.BigOperators.Group.List.Basic
import Mathlib.Algebra.Order.Ring.Int
import Mathlib.Data.List.Sort
import OmniRush.Lib.Machine

/-!
# The upload spool

The spool of `session-uploader.ts`: an upload that could not be sent is kept as two files, its
envelope and its record, until a drain delivers it, it is too old, or the spool is over its
bounds. An id is a text of fixed width, the time in front, so ids are in order as numbers.

All file work is done under one lock, one operation after the other; what a file operation
does is one step of the operation that runs. `removeSpoolEntry` removes both files at once,
so either may go first. A drain sends outside the lock with the entries it has listed, and
asks for their removal or a rewritten record as the server answers. A crash ends whatever
runs; the folder stays as it is.

`spoolId` is taken to be new: the time, a counter and 32 random bits. `clearSpool`, which removes
the whole folder at a sign-out, is left out.
-/

namespace OmniRush.Uploader

structure SpoolMeta where
  id : Nat
  sessionId : String
  snapshotType : String
  sequence : Int
  bytes : Nat
  createdAt : String
  attempts : Nat
  lastAttemptAt : Option String := none
  notBefore : Option String := none
  accountId : Option String := none
  deriving DecidableEq, Repr

structure SpoolLimits where
  spoolMaxTraceEntries : Nat
  spoolMaxTraceBytes : Nat
  spoolMaxEntries : Nat
  spoolMaxBytes : Nat

/-- Traces, and all other uploads, each have bounds of their own. -/
def SpoolMeta.isClass (trace : Bool) (m : SpoolMeta) : Bool := (m.snapshotType = "trace") == trace

def SpoolLimits.maxEntries (limits : SpoolLimits) (trace : Bool) : Nat :=
  if trace then limits.spoolMaxTraceEntries else limits.spoolMaxEntries

def SpoolLimits.maxBytes (limits : SpoolLimits) (trace : Bool) : Nat :=
  if trace then limits.spoolMaxTraceBytes else limits.spoolMaxBytes

def totalBytes (entries : List SpoolMeta) : Int := (entries.map fun m => (m.bytes : Int)).sum

/-- What a listing is for. -/
inductive Purpose where
  | drain
  | bounds
  /-- `keepSpoolFor`. -/
  | keep (account : String)
  deriving DecidableEq, Repr

/-- How far the operation under the lock is. -/
inductive Stage where
  | idle
  | move (entry : SpoolMeta)
  | record (entry : SpoolMeta)
  | reading (purpose : Purpose)
  | listing (ids : List Nat) (entries : List SpoolMeta) (purpose : Purpose)
  /-- `enforceSpoolBounds` on what it listed: the entries of a class it has not looked at. -/
  | bounding (entries : List SpoolMeta) (trace : Bool) (left : List SpoolMeta) (count total : Int)
  | bounded (entries : List SpoolMeta)
  | stamping (left : List SpoolMeta) (account : String)
  | rewrite (entry : SpoolMeta)
  /-- The files of an entry that are still to go, and what comes then. -/
  | removing (id : Nat) (record envelope : Bool) (next : Stage)
  deriving DecidableEq, Repr

structure Spool where
  records : List SpoolMeta := []
  /-- The envelopes with their sizes. -/
  envelopes : List (Nat × Nat) := []
  stage : Stage := .idle
  /-- The entries the drain goes through. -/
  entries : List SpoolMeta := []
  deriving DecidableEq, Repr

namespace Spool

variable (limits : SpoolLimits) (s : Spool)

/-- `writeSpoolMeta`. -/
def writeSpoolMeta (entry : SpoolMeta) : Spool :=
  { s with records := entry :: s.records.filter fun m => m.id ≠ entry.id }

def hasEnvelope (id : Nat) : Bool := s.envelopes.any fun e => e.1 = id

/-- `enforceSpoolBounds` begins with a class. -/
def boundClass (entries : List SpoolMeta) (trace : Bool) : Stage :=
  let left := entries.filter (·.isClass trace)
  .bounding entries trace left left.length (totalBytes left)

/-- After a listing. -/
def listed (entries : List SpoolMeta) : Purpose → Spool
  | .drain => { s with entries, stage := .idle }
  | .bounds => { s with stage := boundClass entries true }
  | .keep account => { s with stage := .stamping entries account }

/-- The next file operation of the operation that runs. -/
def proceed : Option Spool :=
  match s.stage with
  | .idle | .removing _ _ _ _ => none
  | .move entry => some { s with
      envelopes := (entry.id, entry.bytes) :: s.envelopes.filter fun e => e.1 ≠ entry.id
      stage := .record entry }
  | .record entry => some { s.writeSpoolMeta entry with stage := .reading .bounds }
  | .reading purpose => some { s with stage := .listing (s.records.map (·.id)) [] purpose }
  | .listing [] entries purpose =>
      some (s.listed (entries.insertionSort fun left right => left.id ≤ right.id) purpose)
  | .listing (id :: ids) entries purpose =>
      match s.records.find? fun m => m.id = id with
      | some m =>
          if s.hasEnvelope id then some { s with stage := .listing ids (entries ++ [m]) purpose }
          else some { s with stage := .removing id true true (.listing ids entries purpose) }
      | none => some { s with stage := .removing id true true (.listing ids entries purpose) }
  | .bounding entries trace left count total =>
      match left with
      | entry :: rest =>
          if count ≤ limits.maxEntries trace ∧ total ≤ limits.maxBytes trace then
            some { s with stage := if trace then boundClass entries false else .bounded entries }
          else
            let next := .bounding entries trace rest (count - 1) (total - entry.bytes)
            some { s with stage := .removing entry.id true true next }
      | [] => some { s with stage := if trace then boundClass entries false else .bounded entries }
  | .bounded _ => some { s with stage := .idle }
  | .stamping left account =>
      match left with
      | entry :: rest =>
          if entry.accountId.isSome then some { s with stage := .stamping rest account }
          else some { s.writeSpoolMeta { entry with accountId := some account } with
            stage := .stamping rest account }
      | [] => some { s with stage := .idle }
  | .rewrite entry =>
      -- the bound may have dropped the entry meanwhile
      if s.hasEnvelope entry.id then some { s.writeSpoolMeta entry with stage := .idle }
      else some { s with stage := .idle }

/-- One of the two files of an entry that is removed goes. -/
def unlink (envelope : Bool) : Option Spool :=
  match s.stage with
  | .removing id true z next =>
      if envelope then
        if z then some { s with
          envelopes := s.envelopes.filter fun e => e.1 ≠ id
          stage := .removing id true false next }
        else none
      else some { s with
        records := s.records.filter fun m => m.id ≠ id
        stage := if z then .removing id false true next else next }
  | .removing id false true next =>
      if envelope then some { s with
        envelopes := s.envelopes.filter fun e => e.1 ≠ id, stage := next }
      else none
  | _ => none

end Spool

inductive SpoolAct where
  /-- `spoolEnvelopeFile`. -/
  | spool (entry : SpoolMeta)
  | list (purpose : Purpose)
  /-- The drain drops an entry: delivered, refused, expired or damaged. -/
  | remove (entry : SpoolMeta)
  /-- The drain notes an attempt. -/
  | attempted (entry : SpoolMeta) (lastAttemptAt : String) (notBefore : Option String)
  /-- The drain finds an entry without an account to be its account's. -/
  | own (entry : SpoolMeta) (account : String)
  | proceed
  | unlink (envelope : Bool)
  | crash
  deriving DecidableEq, Repr

def Spool.step (limits : SpoolLimits) (s : Spool) : SpoolAct → Option Spool
  | .spool entry =>
      let used := s.records.map (·.id) ++ s.envelopes.map (·.1) ++ s.entries.map (·.id)
      if s.stage = .idle ∧ entry.id ∉ used then some { s with stage := .move entry } else none
  | .list purpose => if s.stage = .idle then some { s with stage := .reading purpose } else none
  | .remove entry =>
      if s.stage = .idle ∧ entry ∈ s.entries then
        some { s with stage := .removing entry.id true true .idle }
      else none
  | .attempted entry lastAttemptAt notBefore =>
      if s.stage = .idle ∧ entry ∈ s.entries then
        some { s with stage := .rewrite { entry with
          attempts := entry.attempts + 1, lastAttemptAt := some lastAttemptAt, notBefore } }
      else none
  | .own entry account =>
      if s.stage = .idle ∧ entry ∈ s.entries ∧ entry.accountId = none then
        some { s with
          entries := s.entries.map fun e =>
            if e = entry then { entry with accountId := some account } else e
          stage := .rewrite { entry with accountId := some account } }
      else none
  | .proceed => s.proceed limits
  | .unlink envelope => s.unlink envelope
  | .crash => some { records := s.records, envelopes := s.envelopes }

end OmniRush.Uploader
