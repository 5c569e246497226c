import OmniRush.Archive.Queue
import OmniRush.Lib.Machine

/-!
# The archiver's files

What the archiver keeps on disk, as far as its invariants go: the session
records, the queue, the sealed files in `pending/`, the partial files in `tmp/`
and the baselines. Records are kept parsed and files by their names. Every
write goes to a temporary name first and is renamed, so one operation happens or
does not; `rm` with `force` does not mind a missing file.

A session's record and baselines are named by its state key, a hash of its id
that stands here as a parameter.

The commit of a capture is a program over these operations (`commitSteps`): each
step with what the handlers around it do when it fails.
-/

namespace OmniRush.Archive

open OmniRush

def escapeDash (c : Char) : List Char :=
  if c = '-' then ['_', 'd'] else if c = '_' then ['_', '_'] else [c]

theorem dash_notMem_escapeDash (c : Char) : '-' ∉ escapeDash c := by
  unfold escapeDash
  split
  · decide
  · split
    · decide
    · next hdash _ =>
        intro hmem
        exact hdash (List.mem_singleton.mp hmem).symm

theorem escapeDash_ne_nil (c : Char) : escapeDash c ≠ [] := by
  unfold escapeDash
  split
  · decide
  · split
    · decide
    · exact List.cons_ne_nil _ _

theorem escapeDash_append_inj {c d : Char} {s t : List Char}
    (h : escapeDash c ++ s = escapeDash d ++ t) : c = d ∧ s = t := by
  unfold escapeDash at h
  by_cases hc : c = '-' <;> by_cases hd : d = '-' <;> by_cases hc' : c = '_' <;>
    by_cases hd' : d = '_' <;> simp_all <;> exact absurd h.1.symm hd'

theorem flatMap_escapeDash_inj {a b : List Char}
    (h : a.flatMap escapeDash = b.flatMap escapeDash) : a = b := by
  induction a generalizing b with
  | nil =>
      cases b with
      | nil => rfl
      | cons d b =>
          rw [List.flatMap_nil, List.flatMap_cons] at h
          exact absurd (List.append_eq_nil_iff.mp h.symm).1 (escapeDash_ne_nil d)
  | cons c a ih =>
      cases b with
      | nil =>
          rw [List.flatMap_nil, List.flatMap_cons] at h
          exact absurd (List.append_eq_nil_iff.mp h).1 (escapeDash_ne_nil c)
      | cons d b =>
          rw [List.flatMap_cons, List.flatMap_cons] at h
          obtain ⟨rfl, hrest⟩ := escapeDash_append_inj h
          rw [ih hrest]

/-- `stateKey`: hexadecimal digits, and taken to tell sessions apart. -/
structure StateKey where
  key : String → String
  key_inj : ∀ a b, key a = key b → a = b
  key_dash : ∀ a, '-' ∉ (key a).toList

/-- A key that can be computed here: the id, written without dashes. -/
def escapeKey : StateKey where
  key id := String.ofList (id.toList.flatMap escapeDash)
  key_inj a b h := String.toList_inj.mp (flatMap_escapeDash_inj (String.ofList_injective h))
  key_dash a h := by
    rw [String.toList_ofList] at h
    obtain ⟨c, -, hc⟩ := List.mem_flatMap.mp h
    exact dash_notMem_escapeDash c hc

structure Disk where
  sessions : List SessionState := []
  queue : List QueueRecord := []
  pending : List String := []
  tmp : List String := []
  baselines : List String := []
  deriving DecidableEq

/-- `loadSession`: one record a session. -/
def Disk.loadSession (d : Disk) (sessionId : String) : Option SessionState :=
  d.sessions.find? fun s => s.sessionId = sessionId

/-- Whether a baseline file with this name is there. -/
def Disk.hasBaseline (d : Disk) (name : String) : Prop := name ∈ d.baselines

/-! ## Operations -/

def partialName (archiveId : String) : String := archiveId ++ ".partial"

inductive FileOp where
  /-- `writeSealedArchive` into `tmp/`. -/
  | writePartial (archiveId : String)
  | rmPartial (archiveId : String)
  /-- The partial file becomes the sealed file. -/
  | renamePending (archiveId : String)
  | rmPending (sealedFile : String)
  | writeQueue (record : QueueRecord)
  | rmQueue (archiveId : String)
  | writeBaseline (name : String)
  | rmBaseline (name : String)
  | saveSession (state : SessionState)
  | saveHashCache
  deriving DecidableEq

/-- A list of names with one more. -/
def addName (names : List String) (name : String) : List String :=
  names.filter (· ≠ name) ++ [name]

/-- Records by session, the new one in the place of the old. -/
def putSession (sessions : List SessionState) (state : SessionState) : List SessionState :=
  sessions.filter (fun s => s.sessionId ≠ state.sessionId) ++ [state]

def putRecord (queue : List QueueRecord) (record : QueueRecord) : List QueueRecord :=
  queue.filter (fun r => r.archiveId ≠ record.archiveId) ++ [record]

def FileOp.apply : FileOp → Disk → Disk
  | .writePartial archiveId, d => { d with tmp := addName d.tmp (partialName archiveId) }
  | .rmPartial archiveId, d => { d with tmp := d.tmp.filter (· ≠ partialName archiveId) }
  | .renamePending archiveId, d =>
      { d with
        tmp := d.tmp.filter (· ≠ partialName archiveId)
        pending := addName d.pending (sealedFileName archiveId) }
  | .rmPending sealedFile, d => { d with pending := d.pending.filter (· ≠ sealedFile) }
  | .writeQueue record, d => { d with queue := putRecord d.queue record }
  | .rmQueue archiveId, d =>
      { d with queue := d.queue.filter fun r => r.archiveId ≠ archiveId }
  | .writeBaseline name, d => { d with baselines := addName d.baselines name }
  | .rmBaseline name, d => { d with baselines := d.baselines.filter (· ≠ name) }
  | .saveSession state, d => { d with sessions := putSession d.sessions state }
  | .saveHashCache, d => d

/-- `deleteJob`. -/
def deleteJob (record : QueueRecord) : List FileOp :=
  [.rmPending record.sealedFile, .rmQueue record.archiveId]

theorem sealedFileName_inj {a b : String} (h : sealedFileName a = sealedFileName b) : a = b :=
  (String.append_left_inj _).mp h

theorem mem_addName {names : List String} {name n : String} :
    n ∈ addName names name ↔ n ∈ names ∨ n = name := by
  unfold addName
  rw [List.mem_append, List.mem_filter, List.mem_singleton]
  by_cases h : n = name <;> simp [h]

theorem mem_putRecord {queue : List QueueRecord} {record r : QueueRecord} :
    r ∈ putRecord queue record ↔ (r ∈ queue ∧ r.archiveId ≠ record.archiveId) ∨ r = record := by
  unfold putRecord
  rw [List.mem_append, List.mem_filter, List.mem_singleton]
  simp

theorem loadSession_saveSession (d : Disk) (state : SessionState) :
    ((FileOp.saveSession state).apply d).loadSession state.sessionId = some state := by
  show (putSession d.sessions state).find? _ = _
  unfold putSession
  rw [List.find?_append]
  have hnone : (d.sessions.filter fun s => s.sessionId ≠ state.sessionId).find?
      (fun s => s.sessionId = state.sessionId) = none := by
    rw [List.find?_eq_none]
    intro s hs
    have hne := (List.mem_filter.mp hs).2
    simpa using hne
  rw [hnone]
  simp

theorem loadSession_saveSession_ne (d : Disk) {state : SessionState} {sessionId : String}
    (h : state.sessionId ≠ sessionId) :
    ((FileOp.saveSession state).apply d).loadSession sessionId = d.loadSession sessionId := by
  show (putSession d.sessions state).find? _ = d.sessions.find? _
  unfold putSession
  rw [List.find?_append, List.find?_filter]
  have hlast : [state].find? (fun s => s.sessionId = sessionId) = none := by simp [h]
  have hkeep : (fun s : SessionState => decide (s.sessionId ≠ state.sessionId)
      && decide (s.sessionId = sessionId)) = fun s => decide (s.sessionId = sessionId) := by
    funext s
    by_cases hs : s.sessionId = sessionId
    · have hne : sessionId ≠ state.sessionId := fun heq => h heq.symm
      simp [hs, hne]
    · simp [hs]
  rw [hlast, Option.or_none]
  have hpred := congrArg (fun p => d.sessions.find? p) hkeep
  simpa using hpred

theorem loadSession_save (d : Disk) (s : SessionState) (id : String) :
    ((FileOp.saveSession s).apply d).loadSession id
      = if s.sessionId = id then some s else d.loadSession id := by
  split
  · next h =>
      rw [← h]
      exact loadSession_saveSession d s
  · next h => exact loadSession_saveSession_ne d h

theorem loadSession_sessionId {d : Disk} {sessionId : String} {state : SessionState}
    (h : d.loadSession sessionId = some state) : state.sessionId = sessionId := by
  have hfound := List.find?_some h
  simpa using hfound

theorem loadSession_apply {op : FileOp} (h : ∀ state, op ≠ .saveSession state) (d : Disk)
    (sessionId : String) : (op.apply d).loadSession sessionId = d.loadSession sessionId := by
  cases op with
  | saveSession state => exact absurd rfl (h state)
  | _ => rfl

/-! ## The commit -/

/-- The baseline a commit removes: the previous one, unless the new record or its
rewind point names it. -/
def previousBaseline (state next : SessionState) : Option String :=
  state.baseline.filter fun name =>
    decide (next.baseline ≠ some name) && decide (next.rewind.bind (·.baseline) ≠ some name)

/-- How the commit's switches stand: whether the policy counts media bytes, and
whether the server has accepted a final archive. -/
structure CommitFlags where
  countsMedia : Bool := false
  finalsAccepted : Bool := false
  deriving DecidableEq, Repr

section

variable (k : StateKey) (flags : CommitFlags)

def commitRecord (c : Captured) : QueueRecord :=
  queueRecord c (k.key c.state.sessionId) flags.countsMedia

def commitBaseline (c : Captured) : String :=
  baselineName (k.key c.state.sessionId) c.state.nextSequence

/-- The record step 4 saves. -/
def commitNext (c : Captured) : SessionState :=
  committedState c.state c.kind c.archiveId c.turn (commitBaseline k c) c.options
    flags.finalsAccepted

/-- The file operations of a commit, in order. The handler around all of them
removes the partial file; a queue record that cannot be written takes the sealed
file with it. -/
def commitSteps (c : Captured) : List (Step FileOp) :=
  [⟨.renamePending c.archiveId, [.rmPartial c.archiveId]⟩,
    ⟨.writeQueue (commitRecord k flags c),
      [.rmPending (sealedFileName c.archiveId), .rmPartial c.archiveId]⟩,
    ⟨.writeBaseline (commitBaseline k c), [.rmPartial c.archiveId]⟩,
    ⟨.saveSession (commitNext k flags c), [.rmPartial c.archiveId]⟩]
  ++ ((previousBaseline c.state (commitNext k flags c)).map fun name =>
      ⟨.rmBaseline name, [.rmPartial c.archiveId]⟩).toList
  ++ [⟨.saveHashCache, [.rmPartial c.archiveId]⟩]

end

end OmniRush.Archive
