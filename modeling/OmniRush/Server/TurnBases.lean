import OmniRush.Lib.Machine
import OmniRush.Lib.Record

/-!
# The store of a turn's bases

`turn-diff.ts`: the texts that were sent, by digest, least recently used out first. Between two
awaits nothing else runs, so a step is what a function does from one await to the next. An
operation on disk takes effect in the step that ends its await, and may fail; anyone may change a
text on disk. A restart loses all that is not on disk.

The saved index is the list of its entries. Promises are numbered as they come.
-/

namespace OmniRush.Server

def maxBaseTextBytes : Nat := 4 * 1024 * 1024

def baseWriteConcurrency : Nat := 8

def basePendingHighWater : Nat := 8 * 1024 * 1024

def baseIndexFile : String := "index.json"

/-- `SHA256_NAME`. -/
def isSha256Name (name : String) : Bool :=
  name.toList.length = 64 && name.toList.all fun c => c.isDigit || ('a' ≤ c && c ≤ 'f')

/-! ## The store -/

structure HeldText where
  text : String
  bytes : Nat
  deriving DecidableEq, Repr

/-- What a write awaits. -/
inductive WriteStage where
  | ready
  /-- A removal of the same digest, if there was one under way. -/
  | removal (removal : Option Nat)
  | mkdir
  | file
  /-- A text is removed again that was written under an old generation. -/
  | undo
  /-- What it does at the end is next. -/
  | settled
  deriving DecidableEq, Repr

structure BaseWrite where
  id : Nat
  sha256 : String
  generation : Nat
  held : Option HeldText
  stage : WriteStage
  deriving DecidableEq, Repr

inductive SaveStage where
  /-- The save before it. -/
  | tail
  | mkdir
  | file
  deriving DecidableEq, Repr

structure IndexSave where
  id : Nat
  generation : Nat
  index : List (String × Nat)
  stage : SaveStage
  deriving DecidableEq, Repr

structure BaseWaiter where
  id : Nat
  limit : Nat
  deriving DecidableEq, Repr

structure TurnBaseStore where
  /-- Digest and bytes, least recently used first. -/
  index : Record Nat := .empty
  pending : Record HeldText := .empty
  queue : List String := []
  pendingBytes : Int := 0
  used : Int := 0
  active : Nat := 0
  generation : Nat := 0
  dirty : Bool := false
  saveTimer : Bool := false
  /-- The saves `saveTail` waits for, one after the other. -/
  saves : List IndexSave := []
  ready : Bool := false
  waiters : List BaseWaiter := []
  removals : Record Nat := .empty
  /-- The removals that are not done. -/
  removing : List (Nat × String) := []
  writes : List BaseWrite := []
  next : Nat := 0

namespace TurnBaseStore

variable (budget : Nat) (s : TurnBaseStore)

def touch (sha256 : String) (bytes : Nat) : TurnBaseStore :=
  { s with index := (s.index.delete sha256).set sha256 bytes, dirty := true }

/-- The entries of the index from one on, as long as too much is used. -/
def evictFrom : List (String × Nat) → TurnBaseStore → TurnBaseStore
  | [], s => s
  | (sha256, bytes) :: rest, s =>
      if s.used ≤ budget then s
      else
        evictFrom rest { s with
          index := s.index.delete sha256
          used := s.used - bytes
          removals := s.removals.set sha256 s.next
          removing := s.removing ++ [(s.next, sha256)]
          next := s.next + 1 }

def evict : TurnBaseStore := evictFrom budget s.index.entries s

/-- `pump`, for a queue. -/
def pumpFrom : List String → TurnBaseStore → TurnBaseStore
  | [], s => s
  | sha256 :: rest, s =>
      if s.active < baseWriteConcurrency then
        pumpFrom rest { s with
          queue := rest
          active := s.active + 1
          writes := s.writes ++ [⟨s.next, sha256, s.generation, s.pending.get sha256, .ready⟩]
          next := s.next + 1 }
      else s

def pump : TurnBaseStore := pumpFrom s.queue s

def outstanding : Int := if 0 < s.active ∨ s.queue ≠ [] then s.pendingBytes + 1 else 0

def wake : TurnBaseStore :=
  { s with waiters := s.waiters.filter fun waiter => waiter.limit < s.outstanding }

def below (limit : Nat) : TurnBaseStore :=
  wake { s with waiters := s.waiters ++ [⟨s.next, limit⟩], next := s.next + 1 }

def writable : TurnBaseStore :=
  if s.pendingBytes ≤ basePendingHighWater then s else s.below basePendingHighWater

def put (sha256 text : String) (bytes : Nat) : TurnBaseStore :=
  if maxBaseTextBytes < bytes then s
  else if (s.index.get sha256).isSome then s.touch sha256 bytes
  else if (s.pending.get sha256).isSome || (budget : Int) < s.pendingBytes + bytes then s
  else
    pump { s with
      pending := s.pending.set sha256 ⟨text, bytes⟩
      pendingBytes := s.pendingBytes + bytes
      queue := s.queue ++ [sha256] }

def scheduleSave : TurnBaseStore := { s with saveTimer := true }

def save : TurnBaseStore :=
  { s with
    dirty := false
    saves := s.saves ++ [⟨s.next, s.generation, s.index.entries, .tail⟩]
    next := s.next + 1 }

/-- What a write does at the end. -/
def finishWrite (i : Nat) (sha256 : String) : TurnBaseStore :=
  let s := { s with writes := s.writes.eraseIdx i, active := s.active - 1 }
  let s := match s.pending.get sha256 with
    | some held =>
        { s with pending := s.pending.delete sha256, pendingBytes := s.pendingBytes - held.bytes }
    | none => s
  s.pump.wake

/-- The entries of a saved index that are taken over. -/
def accept : List (String × Int) → TurnBaseStore → TurnBaseStore
  | [], s => s
  | (sha256, bytes) :: rest, s =>
      if isSha256Name sha256 ∧ 0 ≤ bytes ∧ bytes ≤ maxBaseTextBytes ∧ s.index.get sha256 = none then
        accept rest { s with index := s.index.set sha256 bytes.toNat, used := s.used + bytes }
      else accept rest s

/-- `clear` up to its first await. -/
def beginClear : TurnBaseStore :=
  { s with generation := s.generation + 1, saveTimer := false, queue := [] }

/-- `clear` once the index is loaded. -/
def forget : TurnBaseStore :=
  wake { s with
    index := .empty, pending := .empty, pendingBytes := 0, used := 0, dirty := false }

end TurnBaseStore

/-! ## The store at work -/

/-- What is on disk. -/
structure BaseFolder where
  texts : Record String
  saved : Option (List (String × Int))

def BaseFolder.new : BaseFolder := ⟨.empty, none⟩

inductive LoadStage where
  | index
  | list
  | sweep (names : List String)
  deriving DecidableEq, Repr

structure BaseGet where
  sha256 : String
  /-- The bytes in the index, once the text is read. -/
  reading : Option Nat
  deriving DecidableEq, Repr

inductive FlushStage where
  | below (waiter : Nat)
  | ready
  | saving (save : Nat)
  deriving DecidableEq, Repr

inductive ClearStage where
  | ready (writing : List Nat)
  | writing (writing : List Nat)
  | removals (removals : List Nat)
  | saveTail (save : Option Nat)
  | folder
  deriving DecidableEq, Repr

structure BaseClear where
  stage : ClearStage
  /-- Nothing was put since it began. -/
  noPut : Bool
  deriving DecidableEq, Repr

structure TurnBases where
  store : TurnBaseStore := {}
  folder : Option BaseFolder
  load : Option LoadStage := some .index
  gets : List BaseGet := []
  flushes : List FlushStage := []
  clears : List BaseClear := []
  /-- What the calls of `get` were answered. -/
  answers : List (String × Option String) := []
  /-- A `clear` has resolved, and nothing was put since it began. -/
  forgotten : Bool := false

inductive BaseAct where
  | put (sha256 text : String) (bytes : Nat)
  | has (sha256 : String)
  | writable
  | get (sha256 : String)
  | flush
  | clear
  /-- The next of these goes on, and whether what it awaits succeeded. -/
  | load (ok : Bool)
  | write (i : Nat) (ok : Bool)
  | removal (id : Nat) (ok : Bool)
  | read (i : Nat) (ok : Bool)
  | flushed (i : Nat)
  | cleared (i : Nat) (ok : Bool)
  | saved (ok : Bool)
  | timer
  | restart
  /-- A text on disk is changed. -/
  | change (sha256 text : String)
  deriving DecidableEq, Repr

namespace TurnBases

variable (digest : String → String) (budget : Nat) (w : TurnBases)

def new (folder : Option BaseFolder) : TurnBases := { folder }

def put (sha256 text : String) (bytes : Nat) : TurnBases :=
  { w with
    store := w.store.put budget sha256 text bytes
    clears := w.clears.map fun c => { c with noPut := false }
    forgotten := false }

def get (sha256 : String) : TurnBases :=
  match w.store.pending.get sha256 with
  | some held => { w with answers := w.answers ++ [(sha256, some held.text)] }
  | none => { w with gets := w.gets ++ [⟨sha256, none⟩] }

def flush : TurnBases :=
  { w with store := w.store.below 0, flushes := w.flushes ++ [.below w.store.next] }

def clear : TurnBases :=
  { w with
    store := w.store.beginClear
    clears := w.clears ++ [⟨.ready (w.store.writes.map BaseWrite.id), true⟩] }

/-! ### The load -/

def finishLoad : TurnBases :=
  { w with store := { w.store.evict budget with ready := true }, load := none }

/-- The texts that the index does not name are removed one after the other. -/
def sweep (names : List String) : TurnBases :=
  match names.dropWhile fun name => (w.store.index.get name).isSome with
  | [] => w.finishLoad budget
  | rest => { w with load := some (.sweep rest) }

def texts : Record String := (w.folder.getD .new).texts

def removeText (sha256 : String) : TurnBases :=
  { w with folder := w.folder.map fun f => { f with texts := f.texts.delete sha256 } }

def stepLoad (ok : Bool) : Option TurnBases :=
  match w.load with
  | none => none
  | some .index =>
      let entries := if ok then (w.folder.bind BaseFolder.saved).getD [] else []
      some { w with store := TurnBaseStore.accept entries w.store, load := some .list }
  | some .list =>
      some <|
        if ok ∧ w.folder.isSome then w.sweep budget (w.texts.names.filter (· ≠ baseIndexFile))
        else w.finishLoad budget
  | some (.sweep []) => some (w.finishLoad budget)
  | some (.sweep (name :: rest)) =>
      some <| if ok then (w.removeText name).sweep budget rest else w.finishLoad budget

/-! ### Writes -/

/-- The write goes on with what it awaits next. -/
def await (i : Nat) (t : BaseWrite) (stage : WriteStage) : TurnBases :=
  { w with store := { w.store with writes := w.store.writes.set i { t with stage } } }

/-- The text is written: it is in the index, if no `clear` came since the write began. -/
def written (i : Nat) (t : BaseWrite) (held : HeldText) : TurnBases :=
  let folder := (w.folder.getD .new)
  let w := { w with
    folder := some { folder with texts := folder.texts.set t.sha256 held.text } }
  if t.generation ≠ w.store.generation then w.await i t .undo
  else
    let s := w.store
    { w with
      store := ({ s with
        index := s.index.set t.sha256 held.bytes
        used := s.used + held.bytes
        dirty := true }.evict budget).scheduleSave }.await i t .settled

def stepWrite (i : Nat) (ok : Bool) : Option TurnBases :=
  match w.store.writes[i]? with
  | none => none
  | some t =>
      match t.stage, t.held with
      | .ready, _ =>
          if w.store.ready then
            some (w.await i t (.removal (w.store.removals.get t.sha256)))
          else none
      | .removal removal, held =>
          if ∃ id ∈ removal, id ∈ w.store.removing.map Prod.fst then none
          else
            match held with
            | none => some (w.await i t .settled)
            | some held =>
                if t.generation ≠ w.store.generation then some (w.await i t .settled)
                else if (w.store.index.get t.sha256).isSome then
                  some ({ w with store := w.store.touch t.sha256 held.bytes }.await i t .settled)
                else some (w.await i t .mkdir)
      | .mkdir, _ =>
          some <|
            if ok then { w with folder := some (w.folder.getD .new) }.await i t .file
            else w.await i t .settled
      | .file, some held =>
          some <| if ok ∧ w.folder.isSome then w.written budget i t held else w.await i t .settled
      | .file, none => some (w.await i t .settled)
      | .undo, _ =>
          some <|
            if ok then (w.removeText t.sha256).await i t .settled else w.await i t .settled
      | .settled, _ => some { w with store := w.store.finishWrite i t.sha256 }

def stepRemoval (id : Nat) (ok : Bool) : Option TurnBases :=
  match w.store.removing.find? fun removal => removal.1 = id with
  | none => none
  | some (_, sha256) =>
      let s := w.store
      let w := if ok then w.removeText sha256 else w
      some { w with
        store := { s with
          removing := s.removing.filter fun removal => removal.1 ≠ id
          removals :=
            if s.removals.get sha256 = some id then s.removals.delete sha256 else s.removals } }

/-! ### Calls under way -/

def answer (i : Nat) (sha256 : String) (text : Option String) : TurnBases :=
  { w with gets := w.gets.eraseIdx i, answers := w.answers ++ [(sha256, text)] }

def stepGet (i : Nat) (ok : Bool) : Option TurnBases :=
  match w.gets[i]? with
  | none => none
  | some ⟨sha256, none⟩ =>
      if w.store.ready then
        match w.store.index.get sha256 with
        | none => some (w.answer i sha256 none)
        | some bytes => some { w with gets := w.gets.set i ⟨sha256, some bytes⟩ }
      else none
  | some ⟨sha256, some bytes⟩ =>
      let s := w.store
      match (if ok then w.texts.get sha256 else none).filter fun text => digest text = sha256 with
      | some text =>
          let s := if (s.index.get sha256).isSome then s.touch sha256 bytes else s
          some ({ w with store := s }.answer i sha256 (some text))
      | none =>
          let s :=
            if s.index.get sha256 = some bytes then
              { s with index := s.index.delete sha256, used := s.used - bytes }
            else s
          some ({ w with store := s }.answer i sha256 none)

def stepFlush (i : Nat) : Option TurnBases :=
  match w.flushes[i]? with
  | none => none
  | some (.below waiter) =>
      if waiter ∈ w.store.waiters.map BaseWaiter.id then none
      else
        some { w with
          store := { w.store with saveTimer := false }, flushes := w.flushes.set i .ready }
  | some .ready =>
      if w.store.ready then
        if w.store.dirty then
          some { w with
            store := w.store.save, flushes := w.flushes.set i (.saving w.store.next) }
        else some { w with flushes := w.flushes.eraseIdx i }
      else none
  | some (.saving save) =>
      if save ∈ w.store.saves.map IndexSave.id then none
      else some { w with flushes := w.flushes.eraseIdx i }

def setClear (i : Nat) (c : BaseClear) (stage : ClearStage) : TurnBases :=
  { w with clears := w.clears.set i { c with stage } }

def stepClear (i : Nat) (ok : Bool) : Option TurnBases :=
  match w.clears[i]? with
  | none => none
  | some c =>
      match c.stage with
      | .ready writing =>
          if w.store.ready then
            some ({ w with store := w.store.forget }.setClear i c (.writing writing))
          else none
      | .writing writing =>
          if ∃ id ∈ writing, id ∈ w.store.writes.map BaseWrite.id then none
          else some (w.setClear i c (.removals (w.store.removals.entries.map Prod.snd)))
      | .removals removals =>
          if ∃ id ∈ removals, id ∈ w.store.removing.map Prod.fst then none
          else some (w.setClear i c (.saveTail (w.store.saves.getLast?.map IndexSave.id)))
      | .saveTail save =>
          if ∃ id ∈ save, id ∈ w.store.saves.map IndexSave.id then none
          else some (w.setClear i c .folder)
      | .folder =>
          let w := { w with clears := w.clears.eraseIdx i }
          some <|
            if ok then { w with folder := none, forgotten := w.forgotten || c.noPut } else w

def stepSave (ok : Bool) : Option TurnBases :=
  match w.store.saves with
  | [] => none
  | job :: rest =>
      let done := { w with store := { w.store with saves := rest } }
      let await (stage : SaveStage) :=
        { w with store := { w.store with saves := { job with stage } :: rest } }
      some <|
        match job.stage with
        | .tail => if job.generation ≠ w.store.generation then done else await .mkdir
        | .mkdir =>
            if ok then { await .file with folder := some (w.folder.getD .new) } else done
        | .file =>
            if ok then
              { done with
                folder := w.folder.map fun f =>
                  { f with saved := some (job.index.map fun (sha256, bytes) => (sha256, bytes)) } }
            else done

def restart : TurnBases :=
  { folder := w.folder, answers := w.answers, forgotten := w.forgotten }

def step : BaseAct → Option TurnBases
  | .put sha256 text bytes => some (w.put budget sha256 text bytes)
  | .has _ => some w
  | .writable => some { w with store := w.store.writable }
  | .get sha256 => some (w.get sha256)
  | .flush => some w.flush
  | .clear => some w.clear
  | .load ok => w.stepLoad budget ok
  | .write i ok => w.stepWrite budget i ok
  | .removal id ok => w.stepRemoval id ok
  | .read i ok => w.stepGet digest i ok
  | .flushed i => w.stepFlush i
  | .cleared i ok => w.stepClear i ok
  | .saved ok => w.stepSave ok
  | .timer =>
      if w.store.saveTimer then some { w with store := { w.store with saveTimer := false }.save }
      else none
  | .restart => some w.restart
  | .change sha256 text =>
      some { w with folder := w.folder.map fun f => { f with texts := f.texts.set sha256 text } }

end TurnBases

end OmniRush.Server
