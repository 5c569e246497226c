import OmniRush.Lib.Machine
import Mathlib.Data.List.Basic

/-!
# The format of uploads

`upload-format.ts`, for one server: whether uploads go out as schema 2 or 3. What the server
advertises is remembered in a file, which can fail to be read or written, and a refusal by the
server forgets it. A check runs on while calls come and go; what it does after its answer, after
that and at its end are steps of their own.

For the statements, refusals are counted: a check and a call have the number there were when they
began.
-/

namespace OmniRush.Uploader

inductive UploadSchema where
  | two
  | three
  deriving DecidableEq, Repr

def rememberMs : Int := 7 * 24 * 60 * 60 * 1000

def recheckMs : Int := 5 * 60 * 1000

def retryMs : Int := 30 * 1000

/-- What a check comes to. -/
inductive FormatAnswer where
  | advertised
  | plain
  /-- A 404. -/
  | missing
  | failed
  deriving DecidableEq, Repr

inductive CheckStage where
  | probing
  | decided (version : UploadSchema) (recheck : Int)
  | settled (version : UploadSchema)
  deriving DecidableEq, Repr

structure Check where
  id : Nat
  generation : Nat
  stage : CheckStage
  /-- The refusals before it began. -/
  started : Nat
  /-- The calls that wait for it, each as the refusals before it. -/
  calls : List Nat
  deriving DecidableEq, Repr

structure FormatCache where
  version : UploadSchema
  untilMs : Int
  deriving DecidableEq, Repr

/-- What a call was answered, and whether a refusal before it stood: no check that was started
after the refusal had answered with schema 3. -/
structure Resolved where
  version : UploadSchema
  stands : Bool
  deriving DecidableEq, Repr

structure UploadFormat where
  /-- There is a file; else what is remembered is in memory only. -/
  file : Bool
  /-- There is a way to ask the server. -/
  probe : Bool
  now : Int := 0
  cache : Option FormatCache := none
  pending : Option Nat := none
  generation : Nat := 0
  /-- When the server's schema 3 was confirmed. -/
  memory : Option Int := none
  disk : Option Int
  refused : Bool := false
  checks : List Check := []
  next : Nat := 0
  refusals : Nat := 0
  /-- The refusals before the latest of the checks that answered with schema 3. -/
  advertised : Nat := 0
  resolved : List Resolved := []
  deriving DecidableEq, Repr

namespace UploadFormat

variable (w : UploadFormat)

/-! ## What is remembered -/

/-- `read`: the file, if it can be read, else what this process saw last. -/
def read (io : Bool) : UploadFormat :=
  if w.file && io then { w with memory := w.disk } else w

def write (io : Bool) (stored : Option Int) : UploadFormat :=
  { w with memory := stored, disk := if w.file && io then stored else w.disk }

/-- `remembers`, after a `read`. -/
def remembers : Bool := w.memory.any fun confirmedAt => w.now - confirmedAt < rememberMs

def remember (io : Bool) : UploadFormat :=
  let w := w.read io
  if w.memory.any fun confirmedAt => w.now - confirmedAt < 60000 then w
  else w.write io (some w.now)

/-! ## Calls -/

def resolve (call : Nat) (version : UploadSchema) : UploadFormat :=
  { w with resolved := w.resolved ++ [⟨version, w.advertised < call⟩] }

/-- A new check, and the call that waits for it. -/
def startCheck : UploadFormat :=
  { w with
    checks := w.checks ++ [⟨w.next, w.generation,
      if w.probe then .probing else .decided .two recheckMs, w.refusals, [w.refusals]⟩]
    pending := some w.next
    next := w.next + 1 }

/-- The call waits for the check that is pending. -/
def join (id : Nat) : UploadFormat :=
  { w with checks := w.checks.map fun check =>
      if check.id = id then { check with calls := check.calls ++ [w.refusals] } else check }

def version (force : Bool) : UploadFormat :=
  match if force then none else w.cache.filter fun cache => w.now < cache.untilMs with
  | some cache => w.resolve w.refusals cache.version
  | none =>
      match w.pending with
      | some id => w.join id
      | none => w.startCheck

def unsupported (io : Bool) : UploadFormat :=
  let w := { w with
    generation := w.generation + 1, pending := none
    cache := some ⟨.two, w.now + recheckMs⟩, refused := true, refusals := w.refusals + 1 }
  let w := w.read io
  if w.memory = none then w else w.write io none

def reset : UploadFormat :=
  { w with generation := w.generation + 1, cache := none, pending := none }

/-! ## Checks -/

def setStage (i : Nat) (check : Check) (stage : CheckStage) : UploadFormat :=
  { w with checks := w.checks.set i { check with stage } }

/-- `decide`, from the answer on. -/
def decided (answer : FormatAnswer) (io : Bool) (started : Nat) :
    UploadFormat × UploadSchema × Int :=
  match answer with
  | .advertised =>
      ({ w with refused := false, advertised := max w.advertised started }.remember io,
        .three, recheckMs)
  | .failed =>
      let w := w.read io
      (w, if w.remembers || !w.refused then .three else .two, retryMs)
  | _ =>
      let w := w.read io
      (w, if w.remembers then .three else .two, recheckMs)

def answer (i : Nat) (answer : FormatAnswer) (io : Bool) : Option UploadFormat :=
  match w.checks[i]? with
  | none => none
  | some check =>
      match check.stage with
      | .probing =>
          let (after, version, recheck) := w.decided answer io check.started
          some (after.setStage i check (.decided version recheck))
      | _ => none

/-- The decision is kept, if nothing came between. -/
def settle (i : Nat) : Option UploadFormat :=
  match w.checks[i]? with
  | none => none
  | some check =>
      match check.stage with
      | .decided version recheck =>
          let cache :=
            if check.generation = w.generation then some ⟨version, w.now + recheck⟩ else w.cache
          some ({ w with cache }.setStage i check (.settled version))
      | _ => none

/-- The check is done, and the calls that waited for it are answered. -/
def finish (i : Nat) : Option UploadFormat :=
  match w.checks[i]? with
  | none => none
  | some check =>
      match check.stage with
      | .settled version =>
          let w := { w with
            checks := w.checks.eraseIdx i
            pending := if w.pending = some check.id then none else w.pending }
          some (check.calls.foldl (fun w call => w.resolve call version) w)
      | _ => none

end UploadFormat

inductive FormatAct where
  | version (force : Bool)
  /-- `io`: whether the file can be read and written. -/
  | unsupported (io : Bool)
  | reset
  | answer (i : Nat) (answer : FormatAnswer) (io : Bool)
  | settle (i : Nat)
  | finish (i : Nat)
  | tick (ms : Nat)
  deriving DecidableEq, Repr

def UploadFormat.step (w : UploadFormat) : FormatAct → Option UploadFormat
  | .version force => some (w.version force)
  | .unsupported io => some (w.unsupported io)
  | .reset => some w.reset
  | .answer i answer io => w.answer i answer io
  | .settle i => w.settle i
  | .finish i => w.finish i
  | .tick ms => some { w with now := w.now + ms }

end OmniRush.Uploader
