import OmniRush.Uploader.Spool

/-!
# The accounts of spooled uploads

`currentAccount`, `spoolEntryOwned`, `runDrain` and `keepSpoolFor` of `session-uploader.ts`, and
what `uploadEnvelope` does when it spools. The account is asked for once and then known, until a
sign-out. An entry is stamped with the account, by the upload that spools it, by a drain or by the
sign-out, and a drain sends what is stamped with its account or with none.

What a call does between two awaits is one step. Operations of the spool run under its lock, one
after the other, each as one step (`Spool` has their file operations). A sign-out aborts the
uploads and the drain that were under way: their signals are of an earlier sign-out count. A drain
may pass over an entry that it could send, as one that waits out its backoff, and an entry may go
at any time.
-/

namespace OmniRush.Uploader

/-- `SIGNED_OUT_UNKNOWN_ACCOUNT`. -/
def signedOutUnknownAccount : String := "signed-out:unknown"

structure Account where
  id : String
  notMarker : id ≠ signedOutUnknownAccount
  deriving DecidableEq

/-- An entry of the spool, and the account that was signed in when its envelope was captured. -/
structure Spooled where
  record : SpoolMeta
  captured : Option Account
  deriving DecidableEq

def Spooled.stamped (e : Spooled) (id : String) : Spooled :=
  { e with record := { e.record with accountId := some id } }

/-- What a call of `currentAccount` waits for. -/
inductive Ask where
  | answer (account : Option Account)
  | lookup (number : Nat)
  deriving DecidableEq

/-- A call of the hook, and the accounts that have been signed in since. -/
structure Lookup where
  number : Nat
  seen : List Account
  deriving DecidableEq

/-- `uploadEnvelope`: before it takes the account's signal, while it sends, and when it asks for
the account to spool. -/
inductive Upload where
  | captured (entry : Spooled) (era : Nat)
  | sending (entry : Spooled) (signal : Nat)
  | asking (entry : Spooled) (signal : Nat) (ask : Ask)
  deriving DecidableEq

/-- An operation that waits for the spool's lock. -/
inductive Job where
  | list (signal : Nat)
  | spool (entry : Spooled) (signal : Nat)
  /-- The end of `spool`: the entry is this process's own. -/
  | own (id : Nat)
  | write (entry : Spooled)
  /-- `keepSpoolFor`, for the account that signed out, if it is known. -/
  | keep (account : Option Account) (known : Bool)
  deriving DecidableEq

def Job.isKeep : Job → Bool
  | .keep _ _ => true
  | _ => false

inductive DrainStage where
  | listing
  | listed (entries : List Spooled)
  | asking (entries : List Spooled) (ask : Ask)
  | going (account : Option Account) (entries : List Spooled)
  /-- `spoolEntryOwned` waits until its stamp is written. -/
  | stamping (account : Option Account) (entry : Spooled) (entries : List Spooled)
  | sending (account : Option Account) (entry : Spooled) (entries : List Spooled)
  deriving DecidableEq

structure Drain where
  signal : Nat
  stage : DrainStage
  deriving DecidableEq

structure Accounts where
  signedIn : Option Account := none
  /-- How many sign-outs there have been: `this.account` is of this count. -/
  signOuts : Nat := 0
  accountKnown : Option Account := none
  accountLookup : Option Nat := none
  lookups : List Lookup := []
  lookupCount : Nat := 0
  spool : List Spooled := []
  ownSpoolEntries : List Nat := []
  /-- `spoolTail`. -/
  queue : List Job := []
  uploads : List Upload := []
  drain : Option Drain := none
  deriving DecidableEq

namespace Accounts

variable (s : Accounts)

/-! ## The account -/

/-- `currentAccount`, up to its await. -/
def currentAccount : Accounts × Ask :=
  match s.accountKnown, s.accountLookup with
  | some account, _ => (s, .answer (some account))
  | none, some number => (s, .lookup number)
  | none, none =>
      ({ s with
        accountLookup := some s.lookupCount
        lookups := ⟨s.lookupCount, s.signedIn.toList⟩ :: s.lookups
        lookupCount := s.lookupCount + 1 }, .lookup s.lookupCount)

def Ask.resolve (number : Nat) (account : Option Account) (ask : Ask) : Ask :=
  if ask = .lookup number then .answer account else ask

def Upload.resolve (number : Nat) (account : Option Account) : Upload → Upload
  | .asking entry signal ask => .asking entry signal (Ask.resolve number account ask)
  | upload => upload

def Drain.resolve (number : Nat) (account : Option Account) (drain : Drain) : Drain :=
  match drain.stage with
  | .asking entries ask => { drain with stage := .asking entries (Ask.resolve number account ask) }
  | _ => drain

/-- The hook's answer. The lookup ends with the account that is known then, and what waits for it
gets that. -/
def answered (number : Nat) (id : Option Account) : Accounts :=
  let known := id.or s.accountKnown
  { s with
    accountKnown := known
    accountLookup := none
    lookups := s.lookups.filter (·.number ≠ number)
    uploads := s.uploads.map (Upload.resolve number known)
    drain := s.drain.map (Drain.resolve number known) }

/-! ## Sign-outs -/

/-- `keepSpoolFor`, up to the spool's lock. -/
def keepSpoolFor (known : Bool) : Accounts :=
  { s with
    signedIn := none
    signOuts := s.signOuts + 1
    accountKnown := none
    accountLookup := none
    ownSpoolEntries := []
    queue := s.queue ++ [.keep s.signedIn known] }

/-- What a sign-out stamps an entry with. -/
def keepStamp (account : Option Account) (known : Bool) : String :=
  if known then (account.map (·.id)).getD signedOutUnknownAccount else signedOutUnknownAccount

def keep (stamp : String) (e : Spooled) : Spooled :=
  if e.record.accountId.isSome then e else e.stamped stamp

/-! ## The lock -/

/-- `writeSpoolMeta`, of an entry that is there. -/
def writeSpoolMeta (entry : Spooled) : Accounts :=
  { s with spool := s.spool.map fun e => if e.record.id = entry.record.id then entry else e }

/-- The listing comes to the drain that waits for it. -/
def listed (signal : Nat) : Option Drain → Option Drain
  | some ⟨of, .listing⟩ =>
      if of = signal then some ⟨of, .listed s.spool⟩ else some ⟨of, .listing⟩
  | drain => drain

/-- The next operation under the lock. -/
def run : Option Accounts :=
  match s.queue with
  | [] => none
  | .list signal :: queue => some { s with queue, drain := s.listed signal s.drain }
  | .spool entry signal :: queue =>
      if signal = s.signOuts then
        some { s with queue := .own entry.record.id :: queue, spool := s.spool ++ [entry] }
      else some { s with queue }
  | .own id :: queue => some { s with queue, ownSpoolEntries := id :: s.ownSpoolEntries }
  | .write entry :: queue => some { s.writeSpoolMeta entry with queue }
  | .keep account known :: queue =>
      some { s with queue, spool := s.spool.map (keep (keepStamp account known)) }

/-! ## Uploads -/

def setUpload (old : Upload) (new : List Upload) : Accounts :=
  { s with uploads := new ++ s.uploads.erase old }

/-- `spoolArtifact`, up to its first await. -/
def spoolArtifact (entry : Spooled) (signal : Nat) : Accounts :=
  let (asked, ask) := s.currentAccount
  asked.setUpload (.sending entry signal) [.asking entry signal ask]

/-- The account that an upload asked for goes into its record. -/
def spoolEnvelopeFile (entry : Spooled) (signal : Nat) (account : Option Account) : Accounts :=
  let record := { entry.record with accountId := account.map (·.id) }
  let s := s.setUpload (.asking entry signal (.answer account)) []
  { s with queue := s.queue ++ [.spool { entry with record } signal] }

/-! ## Drains -/

def atStage (signal : Nat) (stage : DrainStage) : Accounts :=
  { s with drain := some ⟨signal, stage⟩ }

/-- `spoolEntryOwned`, and where the drain goes from it. -/
def spoolEntryOwned (signal : Nat) (account : Option Account) (entry : Spooled)
    (entries : List Spooled) : Accounts :=
  match entry.record.accountId, account with
  | some id, _ =>
      if some id = account.map (·.id) then s.atStage signal (.sending account entry entries)
      else s.atStage signal (.going account entries)
  | none, none =>
      if entry.record.id ∈ s.ownSpoolEntries then s.atStage signal (.sending account entry entries)
      else s.atStage signal (.going account entries)
  | none, some a =>
      { s.atStage signal (.stamping account (entry.stamped a.id) entries) with
        queue := s.queue ++ [.write (entry.stamped a.id)] }

end Accounts

inductive AccountAct where
  | signIn (account : Account)
  | signOut (known : Bool)
  | answer (number : Nat) (id : Option Account)
  /-- A new process. -/
  | restart
  | run
  /-- An entry goes: delivered, refused, too old, damaged or over the bounds. -/
  | remove (id : Nat)
  | capture (record : SpoolMeta)
  | takeSignal (entry : Spooled) (era : Nat)
  /-- The upload ends without the spool. -/
  | finish (upload : Upload)
  | spoolArtifact (entry : Spooled) (signal : Nat)
  | spoolEnvelopeFile (entry : Spooled) (signal : Nat) (account : Option Account)
  | startDrain
  | askDrain
  | resumeDrain
  | skip
  | own
  | stampWritten
  /-- A request with the entry's envelope. -/
  | send
  /-- The server has it, or refuses it for good. -/
  | sent
  | failed (attempts : Nat) (lastAttemptAt : String) (notBefore : Option String)
  | endDrain
  deriving DecidableEq

namespace Accounts

def stepDrain (s : Accounts) (drain : Drain) : AccountAct → Option Accounts
  | .askDrain =>
      match drain.stage with
      | .listed entries =>
          let (asked, ask) := s.currentAccount
          some (asked.atStage drain.signal (.asking entries ask))
      | _ => none
  | .resumeDrain =>
      match drain.stage with
      | .asking entries (.answer account) => some (s.atStage drain.signal (.going account entries))
      | _ => none
  | .skip =>
      match drain.stage with
      | .going account (_ :: entries) => some (s.atStage drain.signal (.going account entries))
      | _ => none
  | .own =>
      match drain.stage with
      | .going account (entry :: entries) =>
          if drain.signal = s.signOuts then
            some (s.spoolEntryOwned drain.signal account entry entries)
          else none
      | _ => none
  | .stampWritten =>
      match drain.stage with
      | .stamping account entry entries =>
          if .write entry ∈ s.queue then none
          else some (s.atStage drain.signal (.sending account entry entries))
      | _ => none
  | .send =>
      match drain.stage with
      | .sending _ _ _ => if drain.signal = s.signOuts then some s else none
      | _ => none
  | .sent =>
      match drain.stage with
      | .sending account entry entries =>
          some { s.atStage drain.signal (.going account entries) with
            ownSpoolEntries := s.ownSpoolEntries.filter (· ≠ entry.record.id) }
      | _ => none
  | .failed attempts lastAttemptAt notBefore =>
      match drain.stage with
      | .sending account entry entries =>
          -- Nothing is noted after a sign-out.
          if drain.signal = s.signOuts then
            let record := { entry.record with
              attempts, lastAttemptAt := some lastAttemptAt, notBefore }
            some { s.atStage drain.signal (.going account entries) with
              queue := s.queue ++ [.write { entry with record }] }
          else none
      | _ => none
  | .endDrain => if drain.stage = .listing then none else some { s with drain := none }
  | _ => none

def step (s : Accounts) : AccountAct → Option Accounts
  | .signIn account =>
      if s.signedIn = none then
        some { s with
          signedIn := some account
          lookups := s.lookups.map fun l => { l with seen := account :: l.seen } }
      else none
  | .signOut known => some (s.keepSpoolFor known)
  | .answer number id =>
      if ∃ l ∈ s.lookups, l.number = number ∧ ∀ account ∈ id, account ∈ l.seen then
        some (s.answered number id)
      else none
  | .restart => some { signedIn := s.signedIn, signOuts := s.signOuts, spool := s.spool }
  | .run => s.run
  | .remove id => some { s with spool := s.spool.filter (·.record.id ≠ id) }
  | .capture record =>
      if record.accountId = none then
        some { s with uploads := .captured ⟨record, s.signedIn⟩ s.signOuts :: s.uploads }
      else none
  | .takeSignal entry era =>
      if .captured entry era ∈ s.uploads then
        some (s.setUpload (.captured entry era) [.sending entry s.signOuts])
      else none
  | .finish upload => if upload ∈ s.uploads then some (s.setUpload upload []) else none
  | .spoolArtifact entry signal =>
      if .sending entry signal ∈ s.uploads then some (s.spoolArtifact entry signal) else none
  | .spoolEnvelopeFile entry signal account =>
      if .asking entry signal (.answer account) ∈ s.uploads then
        some (s.spoolEnvelopeFile entry signal account)
      else none
  | .startDrain =>
      if s.drain = none then
        some { s.atStage s.signOuts .listing with queue := s.queue ++ [.list s.signOuts] }
      else none
  | act => s.drain.bind fun drain => s.stepDrain drain act

end Accounts

end OmniRush.Uploader
