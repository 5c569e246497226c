import OmniRush.Lib.Machine
import OmniRush.Lib.Record
import OmniRush.Approvals.Replayer

/-!
# The approvals of a workspace in the store

`rememberThreadApproval` and `forgetThreadApprovals` of `thread-approvals.ts`, for one workspace.
All sessions are in one row. A call reads the row, and may write it later as it was with its own
change; a read and a write are each at once, and other calls come between.

A row is the record its text parses to. Of a name that the row has not, JavaScript may still find
a property that every object inherits.
-/

namespace OmniRush.Approvals

abbrev Sessions := Record (List ThreadApprovalGrant)

/-- `parseGrants`, for one grant: without empty patterns, and not without any. -/
def parseGrant (grant : ThreadApprovalGrant) : Option ThreadApprovalGrant :=
  let patterns := grant.patterns.filter (· ≠ "")
  if patterns = [] then none else some ⟨grant.permission, patterns⟩

def parseGrants (grants : List ThreadApprovalGrant) : List ThreadApprovalGrant :=
  grants.filterMap parseGrant

/-- `parseWorkspaceThreadApprovals`. -/
def parseSessions (sessions : Sessions) : Sessions where
  entries := sessions.entries.map fun (id, grants) => (id, parseGrants grants)
  distinct := by
    rw [List.map_map]
    exact sessions.distinct

/-- The names of `Object.prototype`. -/
def inheritedNames : List String :=
  ["__defineGetter__", "__defineSetter__", "__lookupGetter__", "__lookupSetter__", "__proto__",
    "constructor", "hasOwnProperty", "isPrototypeOf", "propertyIsEnumerable", "toLocaleString",
    "toString", "valueOf"]

/-- `sessions[sessionId]`. -/
inductive HeldGrants where
  | grants (grants : List ThreadApprovalGrant)
  | inherited
  | absent

def heldGrants (sessions : Sessions) (sessionId : String) : HeldGrants :=
  match sessions.get sessionId with
  | some grants => .grants grants
  | none => if sessionId ∈ inheritedNames then .inherited else .absent

/-- `listThreadApprovals`. -/
def listThreadApprovals (row : Option Sessions) (sessionId : String) : List ThreadApprovalGrant :=
  ((row.map parseSessions).bind fun sessions => sessions.get sessionId).getD []

/-! ## Calls -/

inductive ApprovalRequest where
  | remember (sessionId : String) (grant : ThreadApprovalGrant)
  | forget (sessionId : String)
  deriving DecidableEq

/-- What a call does once it has read. -/
inductive Outcome where
  | settled
  /-- It looked for grants in something that is no list. -/
  | thrown
  | write (sessions : Sessions)

/-- `rememberThreadApproval`, from its read on. -/
def rememberThreadApproval (stored : Option Sessions) (sessionId : String)
    (grant : ThreadApprovalGrant) : Outcome :=
  let sessions := (stored.map parseSessions).getD .empty
  match heldGrants sessions sessionId with
  | .inherited => .thrown
  | .absent => .write (sessions.set sessionId [grant])
  | .grants current =>
      if grant ∈ current then .settled else .write (sessions.set sessionId (current ++ [grant]))

/-- `forgetThreadApprovals`, from its read on. -/
def forgetThreadApprovals (stored : Option Sessions) (sessionId : String) : Outcome :=
  match stored.map parseSessions with
  | none => .settled
  | some sessions =>
      match heldGrants sessions sessionId with
      | .absent => .settled
      | _ => .write (sessions.delete sessionId)

def ApprovalRequest.outcome (stored : Option Sessions) : ApprovalRequest → Outcome
  | .remember sessionId grant => rememberThreadApproval stored sessionId grant
  | .forget sessionId => forgetThreadApprovals stored sessionId

/-- A call under way. Once it has read, it keeps the row it found and what it is going to write. -/
structure ApprovalCall where
  request : ApprovalRequest
  writing : Option (Option Sessions × Sessions)

structure ApprovalStore where
  row : Option Sessions
  calls : List ApprovalCall
  /-- The sessions of the remembers that have settled, each with its grant. -/
  remembered : List (String × ThreadApprovalGrant)
  /-- The sessions for which a forget was called. -/
  forgotten : List String
  /-- Those for which it was called when every remember of the session had settled. -/
  cleared : List String

namespace ApprovalStore

variable (w : ApprovalStore)

/-- A call that has settled, whether it was rejected or not. -/
def settle (request : ApprovalRequest) : ApprovalStore :=
  match request with
  | .remember sessionId grant => { w with remembered := w.remembered ++ [(sessionId, grant)] }
  | .forget _ => w

def remembers (sessionId : String) (call : ApprovalCall) : Bool :=
  match call.request with
  | .remember id _ => id = sessionId
  | .forget _ => false

/-- A remember of a grant without patterns settles without a read. -/
def call : ApprovalRequest → ApprovalStore
  | .remember sessionId grant =>
      let w := { w with cleared := w.cleared.filter (· ≠ sessionId) }
      if grant.patterns = [] then w.settle (.remember sessionId grant)
      else { w with calls := w.calls ++ [⟨.remember sessionId grant, none⟩] }
  | .forget sessionId =>
      { w with
        calls := w.calls ++ [⟨.forget sessionId, none⟩]
        forgotten := w.forgotten ++ [sessionId]
        cleared :=
          if w.calls.any (remembers sessionId) then w.cleared else w.cleared ++ [sessionId] }

def get (i : Nat) : Option ApprovalStore :=
  match w.calls[i]? with
  | some ⟨request, none⟩ =>
      some <|
        match request.outcome w.row with
        | .settled | .thrown => { w with calls := w.calls.eraseIdx i }.settle request
        | .write sessions => { w with calls := w.calls.set i ⟨request, some (w.row, sessions)⟩ }
  | _ => none

def set (i : Nat) : Option ApprovalStore :=
  match w.calls[i]? with
  | some ⟨request, some (_, sessions)⟩ =>
      some ({ w with row := some sessions, calls := w.calls.eraseIdx i }.settle request)
  | _ => none

end ApprovalStore

inductive ApprovalAct where
  | call (request : ApprovalRequest)
  | get (i : Nat)
  | set (i : Nat)
  deriving DecidableEq

def ApprovalStore.step (w : ApprovalStore) : ApprovalAct → Option ApprovalStore
  | .call request => some (w.call request)
  | .get i => w.get i
  | .set i => w.set i

end OmniRush.Approvals
