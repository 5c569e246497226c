import Mathlib.Data.List.Infix
import OmniRush.Lib.Json
import OmniRush.Lib.Utf16

/-!
# What a person approved on a thread, and what is answered for them

`thread-approvals.ts`. The replayer follows the engine's event stream. An "always" reply
is remembered for the thread it was given on, and a later ask of that thread which a
remembered grant covers is answered with "always" for the person. The engine tells the
replayer of its own answers the way it tells of a person's.

An event is the payload of a frame together with what the environment decides: the
workspace the engine's directory belongs to at that time. Who gave a reply is not in the
payload; `byReplayer` is for the statements and nothing in the code looks at it. The
answers sent and the grants persons gave are kept in two logs, also for the statements.

The frames are handled one after the other. What is remembered is stored as it is given
and read back as it was stored, since no grant holds what the store's parser drops.
-/

namespace OmniRush.Approvals

structure ThreadApprovalGrant where
  permission : String
  patterns : List String
deriving DecidableEq

/-! ## Patterns -/

/-- What the pattern's expression matches: `*` any run of units, `?` any one. `fold` is how
units are compared, which is without case on Windows. -/
def matchesUnits (fold : Nat → Nat) : List Nat → List Nat → Bool
  | [], text => text = []
  | u :: pattern, text =>
      if u = 0x2a then text.tails.any (matchesUnits fold pattern)
      else
        match text with
        | [] => false
        | v :: text => (u = 0x3f || fold u = fold v) && matchesUnits fold pattern text

/-- The units of a text, with slashes for backslashes. -/
def slashed (text : String) : List Nat :=
  (utf16 text.toList).map fun u => if u = 0x5c then 0x2f else u

/-- A ` *` at the end may also be missing. -/
def matchesPermissionPattern (fold : Nat → Nat) (input pattern : String) : Bool :=
  let units := slashed pattern
  matchesUnits fold units (slashed input) ||
    (units.drop (units.length - 2) = [0x20, 0x2a] &&
      matchesUnits fold (units.take (units.length - 2)) (slashed input))

/-- Every requested pattern is matched by one of the granted patterns. -/
def grantCovers (fold : Nat → Nat) (grant : ThreadApprovalGrant) (permission : String)
    (patterns : List String) : Bool :=
  matchesPermissionPattern fold permission grant.permission && patterns ≠ [] &&
    patterns.all fun pattern =>
      grant.patterns.any fun granted => matchesPermissionPattern fold pattern granted

/-! ## The state -/

structure PendingAsk where
  directory : String
  sessionId : String
  permission : String
  patterns : List String
  always : List String
deriving DecidableEq

/-- An ask that was answered: where, and what its `patterns` were as they came. -/
structure Answer where
  workspaceId : String
  sessionId : String
  requestId : String
  permission : String
  requested : List Json

/-- A grant with the thread it belongs to. -/
structure Given where
  workspaceId : String
  sessionId : String
  grant : ThreadApprovalGrant
deriving DecidableEq

structure Replayer where
  pending : List (String × PendingAsk)
  /-- The grants of each workspace and session. -/
  store : String → String → List ThreadApprovalGrant
  answers : List Answer
  /-- The grants that replies of a person gave. -/
  given : List Given

def Replayer.start : Replayer := ⟨[], fun _ _ => [], [], []⟩

inductive ReplayEvent where
  /-- A frame's payload, with the workspace its directory (for a reply, its ask's) is in. -/
  | frame (payload : Json) (workspaceId : Option String) (byReplayer : Bool)
  /-- The stream ended; another is followed. -/
  | reconnect

/-! ## Reading an event -/

def fieldOf (fields : List (String × Json)) (name : String) : Option Json := Json.field fields name

/-- A field that holds a text, else the empty text. -/
def textField (fields : List (String × Json)) (name : String) : String :=
  match fieldOf fields name with
  | some (.str text) => text
  | _ => ""

def itemsOf : Option Json → List Json
  | some (.arr items) => items
  | _ => []

/-- The texts of an array that are not empty. -/
def stringList (value : Option Json) : List String :=
  (itemsOf value).filterMap fun
    | .str text => if text = "" then none else some text
    | _ => none

def askOf (directory : String) (properties : List (String × Json)) : PendingAsk where
  directory := directory
  sessionId := textField properties "sessionID"
  permission := textField properties "permission"
  patterns := stringList (fieldOf properties "patterns")
  always := stringList (fieldOf properties "always")

/-! ## The handlers -/

namespace Replayer

def setPending (s : Replayer) (requestId : String) (ask : PendingAsk) : Replayer :=
  { s with pending := (requestId, ask) :: s.pending.filter (·.1 ≠ requestId) }

def deletePending (s : Replayer) (requestId : String) : Replayer :=
  { s with pending := s.pending.filter (·.1 ≠ requestId) }

def pendingAsk (s : Replayer) (requestId : String) : Option PendingAsk :=
  (s.pending.find? (·.1 = requestId)).map Prod.snd

def rememberThreadApproval (s : Replayer) (workspaceId sessionId : String)
    (grant : ThreadApprovalGrant) : Replayer :=
  if grant.patterns = [] then s
  else if grant ∈ s.store workspaceId sessionId then s
  else { s with
    store := fun w t =>
      if w = workspaceId ∧ t = sessionId then s.store w t ++ [grant] else s.store w t }

/-- The answer is sent whether or not the engine takes it. -/
def onAsked (fold : Nat → Nat) (s : Replayer) (directory : String)
    (properties : List (String × Json)) (workspaceId : Option String) : Replayer :=
  let requestId := textField properties "id"
  let ask := askOf directory properties
  if requestId = "" ∨ ask.sessionId = "" ∨ ask.permission = "" then s
  else
    let s := s.setPending requestId ask
    match workspaceId with
    | none => s
    | some workspaceId =>
        if (s.store workspaceId ask.sessionId).any
            fun grant => grantCovers fold grant ask.permission ask.patterns then
          { s with answers := s.answers ++ [{
              workspaceId
              sessionId := ask.sessionId
              requestId
              permission := ask.permission
              requested := itemsOf (fieldOf properties "patterns") }] }
        else s

/-- The grant a reply to an ask leaves. -/
def grantOf (ask : PendingAsk) : ThreadApprovalGrant :=
  ⟨ask.permission, if ask.always = [] then ask.patterns else ask.always⟩

/-- A person's grant is logged, whoever's it is it is remembered. -/
def onReplied (s : Replayer) (properties : List (String × Json)) (workspaceId : Option String)
    (byReplayer : Bool) : Replayer :=
  let requestId := textField properties "requestID"
  match s.pendingAsk requestId with
  | none => s
  | some ask =>
      let s := s.deletePending requestId
      if textField properties "reply" ≠ "always" then s
      else
        match workspaceId with
        | none => s
        | some workspaceId =>
            let s := s.rememberThreadApproval workspaceId ask.sessionId (grantOf ask)
            if byReplayer then s
            else { s with given := s.given ++ [⟨workspaceId, ask.sessionId, grantOf ask⟩] }

def handleFrame (fold : Nat → Nat) (s : Replayer) (payload : Json) (workspaceId : Option String)
    (byReplayer : Bool) : Replayer :=
  match payload with
  | .obj fields =>
      match fieldOf fields "directory", fieldOf fields "payload" with
      | some (.str directory), some (.obj event) =>
          let properties := match fieldOf event "properties" with
            | some (.obj properties) => properties
            | _ => []
          if textField event "type" = "permission.asked" then
            s.onAsked fold directory properties workspaceId
          else if textField event "type" = "permission.replied" then
            s.onReplied properties workspaceId byReplayer
          else s
      | _, _ => s
  | _ => s

def step (fold : Nat → Nat) (s : Replayer) : ReplayEvent → Replayer
  | .frame payload workspaceId byReplayer => s.handleFrame fold payload workspaceId byReplayer
  | .reconnect => { s with pending := [] }

end Replayer

end OmniRush.Approvals
