/-!
# Which prompts open a turn

`turn-prompts.ts`, and `turnSpan` of `lifecycle.ts`. A turn is a prompt someone sent and
everything done for it. A prompt that was sent while the agent was still at work on the turn
before is a steer and opens none; neither does a message of the engine's own.

A message is what these functions read of it: `info` and `parts` as the engine sends them.
Times are milliseconds; a time given as text is the instant it parses to, if it does.
-/

namespace OmniRush.Archive

/-- A time as it stands in a message. -/
inductive Stamp where
  | number (ms : Int)
  | text (parsed : Option Int)
  deriving DecidableEq, Repr

/-- `info.time`. -/
structure MessageTimes where
  created : Option Stamp := none
  completed : Option Stamp := none
  deriving DecidableEq, Repr

structure MessagePart where
  type : String
  synthetic : Bool := false
  deriving DecidableEq, Repr

structure Message where
  id : Option String := none
  role : Option String := none
  type : Option String := none
  agent : Option String := none
  mode : Option String := none
  summary : Bool := false
  time : Option MessageTimes := none
  createdAt : Option Stamp := none
  completedAt : Option Stamp := none
  finish : Option String := none
  error : Option String := none
  parts : List MessagePart := []
  deriving DecidableEq, Repr

/-- How a message is named in a set of prompts: by its id, or by its position. -/
inductive MessageKey where
  | id (id : String)
  | index (index : Nat)
  deriving DecidableEq, Repr

namespace Message

def timeMs : Stamp → Option Int
  | .number ms => some ms
  | .text parsed => parsed

def createdMs (m : Message) : Option Int :=
  match m.time with
  | some time => time.created.bind timeMs
  | none => m.createdAt.bind timeMs

def completedMs (m : Message) : Option Int :=
  match m.time with
  | some time => time.completed.bind timeMs
  | none => m.completedAt.bind timeMs

def roleOf (m : Message) : Option String := m.role <|> m.type

/-- The engine at work on the chat, not the agent on a turn. -/
def isCompactionSummary (m : Message) : Bool :=
  m.summary || m.mode = some "compaction" || m.agent = some "compaction"

def isContent (p : MessagePart) : Bool :=
  p.type = "text" || p.type = "file" || p.type = "agent" || p.type = "subtask"

/-- A prompt someone sent: not a compaction's request and not synthetic text alone. -/
def isPromptMessage (m : Message) : Bool :=
  let content := m.parts.filter isContent
  m.roleOf = some "user" && m.agent ≠ some "compaction" &&
    !m.parts.any (fun p => p.type = "compaction") &&
    !(!content.isEmpty && content.all fun p => p.type = "text" && p.synthetic)

def isAssistant (m : Message) : Bool := m.roleOf = some "assistant"

def isEnded (m : Message) : Bool :=
  m.completedMs.isSome || m.finish.isSome || m.error.isSome ||
    m.parts.any fun p => p.type = "step-finish" || p.type = "finish" || p.type = "error"

def key (m : Message) (index : Nat) : MessageKey :=
  match m.id with
  | some id => .id id
  | none => .index index

/-- An answer that ended: what completes a turn. -/
def answers (m : Message) : Bool := m.isAssistant && !m.isCompactionSummary && m.isEnded

end Message

/-! ## Steers -/

def steerGapMs : Int := 2000

/-- What `steerPrompts` carries from message to message. -/
structure SteerScan where
  opened : Bool := false
  /-- The latest end of an answer so far. -/
  busyUntil : Option Int := none
  /-- The last answer: when it ended, and whether it asked for more steps. -/
  lastStep : Option (Option Int × Bool) := none
  deriving DecidableEq, Repr

namespace SteerScan

/-- A prompt sent at some time is a steer. -/
def steersAt (s : SteerScan) (sent : Int) : Bool :=
  s.busyUntil.any (sent < ·) || s.lastStep.any fun step =>
    step.2 && step.1.any fun completed => sent - completed ≤ steerGapMs

def steers (s : SteerScan) (m : Message) : Bool :=
  m.isPromptMessage && s.opened && m.createdMs.any s.steersAt

def next (s : SteerScan) (m : Message) : SteerScan :=
  if m.isAssistant then
    if m.isCompactionSummary then s
    else
      { s with
        busyUntil := match s.busyUntil, m.completedMs with
          | some busy, some completed => some (max busy completed)
          | none, completed => completed
          | busy, none => busy
        lastStep := some (m.completedMs,
          m.error.isNone && (m.finish = some "tool-calls" || m.finish = some "unknown")) }
  else if m.isPromptMessage then { s with opened := true }
  else s

/-- The loop of `steerPrompts` from a position on. -/
def collect (s : SteerScan) (index : Nat) : List Message → List MessageKey
  | [] => []
  | m :: messages =>
      if s.steers m then m.key index :: (s.next m).collect (index + 1) messages
      else (s.next m).collect (index + 1) messages

end SteerScan

def steerPrompts (messages : List Message) : List MessageKey :=
  SteerScan.collect {} 0 messages

/-- Whether a message opens a turn: a prompt, not a steer. -/
def opensTurn (m : Message) (index : Nat) (steers : List MessageKey) : Bool :=
  m.isPromptMessage && !steers.contains (m.key index)

/-! ## Counting turns -/

/-- The loop of `completedTurnCount`. -/
def countTurns (steers : List MessageKey) (index turns : Nat) (awaitingReply : Bool) :
    List Message → Nat
  | [] => turns
  | m :: messages =>
      if opensTurn m index steers then
        -- the prompt before ended without an answer: it was a turn too
        countTurns steers (index + 1) (if awaitingReply then turns + 1 else turns) true messages
      else if m.isAssistant && awaitingReply && !m.isCompactionSummary && m.isEnded then
        countTurns steers (index + 1) (turns + 1) false messages
      else countTurns steers (index + 1) turns awaitingReply messages

/-- Completed turns of a list of messages, if it could be read. -/
def completedTurnCount (messages : Option (List Message)) : Option Nat :=
  messages.map fun messages => countTurns (steerPrompts messages) 0 0 false messages

/-- The loop of `promptTurnAt`. -/
def countOpened (steers : List MessageKey) («at» : Int) (index turns : Nat) : List Message → Nat
  | [] => turns
  | m :: messages =>
      if opensTurn m index steers && m.createdMs.all (· ≤ «at») then
        countOpened steers «at» (index + 1) (turns + 1) messages
      else countOpened steers «at» (index + 1) turns messages

/-- The turn that what started at a time belongs to. -/
def promptTurnAt (messages : Option (List Message)) («at» : Int) : Option Nat :=
  messages.bind fun messages =>
    let turns := countOpened (steerPrompts messages) «at» 0 0 messages
    if turns > 0 then some turns else none

/-- When a turn's prompt was created, and when its last answer ended. -/
structure TurnSpan where
  opened : Int
  answered : Option Int
  deriving DecidableEq, Repr

def Message.numberOf : Option Stamp → Option Int
  | some (.number ms) => some ms
  | _ => none

/-- The loop of `turnSpan`; it stops at the next turn's prompt, and at a prompt of `turn`
whose creation time is no number. -/
def spanFrom (steers : List MessageKey) (turn index opened : Nat) (span : Option TurnSpan) :
    List Message → Option TurnSpan
  | [] => span
  | m :: messages =>
      if opensTurn m index steers then
        if opened + 1 = turn then
          match Message.numberOf (m.time.bind (·.created)) with
          | none => none
          | some created =>
              spanFrom steers turn (index + 1) (opened + 1) (some ⟨created, none⟩) messages
        else if opened + 1 > turn then span
        else spanFrom steers turn (index + 1) (opened + 1) span messages
      else
        let span := span.map fun span =>
          if m.role = some "assistant" then
            match Message.numberOf (m.time.bind (·.completed)) with
            | some completed => { span with answered := some (max (span.answered.getD 0) completed) }
            | none => span
          else span
        spanFrom steers turn (index + 1) opened span messages

def turnSpan (messages : Option (List Message)) (turn : Nat) : Option TurnSpan :=
  messages.bind fun messages =>
    if turn < 1 then none else spanFrom (steerPrompts messages) turn 0 0 none messages

/-! ## Turns since a compaction -/

/-- The loop of `turnsSinceCompaction`. -/
def turnsSince (steers : List MessageKey) (index turns : Nat) : List Message → Nat
  | [] => turns
  | m :: messages =>
      if m.role = some "assistant" && m.isCompactionSummary then
        turnsSince steers (index + 1) (if m.error.isNone then 0 else turns) messages
      else if opensTurn m index steers then turnsSince steers (index + 1) (turns + 1) messages
      else turnsSince steers (index + 1) turns messages

def turnsSinceCompaction (messages : Option (List Message)) : Option Nat :=
  messages.map fun messages => turnsSince (steerPrompts messages) 0 0 messages

end OmniRush.Archive
