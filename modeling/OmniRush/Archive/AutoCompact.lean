import OmniRush.Lib.Machine

/-!
# Automatic compaction

`AutoCompactor` of `auto-compact.ts`. Each prompt that opens a turn calls `beforePrompt`,
which counts it and, when the chat has had enough prompts since its last compaction, has the
engine summarise the chat first. The call asks for the policy, the engine's status and the
chat's messages, and may be overtaken by another at each of these.

What the code does between two awaits is one event. Of the messages a call sees what
`turnsSinceCompaction`, `lastContextTokens` and the prompt's model make of them.
-/

namespace OmniRush.Archive

namespace AutoCompactor

structure Policy where
  enabled : Bool
  afterTurns : Nat
  minContextTokens : Nat
  deriving DecidableEq, Repr

/-- What is read off a chat's messages. -/
structure Reading where
  turns : Option Nat
  context : Option Nat
  model : Bool
  deriving DecidableEq, Repr

inductive Action where
  | none
  | compacted
  | queued
  | failed
  | skipped
  deriving DecidableEq, Repr

structure Outcome where
  action : Action
  reason : Option String := .none
  turns : Option Nat := .none
  deriving DecidableEq, Repr

/-- Where a call of `beforePrompt` awaits, and what it holds there. -/
inductive Stage where
  | policy
  | seeding (policy : Policy) (seed : Nat)
  | fresh (policy : Policy) (counted : Nat) (read : Option Reading)
  | busy (current : Policy) (counted : Nat) (read : Option Reading)
  | messages (current : Policy) (counted : Nat)
  | holding (run : Nat) (reason : Option String) (turns : Option Nat)
  | done (outcome : Outcome)
  deriving DecidableEq, Repr

structure Call where
  sessionId : String
  stage : Stage
  deriving DecidableEq, Repr

inductive RunStage where
  | summarizing
  | settling (failed : Bool)
  | done (compacted : Bool)
  deriving DecidableEq, Repr

/-- A compaction the engine was asked for. -/
structure Run where
  sessionId : String
  policy : Policy
  stoppedByPerson : Bool := false
  stage : RunStage := .summarizing
  deriving DecidableEq, Repr

/-- The read that starts a chat's count; the reading once it is there. -/
structure Seed where
  sessionId : String
  reading : Option Reading := .none
  deriving DecidableEq, Repr

/-- What a call awaited. -/
inductive Answer where
  | policy (policy : Option Policy)
  | busy (busy : Option Bool)
  | messages (reading : Reading)
  | settled
  | timeout
  deriving DecidableEq, Repr

/-- What happens: a prompt, an answer to a call, a read or a compaction that ends, or the
rest of the host. -/
inductive Event where
  | prompt (sessionId : String)
  | answer (i : Nat) (answer : Answer)
  | seeded (k : Nat) (child : Bool) (reading : Reading)
  | summarized (r : Nat) (failed : Bool)
  | finished (r : Nat) (broken aborted : Bool)
  | stopped (sessionId : String)
  | noteCompacted (sessionId : String)
  | forget (sessionId : String)
  deriving DecidableEq, Repr

def retryAfterTurns : Nat := 5

end AutoCompactor

structure AutoCompactor where
  /-- `holdMs` is finite. -/
  holds : Bool := false
  counts : String → Option Nat := fun _ => none
  seeding : String → Option Nat := fun _ => none
  children : List String := []
  running : String → Option Nat := fun _ => none
  stops : String → Option Nat := fun _ => none
  calls : List AutoCompactor.Call := []
  runs : List AutoCompactor.Run := []
  seeds : List AutoCompactor.Seed := []

namespace AutoCompactor

def setAt {α : Type} (f : String → Option α) (id : String) (value : Option α) :
    String → Option α := fun k => if k = id then value else f k

/-- `add`. -/
def add (s : AutoCompactor) (id : String) (base : Option Nat := .none) : AutoCompactor :=
  { s with counts := setAt s.counts id (some ((base.getD ((s.counts id).getD 0)) + 1)) }

/-- `later`: the count that makes the chat due again some prompts later. -/
def later (s : AutoCompactor) (id : String) (policy : Policy) : AutoCompactor :=
  { s with counts := setAt s.counts id (some (policy.afterTurns - retryAfterTurns + 1)) }

def goTo (s : AutoCompactor) (i : Nat) (id : String) (stage : Stage) : AutoCompactor :=
  { s with calls := s.calls.set i { sessionId := id, stage } }

def ends (s : AutoCompactor) (i : Nat) (id : String) (action : Action) (reason : String)
    (turns : Option Nat := .none) : AutoCompactor :=
  s.goTo i id (.done { action, reason := some reason, turns })

/-- The start of `beforePrompt`. -/
def prompt (s : AutoCompactor) (id : String) : AutoCompactor :=
  match s.running id with
  | some run =>
      { s.add id with
        calls := s.calls ++
          [{ sessionId := id, stage := .holding run (some "already_compacting") .none }] }
  | none => { s with calls := s.calls ++ [{ sessionId := id, stage := .policy }] }

/-- `seed`: joins the chat's read or starts one. -/
def seed (s : AutoCompactor) (i : Nat) (id : String) (policy : Policy) : AutoCompactor :=
  match s.seeding id with
  | some k => s.goTo i id (.seeding policy k)
  | none =>
      let s' : AutoCompactor :=
        { s with
          seeding := setAt s.seeding id (some s.seeds.length)
          seeds := s.seeds ++ [{ sessionId := id }] }
      s'.goTo i id (.seeding policy s.seeds.length)

/-- A call that has the count of its chat. -/
def counted (s : AutoCompactor) (i : Nat) (id : String) (policy : Option Policy)
    (read : Option Reading) : AutoCompactor :=
  if id ∈ s.children then s.ends i id .none "sub_agent"
  else
    let counted := (s.counts id).getD 0
    match policy with
    | some policy =>
        if !policy.enabled then (s.add id).ends i id .none "off" (some counted)
        else if counted < policy.afterTurns then (s.add id).ends i id .none "below" (some counted)
        else s.goTo i id (.fresh policy counted read)
    | none => (s.add id).ends i id .none "off" (some counted)

/-- A call that starts its chat's compaction. -/
def start (s : AutoCompactor) (i : Nat) (id : String) (current : Policy) (turns : Option Nat) :
    AutoCompactor :=
  let run := s.runs.length
  let s' : AutoCompactor :=
    { s with
      counts := setAt s.counts id (some 1)
      stops := setAt s.stops id (some run)
      running := setAt s.running id (some run)
      runs := s.runs ++ [{ sessionId := id, policy := current }] }
  s'.goTo i id (.holding run .none turns)

/-- The chat is long enough, its context large enough, and a model known. -/
def due (current : Policy) (reading : Reading) : Bool :=
  reading.turns.any (current.afterTurns ≤ ·) &&
    !(current.minContextTokens > 0 && reading.context.any (· < current.minContextTokens)) &&
    reading.model

/-- A call that has read its idle chat. -/
def judge (s : AutoCompactor) (i : Nat) (id : String) (current : Policy) (counted : Nat)
    (reading : Reading) : AutoCompactor :=
  if due current reading then s.start i id current reading.turns
  else
    match reading.turns with
    | none => (s.later id current).ends i id .skipped "unreadable" (some counted)
    | some turns =>
        if turns < current.afterTurns then
          (s.add id (some turns)).ends i id .none "below" (some turns)
        else if current.minContextTokens > 0 ∧ reading.context.any (· < current.minContextTokens) then
          (s.later id current).ends i id .skipped "small_context" (some turns)
        else (s.later id current).ends i id .skipped "no_model" (some turns)

/-- A call goes on with what it awaited. -/
def answer (s : AutoCompactor) (i : Nat) (id : String) : Stage → Answer → Option AutoCompactor
  | .policy, .policy policy =>
      if (s.counts id).isSome then some (s.counted i id policy .none)
      else
        match policy.filter (·.enabled) with
        | some policy => some (s.seed i id policy)
        | none => some (s.ends i id .none "off")
  | .seeding policy k, .settled => do
      let seed ← s.seeds[k]?
      let reading ← seed.reading
      some (s.counted i id (some policy) (some reading))
  | .seeding _ _, .timeout => some (s.ends i id .none "seeding")
  | .fresh policy counted read, .policy answer =>
      let current := answer.getD policy
      if !current.enabled then some ((s.add id).ends i id .none "off" (some counted))
      else if counted < current.afterTurns then
        some ((s.add id).ends i id .none "below" (some counted))
      else some (s.goTo i id (.busy current counted read))
  | .busy current counted read, .busy busy =>
      match busy with
      | none => some ((s.add id).ends i id .skipped "status_unreadable" (some counted))
      | some true => some (s.ends i id .skipped "busy" (some counted))
      | some false =>
          match read with
          | some reading => some (s.judge i id current counted reading)
          | none => some (s.goTo i id (.messages current counted))
  | .messages current counted, .messages reading => some (s.judge i id current counted reading)
  | .holding r reason turns, .settled => do
      let run ← s.runs[r]?
      match run.stage with
      | .done compacted =>
          let action := if compacted then Action.compacted else .failed
          some (s.goTo i id (.done { action, reason, turns }))
      | _ => none
  | .holding _ reason turns, .timeout =>
      if s.holds then some (s.goTo i id (.done { action := .queued, reason, turns })) else none
  | _, _ => none

def putRun (s : AutoCompactor) (r : Nat) (run : Run) : AutoCompactor :=
  { s with runs := s.runs.set r run }

/-- The end of a compaction, with the `finally` that takes its chat's entries away. -/
def finished (s : AutoCompactor) (r : Nat) (run : Run) (failed broken aborted : Bool) :
    AutoCompactor :=
  let compacted := !failed && !broken
  let s := if compacted || run.stoppedByPerson || aborted then s else s.later run.sessionId run.policy
  { s.putRun r { run with stage := .done compacted } with
    stops := setAt s.stops run.sessionId .none
    running := setAt s.running run.sessionId .none }

def step (s : AutoCompactor) : Event → Option AutoCompactor
  | .prompt id => some (s.prompt id)
  | .answer i a => s.calls[i]?.bind fun call => s.answer i call.sessionId call.stage a
  | .seeded k child reading => s.seeds[k]?.bind fun seed =>
      if seed.reading.isNone then
        some { s with
          children := if child then seed.sessionId :: s.children else s.children
          counts := setAt s.counts seed.sessionId (some (reading.turns.getD 0))
          seeding := setAt s.seeding seed.sessionId .none
          seeds := s.seeds.set k { seed with reading := some reading } }
      else none
  | .summarized r failed => s.runs[r]?.bind fun run =>
      if run.stage = .summarizing then some (s.putRun r { run with stage := .settling failed })
      else none
  | .finished r broken aborted => s.runs[r]?.bind fun run =>
      match run.stage with
      | .settling failed => some (s.finished r run failed broken aborted)
      | _ => none
  | .stopped id =>
      match s.stops id with
      | none => some s
      | some r => s.runs[r]?.map fun run => s.putRun r { run with stoppedByPerson := true }
  | .noteCompacted id =>
      if (s.running id).isSome then some s else some { s with counts := setAt s.counts id (some 0) }
  | .forget id =>
      some { s with
        counts := setAt s.counts id .none
        children := s.children.filter (· ≠ id) }

end AutoCompactor

end OmniRush.Archive
