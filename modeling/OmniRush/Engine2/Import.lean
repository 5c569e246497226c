import OmniRush.Engine2.Shapes
import OmniRush.Lib.Numeral

/-!
# The document of an imported session

`v1ImportDocument` of `import.ts`: the 1.x messages of a stored session, with finished
steps closed and calls that never finished turned into errors (`storedMessage`), and then
with the times and part ids that keep them in their order (`inStoredOrder`).

Of the document's session record the id and the directory are modelled: the messages
depend on nothing else of it.
-/

namespace OmniRush.Engine2

/-! ## Finished messages -/

/-- `type` of a part. -/
def PartBody.type : PartBody → String
  | .stepStart _ => "step-start"
  | .text _ _ _ _ => "text"
  | .reasoning _ _ _ => "reasoning"
  | .file _ _ _ => "file"
  | .tool _ => "tool"
  | .stepFinish _ _ _ _ => "step-finish"
  | .patch _ _ => "patch"
  | .compaction _ => "compaction"

/-- The part types the 1.x engine stores. -/
def v1PartTypes : List String :=
  ["text", "reasoning", "file", "tool", "step-start", "step-finish", "snapshot", "patch", "agent",
    "retry", "compaction", "subtask"]

/-- When a call started and ended. -/
def ToolState.times : ToolState → Option Int × Option Int
  | .pending _ _ => (none, none)
  | .running _ _ _ start => (some start, none)
  | .completed _ _ _ _ start stop _ => (some start, some stop)
  | .error _ _ _ start stop => (some start, some stop)

/-- When a part started and ended. -/
def PartBody.times : PartBody → Option Int × Option Int
  | .text _ _ (some time) _ => (some time.start, time.stop)
  | .reasoning _ _ time => (some time.start, time.stop)
  | .tool call => call.state.times
  | _ => (none, none)

/-- An aborted call is an error. -/
def settleState (state : ToolState) (stop : Int) : ToolState :=
  match state with
  | .pending input _ => .error input "Tool execution aborted" none stop (max stop stop)
  | .running input _ metadata start =>
      .error input "Tool execution aborted" (some metadata) start (max start stop)
  | state => state

def settleTool (part : Part) (stop : Int) : Part :=
  match part.body with
  | .tool call => { part with body := .tool { call with state := settleState call.state stop } }
  | _ => part

/-- The latest time of a message and its parts. -/
def lastTime (created : Int) (parts : List Part) : Int :=
  parts.foldl (fun stop part =>
    max (max stop (part.body.times.2.getD 0)) (part.body.times.1.getD 0)) created

def MessageInfo.completed : MessageInfo → Option Int
  | .user _ => none
  | .assistant info => info.completed

/-- A reply that has no end ends with its last part. -/
def MessageInfo.closed (info : MessageInfo) (stop : Int) : MessageInfo :=
  match info with
  | .user info => .user info
  | .assistant info => .assistant { info with completed := some (info.completed.getD stop) }

def storedMessage (message : V1Message) : V1Message :=
  let stop := lastTime message.info.created message.parts
  let info := message.info.closed stop
  { info := info
    parts := (message.parts.filter fun part => v1PartTypes.contains part.body.type).map fun part =>
      settleTool part (info.completed.getD stop) }

/-! ## The stored order -/

/-- Strings as the program compares them, by their units. -/
def jsLe (a b : String) : Bool := !decide (utf16 b.toList < utf16 a.toList)

/-- A message is created at a time, and not completed before. -/
def MessageInfo.createdAt (info : MessageInfo) (created : Int) : MessageInfo :=
  match info with
  | .user info => .user { info with created := created }
  | .assistant info => .assistant { info with
      created := created
      completed := info.completed.map fun completed => max completed created }

/-- The ordinal in a part id, `String(index).padStart(4, "0")`. -/
def ordinal (index : Nat) : List Char := padDigits 4 index

/-- `prt_<message>_<ordinal>`. -/
def storedPartId (id : String) (index : Nat) : String :=
  String.ofList ("prt_".toList ++ idCore id.toList ++ '_' :: ordinal index)

def renumber (id : String) (parts : List Part) : List Part :=
  parts.zipIdx.map fun (part, index) => { part with id := storedPartId id index }

/-- The time a message is stored with, after another one. -/
def storedCreated (previous : Option (Int × String)) (info : MessageInfo) : Option Int :=
  match previous with
  | none => none
  | some (created, id) =>
      if info.created < created || info.created = created && jsLe info.id id then
        some (created + 1)
      else none

def inStoredOrderFrom (previous : Option (Int × String)) : List V1Message → List V1Message
  | [] => []
  | message :: rest =>
      let info := match storedCreated previous message.info with
        | some created => message.info.createdAt created
        | none => message.info
      { info := info, parts := renumber info.id message.parts } ::
        inStoredOrderFrom (some (info.created, info.id)) rest

def inStoredOrder (messages : List V1Message) : List V1Message := inStoredOrderFrom none messages

/-! ## The document -/

structure Engine2StoredSession where
  session : JsonRecord
  messages : List JsonRecord
  worktree : Option String := none

/-- The fields of `v1Session` that the messages depend on. -/
structure SessionInfo where
  id : String
  directory : String

def v1Session (session : JsonRecord) : Option SessionInfo := do
  let data ← match Json.field session "data" with
    | some value => asRecord value
    | none => some session
  let source := (record data "info").getD data
  let id ← str source "id" <|> str source "sessionID"
  guard (id ≠ "")
  some
    { id := id
      directory := ((record source "location").bind (str · "directory") <|>
        str source "directory").getD "" }

def importContext (stored : Engine2StoredSession) (info : SessionInfo) : MessageContext :=
  { sessionID := info.id
    directory := if info.directory = "" then none else some info.directory
    root := some (stored.worktree.getD "/")
    agent := str stored.session "agent"
    model := do
      let model ← record stored.session "model"
      let id ← str model "id"
      let providerID ← str model "providerID"
      guard (id ≠ "" && providerID ≠ "")
      let variant := (str model "variant").filter fun variant => variant ≠ "" && variant ≠ "default"
      some { providerID := providerID, modelID := id, variant := variant }
    child := isSet (str stored.session "parentID") }

structure ImportDocument where
  info : SessionInfo
  messages : List V1Message

def v1ImportDocument (stored : Engine2StoredSession) : Option ImportDocument :=
  (v1Session stored.session).map fun info =>
    { info := info
      messages := inStoredOrder
        ((v1Messages stored.messages (importContext stored info)).map storedMessage) }

end OmniRush.Engine2
