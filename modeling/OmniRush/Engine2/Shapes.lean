import OmniRush.Engine2.Tools
import OmniRush.Lib.Utf16

/-!
# 2.x messages in the 1.x shapes

`v1Messages` of `shapes.ts` and what it is made of: one record of a stored session becomes
the 1.x messages of a prompt, of a reply, of a shell run or of a compaction, or none. What
the code keeps as records with fields left out are structures here.
-/

namespace OmniRush.Engine2

/-! ## Parts and messages -/

structure PartTime where
  start : Int
  stop : Option Int

structure Tokens where
  total : Int
  input : Int
  output : Int
  reasoning : Int
  cacheRead : Int
  cacheWrite : Int

inductive PartBody where
  | stepStart (snapshot : Option String)
  | text (text : String) (synthetic : Bool) (time : Option PartTime) (metadata : Option JsonRecord)
  | reasoning (text : String) (metadata : Option JsonRecord) (time : PartTime)
  | file (mime : String) (filename : Option String) (url : String)
  | tool (call : ToolCall)
  | stepFinish (reason : String) (snapshot : Option String) (cost : Int) (tokens : Tokens)
  | patch (hash : String) (files : List String)
  | compaction (auto : Bool)

structure Part where
  id : String
  sessionID : String
  messageID : String
  body : PartBody

structure ModelRef where
  providerID : String
  modelID : String
  variant : Option String := none

structure V1Error where
  name : String
  data : JsonRecord

structure UserInfo where
  id : String
  sessionID : String
  created : Int
  agent : String
  model : ModelRef
  system : Option String := none
  tools : Option JsonRecord := none

structure AssistantInfo where
  id : String
  sessionID : String
  created : Int
  completed : Option Int
  error : Option V1Error := none
  parentID : String
  modelID : String
  providerID : String
  mode : String
  agent : String
  cwd : String
  root : String
  summary : Bool := false
  cost : Int := 0
  tokens : Tokens
  variant : Option String := none
  finish : Option String := none

inductive MessageInfo where
  | user (info : UserInfo)
  | assistant (info : AssistantInfo)

structure V1Message where
  info : MessageInfo
  parts : List Part

def MessageInfo.id : MessageInfo → String
  | .user info => info.id
  | .assistant info => info.id

def MessageInfo.created : MessageInfo → Int
  | .user info => info.created
  | .assistant info => info.created

structure MessageContext where
  sessionID : String
  directory : Option String := none
  root : Option String := none
  agent : Option String := none
  model : Option ModelRef := none
  child : Bool := false

def modelRef : Option Json → Option ModelRef
  | some (.obj value) => do
      let providerID ← str value "providerID"
      let modelID ← str value "id" <|> str value "modelID"
      guard (providerID ≠ "" && modelID ≠ "")
      let variant := (str value "variant").filter fun variant => variant ≠ "" && variant ≠ "default"
      some { providerID := providerID, modelID := modelID, variant := variant }
  | _ => none

def v1Tokens (value : Option JsonRecord) : Tokens :=
  let tokens := value.getD []
  let cache := (record tokens "cache").getD []
  let input := (num tokens "input").getD 0
  let output := (num tokens "output").getD 0
  let reasoning := (num tokens "reasoning").getD 0
  let read := (num cache "read").getD 0
  let write := (num cache "write").getD 0
  { total := input + output + reasoning + read + write
    input := input
    output := output
    reasoning := reasoning
    cacheRead := read
    cacheWrite := write }

/-- The errors that a provider may not give a second time. -/
def isRetryable : List String :=
  ["provider.rate-limit", "provider.transport", "provider.internal", "provider.timeout"]

def holdsText (text word : List Char) : Bool := text.tails.any word.isPrefixOf

def v1Error (value : Option JsonRecord) (providerID : Option String) : Option V1Error :=
  value.map fun value =>
    let type := (str value "type").getD "unknown"
    let message : String × Json := ("message", .str ((str value "message").getD type))
    let lower := type.toList.map Char.toLower
    if type = "aborted" then ⟨"MessageAbortedError", [message]⟩
    else if type = "provider.auth" then
      ⟨"ProviderAuthError", [("providerID", .str (providerID.getD "")), message]⟩
    else if type = "provider.content-filter" then ⟨"ContentFilterError", [message]⟩
    else if holdsText lower "context".toList || holdsText lower "overflow".toList then
      ⟨"ContextOverflowError", [message]⟩
    else if "provider.".toList.isPrefixOf type.toList then
      ⟨"APIError", [message] ++ optional "statusCode" ((num value "status").map .num) ++
        [("isRetryable", .bool (isRetryable.contains type))]⟩
    else ⟨"UnknownError", [message]⟩

/-! ## Files -/

def extensionMime : List (String × String) :=
  [("png", "image/png"), ("jpg", "image/jpeg"), ("jpeg", "image/jpeg"), ("gif", "image/gif"),
    ("webp", "image/webp"), ("svg", "image/svg+xml"), ("pdf", "application/pdf"),
    ("txt", "text/plain"), ("md", "text/markdown"), ("json", "application/json"),
    ("csv", "text/csv"),
    ("docx", "application/vnd.openxmlformats-officedocument.wordprocessingml.document"),
    ("xlsx", "application/vnd.openxmlformats-officedocument.spreadsheetml.sheet"),
    ("pptx", "application/vnd.openxmlformats-officedocument.presentationml.presentation")]

/-- The type in a `data:` address, `/^data:([^;,]+)[;,]/`. -/
def dataMime (uri : List Char) : Option String :=
  if "data:".toList.isPrefixOf uri then
    let mime := (uri.drop 5).takeWhile fun c => c ≠ ';' && c ≠ ','
    if mime = [] || uri.length = 5 + mime.length then none else some (String.ofList mime)
  else none

def mimeFromUri (uri : String) (name : Option String) : String :=
  match dataMime uri.toList with
  | some mime => mime
  | none =>
      let source := match name with
        | some name => name.toList
        | none => uri.toList.takeWhile fun c => c ≠ '?' && c ≠ '#'
      let ext := ((source.splitOn '.').getLastD []).map Char.toLower
      if "file:".toList.isPrefixOf uri.toList && !source.contains '.' then
        "application/x-directory"
      else (extensionMime.lookup (String.ofList ext)).getD "text/plain"

/-- A slot of a part, as `t0`. -/
def slot (letter : String) (n : Nat) : String := letter ++ String.ofList (Json.natChars n)

def PartIds.part (ids : PartIds) (slot : String) (body : PartBody) : Part where
  id := partId ids.messageID slot none
  sessionID := ids.sessionID
  messageID := ids.messageID
  body := body

/-- The part of a prompt's file, if it has an address. -/
def userFilePart (ids : PartIds) (file : Json) (index : Nat) : Option Part := do
  let file ← asRecord file
  let url ← promptFileUrl file
  some (ids.part (slot "f" index)
    (.file ((str file "mime").getD (mimeFromUri url (str file "name"))) (str file "name") url))

def userFileParts (files : List Json) (ids : PartIds) : List Part :=
  files.zipIdx.filterMap fun entry => userFilePart ids entry.1 entry.2

/-! ## Replies -/

def toolPart (ids : PartIds) (call : ToolCall) : Part where
  id := partId ids.messageID "c" (some call.callID)
  sessionID := ids.sessionID
  messageID := ids.messageID
  body := .tool call

/-- The message a reply's content is of. -/
structure ReplyContext where
  ids : PartIds
  tool : ToolContext
  created : Int
  completed : Option Int

/-- The part of a text or reasoning entry, the `n`th of its type. -/
def textEntry (ctx : ReplyContext) (entry : JsonRecord) (n : Nat) : Part :=
  let time := (record entry "time").getD []
  let start := num time "created"
  let stop := num time "completed" <|> ctx.completed
  let partTime := { start := start.getD ctx.created, stop := stop }
  ctx.ids.part (slot "t" n) (.text ((str entry "text").getD "") false
    (if start.isSome || ctx.completed.isSome then some partTime else none)
    (v1ProviderMetadata (Json.field entry "state")))

def reasoningEntry (ctx : ReplyContext) (entry : JsonRecord) (n : Nat) : Part :=
  let time := (record entry "time").getD []
  ctx.ids.part (slot "r" n) (.reasoning ((str entry "text").getD "")
    (v1ProviderMetadata (Json.field entry "state"))
    { start := (num time "created").getD ctx.created
      stop := num time "completed" <|> ctx.completed })

/-- The parts of a reply's content, after some texts and reasonings. -/
def contentParts (ctx : ReplyContext) (texts reasonings : Nat) : List Json → List Part
  | [] => []
  | .obj entry :: content =>
      if str entry "type" = some "text" then
        textEntry ctx entry texts :: contentParts ctx (texts + 1) reasonings content
      else if str entry "type" = some "reasoning" then
        reasoningEntry ctx entry reasonings :: contentParts ctx texts (reasonings + 1) content
      else if str entry "type" = some "tool" then
        ((v1ToolPart entry ctx.ids ctx.tool ctx.created).map (toolPart ctx.ids)).toList ++
          contentParts ctx texts reasonings content
      else contentParts ctx texts reasonings content
  | _ :: content => contentParts ctx texts reasonings content

/-- The parts that close a step. -/
def finishParts (message : JsonRecord) (ctx : MessageContext) (ids : PartIds) : List Part :=
  let snapshots := (record message "snapshot").getD []
  let snapshotStart := str snapshots "start" <|> str message "snapshot"
  let snapshotEnd := str snapshots "end" <|> snapshotStart
  let changed := (arr snapshots "files").filterMap fun
    | .str file => some file
    | _ => none
  let base := match ctx.root with
    | some root => if root ≠ "" && root ≠ "/" then some root else ctx.directory
    | none => ctx.directory
  match num ((record message "time").getD []) "completed", str message "finish" with
  | some _, some finish =>
      ids.part "f0" (.stepFinish finish snapshotEnd ((num message "cost").getD 0)
        (v1Tokens (record message "tokens"))) ::
      if changed ≠ [] && isSet snapshotStart then
        [ids.part "p0" (.patch (snapshotStart.getD "") (changed.map (absoluteFrom base)))]
      else []
  | _, _ => []

def v1AssistantMessage (message : JsonRecord) (ctx : MessageContext) (parentID : String) :
    V1Message :=
  let id := (str message "id").getD ""
  let time := (record message "time").getD []
  let created := (num time "created").getD 0
  let completed := num time "completed"
  let model := modelRef (Json.field message "model") <|> ctx.model
  let agent := (str message "agent" <|> ctx.agent).getD "build"
  let ids : PartIds := { messageID := id, sessionID := ctx.sessionID }
  let toolCtx : ToolContext :=
    { sessionID := ctx.sessionID
      directory := ctx.directory
      root := ctx.root
      parentModel := model.map fun m => ⟨m.providerID, m.modelID⟩ }
  let snapshots := (record message "snapshot").getD []
  { info := .assistant
      { id := id
        sessionID := ctx.sessionID
        created := created
        completed := completed
        error := v1Error (record message "error") (model.map (·.providerID))
        parentID := parentID
        modelID := (model.map (·.modelID)).getD ""
        providerID := (model.map (·.providerID)).getD ""
        mode := agent
        agent := agent
        cwd := ctx.directory.getD ""
        root := ctx.root.getD "/"
        cost := (num message "cost").getD 0
        tokens := v1Tokens (record message "tokens")
        variant := model.bind (·.variant)
        finish := str message "finish" }
    parts :=
      ids.part "s0" (.stepStart (str snapshots "start" <|> str message "snapshot")) ::
        (contentParts { ids := ids, tool := toolCtx, created := created, completed := completed }
            0 0 (arr message "content") ++
          finishParts message ctx ids) }

/-! ## Prompts -/

/-- The separator between the texts of a prompt. -/
def promptTextSeparator : List Char := ['\n', '\n']

/-- The first `n` units of a text and the rest, unless it is shorter or the cut would part
two surrogates. -/
def takeUnits (n : Nat) : List Char → Option (List Char × List Char)
  | [] => if n = 0 then some ([], []) else none
  | c :: cs =>
      if n = 0 then some ([], c :: cs)
      else if (charUnits c).length ≤ n then
        (takeUnits (n - (charUnits c).length) cs).map fun (taken, rest) => (c :: taken, rest)
      else none

/-- A text of a prompt but the first has the separator before it. -/
def afterSeparator (index : Nat) (text : List Char) : Option (List Char) :=
  if index = 0 then some text
  else if promptTextSeparator.isPrefixOf text then
    some (text.drop promptTextSeparator.length)
  else none

/-- The parts that a layout cuts a text into, from the `index`th on. `none` where the text
does not have the layout. A cut between two surrogates is one such case: neither the
separator nor the end of the text can follow it. -/
def layoutParts (ids : PartIds) (synthetic : Bool) (index : Nat) :
    List Json → List Char → Option (List Part)
  | [], text => if text = [] then some [] else none
  | entry :: layout, text => do
      let entry ← asRecord entry
      let length ← num entry "length"
      guard (0 ≤ length)
      let text ← afterSeparator index text
      let (taken, rest) ← takeUnits length.toNat text
      let parts ← layoutParts ids synthetic (index + 1) layout rest
      some (ids.part (slot "u" index)
        (.text (String.ofList taken) (synthetic || isTrue entry "synthetic") none
          (record entry "metadata")) :: parts)

def v1UserTextParts (ids : PartIds) (text : String) (layout : Option Json) (synthetic : Bool) :
    List Part :=
  let single := [ids.part "u0" (.text text synthetic none none)]
  match layout with
  | some (.arr (entry :: entries)) =>
      (layoutParts ids synthetic 0 (entry :: entries) text.toList).getD single
  | _ => single

/-- What a prompt says beside its text and files. -/
structure PromptExtra where
  system : Option String := none
  tools : Option JsonRecord := none
  textParts : Option Json := none

/-- `v1UserMessage`. Of the message it reads the id and the time. -/
def v1UserMessage (id : String) (created : Int) (ctx : MessageContext) (text : String)
    (files : List Json) (synthetic : Bool) (agent : String) (model : Option ModelRef)
    (extra : PromptExtra) : V1Message :=
  let ids : PartIds := { messageID := id, sessionID := ctx.sessionID }
  { info := .user
      { id := id
        sessionID := ctx.sessionID
        created := created
        agent := agent
        model := model.getD { providerID := "", modelID := "" }
        system := extra.system
        tools := extra.tools }
    parts :=
      (if text ≠ "" || files = [] then v1UserTextParts ids text extra.textParts synthetic
        else []) ++ userFileParts files ids }

def messageId (message : JsonRecord) : String := (str message "id").getD ""

def messageCreated (message : JsonRecord) : Int :=
  (num ((record message "time").getD []) "created").getD 0

/-! ## Shell runs and compactions -/

/-- The id of the user message that stands before a shell run or a compaction. -/
def userIdOf (id : String) : String := id ++ "u"

/-- The state of the `bash` call of a shell run. -/
def shellState (message : JsonRecord) : ToolState :=
  let command := (str message "command").getD ""
  let output := (str message "output").getD ""
  let created := messageCreated message
  let input : JsonRecord := [("command", .str command)]
  if str message "status" = some "running" then .running input (some command) [] created
  else .completed input output command
    ([("output", .str output)] ++ optional "exit" ((num message "exit").map .num)) created
    ((num ((record message "time").getD []) "completed").getD created) []

def v1ShellMessages (message : JsonRecord) (ctx : MessageContext) (agent : String)
    (model : Option ModelRef) : List V1Message :=
  let id := messageId message
  let created := messageCreated message
  let callID := (str message "shellID").getD (id ++ "_shell")
  [v1UserMessage (userIdOf id) created ctx "The following tool was executed by the user" [] true
      agent model {},
    { info := .assistant
        { id := id
          sessionID := ctx.sessionID
          created := created
          completed := num ((record message "time").getD []) "completed"
          parentID := userIdOf id
          modelID := (model.map (·.modelID)).getD ""
          providerID := (model.map (·.providerID)).getD ""
          mode := agent
          agent := agent
          cwd := ctx.directory.getD ""
          root := ctx.root.getD "/"
          tokens := v1Tokens none }
      parts := [toolPart { messageID := id, sessionID := ctx.sessionID }
        { callID := callID, tool := "bash", state := shellState message }] }]

def v1CompactionMessages (message : JsonRecord) (ctx : MessageContext) (model : Option ModelRef) :
    List V1Message :=
  let id := messageId message
  let created := messageCreated message
  let userIds : PartIds := { messageID := userIdOf id, sessionID := ctx.sessionID }
  let ids : PartIds := { messageID := id, sessionID := ctx.sessionID }
  let failed := str message "status" = some "failed"
  let user : V1Message :=
    { info := .user
        { id := userIdOf id
          sessionID := ctx.sessionID
          created := created
          agent := "compaction"
          model :=
            { providerID := (model.map (·.providerID)).getD ""
              modelID := (model.map (·.modelID)).getD "" } }
      parts := [userIds.part "k0" (.compaction (str message "reason" ≠ some "manual"))] }
  let assistant : V1Message :=
    { info := .assistant
        { id := id
          sessionID := ctx.sessionID
          created := created
          completed := num ((record message "time").getD []) "completed"
          parentID := userIdOf id
          modelID := (model.map (·.modelID)).getD ""
          providerID := (model.map (·.providerID)).getD ""
          mode := "compaction"
          agent := "compaction"
          cwd := ctx.directory.getD ""
          root := ctx.root.getD "/"
          summary := true
          cost := (num message "cost").getD 0
          tokens := v1Tokens (record message "tokens")
          finish := if failed then none else some "stop"
          error := if failed then
              some ⟨"UnknownError", [("message", .str "Compaction failed")]⟩
            else none }
      parts := match str message "summary" with
        | some summary =>
            if summary = "" then [] else [ids.part "t0" (.text summary false none none)]
        | none => [] }
  if (str message "summary").isNone && str message "status" = some "running" then [user]
  else [user, assistant]

/-! ## A session's messages -/

/-- The prefix of a sub-agent's task. -/
def subagentPromptPrefix : String := "You are a subagent spawned by another session.\n"

/-- `str(message, "type") ?? str(message, "role")`. -/
def recordType (message : JsonRecord) : Option String := str message "type" <|> str message "role"

/-- The reply that follows, before another prompt. -/
def nextAssistant : List JsonRecord → Option JsonRecord
  | [] => none
  | candidate :: rest =>
      match str candidate "type" with
      | some "assistant" => some candidate
      | some "user" | some "synthetic" => none
      | _ => nextAssistant rest

/-- What `v1Messages` keeps from record to record. -/
structure Reading where
  agent : String
  model : Option ModelRef
  lastUserId : String := ""
  firstUser : Bool := true

/-- The model a prompt was sent to. -/
def sentModel (sent : Option JsonRecord) : Option ModelRef := do
  let model ← (sent.bind (record · "model"))
  let providerID ← str model "providerID"
  let modelID ← str model "modelID"
  guard (providerID ≠ "" && modelID ≠ "")
  some
    { providerID := providerID
      modelID := modelID
      variant := (str model "variant").filter (· ≠ "") }

/-- The text of a prompt, without the preamble of a sub-agent's first one. -/
def promptText (message : JsonRecord) (ctx : MessageContext) (reading : Reading) : String :=
  let text := (str message "text").getD ""
  if ctx.child && reading.firstUser && recordType message = some "user" &&
      subagentPromptPrefix.toList.isPrefixOf text.toList then
    String.ofList (text.toList.drop subagentPromptPrefix.length)
  else text

def promptMessage (message : JsonRecord) (ctx : MessageContext) (reading : Reading)
    (rest : List JsonRecord) : V1Message :=
  let reply := nextAssistant rest
  let sent := (record message "metadata").bind (record · "omnirush")
  v1UserMessage (messageId message) (messageCreated message) ctx (promptText message ctx reading)
    (arr message "files") (recordType message = some "synthetic")
    ((sent.bind (str · "agent") <|> reply.bind (str · "agent")).getD reading.agent)
    (sentModel sent <|> reply.bind (fun reply => modelRef (Json.field reply "model")) <|>
      reading.model)
    { system := sent.bind (str · "system")
      tools := sent.bind (record · "tools")
      textParts := sent.bind fun sent => Json.field sent "textParts" }

/-- The model of a step, with the variant of the one before. -/
def stepModel (message : JsonRecord) (reading : Reading) : Option ModelRef :=
  match modelRef (Json.field message "model") with
  | some step => some { step with variant := step.variant <|> reading.model.bind (·.variant) }
  | none => reading.model

/-- The messages of one record, and what is read then. -/
def v1Record (ctx : MessageContext) (reading : Reading) (message : JsonRecord)
    (rest : List JsonRecord) : List V1Message × Reading :=
  match recordType message with
  | some "agent-switched" =>
      ([], { reading with agent := (str message "agent").getD reading.agent })
  | some "model-switched" =>
      ([], { reading with model := modelRef (Json.field message "model") <|> reading.model })
  | some "user" =>
      ([promptMessage message ctx reading rest],
        { reading with lastUserId := messageId message, firstUser := false })
  | some "synthetic" =>
      ([promptMessage message ctx reading rest],
        { reading with lastUserId := messageId message })
  | some "skill" =>
      ([v1UserMessage (messageId message) (messageCreated message) ctx
          ((str message "text").getD "") [] true reading.agent reading.model {}], reading)
  | some "assistant" =>
      ([v1AssistantMessage message ctx reading.lastUserId],
        { reading with
          agent := (str message "agent" <|> ctx.agent).getD "build"
          model := stepModel message reading })
  | some "shell" => (v1ShellMessages message ctx reading.agent reading.model, reading)
  | some "compaction" => (v1CompactionMessages message ctx reading.model, reading)
  | _ => ([], reading)

def v1MessagesFrom (ctx : MessageContext) (reading : Reading) : List JsonRecord → List V1Message
  | [] => []
  | message :: rest =>
      (v1Record ctx reading message rest).1 ++
        v1MessagesFrom ctx (v1Record ctx reading message rest).2 rest

def v1Messages (messages : List JsonRecord) (ctx : MessageContext) : List V1Message :=
  v1MessagesFrom ctx { agent := ctx.agent.getD "build", model := ctx.model } messages

end OmniRush.Engine2
