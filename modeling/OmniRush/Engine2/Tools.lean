import Mathlib.Data.List.DropRight
import OmniRush.Shell.Split
import OmniRush.Lib.Json
import OmniRush.Lib.Record

/-!
# Readers of stored records

`util.ts` of the import of 2.x sessions: a record is what `JSON.parse` gave, and a field of
it that is absent or of another type reads as `undefined`. Numbers are whole, as the JSON
of the other modules has them.
-/

namespace OmniRush.Engine2

abbrev JsonRecord := List (String × Json)

/-- `isRecord`. -/
def asRecord : Json → Option JsonRecord
  | .obj fields => some fields
  | _ => none

def record (value : JsonRecord) (key : String) : Option JsonRecord :=
  (Json.field value key).bind asRecord

def str (value : JsonRecord) (key : String) : Option String :=
  match Json.field value key with
  | some (.str s) => some s
  | _ => none

def num (value : JsonRecord) (key : String) : Option Int :=
  match Json.field value key with
  | some (.num n) => some n
  | _ => none

def arr (value : JsonRecord) (key : String) : List Json :=
  match Json.field value key with
  | some (.arr items) => items
  | _ => []

/-- `key in value`. -/
def hasKey (value : JsonRecord) (key : String) : Bool := (Json.field value key).isSome

/-- A field is `true`. -/
def isTrue (value : JsonRecord) (key : String) : Bool :=
  match Json.field value key with
  | some (.bool b) => b
  | _ => false

/-- `const { [key]: _, ...rest } = value`. -/
def without (value : JsonRecord) (key : String) : JsonRecord :=
  value.filter fun entry => entry.1 ≠ key

/-- `{ ...value, ...changes }`. -/
def spread (value changes : JsonRecord) : JsonRecord :=
  changes.foldl (fun value entry => Record.setIn entry.1 entry.2 value) value

/-- A field that is left out when there is no value. -/
def optional (key : String) (value : Option Json) : JsonRecord :=
  value.toList.map fun value => (key, value)

mutual

/-- `String(value)`. -/
def jsString : Json → String
  | .null => "null"
  | .bool b => if b then "true" else "false"
  | .num n => String.ofList (Json.intChars n)
  | .str s => s
  | .arr items => ",".intercalate (jsStrings items)
  | .obj _ => "[object Object]"

/-- The items of an array as `String` joins them. -/
def jsStrings : List Json → List String
  | [] => []
  | .null :: rest => "" :: jsStrings rest
  | value :: rest => jsString value :: jsStrings rest

end

/-- `String(value[key] ?? "")`. -/
def stringOf (value : JsonRecord) (key : String) : String :=
  match Json.field value key with
  | none | some .null => ""
  | some v => jsString v

/-- A text is there and not empty. -/
def isSet (text : Option String) : Bool := text.any (· ≠ "")

/-- The address of a prompt file: its `uri`, or the bytes that are kept inline. -/
def promptFileUrl (file : JsonRecord) : Option String :=
  if isSet (str file "uri") then str file "uri"
  else if isSet (str file "data") && isSet (str file "mime") then
    some ("data:" ++ (str file "mime").getD "" ++ ";base64," ++ (str file "data").getD "")
  else none

end OmniRush.Engine2

/-!
## Tool calls of the 2.x engine in the 1.x form

The part of `shapes.ts` that is about one tool call: its name, input, title, result and
metadata in their 1.x spelling, and `v1ToolPart`, which puts them together.
-/

namespace OmniRush.Engine2

/-! ## Names and inputs -/

def toolNamesV1 : List (String × String) :=
  [("shell", "bash"), ("subagent", "task"), ("patch", "apply_patch")]

def v1ToolName (name : String) : String := (toolNamesV1.lookup name).getD name

def parseInput : Option Json → JsonRecord
  | some (.obj fields) => fields
  | some (.str s) => if s = "" then [] else ((Json.parse s).bind asRecord).getD []
  | _ => []

/-- A text field takes its 1.x name, unless there is one of that name. -/
def renameKey (input : JsonRecord) (key v1Key : String) : JsonRecord :=
  match str input key with
  | some value =>
      if hasKey input v1Key then input
      else spread [(v1Key, .str value)] (without input key)
  | none => input

def v1ToolInput (name : String) (raw : Option Json) : JsonRecord :=
  let input := parseInput raw
  if ["read", "write", "edit"].contains name then renameKey input "path" "filePath"
  else if name = "subagent" then renameKey (without input "background") "agent" "subagent_type"
  else input

/-! ## Texts and paths -/

/-- The text of a content item of type `text`. -/
def itemText : Json → Option String
  | .obj item => if str item "type" = some "text" then str item "text" else none
  | _ => none

def contentText : Option Json → String
  | some (.str s) => s
  | some (.arr items) => "\n".intercalate (items.filterMap itemText)
  | _ => ""

def isSlash (c : Char) : Bool := c = '/' || c = '\\'

/-- `/^[A-Za-z]:[\\/]/`. -/
def leadsDrive : List Char → Bool
  | c :: ':' :: s :: _ => c.isAlpha && isSlash s
  | _ => false

def isAbsolute (file : String) : Bool :=
  ['/'].isPrefixOf file.toList || leadsDrive file.toList

/-- Without the slashes at its end. -/
def trimSlashes (path : String) : List Char := path.toList.rdropWhile isSlash

def relativeTo (root : Option String) (file : String) : String :=
  match root with
  | none => file
  | some root =>
      if root = "" || !isAbsolute file then file
      else
        let normalizedRoot := trimSlashes root
        if file.toList = normalizedRoot then "."
        else if (normalizedRoot ++ ['/']).isPrefixOf file.toList ||
            (normalizedRoot ++ ['\\']).isPrefixOf file.toList then
          String.ofList (file.toList.drop (normalizedRoot.length + 1))
        else String.ofList (file.toList.dropWhile (· = '/'))

def absoluteFrom (directory : Option String) (file : String) : String :=
  match directory with
  | none => file
  | some directory =>
      if directory = "" || isAbsolute file then file
      else
        let sep :=
          if directory.toList.contains '\\' && !directory.toList.contains '/' then '\\' else '/'
        String.ofList (trimSlashes directory ++ sep :: file.toList)

/-- `\n?<\/subagent>\s*$`. -/
def closesSubagent (text : List Char) : Bool :=
  let text := if ['\n'].isPrefixOf text then text.drop 1 else text
  "</subagent>".toList.isPrefixOf text && (text.drop 11).all Shell.isSpace

/-- The shortest text before the end of the element. -/
def subagentBody : List Char → Option (List Char)
  | [] => none
  | c :: cs =>
      if closesSubagent (c :: cs) then some [] else (subagentBody cs).map fun body => c :: body

/-- `([^"]+)`, and the text after what follows it. -/
def quotedValue (text after : List Char) : Option (List Char × List Char) :=
  let value := text.takeWhile (· ≠ '"')
  let rest := text.drop value.length
  if value ≠ [] && after.isPrefixOf rest then some (value, rest.drop after.length) else none

def v1TaskOutput (text : String) : String :=
  let opening := "<subagent sessionID=\"".toList
  if !opening.isPrefixOf text.toList then text
  else
    match quotedValue (text.toList.drop opening.length) "\" state=\"".toList with
    | none => text
    | some (id, rest) =>
        match quotedValue rest "\">".toList with
        | none => text
        | some (state, rest) =>
            let rest := if ['\n'].isPrefixOf rest then rest.drop 1 else rest
            match subagentBody rest with
            | none => text
            | some body =>
                "<task id=\"" ++ String.ofList id ++ "\" state=\"" ++ String.ofList state ++
                  "\">\n<task_result>\n" ++ String.ofList body ++ "\n</task_result>\n</task>"

structure ModelName where
  providerID : String
  modelID : String
  deriving DecidableEq, Repr

structure ToolContext where
  sessionID : String
  directory : Option String
  root : Option String
  parentModel : Option ModelName

/-! ## Titles and metadata -/

/-- `String(value[key] ?? value[other] ?? "")`. -/
def firstOf (value : JsonRecord) (key other : String) : String :=
  match Json.field value key with
  | none | some .null => stringOf value other
  | some v => jsString v

/-- A to-do that counts as open. -/
def isOpenTodo : Json → Bool
  | .obj todo => str todo "status" ≠ some "completed"
  | _ => true

def v1ToolTitle (name : String) (input : JsonRecord) (ctx : ToolContext) : String :=
  match name with
  | "shell" =>
      if isSet (str input "description") then (str input "description").getD ""
      else stringOf input "command"
  | "subagent" => stringOf input "description"
  | "read" | "write" | "edit" =>
      let file := (str input "path" <|> str input "filePath").getD ""
      relativeTo (ctx.root <|> ctx.directory) (absoluteFrom ctx.directory file)
  | "glob" | "grep" => stringOf input "pattern"
  | "webfetch" => stringOf input "url"
  | "websearch" => stringOf input "query"
  | "skill" => firstOf input "id" "name"
  | "todowrite" =>
      String.ofList (Json.natChars ((arr input "todos").filter isOpenTodo).length) ++ " todos"
  | _ => v1ToolName name

def numberOr0 (value : JsonRecord) (key : String) : Json := .num ((num value key).getD 0)

def v1PatchFile (entry : JsonRecord) (ctx : ToolContext) : JsonRecord :=
  let file := absoluteFrom ctx.directory (firstOf entry "file" "filePath")
  let root := match ctx.root with
    | some root => if root ≠ "" && root ≠ "/" then root else "/"
    | none => "/"
  let type := match str entry "status" with
    | some "added" => "add"
    | some "deleted" => "delete"
    | some "moved" | some "renamed" => "move"
    | _ => "update"
  [("filePath", .str file), ("relativePath", .str (relativeTo (some root) file)),
    ("type", .str type), ("patch", .str ((str entry "patch" <|> str entry "diff").getD "")),
    ("additions", numberOr0 entry "additions"), ("deletions", numberOr0 entry "deletions")] ++
  optional "movePath" ((str entry "movePath" <|> str entry "target").map .str)

/-- The number and the text of a numbered line, `/^(\d+): ?(.*)$/`. -/
def numberedLine (line : List Char) : Option (Nat × List Char) :=
  let digits := line.takeWhile Char.isDigit
  match digits, line.drop digits.length with
  | _ :: _, ':' :: text =>
      let text := if [' '].isPrefixOf text then text.drop 1 else text
      if text.any fun c => c = '\r' || c.toNat = 0x2028 || c.toNat = 0x2029 then none
      else some (Nat.ofDigitChars 10 digits 0, text)
  | _, _ => none

def ModelName.json (model : ModelName) : Json :=
  .obj [("modelID", .str model.modelID), ("providerID", .str model.providerID)]

/-- The provider and the model of `provider/model[#variant]`, `/^([^/#]+)\/([^#]+)/`. -/
def requestedModel (text : List Char) : Option ModelName :=
  let provider := text.takeWhile fun c => c ≠ '/' && c ≠ '#'
  match provider, text.drop provider.length with
  | _ :: _, '/' :: rest =>
      match rest.takeWhile (· ≠ '#') with
      | [] => none
      | model => some { providerID := String.ofList provider, modelID := String.ofList model }
  | _, _ => none

/-- The display of a file that was read, from its numbered lines. -/
def readMetadata (input metadata : JsonRecord) (output : String) (ctx : ToolContext) :
    JsonRecord :=
  let file := absoluteFrom ctx.directory (firstOf input "path" "filePath")
  match (output.toList.splitOn '\n').filterMap numberedLine with
  | [] => spread [("truncated", .bool false), ("loaded", .arr [])] metadata
  | first :: rest =>
      let lines := (first :: rest).map fun line => String.ofList line.2
      let lineEnd : Json := .num ((first :: rest).getLast (by simp)).1
      let truncated := isTrue metadata "truncated"
      spread
        [("preview", .str ("\n".intercalate (lines.take 20))), ("truncated", .bool truncated),
          ("loaded", .arr []),
          ("display", .obj
            [("type", .str "file"), ("path", .str file), ("text", .str ("\n".intercalate lines)),
              ("lineStart", .num first.1), ("lineEnd", lineEnd), ("totalLines", lineEnd),
              ("truncated", .bool truncated)])]
        metadata

def v1ToolMetadata (name : String) (input metadata : JsonRecord) (output : String)
    (ctx : ToolContext) : JsonRecord :=
  match name with
  | "shell" => spread [("output", .str output)] (without metadata "status")
  | "subagent" =>
      let requested := (str input "model").bind fun model => requestedModel model.toList
      spread
        ([("parentSessionId", .str ctx.sessionID)] ++
          optional "sessionId" ((str metadata "sessionID").map .str) ++
          optional "model" ((requested <|> ctx.parentModel).map ModelName.json))
        (without (without metadata "sessionID") "status")
  | "read" => readMetadata input metadata output ctx
  | "write" =>
      let file := absoluteFrom ctx.directory (firstOf input "path" "filePath")
      let created := "created".toList.isPrefixOf (output.toList.map Char.toLower) &&
        !((output.toList.drop 7).take 1).any fun c => c.isAlphanum || c = '_'
      let exists' := match Json.field metadata "existed" with
        | some (.bool b) => b
        | _ => !created
      spread [("diagnostics", .obj []), ("filepath", .str file), ("exists", .bool exists')]
        (without metadata "existed")
  | "edit" =>
      match (arr metadata "files").filterMap asRecord with
      | [] => spread [("diagnostics", .obj [])] (without metadata "files")
      | first :: _ =>
          let patch := (str first "patch").getD ""
          spread
            [("diagnostics", .obj []), ("diff", .str patch),
              ("filediff", .obj
                [("file", .str (absoluteFrom ctx.directory (stringOf first "file"))),
                  ("patch", .str patch), ("additions", numberOr0 first "additions"),
                  ("deletions", numberOr0 first "deletions")])]
            (without metadata "files")
  | "patch" =>
      let files := ((arr metadata "files").filterMap asRecord).map fun entry =>
        v1PatchFile entry ctx
      let patches := (files.map fun entry => (str entry "patch").getD "").filter (· ≠ "")
      spread
        [("diff", .str ("\n".intercalate patches)), ("files", .arr (files.map .obj)),
          ("diagnostics", .obj [])]
        (without metadata "files")
  | _ => metadata

/-- `v1ProviderMetadata`. -/
def v1ProviderMetadata : Option Json → Option JsonRecord
  | some (.obj state) =>
      let rest := without state "reasoningField"
      if rest = [] then none
      else if hasKey rest "itemId" || hasKey rest "responseId" then some [("openai", .obj rest)]
      else if hasKey rest "signature" || hasKey rest "redactedData" then
        some [("anthropic", .obj rest)]
      else if hasKey rest "thoughtSignature" then some [("google", .obj rest)]
      else none
  | _ => none

def errorMessage : Option Json → String
  | some (.str s) => s
  | some (.obj value) =>
      (str value "message" <|> str value "type").getD (Json.stringify (.obj value))
  | none => ""
  | some value => jsString value

/-! ## The part -/

/-- `prt_<message id sans prefix>_<slot>[_<call id>]`. -/
def idCore (id : List Char) : List Char :=
  if "msg_".toList.isPrefixOf id then id.drop 4 else id

def partId (messageID slot : String) (callID : Option String) : String :=
  let head := "prt_" ++ String.ofList (idCore messageID.toList) ++ "_" ++ slot
  if isSet callID then head ++ "_" ++ callID.getD "" else head

structure PartIds where
  messageID : String
  sessionID : String

/-- A file of a tool's result. -/
structure Attachment where
  id : String
  sessionID : String
  messageID : String
  mime : String
  filename : Option String
  url : String

/-- A file item that has an address and a type. -/
def fileItem : Json → Option (String × String × Option String)
  | .obj item =>
      if str item "type" = some "file" && isSet (str item "uri") && isSet (str item "mime") then
        some ((str item "mime").getD "", (str item "uri").getD "", str item "name")
      else none
  | _ => none

def fileAttachments (content : Option Json) (ids : PartIds) (callID : String) : List Attachment :=
  match content with
  | some (.arr items) =>
      (items.filterMap fileItem).zipIdx.map fun ((mime, url, name), n) =>
        { id := partId ids.messageID ("a" ++ String.ofList (Json.natChars n)) (some callID)
          sessionID := ids.sessionID
          messageID := ids.messageID
          mime := mime
          filename := name
          url := url }
  | _ => []

/-- The state of a 1.x tool part. -/
inductive ToolState where
  | pending (input : JsonRecord) (raw : String)
  | running (input : JsonRecord) (title : Option String) (metadata : JsonRecord) (start : Int)
  | completed (input : JsonRecord) (output title : String) (metadata : JsonRecord)
      (start stop : Int) (attachments : List Attachment)
  | error (input : JsonRecord) (error : String) (metadata : Option JsonRecord)
      (start stop : Int)

/-- A 1.x tool part without its ids. -/
structure ToolCall where
  callID : String
  tool : String
  metadata : Option JsonRecord := none
  state : ToolState

/-- A tool's own title before the one that is made up for it. -/
def titleOr (pluginTitle : Option String) (fallback : String) : String :=
  if isSet pluginTitle then pluginTitle.getD "" else fallback

/-- The state of a call of a known status. -/
def v1ToolState (entry state : JsonRecord) (name callID : String) (ids : PartIds)
    (ctx : ToolContext) (messageCreated : Int) : Option ToolState :=
  let time := (record entry "time").getD []
  let created := (num time "created").getD messageCreated
  let start := (num time "ran").getD created
  let stop := (num time "completed").getD start
  let input := v1ToolInput name (Json.field state "input")
  let rawInput := parseInput (Json.field state "input")
  let stored := (record state "metadata").getD []
  let metadata := without stored "__title"
  let title := titleOr (str stored "__title") (v1ToolTitle name rawInput ctx)
  match str state "status" with
  | some "streaming" | some "pending" =>
      some (.pending input (match Json.field state "input" with
        | some (.str s) => s
        | none | some .null => "{}"
        | some value => Json.stringify value))
  | some "running" =>
      some (.running input (if title = "" then none else some title)
        (if name = "subagent" then v1ToolMetadata name rawInput metadata "" ctx else metadata)
        start)
  | some "completed" =>
      let text := contentText (Json.field state "content")
      let output := if name = "subagent" then v1TaskOutput text else text
      some (.completed input output title (v1ToolMetadata name rawInput metadata output ctx) start
        stop (fileAttachments (Json.field state "content") ids callID))
  | some "error" =>
      some (.error input (errorMessage (Json.field state "error"))
        (if metadata = [] then none
          else some (v1ToolMetadata name rawInput metadata
            (contentText (Json.field state "content")) ctx))
        start stop)
  | _ => none

/-- `v1ToolPart`, without the ids: `none` for a shape it does not know. -/
def v1ToolPart (entry : JsonRecord) (ids : PartIds) (ctx : ToolContext) (messageCreated : Int) :
    Option ToolCall := do
  let callID ← str entry "id" <|> str entry "callID"
  let name ← str entry "name" <|> str entry "tool"
  let state ← record entry "state"
  guard (callID ≠ "" && name ≠ "")
  let v1State ← v1ToolState entry state name callID ids ctx messageCreated
  some
    { callID := callID
      tool := v1ToolName name
      metadata := v1ProviderMetadata (Json.field entry "providerState")
      state := v1State }

end OmniRush.Engine2
