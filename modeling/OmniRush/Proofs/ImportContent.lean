import Mathlib.Data.Option.Basic
import OmniRush.Proofs.ImportOrder

/-!
# Importing loses nothing a person said or saw

What a message says (`V1Message.said`) is compared with what its record says
(`recordSaid`). The second and third pass change neither texts nor addresses nor results:
an unfinished call has no result before it is settled and none after (`said_settleTool`).
The first pass is looked at record by record, and a prompt that is cut by its layout joins
to the text it was cut from (`layoutParts_joined`).
-/

namespace OmniRush.Engine2

/-! ## What is said -/

inductive Said where
  /-- The text of a prompt. -/
  | prompt (text : String)
  | file (url : String)
  | text (text : String)
  | reasoning (text : String)
  /-- A tool call, with its result and the files of the result when it completed. -/
  | call (callID : String) (input : JsonRecord) (output : Option String) (files : List String)

def ToolState.input : ToolState → JsonRecord
  | .pending input _ => input
  | .running input _ _ _ => input
  | .completed input _ _ _ _ _ _ => input
  | .error input _ _ _ _ => input

def ToolState.output : ToolState → Option String
  | .completed _ output _ _ _ _ _ => some output
  | _ => none

def ToolState.files : ToolState → List String
  | .completed _ _ _ _ _ _ attachments => attachments.map (·.url)
  | _ => []

def ToolCall.said (call : ToolCall) : Said :=
  .call call.callID call.state.input call.state.output call.state.files

def PartBody.promptText : PartBody → Option String
  | .text words _ _ _ => some words
  | _ => none

def PartBody.file? : PartBody → Option Said
  | .file _ _ url => some (.file url)
  | _ => none

def PartBody.said : PartBody → Option Said
  | .text words _ _ _ => some (.text words)
  | .reasoning words _ _ => some (.reasoning words)
  | .tool call => some call.said
  | _ => none

/-- Texts with the separator of a prompt between them. -/
def joined (texts : List String) : String :=
  String.ofList (promptTextSeparator.intercalate (texts.map String.toList))

def V1Message.bodies (m : V1Message) : List PartBody := m.parts.map (·.body)

/-- A prompt says one text and its files, a reply what its parts say. -/
def V1Message.said (m : V1Message) : List Said :=
  match m.info with
  | .user _ => .prompt (joined (m.bodies.filterMap PartBody.promptText)) ::
      m.bodies.filterMap PartBody.file?
  | .assistant _ => m.bodies.filterMap PartBody.said

/-! ## What is stored -/

/-- The addresses of the files of a prompt. -/
def fileUrls (files : List Json) : List Said :=
  files.filterMap fun file => ((asRecord file).bind promptFileUrl).map .file

/-- The addresses of the files of a result. -/
def resultFiles (content : Option Json) : List String :=
  match content with
  | some (.arr items) => (items.filterMap fileItem).map fun item => item.2.1
  | _ => []

/-- A status that the 1.x engine has a form for. -/
def knownStatus : List String := ["streaming", "pending", "running", "completed", "error"]

/-- What is stored of a call in a state of a known status. -/
def stateSaid (state : JsonRecord) (name callID : String) : Option Said := do
  let status ← str state "status"
  guard (knownStatus.contains status)
  let input := v1ToolInput name (Json.field state "input")
  let text := contentText (Json.field state "content")
  if status = "completed" then
    some (.call callID input (some (if name = "subagent" then v1TaskOutput text else text))
      (resultFiles (Json.field state "content")))
  else some (.call callID input none [])

/-- A tool entry with a call id, a name and a state of a known status. -/
def toolSaid (entry : JsonRecord) : Option Said := do
  let callID ← str entry "id" <|> str entry "callID"
  let name ← str entry "name" <|> str entry "tool"
  let state ← record entry "state"
  guard (callID ≠ "" && name ≠ "")
  stateSaid state name callID

def entrySaid : Json → Option Said
  | .obj entry =>
      if str entry "type" = some "text" then some (.text ((str entry "text").getD ""))
      else if str entry "type" = some "reasoning" then
        some (.reasoning ((str entry "text").getD ""))
      else if str entry "type" = some "tool" then toolSaid entry
      else none
  | _ => none

/-- The text of a prompt; the first `user` record of a child session has a preamble. -/
def storedPrompt (child first : Bool) (message : JsonRecord) : String :=
  let text := (str message "text").getD ""
  if child && first && recordType message = some "user" &&
      subagentPromptPrefix.toList.isPrefixOf text.toList then
    String.ofList (text.toList.drop subagentPromptPrefix.length)
  else text

/-- What each message of a record says. -/
def recordSaid (child : Bool) (message : JsonRecord × Bool) : List (List Said) :=
  let (message, first) := message
  match recordType message with
  | some "user" | some "synthetic" =>
      [.prompt (storedPrompt child first message) :: fileUrls (arr message "files")]
  | some "skill" => [[.prompt ((str message "text").getD "")]]
  | some "assistant" => [(arr message "content").filterMap entrySaid]
  | some "shell" =>
      let finished := str message "status" ≠ some "running"
      [[.prompt "The following tool was executed by the user"],
        [.call ((str message "shellID").getD (messageId message ++ "_shell"))
          [("command", .str ((str message "command").getD ""))]
          (if finished then some ((str message "output").getD "") else none) []]]
  | some "compaction" =>
      if (str message "summary").isNone && str message "status" = some "running" then
        [[.prompt ""]]
      else
        [[.prompt ""], ((str message "summary").filter (· ≠ "")).toList.map .text]
  | _ => []

/-- The records of a session, with a mark up to the first `user` record. -/
def markFirst (first : Bool) : List JsonRecord → List (JsonRecord × Bool)
  | [] => []
  | message :: rest =>
      (message, first) :: markFirst (first && recordType message ≠ some "user") rest

/-! ## The later passes -/

theorem v1PartTypes_contains (body : PartBody) : v1PartTypes.contains body.type = true := by
  cases body <;> rfl

theorem said_settleState (callID tool : String) (metadata : Option JsonRecord) (state : ToolState)
    (stop : Int) :
    ToolCall.said ⟨callID, tool, metadata, settleState state stop⟩
      = ToolCall.said ⟨callID, tool, metadata, state⟩ := by
  cases state <;> rfl

theorem said_settleTool (part : Part) (stop : Int) :
    (settleTool part stop).body.said = part.body.said ∧
      (settleTool part stop).body.promptText = part.body.promptText ∧
      (settleTool part stop).body.file? = part.body.file? := by
  unfold settleTool
  split
  · next call hcall =>
      rw [hcall]
      refine ⟨?_, rfl, rfl⟩
      exact congrArg some (said_settleState call.callID call.tool call.metadata call.state stop)
  · exact ⟨rfl, rfl, rfl⟩

/-- Two messages of one role whose parts say the same. -/
structure SameContent (m m' : V1Message) : Prop where
  role : m'.info.parentID = m.info.parentID
  said : m'.bodies.filterMap PartBody.said = m.bodies.filterMap PartBody.said
  prompt : m'.bodies.filterMap PartBody.promptText = m.bodies.filterMap PartBody.promptText
  files : m'.bodies.filterMap PartBody.file? = m.bodies.filterMap PartBody.file?

theorem SameContent.same {m m' : V1Message} (h : SameContent m m') : m'.said = m.said := by
  have hrole := h.role
  unfold V1Message.said
  cases hinfo : m.info <;> cases hinfo' : m'.info <;> rw [hinfo, hinfo'] at hrole
  · dsimp only
    rw [h.prompt, h.files]
  · cases hrole
  · cases hrole
  · exact h.said

theorem said_storedMessage (m : V1Message) : (storedMessage m).said = m.said := by
  have hparts : (storedMessage m).parts = m.parts.map fun part =>
      settleTool part ((storedMessage m).info.completed.getD (lastTime m.info.created m.parts)) := by
    unfold storedMessage
    dsimp only
    rw [List.filter_eq_self.mpr fun part _ => v1PartTypes_contains part.body]
  refine SameContent.same ⟨parentID_closed _ _, ?_, ?_, ?_⟩
  all_goals
    unfold V1Message.bodies
    rw [hparts, List.map_map, List.filterMap_map, List.filterMap_map]
    refine List.filterMap_congr fun part _ => ?_
  · exact (said_settleTool part _).1
  · exact (said_settleTool part _).2.1
  · exact (said_settleTool part _).2.2

theorem said_inStoredOrderFrom (previous : Option (Int × String)) (messages : List V1Message) :
    (inStoredOrderFrom previous messages).map V1Message.said = messages.map V1Message.said := by
  induction messages generalizing previous with
  | nil => rfl
  | cons message messages ih =>
      rw [inStoredOrderFrom_cons, List.map_cons, List.map_cons, ih]
      refine congrArg (· :: _) (SameContent.same ⟨parentID_storedInfo _ _, ?_, ?_, ?_⟩)
      all_goals
        unfold V1Message.bodies
        rw [renumber_bodies]

/-! ## Prompts -/

theorem takeUnits_append {n : Nat} {cs taken rest : List Char}
    (h : takeUnits n cs = some (taken, rest)) : taken ++ rest = cs := by
  induction cs generalizing n taken with
  | nil =>
      rw [takeUnits] at h
      split at h
      · cases h
        rfl
      · cases h
  | cons c cs ih =>
      rw [takeUnits] at h
      split at h
      · cases h
        rfl
      · split at h
        · obtain ⟨⟨taken', rest'⟩, htake, heq⟩ := Option.map_eq_some_iff.mp h
          cases heq
          rw [List.cons_append, ih htake]
        · cases h

theorem intercalate_texts (separator first : List Char) (rest : List (List Char)) :
    separator.intercalate (first :: rest) = first ++ rest.flatMap (separator ++ ·) := by
  induction rest generalizing first with
  | nil => simp [List.intercalate]
  | cons second rest ih =>
      have hcons : separator.intercalate (first :: second :: rest)
          = first ++ separator ++ separator.intercalate (second :: rest) := by
        simp [List.intercalate]
      rw [hcons, ih, List.flatMap_cons, List.append_assoc, List.append_assoc]

/-- The text of each part, with the separator before all but the first, is the text. -/
theorem layoutParts_joined {ids : PartIds} {synthetic : Bool} {index : Nat} {layout : List Json}
    {text : List Char} {parts : List Part}
    (h : layoutParts ids synthetic index layout text = some parts) :
    ∃ texts : List (List Char), parts.map (·.body.promptText) = texts.map (fun t => some (String.ofList t)) ∧
      (index > 0 → texts.flatMap (promptTextSeparator ++ ·) = text) ∧
      (index = 0 → promptTextSeparator.intercalate texts = text) := by
  induction layout generalizing index text parts with
  | nil =>
      rw [layoutParts] at h
      split at h
      · next hempty =>
          cases h
          exact ⟨[], rfl, fun _ => hempty.symm, fun _ => hempty.symm⟩
      · cases h
  | cons entry layout ih =>
      rw [layoutParts] at h
      obtain ⟨e, -, h⟩ := Option.bind_eq_some_iff.mp h
      obtain ⟨length, -, h⟩ := Option.bind_eq_some_iff.mp h
      obtain ⟨-, -, h⟩ := Option.bind_eq_some_iff.mp h
      obtain ⟨text', htext, h⟩ := Option.bind_eq_some_iff.mp h
      obtain ⟨⟨taken, rest⟩, htake, h⟩ := Option.bind_eq_some_iff.mp h
      obtain ⟨parts', hparts, h⟩ := Option.bind_eq_some_iff.mp h
      obtain ⟨texts, hmap, hflat, -⟩ := ih hparts
      have htaken := takeUnits_append htake
      have hrest := hflat (Nat.succ_pos index)
      cases h
      refine ⟨taken :: texts, ?_, fun hindex => ?_, fun hindex => ?_⟩
      · rw [List.map_cons, List.map_cons, hmap]
        rfl
      · rw [afterSeparator, if_neg (by omega)] at htext
        split at htext
        · next hprefix =>
            obtain ⟨tail, rfl⟩ := List.isPrefixOf_iff_prefix.mp hprefix
            cases htext
            rw [List.drop_left] at htaken
            rw [List.flatMap_cons, hrest, List.append_assoc, htaken]
        · cases htext
      · subst hindex
        cases htext
        rw [intercalate_texts, hrest]
        exact htaken

theorem v1UserTextParts_joined (ids : PartIds) (text : String) (layout : Option Json)
    (synthetic : Bool) : ∃ texts : List (List Char),
      (v1UserTextParts ids text layout synthetic).map (·.body.promptText)
        = texts.map (fun t => some (String.ofList t)) ∧
      promptTextSeparator.intercalate texts = text.toList := by
  have hsingle : ∃ texts : List (List Char),
      [ids.part "u0" (.text text synthetic none none)].map (·.body.promptText)
        = texts.map (fun t => some (String.ofList t)) ∧
      promptTextSeparator.intercalate texts = text.toList := by
    refine ⟨[text.toList], ?_, by simp [List.intercalate]⟩
    rw [List.map_singleton, List.map_singleton, String.ofList_toList]
    rfl
  unfold v1UserTextParts
  split
  · next entry entries =>
      cases hparts : layoutParts ids synthetic 0 (entry :: entries) text.toList with
      | none => exact hsingle
      | some parts =>
          obtain ⟨texts, hmap, -, hjoined⟩ := layoutParts_joined hparts
          exact ⟨texts, hmap, hjoined rfl⟩
  · exact hsingle

theorem file?_of_text {body : PartBody} {text : String} (h : body.promptText = some text) :
    body.file? = none := by
  cases body with
  | text words _ _ _ => rfl
  | _ => cases h

theorem userFilePart_said (ids : PartIds) (file : Json) (index : Nat) :
    (userFilePart ids file index).bind (·.body.file?)
      = ((asRecord file).bind promptFileUrl).map .file ∧
    (userFilePart ids file index).bind (·.body.promptText) = none := by
  unfold userFilePart
  cases hfields : asRecord file with
  | none => exact ⟨rfl, rfl⟩
  | some fields =>
      cases hurl : promptFileUrl fields with
      | none => simp [hurl]
      | some url => simp [hurl, PartIds.part, PartBody.file?, PartBody.promptText]

theorem userFileParts_said (files : List Json) (ids : PartIds) :
    (userFileParts files ids).filterMap (·.body.file?) = fileUrls files ∧
      (userFileParts files ids).filterMap (·.body.promptText) = [] := by
  unfold userFileParts fileUrls
  rw [List.filterMap_filterMap, List.filterMap_filterMap]
  constructor
  · conv_rhs => rw [← List.zipIdx_map_fst 0 files, List.filterMap_map]
    exact List.filterMap_congr fun entry _ => (userFilePart_said ids entry.1 entry.2).1
  · exact List.filterMap_eq_nil_iff.mpr fun entry _ => (userFilePart_said ids entry.1 entry.2).2

theorem said_v1UserMessage (messageID : String) (created : Int) (ctx : MessageContext) (text : String)
    (files : List Json) (synthetic : Bool) (agent : String) (model : Option ModelRef)
    (extra : PromptExtra) :
    (v1UserMessage messageID created ctx text files synthetic agent model extra).said
      = .prompt text :: fileUrls files := by
  obtain ⟨texts, hmap, hjoined⟩ := v1UserTextParts_joined
    { messageID := messageID, sessionID := ctx.sessionID } text extra.textParts synthetic
  obtain ⟨hfiles, hprompts⟩ :=
    userFileParts_said files { messageID := messageID, sessionID := ctx.sessionID }
  generalize hparts : v1UserTextParts { messageID := messageID, sessionID := ctx.sessionID } text
    extra.textParts synthetic = parts at hmap
  have htexts : parts.filterMap (·.body.promptText) = texts.map String.ofList := by
    have hid : parts.filterMap (·.body.promptText)
        = (parts.map (·.body.promptText)).filterMap id := by
      rw [List.filterMap_map]
      rfl
    rw [hid, hmap, List.filterMap_map]
    exact congrFun List.filterMap_eq_map texts
  have hnone : parts.filterMap (·.body.file?) = [] := by
    refine List.filterMap_eq_nil_iff.mpr fun part hpart => ?_
    have hmem : part.body.promptText ∈ texts.map fun t => some (String.ofList t) := by
      rw [← hmap]
      exact List.mem_map.mpr ⟨part, hpart, rfl⟩
    obtain ⟨text, -, htext⟩ := List.mem_map.mp hmem
    exact file?_of_text htext.symm
  have hlists : texts.map (String.toList ∘ String.ofList) = texts := by
    rw [show String.toList ∘ String.ofList = id from funext fun _ => String.toList_ofList]
    exact List.map_id _
  unfold V1Message.said v1UserMessage V1Message.bodies
  dsimp only
  rw [hparts, List.filterMap_map, List.filterMap_map]
  simp only [Function.comp_def]
  rw [List.filterMap_append, List.filterMap_append, hfiles, hprompts, List.append_nil]
  split
  · rw [htexts, hnone, joined, List.map_map, hlists, hjoined, String.ofList_toList]
    rfl
  · next hempty =>
      have htext : text = "" := by
        by_contra hne
        exact hempty (by simp [hne])
      rw [htext]
      rfl

theorem fileAttachments_urls (content : Option Json) (ids : PartIds) (callID : String) :
    (fileAttachments content ids callID).map (·.url) = resultFiles content := by
  match content with
  | some (.arr items) =>
      have hitems : items.filterMap fileItem = (items.filterMap fileItem).zipIdx.map Prod.fst :=
        (List.zipIdx_map_fst 0 _).symm
      unfold fileAttachments resultFiles
      dsimp only
      rw [List.map_map]
      conv_rhs => rw [hitems, List.map_map]
      rfl
  | none => rfl
  | some .null => rfl
  | some (.bool _) => rfl
  | some (.num _) => rfl
  | some (.str _) => rfl
  | some (.obj _) => rfl

/-! ## Replies -/

/-- The state of a call has its input and, once it completed, its result and the files of
it. -/
theorem said_v1ToolState (entry state : JsonRecord) (name callID : String) (ids : PartIds)
    (ctx : ToolContext) (created : Int) :
    (v1ToolState entry state name callID ids ctx created).map
        (fun s => Said.call callID s.input s.output s.files)
      = stateSaid state name callID := by
  unfold stateSaid
  cases hstatus : str state "status" with
  | none => simp [v1ToolState, hstatus]
  | some status =>
      by_cases hknown : knownStatus.contains status = true
      · have hcases : status = "streaming" ∨ status = "pending" ∨ status = "running" ∨
            status = "completed" ∨ status = "error" := by
          simpa [knownStatus] using hknown
        rcases hcases with rfl | rfl | rfl | rfl | rfl <;>
          simp [v1ToolState, hstatus, knownStatus, ToolState.input, ToolState.output,
            ToolState.files, fileAttachments_urls]
      · have hnone : v1ToolState entry state name callID ids ctx created = none := by
          have hother : ∀ word ∈ knownStatus, status ≠ word := by
            rintro word hword rfl
            exact hknown (List.contains_iff_mem.mpr hword)
          unfold v1ToolState
          rw [hstatus]
          dsimp only
          split
          · next heq => exact absurd (Option.some.inj heq) (hother _ (by decide))
          · next heq => exact absurd (Option.some.inj heq) (hother _ (by decide))
          · next heq => exact absurd (Option.some.inj heq) (hother _ (by decide))
          · next heq => exact absurd (Option.some.inj heq) (hother _ (by decide))
          · next heq => exact absurd (Option.some.inj heq) (hother _ (by decide))
          · rfl
        rw [hnone, Option.bind_eq_bind, Option.bind_some, Bool.eq_false_iff.mpr hknown]
        rfl

theorem said_v1ToolPart (entry : JsonRecord) (ids : PartIds) (ctx : ToolContext) (created : Int) :
    (v1ToolPart entry ids ctx created).map ToolCall.said = toolSaid entry := by
  unfold v1ToolPart toolSaid
  simp only [Option.bind_eq_bind, Option.map_bind, Function.comp_def]
  refine congrArg _ (funext fun callID => congrArg _ (funext fun name => congrArg _
    (funext fun state => congrArg _ (funext fun _ => ?_))))
  rw [← said_v1ToolState entry state name callID ids ctx created, Option.map_eq_bind]
  rfl

theorem said_contentParts (ctx : ReplyContext) (texts reasonings : Nat) (content : List Json) :
    (contentParts ctx texts reasonings content).filterMap (·.body.said)
      = content.filterMap entrySaid := by
  induction content generalizing texts reasonings with
  | nil => rfl
  | cons item content ih =>
      cases item with
      | obj entry =>
          rw [contentParts, List.filterMap_cons, entrySaid]
          split
          · rw [List.filterMap_cons, ih]
            rfl
          · split
            · rw [List.filterMap_cons, ih]
              rfl
            · split
              · rw [List.filterMap_append, ih, ← said_v1ToolPart entry ctx.ids ctx.tool ctx.created]
                cases v1ToolPart entry ctx.ids ctx.tool ctx.created <;> rfl
              · exact ih texts reasonings
      | _ =>
          rw [contentParts, List.filterMap_cons, entrySaid]
          · exact ih texts reasonings
          all_goals
            intro entry heq
            cases heq

theorem said_finishParts (message : JsonRecord) (ctx : MessageContext) (ids : PartIds) :
    (finishParts message ctx ids).filterMap (·.body.said) = [] := by
  unfold finishParts
  dsimp only
  split
  · refine List.filterMap_eq_nil_iff.mpr fun part hpart => ?_
    rcases List.mem_cons.mp hpart with hpart | hpart
    · subst hpart
      rfl
    · split at hpart
      · rw [List.mem_singleton.mp hpart]
        rfl
      · cases hpart
  · rfl

theorem said_v1AssistantMessage (message : JsonRecord) (ctx : MessageContext) (parentID : String) :
    (v1AssistantMessage message ctx parentID).said
      = (arr message "content").filterMap entrySaid := by
  unfold v1AssistantMessage V1Message.said V1Message.bodies
  dsimp only
  rw [List.filterMap_map, List.filterMap_cons]
  simp only [Function.comp_def]
  rw [List.filterMap_append, said_contentParts, said_finishParts, List.append_nil]
  rfl

/-! ## Records and sessions -/

theorem said_v1ShellMessages (message : JsonRecord) (ctx : MessageContext) (agent : String)
    (model : Option ModelRef) (child first : Bool) (h : recordType message = some "shell") :
    (v1ShellMessages message ctx agent model).map V1Message.said
      = recordSaid child (message, first) := by
  have hcall : (shellState message).input = [("command", .str ((str message "command").getD ""))] ∧
      (shellState message).output = (if str message "status" ≠ some "running" then
        some ((str message "output").getD "") else none) ∧ (shellState message).files = [] := by
    unfold shellState
    dsimp only
    by_cases hrunning : str message "status" = some "running"
    · rw [if_pos hrunning, if_neg (not_not_intro hrunning)]
      exact ⟨rfl, rfl, rfl⟩
    · rw [if_neg hrunning, if_pos hrunning]
      exact ⟨rfl, rfl, rfl⟩
  obtain ⟨hinput, houtput, hfiles⟩ := hcall
  unfold v1ShellMessages recordSaid
  dsimp only
  rw [h]
  rw [List.map_cons, List.map_singleton, said_v1UserMessage]
  have hreply : ∀ info callID, V1Message.said
      { info := .assistant info
        parts := [toolPart { messageID := messageId message, sessionID := ctx.sessionID }
          { callID := callID, tool := "bash", state := shellState message }] }
        = [.call callID (shellState message).input (shellState message).output
            (shellState message).files] := fun _ _ => rfl
  rw [hreply, hinput, houtput, hfiles]
  rfl

theorem said_v1CompactionMessages (message : JsonRecord) (ctx : MessageContext)
    (model : Option ModelRef) (child first : Bool) (h : recordType message = some "compaction") :
    (v1CompactionMessages message ctx model).map V1Message.said
      = recordSaid child (message, first) := by
  unfold v1CompactionMessages recordSaid
  dsimp only
  rw [h]
  split
  · rfl
  · rw [List.map_cons, List.map_singleton]
    refine congrArg (fun said => [_, said]) ?_
    cases hsummary : str message "summary" with
    | none => rfl
    | some summary =>
        by_cases hempty : summary = ""
        · subst hempty
          rfl
        · have hset : (some summary).filter (fun s => decide (s ≠ "")) = some summary := by
            simp [Option.filter, hempty]
          unfold V1Message.said V1Message.bodies
          dsimp only
          rw [if_neg hempty, hset]
          rfl

theorem said_v1Record (ctx : MessageContext) (reading : Reading) (message : JsonRecord)
    (rest : List JsonRecord) : (v1Record ctx reading message rest).1.map V1Message.said
      = recordSaid ctx.child (message, reading.firstUser) := by
  unfold v1Record
  split
  · next htype => simp [recordSaid, htype]
  · next htype => simp [recordSaid, htype]
  · next htype =>
      rw [List.map_singleton, promptMessage, said_v1UserMessage]
      simp only [recordSaid, htype]
      rfl
  · next htype =>
      rw [List.map_singleton, promptMessage, said_v1UserMessage]
      simp only [recordSaid, htype]
      rfl
  · next htype =>
      rw [List.map_singleton, said_v1UserMessage]
      simp only [recordSaid, htype]
      rfl
  · next htype =>
      rw [List.map_singleton, said_v1AssistantMessage]
      simp only [recordSaid, htype]
  · next htype => exact said_v1ShellMessages _ _ _ _ _ _ htype
  · next htype => exact said_v1CompactionMessages _ _ _ _ _ htype
  · next hagent hmodel huser hsynthetic hskill hassistant hshell hcompaction =>
      have hnone : recordSaid ctx.child (message, reading.firstUser) = [] := by
        unfold recordSaid
        dsimp only
        split
        · next htype => exact absurd htype huser
        · next htype => exact absurd htype hsynthetic
        · next htype => exact absurd htype hskill
        · next htype => exact absurd htype hassistant
        · next htype => exact absurd htype hshell
        · next htype => exact absurd htype hcompaction
        · rfl
      rw [hnone]
      rfl

theorem firstUser_v1Record (ctx : MessageContext) (reading : Reading) (message : JsonRecord)
    (rest : List JsonRecord) : (v1Record ctx reading message rest).2.firstUser
      = (reading.firstUser && decide (recordType message ≠ some "user")) := by
  unfold v1Record
  split
  · next htype => simp [htype]
  · next htype => simp [htype]
  · next htype => simp [htype]
  · next htype => simp [htype]
  · next htype => simp [htype]
  · next htype => simp [htype]
  · next htype => simp [htype]
  · next htype => simp [htype]
  · next hagent hmodel huser hsynthetic hskill hassistant hshell hcompaction =>
      rw [show decide (recordType message ≠ some "user") = true from decide_eq_true huser,
        Bool.and_true]

theorem said_v1MessagesFrom (ctx : MessageContext) (reading : Reading)
    (messages : List JsonRecord) : (v1MessagesFrom ctx reading messages).map V1Message.said
      = (markFirst reading.firstUser messages).flatMap (recordSaid ctx.child) := by
  induction messages generalizing reading with
  | nil => rfl
  | cons message rest ih =>
      rw [v1MessagesFrom, List.map_append, said_v1Record, ih, firstUser_v1Record]
      rfl

/-! ## The document -/

/-- The messages of a document say what the records of its session say, in their order: a
prompt its text without the preamble of a child session and the addresses of its files, a
reply its texts, its reasoning and its calls of a known status with what they returned. -/
theorem import_keeps_content {stored : Engine2StoredSession} {doc : ImportDocument}
    (h : v1ImportDocument stored = some doc) :
    doc.messages.map V1Message.said
      = (markFirst true stored.messages).flatMap
          (recordSaid (isSet (str stored.session "parentID"))) := by
  obtain ⟨info, -, hdoc⟩ := Option.map_eq_some_iff.mp h
  subst hdoc
  have hstored : ∀ messages : List V1Message,
      (messages.map storedMessage).map V1Message.said = messages.map V1Message.said := by
    intro messages
    rw [List.map_map]
    exact List.map_congr_left fun m _ => said_storedMessage m
  rw [inStoredOrder, said_inStoredOrderFrom, hstored, v1Messages, said_v1MessagesFrom]
  rfl

/-- A prompt of a child session in two parts with a file, and a reply that calls a tool. -/
def exampleTask : Engine2StoredSession where
  session := [("id", .str "ses_2"), ("parentID", .str "ses_1")]
  messages :=
    [exampleRecord "msg_1" "user" [("created", .num 5)]
        [("text", .str "Look\n\nhere"),
          ("files", .arr [.obj [("uri", .str "file:///a"), ("mime", .str "text/plain")]])],
      exampleRecord "msg_2" "assistant" [("created", .num 6)]
        [("content", .arr
          [.obj [("type", .str "tool"), ("id", .str "call_1"), ("name", .str "read"),
            ("state", .obj [("status", .str "completed"),
              ("content", .arr [.obj [("type", .str "text"), ("text", .str "found")]])])],
            .obj [("type", .str "text"), ("text", .str "Done")]])]]

theorem import_keeps_content_example : ∃ doc, v1ImportDocument exampleTask = some doc ∧
    doc.messages.length = 2 ∧
      doc.messages.map V1Message.said
        = [[.prompt "Look\n\nhere", .file "file:///a"],
            [.call "call_1" [] (some "found") [], .text "Done"]] := by
  obtain ⟨doc, hdoc, hlength⟩ := exists_of_any (p := fun doc : ImportDocument =>
      decide (doc.messages.length = 2))
    (show (v1ImportDocument exampleTask).any _ = true by decide +kernel)
  refine ⟨doc, hdoc, of_decide_eq_true hlength, ?_⟩
  rw [import_keeps_content hdoc]
  rfl

/-- The calls of a document. -/
def ImportDocument.calls (doc : ImportDocument) : List ToolCall :=
  (doc.messages.flatMap (·.bodies)).filterMap fun
    | .tool call => some call
    | _ => none

/-- A call without a state, and a shell command that is still running. -/
def unfinishedSession : Engine2StoredSession where
  session := [("id", .str "ses_1")]
  messages :=
    [exampleRecord "msg_1" "assistant" [("created", .num 5)]
        [("content", .arr [.obj [("type", .str "tool"), ("id", .str "call_1"),
          ("name", .str "read")]])],
      exampleRecord "msg_2" "shell" [("created", .num 6)]
        [("status", .str "running"), ("command", .str "ls"), ("output", .str "a")]]

/-- A call of no known status has no part, and a command has no output before it ended. -/
theorem unfinished_calls : ∃ doc, v1ImportDocument unfinishedSession = some doc ∧
    "call_1" ∉ doc.calls.map (·.callID) ∧
      ∀ call ∈ doc.calls, call.callID = "msg_2_shell" → call.state.output ≠ some "a" := by
  obtain ⟨doc, hdoc, hfails⟩ := exists_of_any (p := fun doc : ImportDocument =>
      !(doc.calls.map (·.callID)).contains "call_1" &&
        doc.calls.all fun call => call.state.output ≠ some "a")
    (show (v1ImportDocument unfinishedSession).any _ = true by decide +kernel)
  obtain ⟨hcall, houtput⟩ := Bool.and_eq_true_iff.mp hfails
  refine ⟨doc, hdoc, fun hmem => ?_, fun call hmem _ => ?_⟩
  · rw [List.contains_iff_mem.mpr hmem] at hcall
    cases hcall
  · exact of_decide_eq_true (List.all_eq_true.mp houtput call hmem)

end OmniRush.Engine2
