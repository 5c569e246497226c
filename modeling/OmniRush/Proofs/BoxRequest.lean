import OmniRush.Lib.Checked
import OmniRush.Lib.JsonRoundTrip
import OmniRush.Proofs.Frames

/-!
# A request and its frames are read as they were written

The request line holds no line end of its own, so that the box's reader finds its end where
the client put it, in however many pieces its buffer gives the line. What it reads is the
request, with zero values for what the client left out, and the frames behind the line are
the next thing on the same reader.
-/

namespace OmniRush.Box

variable {σ : Type}

/-! ## Fields -/

theorem field_append (a b : List (String × Json)) (name : String) :
    Json.field (a ++ b) name = (Json.field b name).or (Json.field a name) := by
  unfold Json.field
  rw [List.reverse_append, List.find?_append, Option.map_or]

theorem field_optional {α : Type} (key name : String) (json : α → Json) (value : Option α) :
    Json.field (optionalField key json value) name = if key = name then value.map json else none := by
  cases value with
  | none =>
      rw [Option.map_none, ite_self]
      rfl
  | some value =>
      unfold Json.field optionalField
      rw [Option.map_some, Option.toList_some, List.reverse_singleton, List.find?_singleton]
      by_cases h : key = name <;> simp [h]

theorem field_head (token op name : String) :
    Json.field [("v", .num protoVersion), ("token", .str token), ("op", .str op)] name =
      if name = "op" then some (.str op)
      else if name = "token" then some (.str token)
      else if name = "v" then some (.num protoVersion) else none := by
  unfold Json.field
  simp only [List.reverse_cons, List.reverse_nil, List.nil_append, List.cons_append,
    List.find?_cons, List.find?_nil]
  by_cases hop : name = "op"
  · simp [hop]
  by_cases htoken : name = "token"
  · simp [htoken]
  by_cases hv : name = "v"
  · simp [hv]
  · simp [hop, htoken, hv, Ne.symm]

theorem mapM_texts (texts : List String) : (texts.map Json.str).mapM textOf = some texts := by
  induction texts with
  | nil => rfl
  | cons text texts ih => rw [List.map_cons, List.mapM_cons, ih]; rfl

theorem mapM_entries (entries : List (String × String)) :
    (entries.map fun entry => (entry.1, Json.str entry.2)).mapM
      (fun entry => (textOf entry.2).map (entry.1, ·)) = some entries := by
  induction entries with
  | nil => rfl
  | cons entry entries ih => rw [List.map_cons, List.mapM_cons, ih]; rfl

/-- What the box makes of a request: what is left out has its zero value. -/
def BoxRequest.toRequest (token : String) (req : BoxRequest) : Request where
  v := version
  token := token
  op := req.op
  argv := req.argv.getD []
  cwd := req.cwd.getD ""
  env := req.env.getD .empty
  paths := req.paths.getD []
  wait := (req.wait.map Millis.value).getD 0
  root := req.root.getD false
  port := 0

theorem field_fields (token : String) (req : BoxRequest) (name : String) :
    Json.field (req.fields token) name =
      ((((((if "root" = name then req.root.map Json.bool else none).or
        (if "wait" = name then req.wait.map fun wait => Json.num wait.value else none)).or
        (if "paths" = name then req.paths.map stringsJson else none)).or
        (if "env" = name then req.env.map mapJson else none)).or
        (if "cwd" = name then req.cwd.map Json.str else none)).or
        (if "argv" = name then req.argv.map stringsJson else none)).or
        (if name = "op" then some (.str req.op)
          else if name = "token" then some (.str token)
          else if name = "v" then some (.num protoVersion) else none) := by
  rw [BoxRequest.fields]
  simp only [field_append, field_optional, field_head]
  simp only [Option.or_assoc]

theorem stringsField_of {fields : List (String × Json)} {name : String}
    {texts : Option (List String)} (h : Json.field fields name = texts.map stringsJson) :
    stringsField fields name = some (texts.getD []) := by
  rw [stringsField, h]
  cases texts with
  | none => rfl
  | some texts => exact mapM_texts texts

theorem mapField_of {fields : List (String × Json)} {name : String}
    {env : Option (Record String)} (h : Json.field fields name = env.map mapJson) :
    mapField fields name = some (env.getD .empty) := by
  rw [mapField, h]
  cases env with
  | none => rfl
  | some env =>
      dsimp only [Option.map_some, mapJson, Option.getD_some]
      rw [mapM_entries]
      exact congrArg some env.setAll_entries

theorem intField_of {fields : List (String × Json)} {name : String} {wait : Option Millis}
    (h : Json.field fields name = wait.map fun wait => .num wait.value) :
    intField fields name = some ((wait.map Millis.value).getD 0) := by
  rw [intField, h]
  cases wait with
  | none => rfl
  | some wait =>
      have hsmall := wait.small
      exact if_pos (by omega)

theorem unmarshal_fields (token : String) (req : BoxRequest) :
    unmarshal (requestLine token req) = some (req.toRequest token) := by
  have hjson : Json.parseChars (decodeUtf8From none (requestLine token req))
      = some (.obj (req.fields token)) := by
    have h := Json.parseChars_chars (.obj (req.fields token)) [] rfl rfl
    rw [List.append_nil] at h
    rw [requestLine, decodeUtf8From_encode, h]
  have hargv : stringsField (req.fields token) "argv" = some (req.argv.getD []) :=
    stringsField_of (by rw [field_fields]; simp)
  have hcwd : stringField (req.fields token) "cwd" = some (req.cwd.getD "") := by
    rw [stringField, field_fields]
    cases req.cwd <;> rfl
  have henv : mapField (req.fields token) "env" = some (req.env.getD .empty) :=
    mapField_of (by rw [field_fields]; simp)
  have hpaths : stringsField (req.fields token) "paths" = some (req.paths.getD []) :=
    stringsField_of (by rw [field_fields]; simp)
  have hwait : intField (req.fields token) "wait" = some ((req.wait.map Millis.value).getD 0) :=
    intField_of (by rw [field_fields]; simp)
  have hroot : boolField (req.fields token) "root" = some (req.root.getD false) := by
    rw [boolField, field_fields]
    cases req.root <;> rfl
  have hport : intField (req.fields token) "port" = some 0 := by
    rw [intField, field_fields]
    simp
  have hv : intField (req.fields token) "v" = some version := by
    rw [intField, field_fields]
    simp [protoVersion, version]
  have htoken : stringField (req.fields token) "token" = some token := by
    rw [stringField, field_fields]
    simp [textOf]
  have hop : stringField (req.fields token) "op" = some req.op := by
    rw [stringField, field_fields]
    simp [textOf]
  rw [unmarshal, hjson]
  dsimp only [Option.bind_eq_bind, Option.bind_some]
  rw [hv, htoken, hop, hargv, hcwd, henv, hpaths, hwait, hroot, hport]
  rfl

/-! ## The line -/

theorem newline_notMem_requestLine (token : String) (req : BoxRequest) :
    10 ∉ requestLine token req := by
  intro hmem
  obtain ⟨c, hc, hbyte⟩ := List.mem_flatMap.mp hmem
  have hnewline : c = '\n' := mem_utf8EncodeChar (by decide : 10 < 0x80) hbyte
  exact Json.newline_notMem_chars _ (hnewline ▸ hc)

theorem requestLine_getLast? (token : String) (req : BoxRequest) :
    (requestLine token req).getLast? = some 0x7d := by
  have hlast : (Json.obj (req.fields token)).chars.getLast? = some '}' := by
    rw [Json.chars, List.getLast?_cons, Json.fieldChars_getLast?]
    rfl
  obtain ⟨front, hfront⟩ := List.getLast?_eq_some_iff.mp hlast
  rw [requestLine, hfront, List.flatMap_append, List.getLast?_append]
  rfl

theorem readLine_line (r : Reader σ) {size max : Nat} (htwo : 2 ≤ size) (fuel : Nat)
    {out line more : Bytes} {s : Buffered σ} (hsize : s.buffer.length ≤ size)
    (hrest : s.buffer ++ r.rest s.source = line ++ 10 :: more) (hline : 10 ∉ line)
    (hlast : line.getLast? ≠ some 13) (hmax : out.length + line.length ≤ max)
    (hfuel : line.length < fuel) :
    ∃ t, readLine r size max fuel out s = .ok (out ++ line, t) ∧
      t.buffer ++ r.rest t.source = more := by
  induction fuel generalizing out line s with
  | zero => omega
  | succ fuel ih =>
      rw [readLine]
      rcases r.readLine_spec htwo hsize hrest hline hlast with
        ⟨t, hread, -, htrest⟩ | ⟨piece, tail, t, rfl, hpiece, htail, hread, htsize, htrest⟩
      · rw [hread]
        dsimp only
        rw [if_neg (by rw [List.length_append]; omega), if_neg (by decide)]
        exact ⟨t, rfl, htrest⟩
      · rw [hread]
        have hpos : 0 < piece.length := List.length_pos_iff.mpr hpiece
        rw [List.length_append] at hmax hfuel
        dsimp only
        rw [if_neg (by rw [List.length_append]; omega), if_pos rfl]
        have hmore : (out ++ piece).length + tail.length ≤ max := by
          rw [List.length_append]
          omega
        obtain ⟨u, hlines, hurest⟩ := ih htsize htrest
          (fun hmem => hline (List.mem_append_right _ hmem)) htail hmore (by omega)
        exact ⟨u, by rw [hlines, List.append_assoc], hurest⟩

theorem readRequest_line (r : Reader σ) {size : Nat} (htwo : 2 ≤ size) {token : String}
    (htoken : token ≠ "") (req : BoxRequest) {more : Bytes} {s : Buffered σ}
    (hlength : (requestLine token req).length ≤ maxRequestLine) (hsize : s.buffer.length ≤ size)
    (hrest : s.buffer ++ r.rest s.source = requestLine token req ++ 10 :: more) :
    ∃ t, readRequest r size s token = .ok (req.toRequest token, t) ∧
      t.buffer ++ r.rest t.source = more := by
  have hmax : ([] : Bytes).length + (requestLine token req).length ≤ maxRequestLine := by
    rw [List.length_nil]
    omega
  obtain ⟨t, hline, ht⟩ := readLine_line r htwo (maxRequestLine + 2) hsize hrest
    (newline_notMem_requestLine token req) (by rw [requestLine_getLast?]; decide) hmax (by omega)
  refine ⟨t, ?_, ht⟩
  rw [readRequest, hline, List.nil_append, ok_bind]
  dsimp only
  rw [unmarshal_fields]
  dsimp only
  rw [if_neg (by exact fun h => h rfl), if_neg (by rintro (h | h); exacts [htoken h, h rfl])]

/-- Reading gives exactly these frames, and then the end. -/
def ReadsExactly (r : Reader σ) : σ → List Frame → Prop
  | s, [] => ∃ e, readFrame r s = .error e
  | s, f :: frames => ∃ t, readFrame r s = .ok (f, t) ∧ ReadsExactly r t frames

theorem readsExactly_bytes (r : Reader σ) {frames : List Frame} (hfits : ∀ f ∈ frames, f.Fits)
    {s : σ} (hrest : r.rest s = frameBytes frames) : ReadsExactly r s frames := by
  induction frames generalizing s with
  | nil =>
      have hnil : r.rest s = [] := hrest
      obtain ⟨e, he⟩ := r.readFull_short (s := s) (n := 5) (by rw [hnil]; decide)
      refine ⟨.read e, ?_⟩
      rw [readFrame, he]
  | cons f frames ih =>
      obtain ⟨t, hread, ht⟩ := readFrame_bytes r (hfits f List.mem_cons_self)
        (hrest.trans (frameBytes_cons f frames))
      exact ⟨t, hread, ih (fun g hg => hfits g (List.mem_cons_of_mem _ hg)) ht⟩

/-! ## Both ends -/

/-- What a sequence of `WriteFrame` calls puts into the stream, and its frames. -/
def written (calls : List (UInt8 × Bytes)) : Bytes :=
  calls.flatMap fun call => writeFrame call.1 call.2

def writtenFrames (calls : List (UInt8 × Bytes)) : List Frame :=
  calls.flatMap fun call => framesOf call.1 call.2

theorem written_eq (calls : List (UInt8 × Bytes)) :
    written calls = frameBytes (writtenFrames calls) := by
  rw [frameBytes, writtenFrames, List.flatMap_assoc]
  rfl

/-- The chunks give both ends these frames, the last of which ends the operation. -/
structure Received (chunks : List Bytes) (frames : List Frame) : Prop where
  box : ∀ {σ : Type} (r : Reader σ) (s : σ), r.rest s = chunks.flatten →
    ∀ fuel, frames.length ≤ fuel → readFrames r fuel s = (frames, .exit)
  app : ∀ {Exit : Type} (caller : Caller Exit), ∃ reply,
    (ClientCall.run caller chunks).outcome = some (.resolved reply) ∧
    (ClientCall.run caller chunks).frames = frames ∧
    (ClientCall.run caller chunks).called = ClientCall.callsFor caller frames ∧
    reply.stdout = decodeUtf8From none (ClientCall.keptFor caller .stdout frames).flatten ∧
    reply.stderr = decodeUtf8From none (ClientCall.keptFor caller .stderr frames).flatten ∧
    reply.data = (ClientCall.keptFor caller .data frames).flatten

/-- The chunks give both ends some of the frames before the last, and then an error. -/
structure Failed (chunks : List Bytes) (frames : List Frame) : Prop where
  box : ∀ {σ : Type} (r : Reader σ) (s : σ), r.rest s = chunks.flatten →
    ∀ fuel, frames.length ≤ fuel → ∃ read e, read <+: frames.dropLast ∧
      readFrames r fuel s = (read, .error e)
  app : ∀ {Exit : Type} (caller : Caller Exit),
    (ClientCall.run caller chunks).outcome = some .closedEarly ∧
    (ClientCall.run caller chunks).frames <+: frames.dropLast

theorem operation_written {calls : List (UInt8 × Bytes)} {exit : Bytes}
    (hkinds : ∀ call ∈ calls, call.1 ≠ Kind.exit) (hexit : exit.length ≤ maxFrame) :
    Operation (writtenFrames calls) ⟨Kind.exit, exit⟩ where
  fits f hf := by
    obtain ⟨call, -, hmem⟩ := List.mem_flatMap.mp hf
    exact (mem_framesOf hmem).2
  more f hf := by
    obtain ⟨call, hcall, hmem⟩ := List.mem_flatMap.mp hf
    rw [(mem_framesOf hmem).1]
    exact hkinds call hcall
  last_fits := hexit
  last_exit := rfl

theorem writtenFrames_exit {calls : List (UInt8 × Bytes)} {exit : Bytes}
    (hexit : exit.length ≤ maxFrame) :
    writtenFrames (calls ++ [(Kind.exit, exit)]) = writtenFrames calls ++ [⟨Kind.exit, exit⟩] := by
  rw [writtenFrames, List.flatMap_append, List.flatMap_singleton, framesOf_short hexit]
  rfl

theorem received_of_whole {body : List Frame} {last : Frame} (h : Operation body last)
    {chunks : List Bytes} (hchunks : chunks.flatten = frameBytes (body ++ [last])) :
    Received chunks (body ++ [last]) where
  box r s hrest fuel hfuel := by
    rw [List.length_append, List.length_singleton] at hfuel
    exact readFrames_whole r h (by omega) (hrest.trans (hchunks.trans (List.append_nil _).symm))
  app caller := by
    have hlast : ClientCall.channelOf last.kind = none := by
      rw [h.last_exit]
      decide
    obtain ⟨houtcome, hframes, hcalled⟩ := ClientCall.onFrame_exit caller
      (({} : ClientCall _).took caller body []) h.last_exit
    rw [ClientCall.run_whole caller h hchunks, houtcome, hframes, hcalled]
    refine ⟨_, rfl, rfl, ?_, ?_, ?_, ?_⟩ <;>
      simp [ClientCall.took, ClientCall.reply, ClientCall.callsFor, ClientCall.keptFor, hlast]

theorem failed_of_cut {body : List Frame} {last : Frame} (h : Operation body last)
    {chunks : List Bytes} {missing : Bytes} (hmissing : missing ≠ [])
    (hchunks : chunks.flatten ++ missing = frameBytes (body ++ [last])) :
    Failed chunks (body ++ [last]) where
  box r s hrest fuel hfuel := by
    rw [List.length_append, List.length_singleton] at hfuel
    rw [List.dropLast_concat]
    exact readFrames_cut r h (by omega) (by rw [hrest, hchunks]) hmissing
  app caller := by
    rw [List.dropLast_concat]
    exact (ClientCall.run_cut caller h hmissing hchunks).symm

/-- The frames the client sends behind its request. -/
def BoxRequest.frames (req : BoxRequest) : List Frame :=
  if req.op = "exec" then [⟨Kind.stdinEof, []⟩] else []

theorem onConnect_eq (token : String) (req : BoxRequest) :
    onConnect token req = requestLine token req ++ 10 :: frameBytes req.frames := by
  rw [onConnect, BoxRequest.frames, List.append_assoc]
  split <;> simp [frameBytes]

/-- Frames arrive as they were written, in any chunks, or not at all; and a request and the
frames behind it are read as the client wrote them. -/
theorem wire_agrees :
    (∀ (calls : List (UInt8 × Bytes)) (exit : Bytes), (∀ call ∈ calls, call.1 ≠ Kind.exit) →
      exit.length ≤ maxFrame →
      (∀ call ∈ calls, (∀ f ∈ framesOf call.1 call.2, f.kind = call.1) ∧
        ((framesOf call.1 call.2).map Frame.payload).flatten = call.2) ∧
      (∀ chunks, chunks.flatten = written (calls ++ [(Kind.exit, exit)]) →
        Received chunks (writtenFrames (calls ++ [(Kind.exit, exit)]))) ∧
      (∀ chunks missing, chunks.flatten ++ missing = written (calls ++ [(Kind.exit, exit)]) →
        missing ≠ [] → Failed chunks (writtenFrames (calls ++ [(Kind.exit, exit)])))) ∧
    (∀ (token : String) (req : BoxRequest) (frames : List Frame), token ≠ "" →
      (requestLine token req).length ≤ maxRequestLine → (∀ f ∈ frames, f.Fits) →
      onConnect token req = requestLine token req ++ 10 :: frameBytes req.frames ∧
      ∀ (chunks : List Bytes) (size : Nat) (hsize : 16 ≤ size),
        chunks.flatten = requestLine token req ++ 10 :: frameBytes frames →
        ∃ t, readRequest chunkReader size ⟨[], chunks⟩ token = .ok (req.toRequest token, t) ∧
          ReadsExactly (chunkReader.buffered size (Nat.lt_of_lt_of_le (by decide) hsize)) t
            frames) := by
  constructor
  · intro calls exit hkinds hexit
    have h := operation_written hkinds hexit
    rw [written_eq, writtenFrames_exit hexit]
    refine ⟨fun call _ => ⟨fun f hf => (mem_framesOf hf).1, framesOf_payload ..⟩, ?_, ?_⟩
    · exact fun chunks hchunks => received_of_whole h hchunks
    · exact fun chunks missing hchunks hmissing => failed_of_cut h hmissing hchunks
  · intro token req frames htoken hlength hfits
    refine ⟨onConnect_eq token req, fun chunks size hsize hchunks => ?_⟩
    obtain ⟨t, hread, ht⟩ := readRequest_line chunkReader
      (Nat.le_trans (by decide : 2 ≤ 16) hsize) htoken req
      (s := ⟨[], chunks⟩) hlength (Nat.zero_le _) hchunks
    exact ⟨t, hread, readsExactly_bytes _ hfits ht⟩

/-- Two calls and an Exit frame in two chunks, and a command with the end of its input. -/
theorem wire_agrees_example :
    Received [[0x6f, 0, 0, 0, 1, 7, 0x64], [0, 0, 0, 0, 0x78, 0, 0, 0, 0]]
      [⟨Kind.stdout, [7]⟩, ⟨Kind.data, []⟩, ⟨Kind.exit, []⟩] ∧
    ∃ t, readRequest chunkReader 16 ⟨[], [onConnect "t" { op := "exec" }]⟩ "t"
      = .ok (({ op := "exec" } : BoxRequest).toRequest "t", t) := by
  constructor
  · exact (wire_agrees.1 [(Kind.stdout, [7]), (Kind.data, [])] [] (by decide) (by decide)).2.1 _
      (by decide)
  · have hlength : (requestLine "t" { op := "exec" }).length ≤ maxRequestLine := by decide +kernel
    obtain ⟨hwritten, hread⟩ := wire_agrees.2 "t" { op := "exec" } [⟨Kind.stdinEof, []⟩]
      (by decide) hlength (fun f hf => by rw [List.mem_singleton.mp hf]; exact Nat.zero_le _)
    obtain ⟨t, ht, -⟩ := hread [onConnect "t" { op := "exec" }] 16 (Nat.le_refl _)
      (by rw [hwritten]; rfl)
    exact ⟨t, ht⟩

end OmniRush.Box
