import OmniRush.Box.Proto

/-!
# The app's end of a box connection

`request` of `client.ts`. The client writes the request line, and for a command the end of
its input. What the connection brings is put behind what is left of the chunk before, and
every whole frame at the front is taken. The Exit frame settles the call, a connection that
closes before it fails the call.

Callbacks settle at once, so that no chunk waits for one. The exit document is read by the
caller's parser; where it cannot be read the exit is the one of a command that ended well.
-/

namespace OmniRush.Box

/-! ## Writing -/

/-- A whole number of milliseconds that a number of the language holds exactly. -/
structure Millis where
  value : Int
  small : value.natAbs < 2 ^ 53

structure BoxRequest where
  op : String
  argv : Option (List String) := none
  cwd : Option String := none
  env : Option (Record String) := none
  paths : Option (List String) := none
  wait : Option Millis := none
  root : Option Bool := none

def protoVersion : Int := 1

/-- What is undefined is not written. -/
def optionalField {α : Type} (name : String) (json : α → Json) (value : Option α) :
    List (String × Json) :=
  (value.map fun value => (name, json value)).toList

def stringsJson (texts : List String) : Json := .arr (texts.map .str)

def mapJson (env : Record String) : Json := .obj (env.entries.map fun entry => (entry.1, .str entry.2))

def BoxRequest.fields (token : String) (req : BoxRequest) : List (String × Json) :=
  [("v", .num protoVersion), ("token", .str token), ("op", .str req.op)] ++
    optionalField "argv" stringsJson req.argv ++ optionalField "cwd" .str req.cwd ++
    optionalField "env" mapJson req.env ++ optionalField "paths" stringsJson req.paths ++
    optionalField "wait" (fun wait => .num wait.value) req.wait ++
    optionalField "root" .bool req.root

/-- The request line, without its end. -/
def requestLine (token : String) (req : BoxRequest) : Bytes :=
  (Json.obj (req.fields token)).chars.flatMap String.utf8EncodeChar

/-- What the client writes when it is connected. -/
def onConnect (token : String) (req : BoxRequest) : Bytes :=
  requestLine token req ++ [10] ++
    (if req.op = "exec" then Frame.bytes ⟨Kind.stdinEof, []⟩ else [])

/-! ## Reading -/

inductive Channel where
  | stdout
  | stderr
  | data
deriving DecidableEq

structure BoxReply (Exit : Type) where
  exit : Exit
  stdout : List Char
  stderr : List Char
  data : Bytes

inductive Outcome (Exit : Type) where
  | resolved (reply : BoxReply Exit)
  | closedEarly

/-- What the caller of `request` brings: which callbacks, and how an exit document reads. -/
structure Caller (Exit : Type) where
  callback : Channel → Bool
  parseExit : Bytes → Option Exit
  /-- `{ code: 0 }`. -/
  plainExit : Exit

/-- A call that is under way. `frames` is for the statements: the frames taken so far. -/
structure ClientCall (Exit : Type) where
  buffered : Bytes := []
  kept : Channel → List Bytes := fun _ => []
  called : List (Channel × Bytes) := []
  outcome : Option (Outcome Exit) := none
  frames : List Frame := []

namespace ClientCall

variable {Exit : Type}

/-- To the callback of the channel, or else kept for the reply. -/
def deliver (caller : Caller Exit) (c : ClientCall Exit) (channel : Channel) (payload : Bytes) :
    ClientCall Exit :=
  if caller.callback channel then { c with called := c.called ++ [(channel, payload)] }
  else { c with kept := fun ch => if ch = channel then c.kept ch ++ [payload] else c.kept ch }

def reply (caller : Caller Exit) (c : ClientCall Exit) (payload : Bytes) : BoxReply Exit where
  exit := (caller.parseExit payload).getD caller.plainExit
  stdout := decodeUtf8From none (c.kept .stdout).flatten
  stderr := decodeUtf8From none (c.kept .stderr).flatten
  data := (c.kept .data).flatten

/-- One frame. A kind that is not known is passed over. -/
def onFrame (caller : Caller Exit) (c : ClientCall Exit) (f : Frame) : ClientCall Exit :=
  let c := { c with frames := c.frames ++ [f] }
  if f.kind = Kind.stdout then c.deliver caller .stdout f.payload
  else if f.kind = Kind.stderr ∨ f.kind = Kind.fail then c.deliver caller .stderr f.payload
  else if f.kind = Kind.data then c.deliver caller .data f.payload
  else if f.kind = Kind.exit then { c with outcome := some (.resolved (c.reply caller f.payload)) }
  else c

/-- The whole frames at the front of what is buffered. Each is at least five bytes long. -/
def takeFrames (caller : Caller Exit) : Nat → ClientCall Exit → ClientCall Exit
  | 0, c => c
  | fuel + 1, c =>
      if c.buffered.length < 5 then c
      else
        let size := beNat ((c.buffered.drop 1).take 4)
        if c.buffered.length < 5 + size then c
        else
          let f : Frame := ⟨c.buffered.headD 0, (c.buffered.drop 5).take size⟩
          let next := { c with buffered := c.buffered.drop (5 + size) }.onFrame caller f
          if next.outcome.isSome then next else takeFrames caller fuel next

/-- A settled call has destroyed its socket, and hears of nothing more. -/
def onChunk (caller : Caller Exit) (c : ClientCall Exit) (chunk : Bytes) : ClientCall Exit :=
  if c.outcome.isSome then c
  else
    let c := { c with buffered := c.buffered ++ chunk }
    c.takeFrames caller c.buffered.length

def onClose (c : ClientCall Exit) : ClientCall Exit :=
  if c.outcome.isSome then c else { c with outcome := some .closedEarly }

/-- A connection that brings some chunks and is closed. -/
def run (caller : Caller Exit) (chunks : List Bytes) : ClientCall Exit :=
  (chunks.foldl (onChunk caller) {}).onClose

end ClientCall

end OmniRush.Box
