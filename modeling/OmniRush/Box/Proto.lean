import Mathlib.Algebra.Order.Ring.Int
import OmniRush.Lib.Json
import OmniRush.Lib.Reader
import OmniRush.Lib.Record
import OmniRush.Lib.Utf8

/-!
# The wire format between a client and the box

`proto.go`. A connection starts with one JSON line, the request. After it both sides send
frames: a kind, a length of four bytes and the payload.

The reader of a connection is any `Reader`; the box has a buffer in front of it. The payload
of a frame is what the caller finds in the buffer it gave, before it reads the next one.
-/

namespace OmniRush.Box

/-! ## Frames -/

def Kind.stdout : UInt8 := 0x6f
def Kind.stderr : UInt8 := 0x65
def Kind.exit : UInt8 := 0x78
def Kind.data : UInt8 := 0x64
def Kind.fail : UInt8 := 0x45
def Kind.stdinEof : UInt8 := 0x63

def maxFrame : Nat := 1048576

def maxRequestLine : Nat := 16777216

structure Frame where
  kind : UInt8
  payload : Bytes
deriving DecidableEq

def Frame.bytes (f : Frame) : Bytes := f.kind :: (beBytes 4 f.payload.length ++ f.payload)

def frameBytes (frames : List Frame) : Bytes := frames.flatMap Frame.bytes

/-- The payloads of one call, each at most `maxFrame` long. -/
def framePieces : Nat → Bytes → List Bytes
  | 0, payload => [payload]
  | fuel + 1, payload =>
      if maxFrame < payload.length then
        payload.take maxFrame :: framePieces fuel (payload.drop maxFrame)
      else [payload]

/-- The frames of one call. -/
def framesOf (kind : UInt8) (payload : Bytes) : List Frame :=
  (framePieces payload.length payload).map (Frame.mk kind)

def writeFrame (kind : UInt8) (payload : Bytes) : Bytes := frameBytes (framesOf kind payload)

inductive FrameError where
  | read (error : ReadError)
  | tooLarge (length : Nat)
deriving DecidableEq

variable {σ : Type}

def readFrame (r : Reader σ) (s : σ) : Except FrameError (Frame × σ) :=
  match r.readFull s 5 with
  | .error e => .error (.read e)
  | .ok (head, s) =>
      let n := beNat (head.drop 1)
      if maxFrame < n then .error (.tooLarge n)
      else
        match r.readFull s n with
        | .error e => .error (.read e)
        | .ok (payload, s) => .ok (⟨head.headD 0, payload⟩, s)

/-- How a reader of frames stops. -/
inductive FramesEnd where
  | exit
  | error (e : FrameError)
  | outOfFuel
deriving DecidableEq

/-- The frames up to the first Exit frame or the first error, as `boxsh` reads them. -/
def readFrames (r : Reader σ) : Nat → σ → List Frame × FramesEnd
  | 0, _ => ([], .outOfFuel)
  | fuel + 1, s =>
      match readFrame r s with
      | .error e => ([], .error e)
      | .ok (f, s) =>
          if f.kind = Kind.exit then ([f], .exit)
          else
            let (frames, last) := readFrames r fuel s
            (f :: frames, last)

/-! ## The request -/

structure Request where
  v : Int
  token : String
  op : String
  argv : List String
  cwd : String
  env : Record String
  paths : List String
  wait : Int
  root : Bool
  port : Int

def version : Int := 1

/-! A field of the line: its zero value where it is missing or null, none of another type. -/

def intField (fields : List (String × Json)) (name : String) : Option Int :=
  match Json.field fields name with
  | none | some .null => some 0
  | some (.num n) => if -2 ^ 63 ≤ n ∧ n < 2 ^ 63 then some n else none
  | _ => none

def boolField (fields : List (String × Json)) (name : String) : Option Bool :=
  match Json.field fields name with
  | none | some .null => some false
  | some (.bool b) => some b
  | _ => none

def textOf : Json → Option String
  | .null => some ""
  | .str text => some text
  | _ => none

def stringField (fields : List (String × Json)) (name : String) : Option String :=
  match Json.field fields name with
  | none => some ""
  | some value => textOf value

def stringsField (fields : List (String × Json)) (name : String) : Option (List String) :=
  match Json.field fields name with
  | none | some .null => some []
  | some (.arr items) => items.mapM textOf
  | _ => none

def mapField (fields : List (String × Json)) (name : String) : Option (Record String) :=
  match Json.field fields name with
  | none | some .null => some .empty
  | some (.obj entries) => do
      let entries ← entries.mapM fun entry => (textOf entry.2).map (entry.1, ·)
      return Record.empty.setAll entries
  | _ => none

def unmarshal (line : Bytes) : Option Request := do
  match ← Json.parseChars (decodeUtf8From none line) with
  | .obj fields =>
      return {
        v := ← intField fields "v"
        token := ← stringField fields "token"
        op := ← stringField fields "op"
        argv := ← stringsField fields "argv"
        cwd := ← stringField fields "cwd"
        env := ← mapField fields "env"
        paths := ← stringsField fields "paths"
        wait := ← intField fields "wait"
        root := ← boolField fields "root"
        port := ← intField fields "port" }
  | .null => return ⟨0, "", "", [], "", .empty, [], 0, false, 0⟩
  | _ => none

inductive RequestError where
  | read
  | tooLong
  | badRequest
  | protocolVersion (v : Int)
  | unauthorized
deriving DecidableEq

/-- One line. A piece that goes on is not empty, so that a line that is not too long is read
within the fuel. -/
def readLine (r : Reader σ) (size max : Nat) :
    Nat → Bytes → Buffered σ → Except RequestError (Bytes × Buffered σ)
  | 0, _, _ => .error .tooLong
  | fuel + 1, out, s =>
      match r.readLine size s with
      | none => .error .read
      | some (chunk, isPrefix, s) =>
          let out := out ++ chunk
          if max < out.length then .error .tooLong
          else if isPrefix then readLine r size max fuel out s
          else .ok (out, s)

def readRequest (r : Reader σ) (size : Nat) (s : Buffered σ) (token : String) :
    Except RequestError (Request × Buffered σ) := do
  let (line, s) ← readLine r size maxRequestLine (maxRequestLine + 2) [] s
  match unmarshal line with
  | none => .error .badRequest
  | some request =>
      if request.v ≠ version then .error (.protocolVersion request.v)
      else if token = "" ∨ request.token ≠ token then .error .unauthorized
      else .ok (request, s)

end OmniRush.Box
