import OmniRush.Lib.Utf16
import OmniRush.Lib.Utf8

/-!
# Frames of an event stream

`BoundedSseFrameBuffer` of `engine-pool.ts`. A chunk's text joins what is buffered, and each frame
before a delimiter, an empty line, is cut off.
-/

namespace OmniRush.Engine

/-- `\r?\n` at the start of a text, and what comes after it. -/
def afterBreak : List Char → Option (List Char)
  | '\r' :: '\n' :: rest => some rest
  | '\n' :: rest => some rest
  | _ => none

/-- `\r?\n\r?\n` at the start of a text. -/
def afterDelimiter (text : List Char) : Option (List Char) := (afterBreak text).bind afterBreak

/-- The first match of `\r?\n\r?\n`: the text before it and the text after it. -/
def cutDelimiter : List Char → Option (List Char × List Char)
  | [] => none
  | c :: text =>
      match afterDelimiter (c :: text) with
      | some rest => some ([], rest)
      | none => (cutDelimiter text).map fun (frame, rest) => (c :: frame, rest)

theorem afterBreak_length {text rest : List Char} (h : afterBreak text = some rest) :
    rest.length < text.length := by
  simp only [afterBreak] at h
  split at h
  · cases h
    simp only [List.length_cons]
    omega
  · cases h
    simp only [List.length_cons]
    omega
  · cases h

theorem cutDelimiter_length {text frame rest : List Char}
    (h : cutDelimiter text = some (frame, rest)) : rest.length < text.length := by
  induction text generalizing frame with
  | nil => cases h
  | cons c text ih =>
      simp only [cutDelimiter] at h
      split at h
      · next hafter =>
          cases h
          obtain ⟨middle, hmiddle, hrest⟩ := Option.bind_eq_some_iff.mp hafter
          exact Nat.lt_trans (afterBreak_length hrest) (afterBreak_length hmiddle)
      · obtain ⟨⟨before, after⟩, hcut, heq⟩ := Option.map_eq_some_iff.mp h
        cases heq
        exact Nat.lt_trans (ih hcut) (Nat.lt_succ_self _)

/-- The frames of a text, and what is left of it. -/
def cutFrames (text : List Char) : List (List Char) × List Char :=
  match _hcut : cutDelimiter text with
  | none => ([], text)
  | some (frame, rest) =>
      let (frames, buffered) := cutFrames rest
      (frame :: frames, buffered)
termination_by text.length
decreasing_by exact cutDelimiter_length _hcut

structure BoundedSseFrameBuffer where
  decoder : TextDecoder
  buffered : List Char
  maxFrameChars : Nat

namespace BoundedSseFrameBuffer

def new (maxFrameChars : Nat) : BoundedSseFrameBuffer := ⟨.new, [], maxFrameChars⟩

/-- What `push` returns. -/
structure Pushed where
  frames : List (List Char)
  overflow : Bool

def push (buffer : BoundedSseFrameBuffer) (chunk : List UInt8) : Pushed × BoundedSseFrameBuffer :=
  let (text, decoder) := buffer.decoder.decode chunk
  let (frames, buffered) := cutFrames (buffer.buffered ++ text)
  (⟨frames, (utf16 buffered).length > buffer.maxFrameChars⟩, { buffer with decoder, buffered })

/-- The chunks one after the other: what each push returns. -/
def pushes (buffer : BoundedSseFrameBuffer) :
    List (List UInt8) → List Pushed × BoundedSseFrameBuffer
  | [] => ([], buffer)
  | chunk :: chunks =>
      let (pushed, buffer) := buffer.push chunk
      let (rest, buffer) := buffer.pushes chunks
      (pushed :: rest, buffer)

end BoundedSseFrameBuffer

/-! ## The pieces of a text -/

/-- What `\r?\n\r?\n` matches. -/
def delimiters : List (List Char) :=
  [['\n', '\n'], ['\r', '\n', '\n'], ['\n', '\r', '\n'], ['\r', '\n', '\r', '\n']]

/-- No match starts in the first `n` places of a text. -/
def NoMatchBefore (n : Nat) (text : List Char) : Prop :=
  ∀ i, i < n → ∀ delimiter ∈ delimiters, ¬ delimiter <+: text.drop i

/-- The pieces of a text before each leftmost match after the one before, and what is left. -/
inductive Pieces : List Char → List (List Char) → List Char → Prop where
  | last {text : List Char} (h : NoMatchBefore text.length text) : Pieces text [] text
  | piece {frame delimiter rest left : List Char} {frames : List (List Char)}
      (hdelimiter : delimiter ∈ delimiters)
      (h : NoMatchBefore frame.length (frame ++ delimiter ++ rest))
      (hrest : Pieces rest frames left) :
      Pieces (frame ++ delimiter ++ rest) (frame :: frames) left

end OmniRush.Engine
