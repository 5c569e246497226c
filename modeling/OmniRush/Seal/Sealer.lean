import OmniRush.Lib.Bytes
import OmniRush.Lib.Json

/-!
# Sealing

`FrameSealer` of `seal.ts`: a header, then the plaintext in authenticated frames
of at most `chunk` bytes, the last one marked final. A full chunk is held back
until more input comes, since only the end of the input says which frame is the
final one.

The cryptography is not under this repository and stays a parameter, with what
the format relies on as its laws: the holders of two keys agree on one secret, and
decryption inverts encryption under the same key, nonce and associated data. Nothing is
assumed about secrecy or forgery.

Failures are values: a constructor that refuses its options, or a frame past the
last index.
-/

namespace OmniRush.Seal

open OmniRush

abbrev Bytes32 := { bytes : Bytes // bytes.length = 32 }

/-- X25519, HKDF-SHA256, SHA-256 and AES-256-GCM as the format uses them. -/
structure Primitives where
  PrivateKey : Type
  publicRaw : PrivateKey → Bytes32
  /-- The shared secret, none for a low-order point. -/
  agree : PrivateKey → Bytes32 → Option Bytes
  hkdf : (shared salt info : Bytes) → Bytes
  sha256 : Bytes → Bytes32
  /-- Ciphertext and tag under a key, a nonce and associated data. -/
  encrypt : (key nonce aad plaintext : Bytes) → Bytes × Bytes
  decrypt : (key nonce aad ciphertext tag : Bytes) → Option Bytes
  agree_comm : ∀ a b, agree a (publicRaw b) = agree b (publicRaw a)
  agree_public : ∀ a b, (agree a (publicRaw b)).isSome
  encrypt_length : ∀ key nonce aad p, (encrypt key nonce aad p).1.length = p.length
  tag_length : ∀ key nonce aad p, (encrypt key nonce aad p).2.length = 16
  decrypt_encrypt : ∀ key nonce aad p,
    decrypt key nonce aad (encrypt key nonce aad p).1 (encrypt key nonce aad p).2 = some p

def sealMagic : Bytes := "ORSEAL01".toList.map fun c => UInt8.ofNat c.toNat

def sealAlg : String := "X25519-HKDF-SHA256-A256GCM"

def sealMinChunk : Nat := 16

def sealMaxChunk : Nat := 2 ^ 24

def sealMaxHeaderLen : Nat := 4096

def tagLen : Nat := 16

def maxFrames : Nat := 2 ^ 32

def hkdfInfo : Bytes := "omnirush-seal-v1".toList.map fun c => UInt8.ofNat c.toNat

inductive SealContent where
  | tarZstd
  | zip
  deriving DecidableEq, Repr

def SealContent.text : SealContent → String
  | .tarZstd => "tar+zstd"
  | .zip => "zip"

inductive SealFault where
  | invalidChunk
  | invalidPublicKey
  | tooManyFrames
  | finished
  deriving DecidableEq, Repr

section

variable (c : Primitives)

/-- `sealKid`: the first 16 hex characters of the key's hash. -/
def sealKid (publicRaw : Bytes32) : String :=
  String.ofList ((toHex (c.sha256 publicRaw.1).1).take 16)

def deriveKey (shared salt epk serverPublic : Bytes) : Bytes :=
  c.hkdf shared salt (hkdfInfo ++ epk ++ serverPublic)

def frameNonce (index : Nat) : Bytes := List.replicate 4 0 ++ beBytes 8 index

def frameAad (headerHash : Bytes) (index : Nat) (final : Bool) : Bytes :=
  headerHash ++ beBytes 8 index ++ [if final then 1 else 0]

/-- One frame as pieces: length, ciphertext, tag. -/
def encryptFrame (key headerHash : Bytes) (index : Nat) (final : Bool) (plaintext : Bytes) :
    List Bytes :=
  let (body, tag) := c.encrypt key (frameNonce index) (frameAad headerHash index final) plaintext
  [beBytes 4 (plaintext.length + tagLen), body, tag]

def decryptFrame (key headerHash : Bytes) (index : Nat) (final : Bool) (frame : Bytes) :
    Option Bytes :=
  c.decrypt key (frameNonce index) (frameAad headerHash index final)
    (frame.take (frame.length - tagLen)) (frame.drop (frame.length - tagLen))

structure SealOptions where
  content : SealContent := .tarZstd
  publicKey : Bytes32
  chunk : Nat := 2 ^ 20

structure SealResult where
  size : Nat
  sha256 : String
  deriving DecidableEq, Repr

/-- The sealer between two calls. At most one chunk of plaintext is held. -/
structure FrameSealer where
  kid : String
  key : Bytes
  headerHash : Bytes
  header : Bytes
  chunk : Nat
  pending : Bytes
  index : Nat
  started : Bool
  /-- The pieces handed to `out` so far. -/
  output : List Bytes
  result : Option SealResult
  chunk_pos : 0 < chunk
  pending_le : pending.length ≤ chunk

/-- The header object, its keys in the order the format requires. -/
def headerJson (content : SealContent) (chunk : Nat) (epk salt : Bytes) (kid : String) : Json :=
  .obj [("alg", .str sealAlg), ("chunk", .num chunk), ("content", .str content.text),
    ("epk", .str (String.ofList (toBase64 epk))), ("kid", .str kid),
    ("salt", .str (String.ofList (toBase64 salt))), ("v", .num 1)]

def utf8Bytes (cs : List Char) : Bytes := (String.ofList cs).toUTF8.data.toList

/-- Magic, header length, header: what every sealed stream begins with. -/
def sealPrefix (header : Bytes) : Bytes := sealMagic ++ beBytes 4 header.length ++ header

/-- The constructor, with the ephemeral key and the salt it draws. -/
def FrameSealer.new (options : SealOptions) (ephemeral : c.PrivateKey) (salt : Bytes32) :
    Except SealFault FrameSealer :=
  if hchunk : sealMinChunk ≤ options.chunk ∧ options.chunk ≤ sealMaxChunk then
    let epk := c.publicRaw ephemeral
    match c.agree ephemeral options.publicKey with
    | none => .error .invalidPublicKey
    | some shared =>
        let kid := sealKid c options.publicKey
        let header := utf8Bytes (headerJson options.content options.chunk epk.1 salt.1 kid).chars
        .ok
          { kid
            key := deriveKey c shared salt.1 epk.1 options.publicKey.1
            headerHash := (c.sha256 (sealPrefix header)).1
            header := sealPrefix header
            chunk := options.chunk
            pending := []
            index := 0
            started := false
            output := []
            result := none
            chunk_pos := Nat.lt_of_lt_of_le (by decide) hchunk.1
            pending_le := Nat.zero_le _ }
  else .error .invalidChunk

/-- `start`: the prefix goes out before anything else. -/
def FrameSealer.start (s : FrameSealer) : FrameSealer :=
  if s.started then s else { s with started := true, output := s.output ++ [s.header] }

/-- `frame` without its guard: what is held goes out as one frame. -/
def FrameSealer.emitFrame (s : FrameSealer) (final : Bool) : FrameSealer :=
  { s with
    output := s.output ++ encryptFrame c s.key s.headerHash s.index final s.pending
    index := s.index + 1
    pending := []
    pending_le := Nat.zero_le _ }

def FrameSealer.frame (s : FrameSealer) (final : Bool) : Except SealFault FrameSealer :=
  if s.index ≥ maxFrames then .error .tooManyFrames else .ok (s.emitFrame c final)

/-- The copy into the pending buffer. -/
def FrameSealer.hold (s : FrameSealer) (bytes : Bytes)
    (h : (s.pending ++ bytes).length ≤ s.chunk) : FrameSealer :=
  { s with pending := s.pending ++ bytes, pending_le := h }

/-- How much of the input fits. -/
def FrameSealer.room (s : FrameSealer) (bytes : Bytes) : Nat :=
  min bytes.length (s.chunk - s.pending.length)

theorem FrameSealer.hold_le (s : FrameSealer) (bytes : Bytes) :
    (s.pending ++ bytes.take (s.room bytes)).length ≤ s.chunk := by
  have hle := s.pending_le
  rw [List.length_append, List.length_take, FrameSealer.room]
  omega

/-- A full buffer goes out as a frame once more input is there. -/
def FrameSealer.makeRoom (s : FrameSealer) : Except SealFault FrameSealer :=
  if s.pending.length = s.chunk then s.frame c false else .ok s

theorem FrameSealer.makeRoom_lt {s s' : FrameSealer} (h : s.makeRoom c = .ok s') :
    s'.pending.length < s'.chunk := by
  unfold makeRoom at h
  split at h
  · unfold frame at h
    split at h
    · cases h
    · cases h
      exact s.chunk_pos
  · next hne =>
      cases h
      exact Nat.lt_of_le_of_ne s.pending_le hne

/-- The loop of `update`. -/
def FrameSealer.feed (s : FrameSealer) (bytes : Bytes) : Except SealFault FrameSealer :=
  if _hne : bytes = [] then .ok s
  else
    match _hroom : s.makeRoom c with
    | .error e => .error e
    | .ok s' =>
        (s'.hold (bytes.take (s'.room bytes)) (s'.hold_le bytes)).feed
          (bytes.drop (s'.room bytes))
termination_by bytes.length
decreasing_by
  have hlt := FrameSealer.makeRoom_lt c _hroom
  have hpos := List.length_pos_iff.mpr _hne
  rw [List.length_drop, FrameSealer.room]
  omega

def FrameSealer.update (s : FrameSealer) (bytes : Bytes) : Except SealFault FrameSealer :=
  if s.result.isSome then .error .finished else s.start.feed c bytes

/-- The size and hash of what went out. -/
def sealResult (bytes : Bytes) : SealResult where
  size := bytes.length
  sha256 := String.ofList (toHex (c.sha256 bytes).1)

def FrameSealer.finish (s : FrameSealer) : Except SealFault FrameSealer :=
  if s.result.isSome then .error .finished
  else do
    let s ← s.start.frame c true
    .ok { s with result := some (sealResult c s.output.flatten) }

/-- A whole seal: the pieces given to `update` one by one, then `finish`. -/
def sealPieces (options : SealOptions) (ephemeral : c.PrivateKey) (salt : Bytes32)
    (pieces : List Bytes) : Except SealFault FrameSealer := do
  let s ← FrameSealer.new c options ephemeral salt
  let s ← pieces.foldlM (fun s bytes => s.update c bytes) s
  s.finish c

end

end OmniRush.Seal
