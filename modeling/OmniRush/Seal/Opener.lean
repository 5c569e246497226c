import OmniRush.Seal.Sealer

/-!
# Opening

`ByteReader` and `openSealed` of `seal.ts`. The reader takes the source in
whatever pieces it comes, keeps what it has not handed out, and can look one byte
ahead. The opener reads the header, then frame after frame; a frame is the final
one when it is short or when nothing follows it, and the tag proves the guess.

`openSealed` is a generator: it has yielded some plaintext when it fails. Its
result here is what was yielded together with how it ended.
-/

namespace OmniRush.Seal

open OmniRush

inductive SealErrorCode where
  | badMagic
  | badHeader
  | unsupportedVersion
  | unknownKid
  | badFrameLength
  | tagMismatch
  | truncated
  | frameAfterFinal
  deriving DecidableEq, Repr

/-! ## The reader -/

/-- The buffered pieces, and what the source will still yield. -/
structure ByteReader where
  buffered : List Bytes
  source : List Bytes

namespace ByteReader

/-- The loop of `fill`. -/
def fillFrom (wanted : Nat) : List Bytes → List Bytes → ByteReader
  | buffered, [] => ⟨buffered, []⟩
  | buffered, piece :: source =>
      if wanted ≤ buffered.flatten.length then ⟨buffered, piece :: source⟩
      else if piece.length = 0 then fillFrom wanted buffered source
      else fillFrom wanted (buffered ++ [piece]) source

def fill (r : ByteReader) (wanted : Nat) : ByteReader := fillFrom wanted r.buffered r.source

/-- Up to `count` bytes; fewer only at the end of the source. -/
def read (r : ByteReader) (count : Nat) : Bytes × ByteReader :=
  let r := r.fill count
  let joined := r.buffered.flatten
  let take := min count joined.length
  let rest := joined.drop take
  (joined.take take, { r with buffered := if rest.length > 0 then [rest] else [] })

def more (r : ByteReader) : Bool × ByteReader :=
  let r := r.fill 1
  (r.buffered.flatten.length > 0, r)

/-- What is still to be read. -/
def remaining (r : ByteReader) : Bytes := r.buffered.flatten ++ r.source.flatten

theorem fillFrom_remaining (wanted : Nat) (buffered source : List Bytes) :
    (fillFrom wanted buffered source).remaining = buffered.flatten ++ source.flatten := by
  induction source generalizing buffered with
  | nil => rfl
  | cons piece source ih =>
      rw [fillFrom]
      split
      · rfl
      · split
        · next hempty =>
            rw [ih, List.eq_nil_of_length_eq_zero hempty]
            rfl
        · rw [ih, List.flatten_append, List.append_assoc]
          simp

theorem fillFrom_enough (wanted : Nat) (buffered source : List Bytes) :
    wanted ≤ (fillFrom wanted buffered source).buffered.flatten.length ∨
      (fillFrom wanted buffered source).source = [] := by
  induction source generalizing buffered with
  | nil => exact .inr rfl
  | cons piece source ih =>
      rw [fillFrom]
      split
      · next henough => exact .inl henough
      · split
        · exact ih buffered
        · exact ih _

theorem fill_enough (r : ByteReader) (wanted : Nat) :
    wanted ≤ (r.fill wanted).buffered.flatten.length ∨ (r.fill wanted).source = [] :=
  fillFrom_enough ..

theorem fill_remaining (r : ByteReader) (wanted : Nat) :
    (r.fill wanted).remaining = r.remaining := fillFrom_remaining ..

theorem fill_take (r : ByteReader) (wanted : Nat) :
    (r.fill wanted).buffered.flatten.take wanted = r.remaining.take wanted := by
  rw [← fill_remaining r wanted, remaining]
  rcases fill_enough r wanted with henough | hend
  · rw [List.take_append_of_le_length henough]
  · rw [hend, List.flatten_nil, List.append_nil]

theorem read_fst (r : ByteReader) (count : Nat) :
    (r.read count).1 = r.remaining.take count := by
  rw [← fill_take]
  simp only [read]
  rw [List.take_eq_take_iff]
  omega

theorem read_remaining (r : ByteReader) (count : Nat) :
    (r.read count).2.remaining = r.remaining.drop count := by
  rw [← fill_remaining r count]
  have hbuffer : ∀ rest : Bytes, (if rest.length > 0 then [rest] else []).flatten = rest := by
    intro rest
    cases rest <;> simp
  simp only [read, remaining, hbuffer]
  rcases fill_enough r count with henough | hend
  · rw [Nat.min_eq_left henough, List.drop_append_of_le_length henough]
  · rw [hend, List.flatten_nil, List.append_nil, List.append_nil, List.drop_eq_drop_iff]
    omega

theorem more_fst (r : ByteReader) : r.more.1 = decide (r.remaining ≠ []) := by
  have htake := fill_take r 1
  simp only [more]
  rw [decide_eq_decide]
  constructor
  · intro hpos hnil
    rw [hnil, List.take_nil] at htake
    cases hbuf : (r.fill 1).buffered.flatten with
    | nil => rw [hbuf] at hpos; exact absurd hpos (by simp)
    | cons b bs => rw [hbuf] at htake; cases htake
  · intro hne
    cases hbuf : (r.fill 1).buffered.flatten with
    | nil =>
        rw [hbuf] at htake
        cases hrem : r.remaining with
        | nil => exact absurd hrem hne
        | cons b bs => rw [hrem] at htake; cases htake
    | cons b bs => simp

theorem more_remaining (r : ByteReader) : r.more.2.remaining = r.remaining := fill_remaining r 1

end ByteReader

/-! ## The header -/

section

variable (c : Primitives)

structure SealKey where
  kid : String
  privateKey : c.PrivateKey
  publicRaw : Bytes32

/-- `sealKeyring`: the first key of a kid stays. -/
def sealKeyring (privateKeys : List c.PrivateKey) : List (String × SealKey c) :=
  privateKeys.foldl (fun keyring privateKey =>
    let publicRaw := c.publicRaw privateKey
    let kid := sealKid c publicRaw
    if (keyring.lookup kid).isSome then keyring
    else keyring ++ [(kid, ⟨kid, privateKey, publicRaw⟩)]) []

structure OpenedHeader where
  chunk : Nat
  key : Bytes
  headerHash : Bytes
  kid : String

/-- The fatal UTF-8 decoder; a leading byte order mark is dropped. -/
def decodeUtf8 (bytes : Bytes) : Option (List Char) :=
  (ByteArray.mk bytes.toArray).utf8Decode?.map fun cs =>
    if cs.toList.head? = some (Char.ofNat 0xfeff) then cs.toList.tail else cs.toList

def isBase64Of32 (cs : List Char) : Bool :=
  cs.length = 44 && (cs.take 43).all (fun ch => (b64Value ch).isSome) && cs.drop 43 = ['=']

/-- 32 bytes from their one canonical text. -/
def canonicalBase64Of32 : Option Json → Except SealErrorCode Bytes32
  | some (.str value) =>
      if isBase64Of32 value.toList then
        let raw := ofBase64 value.toList
        if hraw : raw.length = 32 then
          if toBase64 raw = value.toList then .ok ⟨raw, hraw⟩ else .error .badHeader
        else .error .badHeader
      else .error .badHeader
  | _ => .error .badHeader

def headerKeys : List String := ["alg", "chunk", "content", "epk", "kid", "salt", "v"]

def isKid (kid : String) : Bool := kid.toList.length = 16 && kid.toList.all isLowerHex

/-- The chunk size and kid of a header whose fields are all as they must be. -/
def headerFields (fields : List (String × Json)) (expectedContent : SealContent) :
    Option (Nat × String) :=
  let keys := (fields.map (·.1)).eraseDups
  match Json.field fields "alg", Json.field fields "content", Json.field fields "chunk",
    Json.field fields "kid" with
  | some (.str alg), some (.str content), some (.num chunk), some (.str kid) =>
      if keys.length = headerKeys.length ∧ (∀ key ∈ keys, key ∈ headerKeys) ∧ alg = sealAlg
          ∧ content = expectedContent.text ∧ (sealMinChunk : Int) ≤ chunk
          ∧ chunk ≤ (sealMaxChunk : Int) ∧ isKid kid then
        some (chunk.toNat, kid)
      else none
  | _, _, _, _ => none

/-- The parsed header against the keyring. -/
def openHeaderJson (header : Json) (magic rawLength head : Bytes)
    (keyring : List (String × SealKey c)) (expectedContent : SealContent) :
    Except SealErrorCode OpenedHeader :=
  match header with
  | .obj fields =>
      match Json.field fields "v" with
      | some (.num version) =>
          if version ≠ 1 then .error .unsupportedVersion
          else
            match headerFields fields expectedContent with
            | none => .error .badHeader
            | some (chunk, kid) => do
                let epk ← canonicalBase64Of32 (Json.field fields "epk")
                let salt ← canonicalBase64Of32 (Json.field fields "salt")
                match keyring.lookup kid with
                | none => .error .unknownKid
                | some recipient =>
                    match c.agree recipient.privateKey epk with
                    | none => .error .badHeader
                    | some shared =>
                        .ok
                          { chunk
                            kid
                            key := deriveKey c shared salt.1 epk.1 recipient.publicRaw.1
                            headerHash := (c.sha256 (magic ++ rawLength ++ head)).1 }
      | _ => .error .badHeader
  | _ => .error .badHeader

def openHeader (r : ByteReader) (keyring : List (String × SealKey c))
    (expectedContent : SealContent) : Except SealErrorCode (OpenedHeader × ByteReader) :=
  let magic := (r.read 8).1
  let r := (r.read 8).2
  if magic ≠ sealMagic then .error .badMagic
  else
    let rawLength := (r.read 4).1
    let r := (r.read 4).2
    if rawLength.length < 4 then .error .truncated
    else
      let length := beNat rawLength
      if length = 0 ∨ length > sealMaxHeaderLen then .error .badHeader
      else
        let head := (r.read length).1
        let r := (r.read length).2
        if head.length < length then .error .truncated
        else
          match (decodeUtf8 head).bind Json.parseChars with
          | none => .error .badHeader
          | some header =>
              (openHeaderJson c header magic rawLength head keyring expectedContent).map
                fun opened => (opened, r)

/-! ## The frames -/

/-- The loop of `openSealed`, from frame `index` on. -/
def openFrames (header : OpenedHeader) (index : Nat) (r : ByteReader) :
    List Bytes × Except SealErrorCode String :=
  if _h4 : (r.read 4).1.length < 4 then ([], .error .truncated)
  else
    let length := beNat (r.read 4).1
    if length < tagLen ∨ length > header.chunk + tagLen then ([], .error .badFrameLength)
    else
      let body := (r.read 4).2.read length
      let frame := body.1
      if frame.length < length then ([], .error .truncated)
      else
        let more := body.2.more.1
        let full := decide (length = header.chunk + tagLen)
        let final := !full || !more
        match decryptFrame c header.key header.headerHash index final frame with
        | none =>
            if full ∧ (decryptFrame c header.key header.headerHash index (!final) frame).isSome
            then ([], .error (if final then .truncated else .frameAfterFinal))
            else ([], .error .tagMismatch)
        | some plaintext =>
            if final then
              if more then ([plaintext], .error .frameAfterFinal)
              else ([plaintext], .ok header.kid)
            else
              let rest := openFrames header (index + 1) body.2.more.2
              (plaintext :: rest.1, rest.2)
termination_by r.remaining.length
decreasing_by
  have h4 : (r.read 4).1.length = min 4 r.remaining.length := by
    rw [ByteReader.read_fst, List.length_take]
  rw [ByteReader.more_remaining, ByteReader.read_remaining, ByteReader.read_remaining,
    List.length_drop, List.length_drop]
  omega

/-- The pieces yielded, and the kid or the error it ended with. -/
def openSealed (source : List Bytes) (keyring : List (String × SealKey c))
    (expectedContent : SealContent) : List Bytes × Except SealErrorCode String :=
  match openHeader c ⟨[], source⟩ keyring expectedContent with
  | .error e => ([], .error e)
  | .ok (header, r) => openFrames c header 0 r

end

/-!
## An ideal cipher and hash, on given streams

What the rejection of altered streams rests on. The cipher is ideal on a stream when
no piece of the stream decrypts, under any key, nonce and associated data, except as
the output of a call of the cipher that was made with them; the calls made are those
of the seal the stream is compared with, one a frame. The hash is taken as injective
on what is hashed: the beginnings of the two streams. On all strings no hash of a fixed
length is.
-/

/-- A call of the cipher. -/
structure Call where
  key : Bytes
  nonce : Bytes
  aad : Bytes
  plaintext : Bytes
  deriving DecidableEq, Repr

/-- The calls for the chunks of a seal, from frame `index` on. The last one is final. -/
def frameCalls (key headerHash : Bytes) : Nat → List Bytes → List Call
  | _, [] => []
  | index, p :: ps =>
      ⟨key, frameNonce index, frameAad headerHash index ps.isEmpty, p⟩
        :: frameCalls key headerHash (index + 1) ps

/-- An input cut into full chunks and a rest that is only empty on its own. -/
def chunks (size : Nat) (plain : Bytes) : List Bytes :=
  if _h : size = 0 ∨ plain.length ≤ size then [plain]
  else plain.take size :: chunks size (plain.drop size)
termination_by plain.length
decreasing_by
  rw [List.length_drop]
  omega

/-- The calls a sealer makes for an input. -/
def FrameSealer.calls (s : FrameSealer) (plain : Bytes) : List Call :=
  frameCalls s.key s.headerHash 0 (chunks s.chunk plain)

section

variable (c : Primitives)

/-- The frame a call gives: length, ciphertext, tag. -/
def Call.frame (call : Call) : Bytes :=
  let (body, tag) := c.encrypt call.key call.nonce call.aad call.plaintext
  beBytes 4 (call.plaintext.length + tagLen) ++ (body ++ tag)

/-- The frames a sealer writes for an input. -/
def FrameSealer.frames (s : FrameSealer) (plain : Bytes) : List Bytes :=
  (s.calls plain).map (Call.frame c)

/-- No piece of the stream decrypts unless a call with that key, nonce and associated
data gave it. -/
def IdealOn (calls : List Call) (stream : Bytes) : Prop :=
  ∀ (key nonce aad body tag p : Bytes), (body ++ tag) <:+: stream → tag.length = tagLen →
    c.decrypt key nonce aad body tag = some p →
    ∃ call ∈ calls, call.key = key ∧ call.nonce = nonce ∧ call.aad = aad ∧
      c.encrypt call.key call.nonce call.aad call.plaintext = (body, tag)

/-- Beginnings of the two streams with one hash are one. -/
def HashApart (stream stream' : Bytes) : Prop :=
  ∀ a b, a <+: stream → b <+: stream' → c.sha256 a = c.sha256 b → a = b

end

end OmniRush.Seal
