import Mathlib.Data.List.Sort
import OmniRush.Box.Client
import OmniRush.Lib.Numeral
import OmniRush.Lib.OrderedCode
import OmniRush.Lib.TarStream

/-!
# A tar that is fetched in parts

`byteSorted`, `batchPaths`, `archiveBody` and `tarTo` of `client.ts`. A list of paths goes to the
box in several requests, each with a line that is not too long, and each answer is an archive. All
but the last are passed on up to their end, so that what is written is one archive.

What the file is written to, its digest and the exit codes of the requests are left out.
-/

namespace OmniRush.Box

/-! ## The requests -/

def pathBytes (path : String) : List Nat := path.toList.flatMap utf8Bytes

/-- `byteSorted`: in the order of the paths' bytes. -/
def byteSorted (paths : List String) : List String :=
  paths.insertionSort fun a b => pathBytes a ≤ pathBytes b

def tarRequest (paths : List String) : BoxRequest := { op := "tar", paths := some paths }

/-- `lineOverhead`: the bytes of a request's line with no paths. -/
def lineOverhead (token : String) : Nat := (requestLine token (tarRequest [])).length + 1

structure SkippedPath where
  path : String
  reason : String
  deriving DecidableEq, Repr

structure Batching where
  batches : List (List String) := []
  skipped : List SkippedPath := []
  current : List String := []
  size : Nat

/-- The bytes of a path's JSON text. -/
def jsonBytes (path : String) : Nat := ((Json.str path).chars.flatMap String.utf8EncodeChar).length

def Batching.cut (overhead : Nat) (s : Batching) : Batching :=
  { s with batches := s.batches ++ [s.current], current := [], size := overhead }

/-- The comma before a path that does not start a batch is counted with it. -/
def Batching.put (s : Batching) (path : String) : Batching :=
  { s with
    current := s.current ++ [path]
    size := s.size + jsonBytes path + (if s.current ≠ [] then 1 else 0) }

def Batching.add (budget overhead : Nat) (s : Batching) (path : String) : Batching :=
  if overhead + jsonBytes path > budget then
    { s with skipped := s.skipped ++ [⟨path, "path_too_long"⟩] }
  else if s.current ≠ [] ∧ s.size + jsonBytes path + 1 > budget then (s.cut overhead).put path
  else s.put path

/-- The batches, and the paths that are left out. -/
def batchPaths (budget overhead : Nat) (paths : List String) :
    List (List String) × List SkippedPath :=
  let s := paths.foldl (Batching.add budget overhead) { size := overhead }
  (if s.current ≠ [] then s.batches ++ [s.current] else s.batches, s.skipped)

/-! ## Header blocks -/

inductive TarError where
  | badNumber
  | checksum
  | extendedTooLarge
  | afterEnd
  | cut
  deriving DecidableEq, Repr

/-- Without spaces and NULs at both ends. -/
def trimField (field : Bytes) : Bytes :=
  ((field.dropWhile Tar.isBlank).reverse.dropWhile Tar.isBlank).reverse

/-- `tarNumber`. The bytes of a field are few enough for a finite number. -/
def tarNumber (field : Bytes) : Except TarError Nat :=
  match field with
  | first :: rest =>
      if 0x80 ≤ first.toNat then
        match toDouble (beNat ((first &&& 0x7f) :: rest)) with
        | some n => .ok n
        | none => .error .badNumber
      else
        let text := (trimField field).map Pax.charOf
        if text.all Tar.isOctal then .ok (Nat.ofDigitChars 8 text 0) else .error .badNumber
  | [] => .ok 0

/-- `Number` of a text, where that is a whole number and not negative. Decimal digits are read as
the double for their number. -/
structure NumberReader where
  read : List Char → Option Nat
  digits : ∀ cs, cs ≠ [] → cs.all Char.isDigit = true →
    read cs = toDouble (Nat.ofDigitChars 10 cs 0)

variable (numbers : NumberReader)

def maximumSafeInteger : Nat := 2 ^ 53 - 1

/-- The size in a record that is `size=` and a whole number. -/
def sizeIn (record : Bytes) : Option Nat :=
  match record.dropWhile (· ≠ 61) with
  | _ :: value =>
      if record.takeWhile (· ≠ 61) = Tar.sizeKey then
        match numbers.read (decodeUtf8From none value) with
        | some n => if n ≤ maximumSafeInteger then some n else none
        | none => none
      else none
  | [] => none

/-- The loop of `paxSize`, from a record on. -/
def paxSizeFrom : Nat → Bytes → Option Nat
  | 0, _ => none
  | fuel + 1, data =>
      let digits := data.takeWhile (· ≠ 32)
      if digits.length = data.length then none
      else
        match numbers.read (digits.map Pax.charOf) with
        | none => none
        | some length =>
            if length = 0 ∨ data.length < length then none
            else
              let record := (data.take (length - 1)).drop (digits.length + 1)
              match sizeIn numbers record with
              | some n => some n
              | none => paxSizeFrom fuel (data.drop length)

def paxSize (data : Bytes) : Option Nat := paxSizeFrom numbers data.length data

/-! ## The body of an archive -/

/-- What `archiveBody` keeps between chunks: the header block that is being filled, how much of a
content is left, and the extended header that is being read. -/
structure ArchiveBody where
  block : Bytes := []
  short : block.length < Pax.blockSize := by decide
  left : Nat := 0
  pax : Option Bytes := none
  paxLength : Nat := 0
  nextSize : Option Nat := none
  ended : Bool := false

def maximumExtended : Nat := 8388608

/-- The size of a content, in whole blocks. -/
def inBlocks (size : Nat) : Nat := (size + 511) / 512 * 512

/-- A header block that is whole. -/
def ArchiveBody.onBlock (s : ArchiveBody) (block : Bytes) :
    Except TarError (ArchiveBody × Bytes) := do
  if block.all (· = 0) then return ({ s with block := [], short := by decide, ended := true }, [])
  let sum ← tarNumber (Tar.sumField block)
  if sum ≠ Pax.checksum block then throw .checksum
  let type := Tar.typeflag block
  let stated ← tarNumber (Tar.sizeField block)
  let extended := type = Tar.extendedType ∨ type = Tar.globalType
  let size := if Tar.headerOnly type then 0 else if extended then stated else s.nextSize.getD stated
  let s : ArchiveBody :=
    { s with
      block := []
      short := by decide
      left := inBlocks size
      nextSize := if extended then s.nextSize else none }
  if type = Tar.extendedType ∧ size > 0 then
    if size > maximumExtended then throw .extendedTooLarge
    return ({ s with pax := some [], paxLength := size }, block)
  return (s, block)

/-- A piece of a content, of what is left at most. An extended header is read at its end. -/
def ArchiveBody.onContent (s : ArchiveBody) (piece : Bytes) : ArchiveBody :=
  let left := s.left - piece.length
  match s.pax.map (· ++ piece) with
  | none => { s with left }
  | some data =>
      if left = 0 then
        { s with left, pax := none, nextSize := paxSize numbers (data.take s.paxLength) }
      else { s with left, pax := some data }

/-- `push`: what is written of a chunk. -/
def ArchiveBody.push (s : ArchiveBody) (chunk : Bytes) : Except TarError (ArchiveBody × Bytes) :=
  if _hchunk : chunk = [] then .ok (s, [])
  else if s.ended then if chunk.all (· = 0) then .ok (s, []) else .error .afterEnd
  else if _hleft : 0 < s.left then do
    let (s', out) ← (s.onContent numbers (chunk.take s.left)).push (chunk.drop s.left)
    return (s', chunk.take s.left ++ out)
  else if hshort : (s.block ++ chunk).length < Pax.blockSize then
    .ok ({ s with block := s.block ++ chunk, short := hshort }, [])
  else do
    let (s', header) ← s.onBlock ((s.block ++ chunk).take Pax.blockSize)
    let (s'', out) ← s'.push (chunk.drop (Pax.blockSize - s.block.length))
    return (s'', header ++ out)
termination_by chunk.length
decreasing_by
  · have hpos := List.length_pos_iff.mpr _hchunk
    rw [List.length_drop]
    omega
  · have hpos := List.length_pos_iff.mpr _hchunk
    have hroom := s.short
    rw [List.length_drop]
    omega

/-- `end`. -/
def ArchiveBody.finish (s : ArchiveBody) : Except TarError Unit :=
  if s.ended then .ok () else .error .cut

def ArchiveBody.pushAll (s : ArchiveBody) : List Bytes → Except TarError (ArchiveBody × Bytes)
  | [] => .ok (s, [])
  | chunk :: chunks => do
      let (s', out) ← s.push numbers chunk
      let (s'', more) ← s'.pushAll chunks
      return (s'', out ++ more)

/-! ## The call -/

/-- One part but the last, as it is written. -/
def archivePart (chunks : List Bytes) : Except TarError Bytes := do
  let (s, out) ← ({} : ArchiveBody).pushAll numbers chunks
  s.finish
  return out

/-- `tarTo`, from the chunks of each request's answer: nothing that a request could carry is still
an archive. -/
def tarTo : List (List Bytes) → Except TarError Bytes
  | [] => .ok (List.replicate 1024 0)
  | [last] => .ok last.flatten
  | part :: next :: parts => do
      let out ← archivePart numbers part
      let more ← tarTo (next :: parts)
      return out ++ more

end OmniRush.Box
