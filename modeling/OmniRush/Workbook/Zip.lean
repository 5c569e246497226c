import Mathlib.Algebra.Order.Ring.Int
import OmniRush.Lib.Checked
import OmniRush.Lib.Utf8
import OmniRush.Lib.View

/-!
# The ZIP container of a workbook

The bounded reader and the small writer of `ooxml-package.ts`. The reader finds the end
record, walks the central directory it names, and reads an entry through the local
header the directory points at; every number it follows comes from the file. The writer
puts one local record per file, then the directory, then the end record.

What the platform's compression streams give is a parameter (`Codec`): the chunks of the
stream in order, and whether the stream fails behind them. An offset is a natural number
here, since the sums the code forms of 32-bit numbers are exact.
-/

namespace OmniRush.Workbook

def ZIP_LOCAL_FILE_HEADER : Nat := 0x04034b50
def ZIP_CENTRAL_DIRECTORY_HEADER : Nat := 0x02014b50
def ZIP_END_OF_CENTRAL_DIRECTORY : Nat := 0x06054b50
def ZIP_FLAG_ENCRYPTED : Nat := 0x0001
def ZIP_FLAG_DATA_DESCRIPTOR : Nat := 0x0008
def ZIP_FLAG_STRONG_ENCRYPTION : Nat := 0x0040
def ZIP_STORED : Nat := 0
def ZIP_DEFLATE : Nat := 8
def MAX_COMPRESSED_BYTES : Nat := 12 * 1024 * 1024
def MAX_ZIP_ENTRIES : Nat := 128
def MAX_TOTAL_UNCOMPRESSED_BYTES : Nat := 10 * 1024 * 1024
def MAX_ENTRY_UNCOMPRESSED_BYTES : Nat := 2 * 1024 * 1024
def MAX_ZIP_COMPRESSION_RATIO : Nat := 100

structure ZipEntry where
  name : String
  flags : Nat
  method : Nat
  compressedSize : Nat
  uncompressedSize : Nat
  localOffset : Nat
deriving DecidableEq

/-- A file to write; its name is a sequence of 16-bit units. -/
structure ZipFileInput where
  name : List Nat
  data : Bytes

/-- What ends a call: an error of this code's own, with its message, a read past the end
of the array, or a compression stream that fails. -/
inductive ZipError where
  | thrown (message : String)
  | range
  | stream
deriving DecidableEq

/-- What a stream gives, and whether it fails behind that. -/
structure ByteStream where
  chunks : List Bytes
  fails : Bool

structure Codec where
  deflate : Bytes → ByteStream
  inflate : Bytes → ByteStream

def utf8Text (bytes : Bytes) : String := String.ofList (decodeUtf8Text bytes)

def utf8Bytes (text : List Nat) : Bytes := encodeUtf8 text

def ZipFileInput.text (file : ZipFileInput) : String := String.ofList (scalars file.name)

def getUint16 (bytes : Bytes) (offset : Nat) : Except ZipError Nat :=
  match getUint 2 bytes offset with
  | some n => .ok n
  | none => .error .range

def getUint32 (bytes : Bytes) (offset : Nat) : Except ZipError Nat :=
  match getUint 4 bytes offset with
  | some n => .ok n
  | none => .error .range

def setUint16 (bytes : Bytes) (offset value : Nat) : Bytes := setUint 2 bytes offset value

def setUint32 (bytes : Bytes) (offset value : Nat) : Bytes := setUint 4 bytes offset value

/-! ## Streams -/

def concatBytes (chunks : List Bytes) : Bytes := chunks.flatten

def readChunks (fails : Bool) (limit : Nat) (label : String) :
    List Bytes → Nat → List Bytes → Except ZipError Bytes
  | [], _, chunks => if fails then .error .stream else .ok (concatBytes chunks)
  | value :: rest, total, chunks =>
      if limit < total + value.length then
        .error (.thrown s!"ZIP entry {label} inflated beyond its declared size.")
      else readChunks fails limit label rest (total + value.length) (chunks ++ [value])

def readStreamBounded (stream : ByteStream) (limit : Nat) (label : String) :
    Except ZipError Bytes :=
  readChunks stream.fails limit label stream.chunks 0 []

def inflateRaw (codec : Codec) (data : Bytes) (limit : Nat) (label : String) :
    Except ZipError Bytes :=
  readStreamBounded (codec.inflate data) limit label

def deflateRaw (codec : Codec) (data : Bytes) : Except ZipError Bytes :=
  readStreamBounded (codec.deflate data) (MAX_ENTRY_UNCOMPRESSED_BYTES + 1024) "(deflate)"

/-! ## Reading -/

/-- The offsets below `bound`, the last first, down to `start`. -/
def endOfCentralDirectoryFrom (bytes : Bytes) (start : Nat) : Nat → Except ZipError Nat
  | 0 => .error (.thrown "ZIP end-of-central-directory not found.")
  | offset + 1 =>
      if offset < start then .error (.thrown "ZIP end-of-central-directory not found.")
      else do
        let signature ← getUint32 bytes offset
        if signature ≠ ZIP_END_OF_CENTRAL_DIRECTORY then
          endOfCentralDirectoryFrom bytes start offset
        else do
          let commentLength ← getUint16 bytes (offset + 20)
          if offset + 22 + commentLength = bytes.length then .ok offset
          else endOfCentralDirectoryFrom bytes start offset

/-- From the last offset an end record fits at; an array too short for one has none. -/
def findEndOfCentralDirectory (bytes : Bytes) : Except ZipError Nat :=
  endOfCentralDirectoryFrom bytes (bytes.length - 0xffff - 22) (bytes.length + 1 - 22)

def rejectUnsafeZipFlags (flags : Nat) (name : String) : Except ZipError Unit := do
  reject (flags &&& ZIP_FLAG_ENCRYPTED ≠ 0) (.thrown s!"ZIP entry {name} is encrypted.")
  reject (flags &&& ZIP_FLAG_STRONG_ENCRYPTION ≠ 0)
    (.thrown s!"ZIP entry {name} uses strong encryption.")

def localSizeMatches (localFlags localSize centralSize : Nat) : Bool :=
  if localSize = centralSize then true
  else localFlags &&& ZIP_FLAG_DATA_DESCRIPTOR ≠ 0 && localSize = 0

/-- The entry of the directory at `cursor`, and where the next one begins. A quotient of
two 32-bit numbers is rounded to more than 100 only where it is more. -/
def centralEntry (bytes : Bytes) (centralEnd cursor : Nat) : Except ZipError (ZipEntry × Nat) := do
  reject (centralEnd < cursor + 46) (.thrown "Invalid ZIP central directory entry.")
  let signature ← getUint32 bytes cursor
  reject (signature ≠ ZIP_CENTRAL_DIRECTORY_HEADER)
    (.thrown "Invalid ZIP central directory entry.")
  let flags ← getUint16 bytes (cursor + 8)
  let method ← getUint16 bytes (cursor + 10)
  let compressedSize ← getUint32 bytes (cursor + 20)
  let uncompressedSize ← getUint32 bytes (cursor + 24)
  let nameLength ← getUint16 bytes (cursor + 28)
  let extraLength ← getUint16 bytes (cursor + 30)
  let commentLength ← getUint16 bytes (cursor + 32)
  let localOffset ← getUint32 bytes (cursor + 42)
  reject (compressedSize = 0xffffffff ∨ uncompressedSize = 0xffffffff ∨ localOffset = 0xffffffff)
    (.thrown "ZIP64 archives are not supported.")
  reject (centralEnd < cursor + 46 + nameLength + extraLength + commentLength)
    (.thrown "ZIP central directory entry is out of bounds.")
  let name := utf8Text (subarray bytes (cursor + 46) (cursor + 46 + nameLength))
  rejectUnsafeZipFlags flags name
  reject (method ≠ ZIP_STORED ∧ method ≠ ZIP_DEFLATE)
    (.thrown s!"ZIP entry {name} uses unsupported compression method {method}.")
  reject (MAX_ENTRY_UNCOMPRESSED_BYTES < uncompressedSize)
    (.thrown s!"ZIP entry {name} exceeds per-entry uncompressed limit.")
  reject (0 < uncompressedSize ∧ compressedSize = 0)
    (.thrown s!"ZIP entry {name} has an invalid compression ratio.")
  reject (0 < compressedSize ∧ MAX_ZIP_COMPRESSION_RATIO * compressedSize < uncompressedSize)
    (.thrown s!"ZIP entry {name} exceeds compression ratio limit.")
  return (⟨name, flags, method, compressedSize, uncompressedSize, localOffset⟩,
    cursor + 46 + nameLength + extraLength + commentLength)

/-- The loop over the directory: the entries, and where it stopped. -/
def centralEntries (bytes : Bytes) (centralEnd : Nat) :
    Nat → Nat → Nat → Except ZipError (List ZipEntry × Nat)
  | 0, cursor, _ => .ok ([], cursor)
  | count + 1, cursor, totalUncompressed => do
      let (entry, next) ← centralEntry bytes centralEnd cursor
      reject (MAX_TOTAL_UNCOMPRESSED_BYTES < totalUncompressed + entry.uncompressedSize)
        (.thrown "ZIP archive exceeds total uncompressed limit.")
      let (entries, stop) ←
        centralEntries bytes centralEnd count next (totalUncompressed + entry.uncompressedSize)
      return (entry :: entries, stop)

def listZipEntries (bytes : Bytes) : Except ZipError (List ZipEntry) := do
  reject (MAX_COMPRESSED_BYTES < bytes.length) (.thrown "ZIP input exceeds compressed byte limit.")
  let eocd ← findEndOfCentralDirectory bytes
  let disk ← getUint16 bytes (eocd + 4)
  let centralDisk ← getUint16 bytes (eocd + 6)
  let countOnDisk ← getUint16 bytes (eocd + 8)
  let count ← getUint16 bytes (eocd + 10)
  let centralSize ← getUint32 bytes (eocd + 12)
  let centralOffset ← getUint32 bytes (eocd + 16)
  let centralEnd := centralOffset + centralSize
  reject (disk ≠ 0 ∨ centralDisk ≠ 0 ∨ countOnDisk ≠ count)
    (.thrown "Multi-disk ZIP archives are not supported.")
  reject (count = 0xffff ∨ centralSize = 0xffffffff ∨ centralOffset = 0xffffffff)
    (.thrown "ZIP64 archives are not supported.")
  reject (MAX_ZIP_ENTRIES < count)
    (.thrown s!"ZIP entry count {count} exceeds limit {MAX_ZIP_ENTRIES}.")
  reject (bytes.length < centralOffset + centralSize)
    (.thrown "ZIP central directory is out of bounds.")
  reject (eocd < centralEnd)
    (.thrown "ZIP central directory overlaps the end-of-central-directory record.")
  let (entries, cursor) ← centralEntries bytes centralEnd count centralOffset 0
  reject (cursor ≠ centralEnd)
    (.thrown "ZIP central directory size does not match its entries.")
  return entries

/-- The data of an entry out of what the archive keeps of it. -/
def unpacked (codec : Codec) (entry : ZipEntry) (compressed : Bytes) : Except ZipError Bytes :=
  if entry.method = ZIP_STORED then .ok compressed
  else inflateRaw codec compressed entry.uncompressedSize entry.name

def readZipEntryData (codec : Codec) (bytes : Bytes) (entry : ZipEntry) :
    Except ZipError Bytes := do
  let cursor := entry.localOffset
  reject (bytes.length < cursor + 30) (.thrown s!"Invalid local ZIP header for {entry.name}.")
  let signature ← getUint32 bytes cursor
  reject (signature ≠ ZIP_LOCAL_FILE_HEADER)
    (.thrown s!"Invalid local ZIP header for {entry.name}.")
  let localFlags ← getUint16 bytes (cursor + 6)
  let localMethod ← getUint16 bytes (cursor + 8)
  let localCompressedSize ← getUint32 bytes (cursor + 18)
  let localUncompressedSize ← getUint32 bytes (cursor + 22)
  let nameLength ← getUint16 bytes (cursor + 26)
  let extraLength ← getUint16 bytes (cursor + 28)
  rejectUnsafeZipFlags localFlags entry.name
  reject (localMethod ≠ entry.method) (.thrown s!"ZIP method mismatch for {entry.name}.")
  reject (localSizeMatches localFlags localCompressedSize entry.compressedSize = false ∨
      localSizeMatches localFlags localUncompressedSize entry.uncompressedSize = false)
    (.thrown s!"ZIP size mismatch for {entry.name}.")
  reject (bytes.length < cursor + 30 + nameLength + extraLength)
    (.thrown s!"ZIP local header for {entry.name} is out of bounds.")
  let localName := utf8Text (subarray bytes (cursor + 30) (cursor + 30 + nameLength))
  reject (localName ≠ entry.name)
    (.thrown s!"ZIP local header name mismatch for {entry.name}.")
  let dataStart := cursor + 30 + nameLength + extraLength
  reject (bytes.length < dataStart + entry.compressedSize)
    (.thrown s!"ZIP data for {entry.name} is out of bounds.")
  let compressed := subarray bytes dataStart (dataStart + entry.compressedSize)
  let data ← unpacked codec entry compressed
  reject (data.length ≠ entry.uncompressedSize)
    (.thrown s!"ZIP uncompressed size mismatch for {entry.name}.")
  return data

/-! ## Writing -/

/-- One bit of the table's entry: a shift, and the polynomial where a bit drops out. -/
def crcShift (c : UInt32) : UInt32 :=
  if c &&& 1 ≠ 0 then (0xedb88320 : UInt32) ^^^ (c >>> 1) else c >>> 1

def crcTable : List UInt32 := (List.range 256).map fun n => Nat.repeat crcShift 8 (UInt32.ofNat n)

def crcStep (crc : UInt32) (byte : UInt8) : UInt32 :=
  crcTable.getD ((crc ^^^ byte.toUInt32) &&& 0xff).toNat 0 ^^^ (crc >>> 8)

def crc32 (bytes : Bytes) : UInt32 := bytes.foldl crcStep 0xffffffff ^^^ (0xffffffff : UInt32)

def zeros (n : Nat) : Bytes := List.replicate n 0

def localHeader (method checksum storedLength dataLength nameLength : Nat) : Bytes :=
  let view := setUint32 (zeros 30) 0 ZIP_LOCAL_FILE_HEADER
  let view := setUint16 view 4 20
  let view := setUint16 view 6 0
  let view := setUint16 view 8 method
  let view := setUint32 view 14 checksum
  let view := setUint32 view 18 storedLength
  let view := setUint32 view 22 dataLength
  setUint16 view 26 nameLength

def centralHeader (method checksum storedLength dataLength nameLength offset : Nat) : Bytes :=
  let view := setUint32 (zeros 46) 0 ZIP_CENTRAL_DIRECTORY_HEADER
  let view := setUint16 view 4 20
  let view := setUint16 view 6 20
  let view := setUint16 view 8 0
  let view := setUint16 view 10 method
  let view := setUint32 view 16 checksum
  let view := setUint32 view 20 storedLength
  let view := setUint32 view 24 dataLength
  let view := setUint16 view 28 nameLength
  setUint32 view 42 offset

def endRecord (count centralSize offset : Nat) : Bytes :=
  let view := setUint32 (zeros 22) 0 ZIP_END_OF_CENTRAL_DIRECTORY
  let view := setUint16 view 8 count
  let view := setUint16 view 10 count
  let view := setUint32 view 12 centralSize
  setUint32 view 16 offset

/-- Whether deflating pays and stays within the ratio the reader takes. -/
def useDeflate (data deflated : Bytes) : Bool :=
  deflated.length < data.length &&
    data.length ≤ MAX_ZIP_COMPRESSION_RATIO * max 1 deflated.length

/-- What the writer's loop has so far. -/
structure ZipBuild where
  localChunks : List Bytes
  centralChunks : List Bytes
  offset : Nat
  totalUncompressed : Nat

def addFile (codec : Codec) (build : ZipBuild) (file : ZipFileInput) :
    Except ZipError ZipBuild := do
  reject (MAX_ENTRY_UNCOMPRESSED_BYTES < file.data.length)
    (.thrown s!"ZIP entry {file.text} exceeds per-entry uncompressed limit.")
  let totalUncompressed := build.totalUncompressed + file.data.length
  reject (MAX_TOTAL_UNCOMPRESSED_BYTES < totalUncompressed)
    (.thrown "ZIP archive exceeds total uncompressed limit.")
  let deflated ← deflateRaw codec file.data
  let stored := if useDeflate file.data deflated then deflated else file.data
  let method := if useDeflate file.data deflated then ZIP_DEFLATE else ZIP_STORED
  let name := utf8Bytes file.name
  let checksum := (crc32 file.data).toNat
  let header := localHeader method checksum stored.length file.data.length name.length
  let central :=
    centralHeader method checksum stored.length file.data.length name.length build.offset
  return {
    localChunks := build.localChunks ++ [header, name, stored]
    centralChunks := build.centralChunks ++ [central, name]
    offset := build.offset + header.length + name.length + stored.length
    totalUncompressed }

def buildZip (codec : Codec) (files : List ZipFileInput) : Except ZipError Bytes := do
  reject (MAX_ZIP_ENTRIES < files.length)
    (.thrown s!"ZIP entry count {files.length} exceeds limit {MAX_ZIP_ENTRIES}.")
  let build ← files.foldlM (addFile codec) ⟨[], [], 0, 0⟩
  let centralSize := (build.centralChunks.map List.length).sum
  return concatBytes
    (build.localChunks ++ build.centralChunks ++ [endRecord files.length centralSize build.offset])

end OmniRush.Workbook
