import OmniRush.Archive.Manifest
import OmniRush.Lib.Pax
import OmniRush.Lib.Triple

/-!
# Packing an archive

Pass 2 of a capture, `pack.ts`: the headers of a pax tar, and `TarWriter`, which writes the
manifest, the entries streamed from disk and the list of those that changed into blocks of
an output.

The disk while pass 2 runs is given by entry: what is at its path when the writer comes to
it, whether it can be opened, and what each read returns, so a file may shrink, grow, be
replaced or be rewritten at any time. The consumer and the signal may stop the writer at
any block.
-/

namespace OmniRush.Archive

open OmniRush

def manifestMember : String := "__omnirush__/manifest.json"
def unstableMember : String := "__omnirush__/unstable.json"
def unstableSchema : String := "omnirush.archive.unstable.v1"
def tarBlock : Nat := 512
def outputBlock : Nat := 1048576
def maxOctal11 : Nat := 8589934591
def paxHeaderName : Bytes := Pax.ascii "././@PaxHeader".toList

def utf8 (s : String) : Bytes := s.toUTF8.data.toList

/-! ## Headers -/

inductive Typeflag where
  | file
  | link
  | dir
  | extended
  deriving DecidableEq, Repr

def Typeflag.byte : Typeflag → UInt8
  | .file => 48
  | .link => 50
  | .dir => 53
  | .extended => 120

def isAscii (bytes : Bytes) : Bool := bytes.all (· < 0x80)

def asciiFallback (bytes : Bytes) : Bytes :=
  (bytes.take 100).map fun b => if b ≥ 0x80 then 0x5f else b

/-- `value.toString(8).padStart(width, "0")`. -/
def octalText (width value : Nat) : List Char :=
  List.replicate (width - (Nat.toDigits 8 value).length) '0' ++ Nat.toDigits 8 value

/-- `writeOctal`: the digits and a NUL; `none` where it throws. -/
def writeOctal (width value : Nat) : Option Bytes :=
  if (octalText (width - 1) value).length > width - 1 then none
  else some (Pax.ascii (octalText (width - 1) value) ++ [0])

def clampMtime (seconds : Rat) : Nat := (min (max seconds.floor 0) maxOctal11).toNat

/-- `mode & 0o7777`. -/
def modeBits (mode : Int) : Nat := (mode % 4096).toNat

/-- A text copied into a field of zeros. -/
def textField (width : Nat) (text : Bytes) : Bytes :=
  text.take width ++ List.replicate (width - (text.take width).length) 0

def ustarFields (name mode zero size mtime checksum : Bytes) (typeflag : Typeflag)
    (linkname : Bytes) : List Bytes :=
  [textField 100 name, mode, zero, zero, size, mtime, checksum, [typeflag.byte],
    textField 100 linkname, Pax.ascii ['u', 's', 't', 'a', 'r'] ++ [0], Pax.ascii ['0', '0'],
    List.replicate 32 0, List.replicate 32 0, zero, zero, List.replicate 155 0,
    List.replicate 12 0]

/-- The checksum's six digits, a NUL and a space. -/
def checksumField (sum : Nat) : Bytes := Pax.ascii ((octalText 6 sum).take 6) ++ [0, 0x20]

def ustarHeader (name : Bytes) (mode : Int) (size mtime : Nat) (typeflag : Typeflag)
    (linkname : Option Bytes) : Option Bytes := do
  let mode ← writeOctal 8 (modeBits mode)
  let zero ← writeOctal 8 0
  let size ← writeOctal 12 size
  let mtime ← writeOctal 12 mtime
  let block := fun checksum =>
    (ustarFields name mode zero size mtime checksum typeflag (linkname.getD [])).flatten
  some (block (checksumField (Pax.byteSum (block (List.replicate 8 0x20)))))

/-- The loop of `paxRecord`: the number of digits that counts itself. -/
def paxDigits (rest : Nat) : Nat → Nat → Nat
  | 0, digits => digits
  | fuel + 1, digits =>
      if (Nat.toDigits 10 (rest + digits)).length ≠ digits then paxDigits rest fuel (digits + 1)
      else digits

def paxRecord (key value : String) : String :=
  let rest := (utf8 (" " ++ key ++ "=" ++ value ++ "\n")).length
  String.ofList (Nat.toDigits 10 (rest + paxDigits rest (rest + 2) 1))
    ++ (" " ++ key ++ "=" ++ value ++ "\n")

def paddingFor (size : Nat) : Nat := (tarBlock - size % tarBlock) % tarBlock

structure TarMember where
  name : String
  mode : Int
  size : Nat
  mtime : Rat
  typeflag : Typeflag
  linkname : Option String := none

/-- Longer than its ustar field, or not in its alphabet. -/
def needsRecord (text : Bytes) : Bool := text.length > 100 || !isAscii text

def ustarText (text : Bytes) : Bytes := if needsRecord text then asciiFallback text else text

def TarMember.records (m : TarMember) : List String :=
  (if needsRecord (utf8 m.name) then [paxRecord "path" m.name] else [])
    ++ (m.linkname.elim [] fun linkname =>
      if needsRecord (utf8 linkname) then [paxRecord "linkpath" linkname] else [])
    ++ (if m.size > maxOctal11 then
      [paxRecord "size" (String.ofList (Nat.toDigits 10 m.size))] else [])

def tarMemberHeader (m : TarMember) : Option Bytes := do
  let header ← ustarHeader (ustarText (utf8 m.name)) m.mode
    (if m.size > maxOctal11 then 0 else m.size) (clampMtime m.mtime) m.typeflag
    (m.linkname.map fun linkname => ustarText (utf8 linkname))
  if m.records = [] then some header
  else do
    let body := utf8 (String.join m.records)
    let extended ← ustarHeader paxHeaderName 0o644 body.length (clampMtime m.mtime) .extended none
    some (extended ++ (body ++ List.replicate (paddingFor body.length) 0) ++ header)

/-! ## What is packed -/

/-- A manifest's bytes by pieces, and the size they are to have. -/
structure ManifestSource where
  size : Nat
  chunks : List Bytes

def bufferSource (content : Bytes) : ManifestSource := ⟨content.length, [content]⟩

structure PackEntry extends ScannedEntry where
  size_nonneg : 0 ≤ size

structure PackInput where
  manifest : ManifestSource
  extraMembers : List (String × Bytes) := []
  createdAtSeconds : Rat
  entries : List PackEntry
  /-- Whether the path separator is that of Windows. -/
  win32 : Bool := false

/-- What `fstat` says. -/
structure Stats where
  isFile : Bool
  size : Nat
  mtimeNs : Nat
  dev : Nat
  ino : Nat
  deriving DecidableEq, Repr

/-- The disk while pass 2 runs, by the entry the writer is at, and the consumer. -/
structure PackDisk where
  /-- What is at the entry's path. -/
  file : Nat → Option Stats
  opens : Nat → Bool
  /-- The bytes a read finds, or that it fails. -/
  read : Nat → Nat → Option Bytes
  /-- Whether a path above it is a directory, and no link. -/
  isDirectory : Nat → List String → Bool
  outsideFolderIsReal : Nat → Bool
  isLink : Nat → Bool
  readlink : Nat → Option String
  /-- Asked in turn: the signal, and whether a block is taken. -/
  aborted : Nat → Bool
  takes : Nat → Bool

structure Packing where
  tick : Nat := 0
  emitted : List Bytes := []
  block : Bytes := []
  tarBytes : Nat := 0
  unstable : List String := []
  parents : List (String × Bool) := []
  finished : Bool := false
  /-- Ghost: the entries a read of which failed or came to the end too early. -/
  endedEarly : List Nat := []

inductive PackError where
  | rangeError
  | aborted
  | output
  | changed (name : String)

abbrev Pack := Code Packing PackError

section

variable (disk : PackDisk)

/-! ## Blocks -/

def throwIfAborted : Pack Unit := do
  let s ← get
  set { s with tick := s.tick + 1 }
  if disk.aborted s.tick then throw .aborted

/-- `onOutputBytes`, and the block is taken. -/
def emit : Pack Unit := do
  let s ← get
  set { s with
    tick := s.tick + 1
    emitted := s.emitted ++ [s.block]
    block := []
    tarBytes := s.tarBytes + s.block.length }
  if disk.takes s.tick = false then throw .output

def rotate : Pack Unit := do
  throwIfAborted disk
  emit disk

def rotateIfFull : Pack Unit := do
  if (← get).block.length = outputBlock then rotate disk

def fill (bytes : Bytes) : Pack Unit := modify fun s => { s with block := s.block ++ bytes }

/-- The loop of `put`, and of `zeros` over that many zeros. -/
def fillLoop : Nat → Bytes → Pack Unit
  | 0, _ => pure ()
  | fuel + 1, bytes =>
      if bytes = [] then pure ()
      else do
        rotateIfFull disk
        let take := min bytes.length (outputBlock - (← get).block.length)
        fill (bytes.take take)
        fillLoop fuel (bytes.drop take)

def put (bytes : Bytes) : Pack Unit := fillLoop disk bytes.length bytes

def zeros (count : Nat) : Pack Unit := put disk (List.replicate count 0)

def putHeader (m : TarMember) : Pack Unit :=
  match tarMemberHeader m with
  | some header => put disk header
  | none => throw .rangeError

/-- The pieces of a source, and how much they were; it stops past the size. -/
def putPieces (size : Nat) : List Bytes → Nat → Pack Nat
  | [], written => pure written
  | piece :: pieces, written =>
      if written + piece.length > size then pure (written + piece.length)
      else do
        put disk piece
        putPieces size pieces (written + piece.length)

def smallFile (createdAtSeconds : Rat) (name : String) (source : ManifestSource) : Pack Unit := do
  putHeader disk { name, mode := 0o644, size := source.size, mtime := createdAtSeconds, typeflag := .file }
  let written ← putPieces disk source.size source.chunks 0
  if written ≠ source.size then throw (.changed name)
  else zeros disk (paddingFor source.size)

/-! ## Where an entry is read from -/

def outsideRootName : String := "__outside__"

def isOutsideArchivePath (path : String) : Bool :=
  (outsideRootName ++ "/").toList.isPrefixOf path.toList

def archiveParts (path : String) : List String := (path.toList.splitOn '/').map String.ofList

/-- `outsideSourcePath`: the inverse of `outsideArchivePath`, or none. -/
def outsideSourcePath (win32 : Bool) (path : String) : Option String :=
  let parts := archiveParts (String.ofList (path.toList.drop (outsideRootName.length + 1)))
  if isOutsideArchivePath path = false ∨ parts.length < 2 ∨
      parts.any (fun part => part = "" || part = "." || part = "..") then none
  else if win32 then
    match parts with
    | drive :: rest =>
        if drive.length = 1 ∧ drive.toList.all (fun c => 'A' ≤ c && c ≤ 'Z') then
          some (drive ++ ":\\" ++ "\\".intercalate rest)
        else none
    | [] => none
  else some ("/" ++ "/".intercalate parts)

/-- The folders above the last entry that this one has too. -/
def keptParents : List (String × Bool) → List String → List (String × Bool)
  | parent :: parents, name :: names =>
      if parent.1 = name then parent :: keptParents parents names else []
  | _, _ => []

/-- The folders the walk enters: a folder under one that is not real is not asked. -/
def newParents (isDirectory : List String → Bool) : List String → Bool → List String →
    List (String × Bool)
  | _, _, [] => []
  | above, real, name :: names =>
      (name, real && isDirectory (above ++ [name]))
        :: newParents isDirectory (above ++ [name]) (real && isDirectory (above ++ [name])) names

/-- Whether the last of these folders is real; the root is. -/
def lastReal (parents : List (String × Bool)) : Bool := parents.getLast?.elim true (·.2)

def parentsInRoot (index : Nat) (parts : List String) : Pack Bool := do
  let s ← get
  let kept := keptParents s.parents parts.dropLast
  let parents := kept ++ newParents (disk.isDirectory index) (kept.map (·.1)) (lastReal kept)
    (parts.dropLast.drop kept.length)
  set { s with parents := parents }
  pure (lastReal parents)

def inRoot (win32 : Bool) (index : Nat) (entry : PackEntry) : Pack Bool :=
  if isOutsideArchivePath entry.path then
    pure ((outsideSourcePath win32 entry.path).isSome && entry.type = .file
      && disk.outsideFolderIsReal index)
  else parentsInRoot disk index (archiveParts entry.path)

/-! ## Contents -/

/-- `isSameFileIdentity`: a blank stat key is no file's. -/
def isSameFileIdentity (entry : PackEntry) (stats : Stats) : Bool :=
  entry.dev = stats.dev && entry.statKey.any fun key => key.ino = stats.ino

/-- The size and the modification time that pass 1 saw. -/
def isSameStat (entry : PackEntry) (stats : Stats) : Bool :=
  stats.size = entry.size
    && entry.statKey.any fun key => key.size = stats.size && key.mtimeNs = stats.mtimeNs

/-- The file that is read, if it is: the one pass 1 saw, under real folders. -/
def openEntry (index : Nat) (entry : PackEntry) (parentsInRoot : Bool) : Option Stats :=
  if parentsInRoot ∧ disk.opens index then
    (disk.file index).filter fun stats => stats.isFile && isSameFileIdentity entry stats
  else none

/-- The loop of `fileContent`: what is still to be read, and what was. -/
def readContent (index : Nat) : Nat → Nat → Nat → Bytes → Pack (Nat × Bytes)
  | 0, _, remaining, hashed => pure (remaining, hashed)
  | fuel + 1, turn, remaining, hashed =>
      if remaining = 0 then pure (0, hashed)
      else do
        rotateIfFull disk
        let want := min remaining (outputBlock - (← get).block.length)
        let bytes := ((disk.read index turn).getD []).take want
        if bytes = [] then do
          modify fun s => { s with endedEarly := s.endedEarly ++ [index] }
          pure (remaining, hashed)
        else do
          fill bytes
          readContent index fuel (turn + 1) (remaining - bytes.length) (hashed ++ bytes)

/-- `fileContent`, with the hash of the bytes in hexadecimal. -/
def fileContent (sha256 : Bytes → String) (index : Nat) (entry : PackEntry)
    (parentsInRoot : Bool) : Pack Bool := do
  match openEntry disk index entry parentsInRoot with
  | none => do
      zeros disk entry.size.toNat
      pure false
  | some stats => do
      let (remaining, hashed) ← readContent disk index entry.size.toNat 0 entry.size.toNat []
      zeros disk remaining
      pure (isSameStat entry stats && remaining = 0 && some (sha256 hashed) = entry.sha256)

def noteUnstable (stable : Bool) (path : String) : Pack Unit :=
  if stable then pure () else modify fun s => { s with unstable := s.unstable ++ [path] }

/-! ## The writer -/

def writeFile (sha256 : Bytes → String) (index : Nat) (entry : PackEntry) (parentsInRoot : Bool) :
    Pack Unit := do
  putHeader disk {
    name := entry.path, mode := entry.mode, size := entry.size.toNat, mtime := entry.mtime
    typeflag := .file }
  let stable ← fileContent disk sha256 index entry parentsInRoot
  zeros disk (paddingFor entry.size.toNat)
  noteUnstable stable entry.path

def isStableLink (index : Nat) (target : String) (parentsInRoot : Bool) : Bool :=
  parentsInRoot && disk.isLink index && disk.readlink index = some target

def writeLink (index : Nat) (entry : PackEntry) (parentsInRoot : Bool) : Pack Unit := do
  putHeader disk {
    name := entry.path, mode := entry.mode, size := 0, mtime := entry.mtime, typeflag := .link
    linkname := some (entry.target.getD "") }
  noteUnstable (isStableLink disk index (entry.target.getD "") parentsInRoot) entry.path

/-- Bytes prepared in pass 1. -/
def writePrepared (entry : PackEntry) (content : Bytes) : Pack Unit := do
  putHeader disk {
    name := entry.path, mode := entry.mode, size := content.length, mtime := entry.mtime
    typeflag := .file }
  put disk content
  zeros disk (paddingFor content.length)

def writeDir (entry : PackEntry) : Pack Unit :=
  putHeader disk {
    name := entry.path ++ "/", mode := entry.mode, size := 0, mtime := entry.mtime
    typeflag := .dir }

/-- A staged file is read from its own path, whatever the folders above it. -/
def isStaged (entry : PackEntry) : Bool := entry.source.any (· ≠ "")

def writeEntry (sha256 : Bytes → String) (win32 : Bool) (index : Nat) (entry : PackEntry) :
    Pack Unit := do
  throwIfAborted disk
  match entry.type, entry.content with
  | .dir, _ => writeDir disk entry
  | .file, some content => writePrepared disk entry content
  | .file, none =>
      if isStaged entry then writeFile disk sha256 index entry true
      else do
        let real ← inRoot disk win32 index entry
        writeFile disk sha256 index entry real
  | .symlink, _ => do
      let real ← inRoot disk win32 index entry
      writeLink disk index entry real

def writeEntries (sha256 : Bytes → String) (win32 : Bool) : Nat → List PackEntry → Pack Unit
  | _, [] => pure ()
  | index, entry :: entries => do
      writeEntry disk sha256 win32 index entry
      writeEntries sha256 win32 (index + 1) entries

def smallFiles (createdAtSeconds : Rat) : List (String × Bytes) → Pack Unit
  | [] => pure ()
  | (name, content) :: members => do
      smallFile disk createdAtSeconds name (bufferSource content)
      smallFiles createdAtSeconds members

/-- `JSON.stringify` of the list of entries that changed. -/
def unstableJson (paths : List String) : Bytes :=
  utf8 (Json.obj [("schema", .str unstableSchema), ("paths", .arr (paths.map .str))]).stringify

def writeUnstable (createdAtSeconds : Rat) : Pack Unit := do
  let s ← get
  if s.unstable = [] then pure ()
  else do
    set { s with unstable := sortByPath id s.unstable }
    smallFile disk createdAtSeconds unstableMember
      (bufferSource (unstableJson (sortByPath id s.unstable)))

def emitLast : Pack Unit := do
  if (← get).block.length > 0 then emit disk else pure ()

def write (sha256 : Bytes → String) (input : PackInput) : Pack Unit := do
  smallFile disk input.createdAtSeconds manifestMember input.manifest
  smallFiles disk input.createdAtSeconds input.extraMembers
  writeEntries disk sha256 input.win32 0 input.entries
  writeUnstable disk input.createdAtSeconds
  zeros disk (2 * tarBlock)
  emitLast disk
  modify fun s => { s with finished := true }

end

end OmniRush.Archive
