import Mathlib.Algebra.Group.Nat.Defs
import OmniRush.Archive.Session
import OmniRush.Archive.Manifest
import OmniRush.Lib.Bytes
import OmniRush.Lib.Json

/-!
# Queue records

One file a queued archive: the create request the drain will send, the name of
the sealed file, and how far its upload has come. `captureArchiveOnce` writes the
first version, the drain rewrites it as the upload goes on, and every reader goes
through `queueRecordSchema`.

The request has two declarations in the source, the producer's type
(`ArchiveCreateRequest` of `upload.ts`) and the schema that reads it back
(`createRequestSchema`). Both are here as they are. The fields of the request
that only native harness evidence sets are left out: no capture of a session
sets them.

A schema reads the fields it names from an object and drops the others.
-/

namespace OmniRush.Archive

open OmniRush

/-! ## The patterns -/

def isHexOf (length : Nat) (s : String) : Bool :=
  s.toList.length = length && s.toList.all isLowerHex

/-- `UUID_PATTERN`: lower-case hex in groups of 8, 4, 4, 4 and 12. -/
def isUuid (s : String) : Bool :=
  s.toList.length = 36 &&
    (s.toList.zipIdx.all fun (c, i) =>
      if i ∈ [8, 13, 18, 23] then c = '-' else isLowerHex c)

/-- `SESSION_ID_PATTERN`. -/
def isSessionId (s : String) : Bool :=
  8 ≤ s.toList.length && s.toList.length ≤ 128 &&
    s.toList.all fun c => ('A' ≤ c && c ≤ 'Z') || ('a' ≤ c && c ≤ 'z') || ('0' ≤ c && c ≤ '9')
      || c ∈ ['.', '_', ':', '-']

/-- `Number.MAX_SAFE_INTEGER`, the bound of a schema's integers. -/
def maxSafeInteger : Nat := 2 ^ 53 - 1

abbrev SafeNat := { n : Nat // n ≤ maxSafeInteger }

/-! ## The records -/

def sealContent : String := "tar+zstd"

/-- `content` has one value only, `sealContent`. -/
structure ArchiveCreateRequest where
  archiveId : String
  sessionId : String
  kind : ArchiveKind
  sequence : Nat
  turn : Nat
  parentArchiveId : Option String
  size : Nat
  sha256 : String
  kid : String
  marker : String
  mediaBytes : Option Int := none
  deriving DecidableEq, Repr

/-- `ArchiveUploadState`: a multipart upload, and the tags of the parts it has. -/
structure ArchiveUploadState where
  uploadId : String
  objectKey : String
  partSize : Nat
  partCount : Nat
  etags : List (String × String)
  partSize_pos : 0 < partSize ∧ partSize ≤ maxSafeInteger
  partCount_pos : 0 < partCount ∧ partCount ≤ maxSafeInteger
  etags_nodup : (etags.map (·.1)).Nodup
  deriving DecidableEq

structure QueueRecord where
  archiveId : String
  sessionKey : String
  request : ArchiveCreateRequest
  sealedFile : String
  trigger : Option ArchiveTrigger
  createdAt : String
  attempts : Nat
  nextAttemptAt : Option String
  recreates : Nat
  upload : Option ArchiveUploadState
  deriving DecidableEq

/-! ## What a capture writes -/

def mediaRootName : String := "__media__"

/-- The bytes of the chat's screenshots among an archive's files. -/
def mediaBytes (files : List ScannedEntry) : Int :=
  (files.filter fun e => e.type = .file && (mediaRootName ++ "/").toList.isPrefixOf e.path.toList).foldl
    (fun sum e => sum + e.size) 0

/-- What `captureArchiveOnce` has in hand when it builds a request. -/
structure Captured where
  state : SessionState
  kind : ArchiveKind
  turn : Nat
  options : CaptureOptions := {}
  archiveId : String
  files : List ScannedEntry
  /-- Of the sealed file. -/
  size : Nat
  sha256 : String
  kid : String
  createdAt : String
  deriving DecidableEq

/-- The request; `countsMedia` is the policy's `mediaBytes`. -/
def archiveRequest (c : Captured) (countsMedia : Bool) : ArchiveCreateRequest where
  archiveId := c.archiveId
  sessionId := c.state.sessionId
  kind := c.kind
  sequence := c.state.nextSequence
  turn := c.turn
  parentArchiveId := if c.kind = .base then none else c.state.lastArchiveId
  size := c.size
  sha256 := c.sha256
  kid := c.kid
  marker := c.state.marker
  mediaBytes := if mediaBytes c.files > 0 ∧ countsMedia then some (mediaBytes c.files) else none

def sealedFileName (archiveId : String) : String := archiveId ++ ".orseal"

def queueRecord (c : Captured) (sessionKey : String) (countsMedia : Bool) : QueueRecord where
  archiveId := c.archiveId
  sessionKey := sessionKey
  request := archiveRequest c countsMedia
  sealedFile := sealedFileName c.archiveId
  trigger := if c.kind = .delta then c.options.trigger else none
  createdAt := c.createdAt
  attempts := 0
  nextAttemptAt := none
  recreates := 0
  upload := none

/-- A capture past its guards: the ids and hashes have their form, and the
numbers are safe integers. -/
structure SoundCapture extends Captured where
  archiveId_uuid : isUuid archiveId
  sessionId_pattern : isSessionId state.sessionId
  sequence_safe : state.nextSequence ≤ maxSafeInteger
  turn_safe : turn ≤ maxSafeInteger
  lastArchiveId_uuid : ∀ id ∈ state.lastArchiveId, isUuid id
  size_pos : 0 < size ∧ size ≤ maxSafeInteger
  sha256_hex : isHexOf 64 sha256
  kid_hex : isHexOf 16 kid

/-- A record as the drain rewrites it: `persist` stores the upload and its
recreations, a deferred job its attempts and when the next one is due. -/
def QueueRecord.progress (r : QueueRecord) (attempts recreates : SafeNat)
    (nextAttemptAt : Option String) (upload : Option ArchiveUploadState) : QueueRecord :=
  { r with attempts := attempts.1, recreates := recreates.1, nextAttemptAt, upload }

/-! ## The text -/

def ArchiveKind.text : ArchiveKind → String
  | .base => "base"
  | .delta => "delta"

def ArchiveTrigger.text : ArchiveTrigger → String
  | .turn => "turn"
  | .final => "final"
  | .preTool => "pre_tool"

def ArchiveCreateRequest.json (r : ArchiveCreateRequest) : Json :=
  .obj ([("archive_id", .str r.archiveId), ("session_id", .str r.sessionId),
    ("kind", .str r.kind.text), ("sequence", .num r.sequence), ("turn", .num r.turn),
    ("parent_archive_id", nullable r.parentArchiveId), ("size", .num r.size),
    ("sha256", .str r.sha256), ("kid", .str r.kid), ("content", .str sealContent),
    ("marker", .str r.marker)] ++ (r.mediaBytes.map fun n => ("media_bytes", Json.num n)).toList)

/-- The tags in the order the object enumerates them. -/
def ArchiveUploadState.json (u : ArchiveUploadState) : Json :=
  .obj [("upload_id", .str u.uploadId), ("object_key", .str u.objectKey),
    ("part_size", .num u.partSize), ("part_count", .num u.partCount),
    ("etags", .obj (u.etags.map fun (part, etag) => (part, Json.str etag)))]

def QueueRecord.json (r : QueueRecord) : Json :=
  .obj ([("v", .num 1), ("archive_id", .str r.archiveId), ("session_key", .str r.sessionKey),
    ("request", r.request.json), ("sealed_file", .str r.sealedFile)]
    ++ (r.trigger.map fun t => ("trigger", Json.str t.text)).toList
    ++ [("created_at", .str r.createdAt), ("attempts", .num r.attempts),
      ("next_attempt_at", nullable r.nextAttemptAt), ("recreates", .num r.recreates),
      ("upload", r.upload.elim .null (·.json))])

/-- `writeJsonAtomic`: what the file holds. -/
def writeJsonAtomic (value : Json) : String := value.stringify ++ "\n"

/-! ## Reading -/

def readString (pattern : String → Bool) : Option Json → Option String
  | some (.str s) => if pattern s then some s else none
  | _ => none

/-- An integer of at least `min`. -/
def readNat (min : Nat) : Option Json → Option Nat
  | some (.num n) =>
      if (min : Int) ≤ n ∧ n ≤ (maxSafeInteger : Int) then some n.toNat else none
  | _ => none

def readNullable (pattern : String → Bool) : Option Json → Option (Option String)
  | some .null => some none
  | value => (readString pattern value).map some

def anyString : String → Bool := fun _ => true

def readKind : Option Json → Option ArchiveKind
  | some (.str s) => if s = "base" then some .base else if s = "delta" then some .delta else none
  | _ => none

/-- An optional field: absent, or one of the triggers. -/
def readTrigger : Option Json → Option (Option ArchiveTrigger)
  | none => some none
  | some (.str s) =>
      if s = "turn" then some (some .turn)
      else if s = "final" then some (some .final)
      else if s = "pre_tool" then some (some .preTool)
      else none
  | some _ => none

/-- `createRequestSchema`. -/
def createRequestSchema : Option Json → Option ArchiveCreateRequest
  | some (.obj fields) => do
      let archiveId ← readString isUuid (Json.field fields "archive_id")
      let sessionId ← readString isSessionId (Json.field fields "session_id")
      let kind ← readKind (Json.field fields "kind")
      let sequence ← readNat 0 (Json.field fields "sequence")
      let turn ← readNat 0 (Json.field fields "turn")
      let parentArchiveId ← readNullable isUuid (Json.field fields "parent_archive_id")
      let size ← readNat 1 (Json.field fields "size")
      let sha256 ← readString (isHexOf 64) (Json.field fields "sha256")
      let kid ← readString (isHexOf 16) (Json.field fields "kid")
      let _ ← readString (· = sealContent) (Json.field fields "content")
      let marker ← readString anyString (Json.field fields "marker")
      some { archiveId, sessionId, kind, sequence, turn, parentArchiveId, size, sha256, kid,
             marker }
  | _ => none

/-- The own properties of a parsed object, each name once. -/
def ownEntries (fields : List (String × Json)) : List (String × Json) :=
  (fields.map (·.1)).eraseDups.filterMap fun name =>
    (Json.field fields name).map fun value => (name, value)

/-- `z.record(z.string(), z.string())`. -/
def readEtags : Option Json → Option (List (String × String))
  | some (.obj fields) =>
      (ownEntries fields).mapM fun (name, value) =>
        (readString anyString (some value)).map fun etag => (name, etag)
  | _ => none

def readUploadState : Option Json → Option (Option ArchiveUploadState)
  | some .null => some none
  | some (.obj fields) => do
      let uploadId ← readString anyString (Json.field fields "upload_id")
      let objectKey ← readString anyString (Json.field fields "object_key")
      let partSize ← readNat 1 (Json.field fields "part_size")
      let partCount ← readNat 1 (Json.field fields "part_count")
      let etags ← readEtags (Json.field fields "etags")
      if h : (0 < partSize ∧ partSize ≤ maxSafeInteger)
          ∧ (0 < partCount ∧ partCount ≤ maxSafeInteger) ∧ (etags.map (·.1)).Nodup then
        some (some ⟨uploadId, objectKey, partSize, partCount, etags, h.1, h.2.1, h.2.2⟩)
      else none
  | _ => none

/-- `queueRecordSchema`. -/
def queueRecordSchema : Option Json → Option QueueRecord
  | some (.obj fields) =>
      match Json.field fields "v" with
      | some (.num 1) => do
          let archiveId ← readString isUuid (Json.field fields "archive_id")
          let sessionKey ← readString anyString (Json.field fields "session_key")
          let request ← createRequestSchema (Json.field fields "request")
          let sealedFile ← readString anyString (Json.field fields "sealed_file")
          let trigger ← readTrigger (Json.field fields "trigger")
          let createdAt ← readString anyString (Json.field fields "created_at")
          let attempts ← readNat 0 (Json.field fields "attempts")
          let nextAttemptAt ← readNullable anyString (Json.field fields "next_attempt_at")
          let recreates ← readNat 0 (Json.field fields "recreates")
          let upload ← readUploadState (Json.field fields "upload")
          some { archiveId, sessionKey, request, sealedFile, trigger, createdAt, attempts,
                 nextAttemptAt, recreates, upload }
      | _ => none
  | _ => none

/-- `readJsonFile`: `none` when the text is not JSON. -/
def readJsonFile (text : String) : Option Json := Json.parse text

def recordFileName (archiveId : String) : String := archiveId ++ ".json"

/-- `listQueue` on the files of the queue directory, by name, in its order. -/
def listQueue (files : List (String × String)) : List QueueRecord :=
  files.filterMap fun (name, text) =>
    if ".json".toList.isSuffixOf name.toList then
      (queueRecordSchema (readJsonFile text)).bind fun record =>
        if name = recordFileName record.archiveId then some record else none
    else none

end OmniRush.Archive
