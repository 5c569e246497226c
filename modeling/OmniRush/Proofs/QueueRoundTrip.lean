import OmniRush.Archive.Queue
import OmniRush.Lib.Lists
import OmniRush.Lib.JsonRoundTrip

/-!
# Queue records through the disk

Each schema reads back what its writer wrote, field by field, except that
`createRequestSchema` names no `media_bytes`: the field goes (`readBack`). So a
request survives its record exactly when it carries none
(`archiveRequest_survives_iff`).
-/

namespace OmniRush.Archive

open OmniRush

/-! ## Fields -/

theorem readString_str {pattern : String → Bool} {s : String} (h : pattern s = true) :
    readString pattern (some (.str s)) = some s := if_pos h

theorem readNat_num {min n : Nat} (hmin : min ≤ n) (hmax : n ≤ maxSafeInteger) :
    readNat min (some (.num n)) = some n := by
  have hmin' : (min : Int) ≤ n := Int.ofNat_le.mpr hmin
  have hmax' : (n : Int) ≤ (maxSafeInteger : Int) := Int.ofNat_le.mpr hmax
  show (if _ ∧ _ then some (n : Int).toNat else none) = _
  rw [if_pos ⟨hmin', hmax'⟩, Int.toNat_natCast]

theorem readNullable_nullable {pattern : String → Bool} {s : Option String}
    (h : ∀ t ∈ s, pattern t = true) : readNullable pattern (some (nullable s)) = some s := by
  cases s with
  | none => rfl
  | some t =>
      show (readString pattern (some (.str t))).map some = _
      rw [readString_str (h t rfl)]
      rfl

theorem readKind_text (kind : ArchiveKind) : readKind (some (.str kind.text)) = some kind := by
  cases kind <;> rfl

theorem readTrigger_text (trigger : Option ArchiveTrigger) :
    readTrigger (trigger.map fun t => Json.str t.text) = some trigger := by
  rcases trigger with _ | t
  · rfl
  · cases t <;> rfl

/-! ## Objects -/

theorem field_of_mem {fields : List (String × Json)} (h : (fields.map (·.1)).Nodup)
    {f : String × Json} (hf : f ∈ fields) : Json.field fields f.1 = some f.2 := by
  unfold Json.field
  cases hfind : fields.reverse.find? (fun g => g.1 = f.1) with
  | none =>
      have hno := List.find?_eq_none.mp hfind f (List.mem_reverse.mpr hf)
      exact absurd (decide_eq_true rfl) hno
  | some g =>
      have hname : g.1 = f.1 := by simpa using List.find?_some hfind
      have hmem : g ∈ fields := List.mem_reverse.mp (List.mem_of_find?_eq_some hfind)
      rw [List.inj_on_of_nodup_map h hmem hf hname]
      rfl

theorem ownEntries_eq {fields : List (String × Json)} (h : (fields.map (·.1)).Nodup) :
    ownEntries fields = fields := by
  have hfield : ∀ f ∈ fields, (Json.field fields f.1).map (fun value => (f.1, value)) = some f := by
    intro f hf
    rw [field_of_mem h hf]
    rfl
  unfold ownEntries
  rw [eraseDups_of_nodup h, List.filterMap_map]
  calc fields.filterMap (fun f => (Json.field fields f.1).map fun value => (f.1, value))
      = fields.filterMap some := List.filterMap_congr hfield
    _ = fields := List.filterMap_some

theorem readEtags_json {etags : List (String × String)} (h : (etags.map (·.1)).Nodup) :
    readEtags (some (.obj (etags.map fun (part, etag) => (part, Json.str etag)))) = some etags := by
  have hnames : ((etags.map fun (part, etag) => (part, Json.str etag)).map (·.1)).Nodup := by
    rw [List.map_map]
    exact h
  show (ownEntries _).mapM _ = _
  rw [ownEntries_eq hnames]
  clear h hnames
  induction etags with
  | nil => rfl
  | cons e etags ih =>
      rw [List.map_cons, List.mapM_cons, ih]
      rfl

theorem readUploadState_json (upload : Option ArchiveUploadState) :
    readUploadState (some (upload.elim .null (·.json))) = some upload := by
  rcases upload with _ | u
  · rfl
  · have hobject : (some u).elim Json.null (·.json) = u.json := rfl
    rw [hobject]
    unfold ArchiveUploadState.json
    show (do
      let uploadId ← readString anyString (some (.str u.uploadId))
      let objectKey ← readString anyString (some (.str u.objectKey))
      let partSize ← readNat 1 (some (.num u.partSize))
      let partCount ← readNat 1 (some (.num u.partCount))
      let etags ← readEtags (some (.obj (u.etags.map fun (part, etag) => (part, Json.str etag))))
      if h : (0 < partSize ∧ partSize ≤ maxSafeInteger)
          ∧ (0 < partCount ∧ partCount ≤ maxSafeInteger) ∧ (etags.map (·.1)).Nodup then
        some (some ⟨uploadId, objectKey, partSize, partCount, etags, h.1, h.2.1, h.2.2⟩)
      else none) = some (some u)
    rw [readNat_num u.partSize_pos.1 u.partSize_pos.2,
      readNat_num u.partCount_pos.1 u.partCount_pos.2, readEtags_json u.etags_nodup]
    exact dif_pos ⟨u.partSize_pos, u.partCount_pos, u.etags_nodup⟩

/-- A request as the schema reads it back. -/
def ArchiveCreateRequest.readBack (r : ArchiveCreateRequest) : ArchiveCreateRequest :=
  { r with mediaBytes := none }

/-- A request whose fields have the form the schema asks for. -/
structure ArchiveCreateRequest.Sound (r : ArchiveCreateRequest) : Prop where
  archiveId_uuid : isUuid r.archiveId = true
  sessionId_pattern : isSessionId r.sessionId = true
  sequence_safe : r.sequence ≤ maxSafeInteger
  turn_safe : r.turn ≤ maxSafeInteger
  parent_uuid : ∀ id ∈ r.parentArchiveId, isUuid id = true
  size_pos : 0 < r.size ∧ r.size ≤ maxSafeInteger
  sha256_hex : isHexOf 64 r.sha256 = true
  kid_hex : isHexOf 16 r.kid = true

/-- What the schema reads of a request, whether or not it carries media bytes. -/
theorem createRequestSchema_json {r : ArchiveCreateRequest} (h : r.Sound) :
    createRequestSchema (some r.json) = some r.readBack := by
  have hfields : createRequestSchema (some r.json) = (do
      let archiveId ← readString isUuid (some (.str r.archiveId))
      let sessionId ← readString isSessionId (some (.str r.sessionId))
      let kind ← readKind (some (.str r.kind.text))
      let sequence ← readNat 0 (some (.num r.sequence))
      let turn ← readNat 0 (some (.num r.turn))
      let parentArchiveId ← readNullable isUuid (some (nullable r.parentArchiveId))
      let size ← readNat 1 (some (.num r.size))
      let sha256 ← readString (isHexOf 64) (some (.str r.sha256))
      let kid ← readString (isHexOf 16) (some (.str r.kid))
      let _ ← readString (· = sealContent) (some (.str sealContent))
      let marker ← readString anyString (some (.str r.marker))
      some ({ archiveId, sessionId, kind, sequence, turn, parentArchiveId, size, sha256, kid,
              marker } : ArchiveCreateRequest)) := by
    unfold ArchiveCreateRequest.json
    cases r.mediaBytes <;> rfl
  rw [hfields, readString_str h.archiveId_uuid, readString_str h.sessionId_pattern,
    readKind_text, readNat_num (Nat.zero_le _) h.sequence_safe,
    readNat_num (Nat.zero_le _) h.turn_safe, readNullable_nullable h.parent_uuid,
    readNat_num h.size_pos.1 h.size_pos.2, readString_str h.sha256_hex, readString_str h.kid_hex]
  rfl

structure QueueRecord.Sound (r : QueueRecord) : Prop where
  archiveId_uuid : isUuid r.archiveId = true
  request : r.request.Sound
  attempts_safe : r.attempts ≤ maxSafeInteger
  recreates_safe : r.recreates ≤ maxSafeInteger

def QueueRecord.readBack (r : QueueRecord) : QueueRecord :=
  { r with request := r.request.readBack }

theorem queueRecordSchema_json {r : QueueRecord} (h : r.Sound) :
    queueRecordSchema (some r.json) = some r.readBack := by
  have hfields : queueRecordSchema (some r.json) = (do
      let archiveId ← readString isUuid (some (.str r.archiveId))
      let sessionKey ← readString anyString (some (.str r.sessionKey))
      let request ← createRequestSchema (some r.request.json)
      let sealedFile ← readString anyString (some (.str r.sealedFile))
      let trigger ← readTrigger (r.trigger.map fun t => Json.str t.text)
      let createdAt ← readString anyString (some (.str r.createdAt))
      let attempts ← readNat 0 (some (.num r.attempts))
      let nextAttemptAt ← readNullable anyString (some (nullable r.nextAttemptAt))
      let recreates ← readNat 0 (some (.num r.recreates))
      let upload ← readUploadState (some (r.upload.elim .null (·.json)))
      some ({ archiveId, sessionKey, request, sealedFile, trigger, createdAt, attempts,
              nextAttemptAt, recreates, upload } : QueueRecord)) := by
    unfold QueueRecord.json
    cases r.trigger <;> rfl
  rw [hfields, readString_str h.archiveId_uuid, createRequestSchema_json h.request,
    readTrigger_text, readNat_num (Nat.zero_le _) h.attempts_safe,
    readNullable_nullable (by intro t _; rfl), readNat_num (Nat.zero_le _) h.recreates_safe,
    readUploadState_json]
  rfl

/-! ## Files -/

theorem readJsonFile_writeJsonAtomic (value : Json) :
    readJsonFile (writeJsonAtomic value) = some value := by
  have htext : (writeJsonAtomic value).toList = value.chars ++ ['\n'] := by
    rw [writeJsonAtomic, String.toList_append, Json.stringify, String.toList_ofList]
    rfl
  unfold readJsonFile Json.parse
  rw [htext]
  exact Json.parseChars_chars value ['\n'] rfl rfl

theorem recordFileName_json (archiveId : String) :
    ".json".toList.isSuffixOf (recordFileName archiveId).toList = true := by
  rw [recordFileName, String.toList_append, List.isSuffixOf_iff_suffix]
  exact List.suffix_append ..

/-- The file a record is kept in. -/
def QueueRecord.file (r : QueueRecord) : String × String :=
  (recordFileName r.archiveId, writeJsonAtomic r.json)

/-- A queue of written records lists them in its order, as they are read back. -/
theorem listQueue_files {records : List QueueRecord} (h : ∀ r ∈ records, r.Sound) :
    listQueue (records.map QueueRecord.file) = records.map QueueRecord.readBack := by
  induction records with
  | nil => rfl
  | cons r records ih =>
      have hfile : (if ".json".toList.isSuffixOf (recordFileName r.archiveId).toList then
          (queueRecordSchema (readJsonFile (writeJsonAtomic r.json))).bind fun record =>
            if recordFileName r.archiveId = recordFileName record.archiveId then some record
            else none
          else none) = some r.readBack := by
        rw [if_pos (recordFileName_json r.archiveId), readJsonFile_writeJsonAtomic,
          queueRecordSchema_json (h r (by simp))]
        exact if_pos rfl
      have hrest := ih fun s hs => h s (List.mem_cons_of_mem _ hs)
      rw [listQueue] at hrest ⊢
      rw [List.map_cons, List.map_cons, ← hrest]
      exact List.filterMap_cons_some hfile

theorem listQueue_file {r : QueueRecord} (h : r.Sound) : listQueue [r.file] = [r.readBack] := by
  have hall : ∀ s ∈ [r], s.Sound := by
    intro s hs
    rw [List.mem_singleton.mp hs]
    exact h
  exact listQueue_files hall

/-! ## Requests -/

theorem archiveRequest_sound (c : SoundCapture) (countsMedia : Bool) :
    (archiveRequest c.toCaptured countsMedia).Sound where
  archiveId_uuid := c.archiveId_uuid
  sessionId_pattern := c.sessionId_pattern
  sequence_safe := c.sequence_safe
  turn_safe := c.turn_safe
  parent_uuid := by
    intro id hid
    unfold archiveRequest at hid
    split at hid
    · cases hid
    · exact c.lastArchiveId_uuid id hid
  size_pos := c.size_pos
  sha256_hex := c.sha256_hex
  kid_hex := c.kid_hex

theorem progress_sound (c : SoundCapture) (sessionKey : String) (countsMedia : Bool)
    (attempts recreates : SafeNat) (nextAttemptAt : Option String)
    (upload : Option ArchiveUploadState) :
    ((queueRecord c.toCaptured sessionKey countsMedia).progress attempts recreates nextAttemptAt
      upload).Sound where
  archiveId_uuid := c.archiveId_uuid
  request := archiveRequest_sound c countsMedia
  attempts_safe := attempts.2
  recreates_safe := recreates.2

theorem readBack_eq_iff (r : ArchiveCreateRequest) : r.readBack = r ↔ r.mediaBytes = none := by
  constructor
  · intro h
    rw [← h]
    rfl
  · intro h
    cases r
    cases h
    rfl

theorem archiveRequest_mediaBytes (c : Captured) (countsMedia : Bool) :
    (archiveRequest c countsMedia).mediaBytes = none
      ↔ mediaBytes c.files ≤ 0 ∨ countsMedia = false := by
  show (if _ then _ else _) = _ ↔ _
  split
  · next h =>
      rw [h.2]
      have hpos := h.1
      constructor
      · intro hnone
        cases hnone
      · rintro (hle | hfalse)
        · omega
        · cases hfalse
  · next h =>
      refine ⟨fun _ => ?_, fun _ => rfl⟩
      cases countsMedia with
      | false => exact .inr rfl
      | true => exact .inl (Int.not_lt.mp fun hpos => h ⟨hpos, rfl⟩)

/-- The request the drain posts is the one the capture built exactly when that
one counts no media bytes, whatever upload progress the record has meanwhile. -/
theorem archiveRequest_survives_iff (c : SoundCapture) (sessionKey : String) (countsMedia : Bool)
    (attempts recreates : SafeNat) (nextAttemptAt : Option String)
    (upload : Option ArchiveUploadState) :
    (listQueue [((queueRecord c.toCaptured sessionKey countsMedia).progress attempts recreates
        nextAttemptAt upload).file]).map (·.request)
      = [archiveRequest c.toCaptured countsMedia]
      ↔ mediaBytes c.files ≤ 0 ∨ countsMedia = false := by
  rw [listQueue_file (progress_sound ..), ← archiveRequest_mediaBytes, ← readBack_eq_iff]
  exact List.singleton_inj

/-- A screenshot of five bytes, for a server that counts media bytes. -/
def screenshotCapture : SoundCapture where
  state := (SessionState.fresh "session-1" "git" true false)
  kind := .base
  turn := 0
  archiveId := "00000000-0000-4000-8000-000000000001"
  files := [{ path := "__media__/1.png", type := .file, mode := 0o644, size := 5, sha256 := none }]
  size := 4096
  sha256 := String.ofList (List.replicate 64 'a')
  kid := String.ofList (List.replicate 16 'b')
  createdAt := "2026-01-01T00:00:00.000Z"
  archiveId_uuid := by decide
  sessionId_pattern := by decide
  sequence_safe := by decide
  turn_safe := by decide
  lastArchiveId_uuid := by intro id hid; cases hid
  size_pos := by decide
  sha256_hex := by decide
  kid_hex := by decide

/-- Its media bytes are gone when the drain reads the record. -/
theorem screenshot_loses_mediaBytes :
    (archiveRequest screenshotCapture.toCaptured true).mediaBytes = some 5 ∧
      (listQueue [(queueRecord screenshotCapture.toCaptured "key" true).file]).map
        (·.request.mediaBytes) = [none] ∧
      (listQueue [(queueRecord screenshotCapture.toCaptured "key" true).file]).map (·.request)
        ≠ [archiveRequest screenshotCapture.toCaptured true] := by
  have hsound := progress_sound screenshotCapture "key" true ⟨0, by decide⟩ ⟨0, by decide⟩ none none
  have hlist : listQueue [(queueRecord screenshotCapture.toCaptured "key" true).file]
      = [(queueRecord screenshotCapture.toCaptured "key" true).readBack] :=
    listQueue_file hsound
  refine ⟨by decide, by rw [hlist]; rfl, ?_⟩
  rw [hlist]
  intro heq
  cases congrArg (List.map (·.mediaBytes)) heq

end OmniRush.Archive
