import OmniRush.Archive.Queue
import OmniRush.Lib.Triple

/-!
# Uploading a sealed archive

`ArchiveUploader` of `upload.ts`: create or resume a multipart upload, PUT the parts S3
does not hold, complete. Requests are retried with backoff, an expired URL is listed
again, and a multipart upload that is gone is created anew.

What is outside is an environment: the answer to each request, whether the signal is
aborted when it is looked at, whether the bearer refreshes, what a read returns, whether
the record can be written. It is asked in turn (`tick`), so it may be anything. The log
keeps the requests with their answers, and what was persisted.

The loop over the parts runs on fuel, and says so when it runs out.
-/

namespace OmniRush.Archive

open OmniRush

/-! ## Answers -/

structure Response where
  status : Nat
  /-- `null` where it is not JSON. -/
  body : Json := .null
  retryAfter : Option String := none
  etag : Option String := none

inductive Answer where
  | response (r : Response)
  /-- The request was not answered. -/
  | failed (name : String)

def Response.ok (r : Response) : Bool := 200 ≤ r.status && r.status ≤ 299

def retryableStatuses : List Nat := [408, 425, 429, 500, 502, 503, 504]

/-- `retryableApiStatus`: whether to try again, and whether within this drain. -/
def retryableApiStatus (r : Response) : Bool × Bool :=
  if r.status ∈ retryableStatuses then (true, r.retryAfter.isNone)
  else if r.status ≥ 500 ∧ r.status ≤ 599 ∧ r.status ≠ 501 ∧ r.status ≠ 505 then
    (true, r.retryAfter.isNone && r.status ≠ 507)
  else (r.status = 413 && r.retryAfter.isSome, false)

def partRetryableStatuses : List Nat := [400, 408, 429, 500, 502, 503, 504]
def maxPartsPerRequest : Nat := 100
def maxUploadRounds : Nat := 6

def chainEndingCodes : List String :=
  ["archive_id_conflict", "archive_sequence_conflict", "archive_parent_mismatch", "archive_deleted"]

def errorCode : Json → Option String
  | .obj fields =>
      match Json.field fields "detail", Json.field fields "error" with
      | some (.str detail), _ => some detail
      | _, some (.str error) => some error
      | _, _ => none
  | _ => none

/-! ## Schemas -/

def readNullish {α : Type} (reader : Option Json → Option α) : Option Json → Option (Option α)
  | none | some .null => some none
  | value => (reader value).map some

def readArray {α : Type} (item : Json → Option α) : Option Json → Option (List α)
  | some (.arr items) => items.mapM item
  | _ => none

def nonEmpty (s : String) : Bool := s ≠ ""

/-- `partUrlSchema`. -/
def partUrlSchema : Json → Option (Nat × String)
  | .obj fields => do
      let part ← readNat 1 (Json.field fields "part_number")
      let url ← readString nonEmpty (Json.field fields "url")
      some (part, url)
  | _ => none

structure CreateResponse where
  archiveId : String
  status : String
  uploadId : Option String
  objectKey : Option String
  partSize : Option Nat
  partCount : Option Nat
  parts : Option (List (Nat × String))

/-- `createSchema`. -/
def createSchema : Json → Option CreateResponse
  | .obj fields => do
      let archiveId ← readString anyString (Json.field fields "archive_id")
      let status ← readString anyString (Json.field fields "status")
      let uploadId ← readNullish (readString anyString) (Json.field fields "upload_id")
      let objectKey ← readNullish (readString anyString) (Json.field fields "object_key")
      let partSize ← readNullish (readNat 1) (Json.field fields "part_size")
      let partCount ← readNullish (readNat 1) (Json.field fields "part_count")
      let parts ← readNullish (readArray partUrlSchema) (Json.field fields "parts")
      some { archiveId, status, uploadId, objectKey, partSize, partCount, parts }
  | _ => none

/-- A part S3 says it holds. -/
structure HeldPart where
  part : Nat
  etag : String
  size : Nat
  deriving DecidableEq, Repr

def heldPartSchema : Json → Option HeldPart
  | .obj fields => do
      let part ← readNat 1 (Json.field fields "part_number")
      let etag ← readString nonEmpty (Json.field fields "etag")
      let size ← readNat 0 (Json.field fields "size")
      some { part, etag, size }
  | _ => none

/-- `partsSchema`: the URLs, and what is held. -/
def partsSchema : Json → Option (List (Nat × String) × List HeldPart)
  | .obj fields => do
      let parts ← readArray partUrlSchema (Json.field fields "parts")
      let uploaded ← readNullish (readArray heldPartSchema) (Json.field fields "uploaded")
      some (parts, uploaded.getD [])
  | _ => none

/-- The receipt of an archive of native evidence: the archive and its size. -/
def receiptSchema : Json → Option (String × Nat)
  | .obj fields => do
      let archiveId ← readString anyString (Json.field fields "archive_id")
      let _ ← readString (· = "uploaded") (Json.field fields "status")
      let size ← readNat 1 (Json.field fields "size")
      some (archiveId, size)
  | _ => none

/-! ## The state of an upload -/

/-- `String(part)`. -/
def partKey (part : Nat) : String := String.ofList (Json.natChars part)

/-- The tag of a part; an empty one counts as none. -/
def ArchiveUploadState.etag (u : ArchiveUploadState) (part : Nat) : Option String :=
  ((u.etags.find? fun e => e.1 = partKey part).map (·.2)).filter nonEmpty

theorem nodup_setEtag {etags : List (String × String)} (h : (etags.map (·.1)).Nodup)
    (key etag : String) :
    ((etags.filter (fun e => e.1 ≠ key) ++ [(key, etag)]).map (·.1)).Nodup := by
  rw [List.map_append, List.nodup_append]
  refine ⟨h.sublist (List.Sublist.map _ List.filter_sublist), by simp, ?_⟩
  intro a ha b hb hab
  obtain ⟨e, he, rfl⟩ := List.mem_map.mp ha
  have hne := of_decide_eq_true (List.mem_filter.mp he).2
  rw [List.map_singleton, List.mem_singleton] at hb
  exact hne (hab.trans hb)

def ArchiveUploadState.setEtag (u : ArchiveUploadState) (part : Nat) (etag : String) :
    ArchiveUploadState :=
  { u with
    etags := u.etags.filter (fun e => e.1 ≠ partKey part) ++ [(partKey part, etag)]
    etags_nodup := nodup_setEtag u.etags_nodup _ _ }

def ArchiveUploadState.clearEtags (u : ArchiveUploadState) : ArchiveUploadState :=
  { u with etags := [], etags_nodup := List.nodup_nil }

def ceilDiv (size partSize : Nat) : Nat := (size + partSize - 1) / partSize

def ArchiveUploadState.partBytes (u : ArchiveUploadState) (size part : Nat) : Nat :=
  min u.partSize (size - (part - 1) * u.partSize)

/-- The parts without a tag, in order. -/
def ArchiveUploadState.missing (u : ArchiveUploadState) : List Nat :=
  ((List.range u.partCount).map (· + 1)).filter fun part => (u.etag part).isNone

inductive Payload where
  | project
  | claudeNative
  | claudeCheckpoint
  deriving DecidableEq

/-- A queued job. The payload is the request's; no capture of a session sets another. -/
structure ArchiveUploadJob where
  request : ArchiveCreateRequest
  payload : Payload := .project
  upload : Option ArchiveUploadState
  recreates : Nat

inductive UploadOutcome where
  | uploaded
  | disabled (code : String)
  | blocked (reason : String)
  | stopSession (code : String)
  | rekey (code : String)
  | retryLater (reason : String)
  | aborted
  deriving DecidableEq, Repr

inductive Request where
  | create
  | parts (numbers : List Nat)
  | complete (parts : List (Nat × String))
  | put (part : Nat) (url : String) (body : List UInt8)
  deriving DecidableEq

inductive Event where
  | sent (request : Request) (answer : Answer)
  | persisted (upload : Option ArchiveUploadState) (recreates : Nat)

/-- What is outside, by turns. -/
structure Outside where
  answer : Nat → Answer
  aborted : Nat → Bool
  refreshed : Nat → Bool
  /-- How many bytes a read may return at once, or that it fails. -/
  read : Nat → Option Nat
  persists : Nat → Bool
  /-- `retry.attempts`. -/
  attempts : Nat

structure Uploading where
  tick : Nat := 0
  log : List Event := []
  upload : Option ArchiveUploadState
  recreates : Nat

/-- Code of the uploader; only a record that cannot be written throws. -/
abbrev Upload := Code Uploading Unit

/-- What an answer to `create` says. -/
inductive CreateAnswer where
  | uploaded
  | fresh (upload : ArchiveUploadState) (urls : List (Nat × String))
  | invalid

def createAnswer (request : ArchiveCreateRequest) (body : Json) : CreateAnswer :=
  match createSchema body with
  | none => .invalid
  | some created =>
      if created.archiveId ≠ request.archiveId then .invalid
      else if created.status = "uploaded" then .uploaded
      else
        match created.uploadId, created.objectKey, created.partSize, created.partCount with
        | some uploadId, some objectKey, some partSize, some partCount =>
            if h : (0 < partSize ∧ partSize ≤ maxSafeInteger)
                ∧ (0 < partCount ∧ partCount ≤ maxSafeInteger)
                ∧ uploadId ≠ "" ∧ objectKey ≠ "" ∧ partCount = ceilDiv request.size partSize then
              .fresh ⟨uploadId, objectKey, partSize, partCount, [], h.1, h.2.1, List.nodup_nil⟩
                (created.parts.getD [])
            else .invalid
        | _, _, _, _ => .invalid

section

variable (out : Outside)

def turn {α : Type} (f : Nat → α) : Upload α := do
  let s ← get
  set { s with tick := s.tick + 1 }
  pure (f s.tick)

def aborted : Upload Bool := turn out.aborted

def send (request : Request) : Upload Answer := do
  let s ← get
  set { s with tick := s.tick + 1, log := s.log ++ [Event.sent request (out.answer s.tick)] }
  pure (out.answer s.tick)

/-- `persist`, which may throw. -/
def persist : Upload Unit := do
  if ← turn out.persists then
    modify fun s => { s with log := s.log ++ [Event.persisted s.upload s.recreates] }
  else throw ()

def persistIf (changed : Bool) : Upload Unit := if changed then persist out else pure ()

/-! ## Calls of the API -/

inductive ApiResult where
  | ok (status : Nat) (body : Json)
  | error (status : Nat) (code : Option String)
  | unavailable (reason : String)
  | aborted

/-- How one attempt ended: for good, with a fresh bearer, or with another to come. -/
inductive Tried (α : Type) where
  | done (result : α)
  | refreshed
  | again (failure : String)

def statusText (r : Response) : String := "status " ++ toString r.status

def afterError (r : Response) : Tried ApiResult :=
  let retryable := retryableApiStatus r
  if retryable.1 = false ∨ (r.status = 503 ∧ errorCode r.body = some "archive_disabled") then
    .done (.error r.status (errorCode r.body))
  else if retryable.2 = false then .done (.unavailable (statusText r))
  else .again (statusText r)

def refresh (r : Response) (mayRefresh : Bool) : Upload Bool :=
  if r.status = 401 ∧ mayRefresh then turn out.refreshed else pure false

def callOnce (request : Request) (mayRefresh : Bool) : Upload (Tried ApiResult) := do
  if ← aborted out then pure (.done .aborted)
  else
    match ← send out request with
    | .failed name => do
        if ← aborted out then pure (.done .aborted) else pure (.again name)
    | .response r =>
        if r.ok then pure (.done (.ok r.status r.body))
        else do
          if ← refresh out r mayRefresh then pure .refreshed else pure (afterError r)

/-- The last attempt's end. -/
def endCall : Tried ApiResult → ApiResult
  | .done result => result
  | .again failure => .unavailable failure
  | .refreshed => .aborted

/-- The attempts that are left once the bearer has been refreshed. -/
def callRefreshed (request : Request) : Nat → Upload ApiResult
  | 0 => do pure (endCall (← callOnce out request false))
  | left + 1 => do
      match ← callOnce out request false with
      | .again _ => callRefreshed request left
      | attempt => pure (endCall attempt)

def callLoop (request : Request) : Nat → Upload ApiResult
  | 0 => do
      match ← callOnce out request true with
      | .refreshed => callRefreshed out request 0
      | attempt => pure (endCall attempt)
  | left + 1 => do
      match ← callOnce out request true with
      | .refreshed => callRefreshed out request (left + 1)
      | .again _ => callLoop request left
      | attempt => pure (endCall attempt)

/-- `call`: a 401 refreshes the bearer once, other failures back off. -/
def call (request : Request) : Upload ApiResult := callLoop out request (out.attempts - 1)

/-- `common`: the outcome of the failures every route shares. -/
def common : ApiResult → Option UploadOutcome
  | .aborted => some .aborted
  | .unavailable reason => some (.retryLater reason)
  | .ok _ _ => none
  | .error status code =>
      if status = 401 then some (.blocked "unauthorized")
      else if status = 403 then some (.blocked (code.getD "forbidden"))
      else if status = 409 ∧ code = some "archive_payload_disabled" then
        some (.disabled "archive_payload_disabled")
      else if status = 428 then some (.disabled (code.getD "archive_consent_required"))
      else if status = 503 then some (.disabled (code.getD "archive_disabled"))
      else if status = 413 then some (.stopSession (code.getD "archive_too_large"))
      else if status = 422 then
        some (.stopSession (if code = some "archive_marker_not_allowed" then
          "archive_marker_not_allowed" else "archive_request_invalid"))
      else none

/-! ## Routes -/

inductive Created where
  | outcome (o : UploadOutcome)
  | uploaded
  | fresh (upload : ArchiveUploadState) (urls : List (Nat × String))

def create (request : ArchiveCreateRequest) : Upload Created := do
  let result ← call out .create
  match result, common result with
  | .ok _ body, _ =>
      match createAnswer request body with
      | .invalid => pure (.outcome (.retryLater "invalid create response"))
      | .uploaded => pure .uploaded
      | .fresh upload urls => pure (.fresh upload urls)
  | _, some outcome => pure (.outcome outcome)
  | .error status code, none =>
      if status = 409 ∧ code = some "archive_kid_unknown" then
        pure (.outcome (.rekey "archive_kid_unknown"))
      else if status = 409 ∧ code.any (chainEndingCodes.contains ·) then
        pure (.outcome (.stopSession (code.getD "")))
      else pure (.outcome (.retryLater ("create status " ++ toString status)))
  | _, none => pure (.outcome (.retryLater "create failed"))

inductive Listed where
  | outcome (o : UploadOutcome)
  | recreate
  | parts (urls : List (Nat × String)) (held : List HeldPart)

def listParts (numbers : List Nat) : Upload Listed := do
  let result ← call out (.parts numbers)
  match result, common result with
  | .ok _ body, _ =>
      match partsSchema body with
      | none => pure (.outcome (.retryLater "invalid parts response"))
      | some (urls, held) => pure (.parts urls held)
  | _, some outcome => pure (.outcome outcome)
  | .error status code, none =>
      if status = 404 ∨ (status = 409 ∧ code = some "archive_not_uploading") then pure .recreate
      else pure (.outcome (.retryLater ("parts status " ++ toString status)))
  | _, none => pure (.outcome (.retryLater "parts failed"))

inductive Completed where
  | outcome (o : UploadOutcome)
  | recreate
  | relist
  | reupload (code : String)

def ArchiveUploadState.completeParts (u : ArchiveUploadState) : List (Nat × String) :=
  (List.range u.partCount).map fun i => (i + 1, (u.etag (i + 1)).getD "")

def complete (job : ArchiveUploadJob) (upload : ArchiveUploadState) : Upload Completed := do
  let result ← call out (.complete upload.completeParts)
  match result, common result with
  | .ok _ body, _ =>
      if job.payload = .project ∨
          receiptSchema body = some (job.request.archiveId, job.request.size) then
        pure (.outcome .uploaded)
      else pure (.outcome (.retryLater "invalid completion receipt"))
  | _, some outcome => pure (.outcome outcome)
  | .error status code, none =>
      if status = 404 ∨ (status = 409 ∧ code = some "archive_not_uploading") then pure .recreate
      else if status = 409 ∧ code = some "archive_parts_invalid" then pure .relist
      else if status = 409 ∧ (code = some "archive_size_mismatch" ∨ code = some "archive_seal_invalid")
      then pure (.reupload (code.getD ""))
      else pure (.outcome (.retryLater ("complete status " ++ toString status)))
  | _, none => pure (.outcome (.retryLater "complete failed"))

/-! ## Parts -/

inductive PartResult where
  | etag (etag : String)
  | forbidden
  | gone
  | failed (reason : String)

def partStatusText (r : Response) : String := "part status " ++ toString r.status

def afterPut (r : Response) : Tried PartResult :=
  if r.ok then
    match r.etag.filter nonEmpty with
    | some etag => .done (.etag etag)
    | none => .again "missing etag"
  else if r.status = 403 then .done .forbidden
  else if r.status = 404 then .done .gone
  else if r.status ∉ partRetryableStatuses then .done (.failed (partStatusText r))
  else .again (partStatusText r)

def putOnce (part : Nat) (url : String) (body : List UInt8) : Upload (Tried PartResult) := do
  if ← aborted out then pure (.done (.failed "aborted"))
  else
    match ← send out (.put part url body) with
    | .failed name => do
        if ← aborted out then pure (.done (.failed "aborted")) else pure (.again name)
    | .response r => pure (afterPut r)

def endPut : Tried PartResult → PartResult
  | .done result => result
  | .again failure => .failed failure
  | .refreshed => .failed "aborted"

def putLoop (part : Nat) (url : String) (body : List UInt8) : Nat → Upload PartResult
  | 0 => do pure (endPut (← putOnce out part url body))
  | left + 1 => do
      match ← putOnce out part url body with
      | .again _ => putLoop part url body left
      | attempt => pure (endPut attempt)

def putPart (part : Nat) (url : String) (body : List UInt8) : Upload PartResult :=
  putLoop out part url body (out.attempts - 1)

inductive ReadPart where
  | bytes (body : List UInt8)
  | aborted
  | failed (reason : String)

def partReadSliceBytes : Nat := 1024 * 1024

/-- The loop of `readPart`: a read returns what it likes of what is asked for, and
nothing at the end of the file. -/
def readLoop (file : List UInt8) (start length : Nat) : Nat → List UInt8 → Upload ReadPart
  | 0, body => do if ← aborted out then pure .aborted else pure (.bytes body)
  | fuel + 1, body => do
      if length ≤ body.length then
        if ← aborted out then pure .aborted else pure (.bytes body)
      else if ← aborted out then pure .aborted
      else
        match ← turn out.read with
        | none => pure (.failed "archive file read failed")
        | some count =>
            let wanted := min partReadSliceBytes (length - body.length)
            let read := (file.drop (start + body.length)).take (min (max 1 count) wanted)
            if read = [] then pure (.failed "archive file read failed: archive file ended early")
            else readLoop file start length fuel (body ++ read)

def readPart (file : List UInt8) (start length : Nat) : Upload ReadPart :=
  readLoop out file start length length []

/-- A map as a list, a later entry before an earlier one. -/
def urlOf (urls : List (Nat × String)) (part : Nat) : Option String :=
  ((urls.find? fun e => e.1 = part).map (·.2)).filter nonEmpty

def addUrls (urls listed : List (Nat × String)) : List (Nat × String) := listed.reverse ++ urls

/-- What a listing says of a part that is kept: it is one of the parts, and whole. -/
def ArchiveUploadState.holds (u : ArchiveUploadState) (size : Nat) (held : HeldPart) : Bool :=
  held.part ≤ u.partCount && held.size = u.partBytes size held.part

/-- The tags a listing teaches, and whether one is new. -/
def ArchiveUploadState.learn (size : Nat) :
    ArchiveUploadState → List HeldPart → ArchiveUploadState × Bool
  | u, [] => (u, false)
  | u, held :: rest =>
      if u.holds size held ∧ u.etag held.part ≠ some held.etag then
        (((u.setEtag held.part held.etag).learn size rest).1, true)
      else u.learn size rest

def setUpload (u : Option ArchiveUploadState) : Upload Unit :=
  modify fun s => { s with upload := u }

inductive Put where
  | outcome (o : UploadOutcome)
  | recreate
  | done
  /-- The fuel ran out. -/
  | stuck

/-- One turn of the loop: over, or on with these URLs and so many refusals in a row. -/
inductive PutTurn where
  | stop (put : Put)
  | next (urls : List (Nat × String)) (forbiddenInRow : Nat)

/-- A part without a URL: the parts are listed. -/
def listMissing (size : Nat) (upload : ArchiveUploadState) (part : Nat)
    (urls : List (Nat × String)) (forbiddenInRow : Nat) : Upload PutTurn := do
  match ← listParts out (upload.missing.take maxPartsPerRequest) with
  | .outcome o => pure (.stop (.outcome o))
  | .recreate => pure (.stop .recreate)
  | .parts listed held => do
      let (learned, changed) := upload.learn size held
      setUpload (some learned)
      persistIf out changed
      if (urlOf (addUrls urls listed) part).isNone ∧ (learned.etag part).isNone then
        pure (.stop (.outcome (.retryLater "no part url")))
      else pure (.next (addUrls urls listed) forbiddenInRow)

def maxForbiddenInRow : Nat := 2

/-- The multipart upload may be gone: the listing says. -/
def partGone (part forbiddenInRow : Nat) : Upload PutTurn := do
  match ← listParts out [part] with
  | .outcome o => pure (.stop (.outcome o))
  | .recreate => pure (.stop .recreate)
  | .parts listed _ =>
      if forbiddenInRow + 1 > maxForbiddenInRow then
        pure (.stop (.outcome (.retryLater "part not found")))
      else pure (.next (addUrls [] listed) (forbiddenInRow + 1))

def partStored (upload : ArchiveUploadState) (part : Nat) (etag : String)
    (urls : List (Nat × String)) : Upload PutTurn := do
  setUpload (some (upload.setEtag part etag))
  persist out
  pure (.next (urls.filter fun e => e.1 ≠ part) 0)

/-- A part with a URL: it is read and sent. -/
def putOnePart (file : List UInt8) (size : Nat) (upload : ArchiveUploadState) (part : Nat)
    (url : String) (urls : List (Nat × String)) (forbiddenInRow : Nat) : Upload PutTurn := do
  match ← readPart out file ((part - 1) * upload.partSize) (upload.partBytes size part) with
  | .failed reason => pure (.stop (.outcome (.retryLater reason)))
  | .aborted => pure (.stop (.outcome .aborted))
  | .bytes body =>
      match ← putPart out part url body with
      | .forbidden =>
          if forbiddenInRow + 1 > maxForbiddenInRow then
            pure (.stop (.outcome (.retryLater "part forbidden")))
          else pure (.next [] (forbiddenInRow + 1))
      | .gone => partGone out part forbiddenInRow
      | .failed reason => do
          if ← aborted out then pure (.stop (.outcome .aborted))
          else pure (.stop (.outcome (.retryLater reason)))
      | .etag etag => partStored out upload part etag urls

def putTurn (file : List UInt8) (size : Nat) (urls : List (Nat × String)) (forbiddenInRow : Nat) :
    Upload PutTurn := do
  if ← aborted out then pure (.stop (.outcome .aborted))
  else
    match (← get).upload with
    | none => pure (.stop .stuck)
    | some upload =>
        match upload.missing with
        | [] => pure (.stop .done)
        | part :: _ =>
            match urlOf urls part with
            | none => listMissing out size upload part urls forbiddenInRow
            | some url => putOnePart out file size upload part url urls forbiddenInRow

def putMissingParts (file : List UInt8) (size : Nat) :
    Nat → List (Nat × String) → Nat → Upload Put
  | 0, _, _ => pure .stuck
  | fuel + 1, urls, forbiddenInRow => do
      match ← putTurn out file size urls forbiddenInRow with
      | .stop put => pure put
      | .next urls forbiddenInRow => putMissingParts file size fuel urls forbiddenInRow

/-! ## Rounds -/

/-- The upload of a round: the job's, or a new one with the URLs it came with. -/
inductive Ensured where
  | outcome (o : UploadOutcome)
  | ready (urls : List (Nat × String))

def ensureUpload (job : ArchiveUploadJob) : Upload Ensured := do
  match (← get).upload with
  | some _ => pure (.ready [])
  | none =>
      match ← create out job.request with
      | .outcome o => pure (.outcome o)
      | .uploaded => pure (.outcome .uploaded)
      | .fresh upload urls => do
          setUpload (some upload)
          persist out
          pure (.ready (addUrls [] urls))

/-- A round's end: an outcome, another round, or no fuel. -/
inductive Round where
  | outcome (o : UploadOutcome)
  | another
  | stuck

def recreate : Upload Round := do
  setUpload none
  persist out
  pure .another

def relist (upload : ArchiveUploadState) : Upload Round := do
  setUpload (some upload.clearEtags)
  persist out
  pure .another

def reupload (code : String) : Upload Round := do
  if (← get).recreates ≥ 1 then pure (.outcome (.stopSession code))
  else do
    modify fun s => { s with recreates := s.recreates + 1, upload := none }
    persist out
    pure .another

def finishUpload (job : ArchiveUploadJob) : Upload Round := do
  match (← get).upload with
  | none => pure .stuck
  | some upload =>
      match ← complete out job upload with
      | .outcome o => pure (.outcome o)
      | .recreate => recreate out
      | .relist => relist out upload
      | .reupload code => reupload out code

/-- Turns of the loop over the parts that are always enough. -/
def partFuel (size : Nat) : Nat := 7 * size + 6

def uploadRound (file : List UInt8) (job : ArchiveUploadJob) : Upload Round := do
  if ← aborted out then pure (.outcome .aborted)
  else
    match ← ensureUpload out job with
    | .outcome o => pure (.outcome o)
    | .ready urls =>
        match ← putMissingParts out file job.request.size (partFuel job.request.size) urls 0 with
        | .stuck => pure .stuck
        | .outcome o => pure (.outcome o)
        | .recreate => recreate out
        | .done => finishUpload out job

/-- `uploadFrom`, by the rounds left; `none` when the fuel of a round ran out. -/
def uploadFrom (file : List UInt8) (job : ArchiveUploadJob) : Nat → Upload (Option UploadOutcome)
  | 0 => pure (some (.retryLater "upload rounds exhausted"))
  | rounds + 1 => do
      match ← uploadRound out file job with
      | .outcome o => pure (some o)
      | .stuck => pure none
      | .another => uploadFrom file job rounds

/-- `upload`, with the sealed file if it can be opened. -/
def upload (file : Option (List UInt8)) (job : ArchiveUploadJob) :
    Upload (Option UploadOutcome) := do
  if ← aborted out then pure (some .aborted)
  else
    match file with
    | none => pure (some (.stopSession "archive_file_missing"))
    | some file =>
        if file.length ≠ job.request.size then pure (some (.stopSession "archive_file_corrupt"))
        else uploadFrom out file job maxUploadRounds

/-- The state a job's upload begins in. -/
def ArchiveUploadJob.start (job : ArchiveUploadJob) : Uploading :=
  { upload := job.upload, recreates := job.recreates }

end

end OmniRush.Archive
