import OmniRush.Proofs.UploadLog

/-!
# What the uploader's calls keep

A walk through the calls of the API, the PUT of a part and the reading of its bytes, with
what holds in between. Before a request the log so far is fine, the tags in memory were
learned under the current upload, and the request is allowed (`MaySend`); attempts keep it
so, and an answer that was a success is the last in the log.
-/

namespace OmniRush.Archive

open OmniRush

/-! ## What holds of the log and the upload in memory -/

/-- A fact of the log and of the upload; a turn of what is outside does not change it. -/
def On (holds : List Event → Option ArchiveUploadState → Prop) (s : Uploading) : Prop :=
  holds s.log s.upload

section

variable (create : ArchiveCreateRequest) (file : List UInt8) (history : List Event)

def StaysFine (log : List Event) (_ : Option ArchiveUploadState) : Prop :=
  Fine create file (history ++ log)

/-- The upload in memory, and its tags, are known. -/
structure Holds (up : Option ArchiveUploadState) (log : List Event)
    (upload : Option ArchiveUploadState) : Prop where
  fine : Fine create file (history ++ log)
  knows : ∀ u, up = some u → (seen create (history ++ log)).Knows create.size u
  upload : upload = up

/-- A request may be sent; an upload is created where none is, in memory or on disk. -/
structure MaySend (request : Request) (up : Option ArchiveUploadState) (log : List Event)
    (upload : Option ArchiveUploadState) : Prop extends
    Holds create file history up log upload where
  allows : (seen create (history ++ log)).Allows file create.size request
  unmade : request = .create → up = none ∧ (stored (history ++ log)).1 = none

/-- Where a round begins. -/
def Begins (log : List Event) (upload : Option ArchiveUploadState) : Prop :=
  ∃ up, Holds create file history up log upload ∧
    (up = none → (stored (history ++ log)).1 = none)

/-- An answer with a body was given to the request. -/
def Answered (request : Request) (result : ApiResult) (log : List Event) : Prop :=
  ∀ status body, result = .ok status body →
    ∃ before r, log = before ++ [.sent request (.response r)] ∧ r.ok = true ∧ r.body = body

end

section

variable {create : ArchiveCreateRequest} {file : List UInt8} {history : List Event}
  {out : Outside} {request : Request} {up : Option ArchiveUploadState}

theorem triple_turn {α : Type} {f : Nat → α} {E : Uploading → Prop}
    {holds : List Event → Option ArchiveUploadState → Prop} :
    Triple (On holds) (turn f) (fun _ => On holds) E := fun _ hs => hs

theorem MaySend.sent {log : List Event} {upload : Option ArchiveUploadState} {answer : Answer}
    (h : MaySend create file history request up log upload) :
    MaySend create file history request up (log ++ [.sent request answer]) upload := by
  have hstored : stored (history ++ (log ++ [.sent request answer])) = stored (history ++ log) := by
    rw [← List.append_assoc, stored_sent]
  have hseen : seen create (history ++ (log ++ [.sent request answer])) =
      (seen create (history ++ log)).after create (.sent request answer) := by
    rw [← List.append_assoc, seen_snoc]
  have hknows : ∀ u, (up = some u ∨ (stored (history ++ log)).1 = some u) →
      ((seen create (history ++ log)).after create (.sent request answer)).Knows create.size u := by
    intro u hu
    by_cases hcreate : request = .create
    · obtain ⟨hup, hdisk⟩ := h.unmade hcreate
      rw [hup, hdisk] at hu
      rcases hu with hu | hu <;> cases hu
    · have hle : Seen.Le (seen create (history ++ log))
          ((seen create (history ++ log)).after create (.sent request answer)) :=
        Seen.le_after fun _ heq => by
          cases heq
          exact hcreate rfl
      rcases hu with hu | hu
      · exact (h.knows u hu).mono hle
      · exact (h.fine.knows hu).mono hle
  refine ⟨⟨?_, fun u hu => ?_, h.upload⟩, ?_, fun hcreate => ?_⟩
  · rw [← List.append_assoc]
    refine .snoc h.fine (fun _ _ heq => ?_) fun u hu => ?_
    · cases heq
      exact h.allows
    · rw [stored_sent] at hu
      rw [seen_snoc]
      exact hknows u (.inr hu)
  · rw [hseen]
    exact hknows u (.inl hu)
  · rw [hseen]
    by_cases hcreate : request = .create
    · rw [hcreate]
      trivial
    · refine h.allows.mono (Seen.le_after fun _ heq => ?_)
      cases heq
      exact hcreate rfl
  · rw [hstored]
    exact h.unmade hcreate

theorem triple_send {E : Uploading → Prop} :
    Triple (On (MaySend create file history request up)) (send out request)
      (fun answer => On fun log upload => MaySend create file history request up log upload ∧
        ∃ before, log = before ++ [.sent request answer]) E :=
  fun _ hs => ⟨MaySend.sent hs, _, rfl⟩

/-! ## Calls -/

/-- What holds after a call. -/
def Called (create : ArchiveCreateRequest) (file : List UInt8) (history : List Event)
    (request : Request) (up : Option ArchiveUploadState) (result : ApiResult) :
    List Event → Option ArchiveUploadState → Prop :=
  fun log upload => MaySend create file history request up log upload ∧ Answered request result log

theorem answered_not_ok {result : ApiResult} {log : List Event}
    (h : ∀ status body, result ≠ .ok status body) : Answered request result log :=
  fun status body heq => absurd heq (h status body)

theorem endCall_afterError {r : Response} {status : Nat} {body : Json} :
    endCall (afterError r) ≠ .ok status body := by
  unfold afterError
  dsimp only
  split
  · exact fun h => by cases h
  · split <;> exact fun h => by cases h

theorem triple_refresh {r : Response} {mayRefresh : Bool} {E : Uploading → Prop}
    {holds : List Event → Option ArchiveUploadState → Prop} :
    Triple (On holds) (refresh out r mayRefresh) (fun _ => On holds) E := by
  unfold refresh
  split
  · exact triple_turn
  · exact Triple.pure fun _ h => h

theorem triple_callOnce {mayRefresh : Bool} {E : Uploading → Prop} :
    Triple (On (MaySend create file history request up)) (callOnce out request mayRefresh)
      (fun tried => On (Called create file history request up (endCall tried))) E := by
  refine Triple.bind triple_turn fun aborted => ?_
  cases aborted with
  | true => exact Triple.pure fun _ h => ⟨h, answered_not_ok fun _ _ => nofun⟩
  | false =>
      refine Triple.bind triple_send fun answer => ?_
      cases answer with
      | failed name =>
          refine Triple.bind triple_turn fun aborted => ?_
          cases aborted with
          | true => exact Triple.pure fun _ h => ⟨h.1, answered_not_ok fun _ _ => nofun⟩
          | false => exact Triple.pure fun _ h => ⟨h.1, answered_not_ok fun _ _ => nofun⟩
      | response r =>
          dsimp only
          split
          · next hok =>
              refine Triple.pure fun s h => ⟨h.1, fun status body heq => ?_⟩
              obtain ⟨before, hlog⟩ := h.2
              cases heq
              exact ⟨before, r, hlog, hok, rfl⟩
          · refine Triple.bind triple_refresh fun refreshed => ?_
            cases refreshed with
            | true => exact Triple.pure fun _ h => ⟨h.1, answered_not_ok fun _ _ => nofun⟩
            | false => exact Triple.pure fun _ h =>
                ⟨h.1, answered_not_ok fun _ _ => endCall_afterError⟩

theorem triple_callRefreshed {E : Uploading → Prop} : ∀ left,
    Triple (On (MaySend create file history request up)) (callRefreshed out request left)
      (fun result => On (Called create file history request up result)) E
  | 0 => Triple.bind triple_callOnce fun _ => Triple.pure fun _ h => h
  | left + 1 => by
      refine Triple.bind triple_callOnce fun tried => ?_
      cases tried with
      | done result => exact Triple.pure fun _ h => h
      | refreshed => exact Triple.pure fun _ h => h
      | again failure =>
          exact (triple_callRefreshed left).weaken (fun _ h => h.1) (fun _ _ h => h) fun _ h => h

theorem triple_callLoop {E : Uploading → Prop} : ∀ left,
    Triple (On (MaySend create file history request up)) (callLoop out request left)
      (fun result => On (Called create file history request up result)) E
  | 0 => by
      refine Triple.bind triple_callOnce fun tried => ?_
      cases tried with
      | done result => exact Triple.pure fun _ h => h
      | again failure => exact Triple.pure fun _ h => h
      | refreshed =>
          exact (triple_callRefreshed 0).weaken (fun _ h => h.1) (fun _ _ h => h) fun _ h => h
  | left + 1 => by
      refine Triple.bind triple_callOnce fun tried => ?_
      cases tried with
      | done result => exact Triple.pure fun _ h => h
      | again failure =>
          exact (triple_callLoop left).weaken (fun _ h => h.1) (fun _ _ h => h) fun _ h => h
      | refreshed =>
          exact (triple_callRefreshed (left + 1)).weaken (fun _ h => h.1) (fun _ _ h => h)
            fun _ h => h

theorem triple_call {E : Uploading → Prop} :
    Triple (On (MaySend create file history request up)) (call out request)
      (fun result => On (Called create file history request up result)) E :=
  triple_callLoop _

theorem common_ne_uploaded {result : ApiResult} {o : UploadOutcome} (h : common result = some o) :
    o ≠ .uploaded := by
  rintro rfl
  unfold common at h
  repeat' split at h
  all_goals cases h

theorem seen_answered {before log : List Event} {r : Response}
    (hlog : log = before ++ [.sent request (.response r)]) (hok : r.ok = true) :
    seen create (history ++ log) = (seen create (history ++ before)).ok create r request := by
  rw [hlog, ← List.append_assoc, seen_snoc]
  exact if_pos hok

end

/-! ## Routes -/

theorem createAnswer_fresh {request : ArchiveCreateRequest} {body : Json}
    {u : ArchiveUploadState} {urls : List (Nat × String)}
    (h : createAnswer request body = .fresh u urls) :
    u.partCount = ceilDiv request.size u.partSize ∧ u.etags = [] := by
  unfold createAnswer at h
  repeat' split at h
  all_goals cases h
  next hgood => exact ⟨hgood.2.2.2.2, rfl⟩

theorem readArray_mem {α : Type} {item : Json → Option α} {value : Option Json} {items : List α}
    {a : α} (h : readArray item value = some items) (ha : a ∈ items) :
    ∃ json, item json = some a := by
  unfold readArray at h
  split at h
  · next jsons =>
      induction jsons generalizing items with
      | nil =>
          cases h
          cases ha
      | cons json jsons ih =>
          rw [List.mapM_cons] at h
          obtain ⟨first, hfirst, h⟩ := Option.bind_eq_some_iff.mp h
          obtain ⟨rest, hrest, h⟩ := Option.bind_eq_some_iff.mp h
          cases h
          rcases List.mem_cons.mp ha with rfl | ha
          · exact ⟨json, hfirst⟩
          · exact ih ha hrest
  · cases h

theorem readNullish_some {α : Type} {reader : Option Json → Option α} {value : Option Json} {a : α}
    (h : readNullish reader value = some (some a)) : reader value = some a := by
  unfold readNullish at h
  split at h
  · cases h
  · cases h
  · obtain ⟨b, hb, h⟩ := Option.map_eq_some_iff.mp h
    cases h
    exact hb

theorem heldPartSchema_etag {json : Json} {part : HeldPart} (h : heldPartSchema json = some part) :
    nonEmpty part.etag = true := by
  unfold heldPartSchema at h
  split at h
  · obtain ⟨n, -, h⟩ := Option.bind_eq_some_iff.mp h
    obtain ⟨etag, hetag, h⟩ := Option.bind_eq_some_iff.mp h
    obtain ⟨size, -, h⟩ := Option.bind_eq_some_iff.mp h
    cases h
    unfold readString at hetag
    split at hetag
    · split at hetag
      · next hne =>
          cases hetag
          exact hne
      · cases hetag
    · cases hetag
  · cases h

theorem partsSchema_etag {body : Json} {urls : List (Nat × String)} {held : List HeldPart}
    (h : partsSchema body = some (urls, held)) : ∀ part ∈ held, nonEmpty part.etag = true := by
  intro part hpart
  unfold partsSchema at h
  split at h
  · obtain ⟨parts, -, h⟩ := Option.bind_eq_some_iff.mp h
    obtain ⟨uploaded, huploaded, h⟩ := Option.bind_eq_some_iff.mp h
    cases h
    cases uploaded with
    | none => cases hpart
    | some parts =>
        obtain ⟨json, hjson⟩ := readArray_mem (readNullish_some huploaded) hpart
        exact heldPartSchema_etag hjson
  · cases h

section

variable {job : ArchiveUploadJob} {file : List UInt8} {history : List Event} {out : Outside}
  {u : ArchiveUploadState} {up : Option ArchiveUploadState}

theorem triple_create {E : Uploading → Prop} :
    Triple (On (MaySend job.request file history .create none)) (create out job.request)
      (fun made => On fun log upload =>
        MaySend job.request file history .create none log upload ∧
        match made with
        | .outcome o => o ≠ .uploaded
        | .uploaded => SaidUploaded job.request job.payload log
        | .fresh u _ => (seen job.request (history ++ log)).Knows job.request.size u) E := by
  refine Triple.bind triple_call fun result => ?_
  cases result with
  | ok status body =>
      dsimp only
      split
      · exact Triple.pure fun _ h => ⟨h.1, nofun⟩
      · next hanswer =>
          refine Triple.pure fun s h => ⟨h.1, ?_⟩
          obtain ⟨before, r, hlog, hok, rfl⟩ := h.2 _ _ rfl
          exact ⟨before, .create, r, hlog, hok, hanswer⟩
      · next upload urls hanswer =>
          refine Triple.pure fun s h => ⟨h.1, ?_⟩
          obtain ⟨before, r, hlog, hok, rfl⟩ := h.2 _ _ rfl
          obtain ⟨hcount, hetags⟩ := createAnswer_fresh hanswer
          have hseen : seen job.request (history ++ _) = _ := seen_answered hlog hok
          simp only [Seen.ok, hanswer] at hseen
          refine ⟨by rw [hseen], hcount, fun part etag he => ?_⟩
          rw [ArchiveUploadState.etag, hetags] at he
          cases he
  | error status code =>
      cases hcommon : common (.error status code) with
      | some outcome =>
          dsimp only
          exact Triple.pure fun _ h => ⟨h.1, common_ne_uploaded hcommon⟩
      | none =>
          dsimp only
          split
          · exact Triple.pure fun _ h => ⟨h.1, nofun⟩
          · split <;> exact Triple.pure fun _ h => ⟨h.1, nofun⟩
  | unavailable reason => exact Triple.pure fun _ h => ⟨h.1, nofun⟩
  | aborted => exact Triple.pure fun _ h => ⟨h.1, nofun⟩

theorem triple_listParts {numbers : List Nat} {E : Uploading → Prop} :
    Triple (On (MaySend job.request file history (.parts numbers) (some u)))
      (listParts out numbers)
      (fun listed => On fun log upload =>
        MaySend job.request file history (.parts numbers) (some u) log upload ∧
        match listed with
        | .outcome o => o ≠ .uploaded
        | .recreate => True
        | .parts _ held => (∀ part ∈ held, nonEmpty part.etag = true) ∧
            ∀ tag ∈ heldTags u job.request.size held,
              tag ∈ (seen job.request (history ++ log)).learned) E := by
  refine Triple.bind triple_call fun result => ?_
  cases result with
  | ok status body =>
      dsimp only
      split
      · exact Triple.pure fun _ h => ⟨h.1, nofun⟩
      · next urls held hparts =>
          refine Triple.pure fun s h => ⟨h.1, partsSchema_etag hparts, fun tag htag => ?_⟩
          obtain ⟨before, r, hlog, hok, rfl⟩ := h.2 _ _ rfl
          have hcurrent := (h.1.knows u rfl).current
          have hseen : seen job.request (history ++ _) = _ := seen_answered hlog hok
          have hle : Seen.Le (seen job.request (history ++ before))
              ((seen job.request (history ++ before)).ok job.request r (.parts numbers)) :=
            Seen.le_ok nofun
          rw [hseen, hle.current] at hcurrent
          simp only [Seen.ok, hparts, hcurrent] at hseen
          rw [hseen]
          exact List.mem_append_right _ htag
  | error status code =>
      cases hcommon : common (.error status code) with
      | some outcome =>
          dsimp only
          exact Triple.pure fun _ h => ⟨h.1, common_ne_uploaded hcommon⟩
      | none =>
          dsimp only
          split
          · exact Triple.pure fun _ h => ⟨h.1, trivial⟩
          · exact Triple.pure fun _ h => ⟨h.1, nofun⟩
  | unavailable reason => exact Triple.pure fun _ h => ⟨h.1, nofun⟩
  | aborted => exact Triple.pure fun _ h => ⟨h.1, nofun⟩

theorem triple_complete {E : Uploading → Prop} :
    Triple (On (MaySend job.request file history (.complete u.completeParts) (some u)))
      (complete out job u)
      (fun completed => On fun log upload =>
        Holds job.request file history (some u) log upload ∧
        (completed = .outcome .uploaded → SaidUploaded job.request job.payload log)) E := by
  refine Triple.bind triple_call fun result => ?_
  cases result with
  | ok status body =>
      dsimp only
      split
      · next hreceipt =>
          refine Triple.pure fun s h => ⟨h.1.toHolds, fun _ => ?_⟩
          obtain ⟨before, r, hlog, hok, rfl⟩ := h.2 _ _ rfl
          exact ⟨before, _, r, hlog, hok, hreceipt⟩
      · exact Triple.pure fun _ h => ⟨h.1.toHolds, nofun⟩
  | error status code =>
      cases hcommon : common (.error status code) with
      | some outcome =>
          dsimp only
          refine Triple.pure fun _ h => ⟨h.1.toHolds, fun heq => ?_⟩
          exact absurd (Completed.outcome.inj heq) (common_ne_uploaded hcommon)
      | none =>
          dsimp only
          repeat' split
          all_goals exact Triple.pure fun _ h => ⟨h.1.toHolds, nofun⟩
  | unavailable reason => exact Triple.pure fun _ h => ⟨h.1.toHolds, nofun⟩
  | aborted => exact Triple.pure fun _ h => ⟨h.1.toHolds, nofun⟩

/-! ## Parts -/

/-- What holds after a PUT: its tag was learned. -/
def Stored (job : ArchiveUploadJob) (file : List UInt8) (history : List Event)
    (u : ArchiveUploadState) (part : Nat) (result : PartResult) (log : List Event)
    (upload : Option ArchiveUploadState) : Prop :=
  Holds job.request file history (some u) log upload ∧
    ∀ etag, result = .etag etag → nonEmpty etag = true ∧
      (part, etag) ∈ (seen job.request (history ++ log)).learned

theorem endPut_afterPut {r : Response} {etag : String} (h : endPut (afterPut r) = .etag etag) :
    r.ok = true ∧ r.etag.filter nonEmpty = some etag := by
  unfold afterPut at h
  split at h
  · next hok =>
      split at h
      · next e he =>
          cases h
          exact ⟨hok, he⟩
      · cases h
  · repeat' split at h
    all_goals cases h

theorem triple_putOnce {part : Nat} {url : String} {body : List UInt8} {E : Uploading → Prop} :
    Triple (On (MaySend job.request file history (.put part url body) (some u)))
      (putOnce out part url body)
      (fun tried => On fun log upload =>
        MaySend job.request file history (.put part url body) (some u) log upload ∧
        Stored job file history u part (endPut tried) log upload) E := by
  refine Triple.bind triple_turn fun aborted => ?_
  cases aborted with
  | true => exact Triple.pure fun _ h => ⟨h, h.toHolds, nofun⟩
  | false =>
      refine Triple.bind triple_send fun answer => ?_
      cases answer with
      | failed name =>
          refine Triple.bind triple_turn fun aborted => ?_
          cases aborted with
          | true => exact Triple.pure fun _ h => ⟨h.1, h.1.toHolds, nofun⟩
          | false => exact Triple.pure fun _ h => ⟨h.1, h.1.toHolds, nofun⟩
      | response r =>
          refine Triple.pure fun s h => ⟨h.1, h.1.toHolds, fun etag heq => ?_⟩
          obtain ⟨hok, hetag⟩ := endPut_afterPut heq
          obtain ⟨before, hlog⟩ := h.2
          refine ⟨(Option.filter_eq_some_iff.mp hetag).2, ?_⟩
          rw [seen_answered hlog hok, Seen.ok, hetag]
          exact List.mem_append_right _ (List.mem_singleton.mpr rfl)

theorem triple_putLoop {part : Nat} {url : String} {body : List UInt8} {E : Uploading → Prop} :
    ∀ left, Triple (On (MaySend job.request file history (.put part url body) (some u)))
      (putLoop out part url body left)
      (fun result => On (Stored job file history u part result)) E
  | 0 => Triple.bind triple_putOnce fun _ => Triple.pure fun _ h => h.2
  | left + 1 => by
      refine Triple.bind triple_putOnce fun tried => ?_
      cases tried with
      | done result => exact Triple.pure fun _ h => h.2
      | refreshed => exact Triple.pure fun _ h => h.2
      | again failure =>
          exact (triple_putLoop left).weaken (fun _ h => h.1) (fun _ _ h => h) fun _ h => h

theorem triple_readLoop {start length : Nat} {E : Uploading → Prop}
    {holds : List Event → Option ArchiveUploadState → Prop} :
    ∀ (fuel : Nat) (body : List UInt8), body = (file.drop start).take body.length →
      body.length ≤ length → length ≤ body.length + fuel →
      Triple (On holds) (readLoop out file start length fuel body)
        (fun read => On fun log upload => holds log upload ∧
          ∀ bytes, read = .bytes bytes → bytes = (file.drop start).take length) E
  | 0, body, hbody, hle, hfuel => by
      have hlength : body.length = length := by omega
      refine Triple.bind triple_turn fun aborted => ?_
      cases aborted with
      | true => exact Triple.pure fun _ h => ⟨h, nofun⟩
      | false =>
          refine Triple.pure fun _ h => ⟨h, fun bytes heq => ?_⟩
          cases heq
          rwa [hlength] at hbody
  | fuel + 1, body, hbody, hle, hfuel => by
      unfold readLoop
      split
      · next hge =>
          have hlength : body.length = length := by omega
          refine Triple.bind triple_turn fun aborted => ?_
          cases aborted with
          | true => exact Triple.pure fun _ h => ⟨h, nofun⟩
          | false =>
              refine Triple.pure fun _ h => ⟨h, fun bytes heq => ?_⟩
              cases heq
              rwa [hlength] at hbody
      · refine Triple.bind triple_turn fun aborted => ?_
        cases aborted with
        | true => exact Triple.pure fun _ h => ⟨h, nofun⟩
        | false =>
            refine Triple.bind triple_turn fun count => ?_
            cases count with
            | none => exact Triple.pure fun _ h => ⟨h, nofun⟩
            | some count =>
                dsimp only
                split
                · exact Triple.pure fun _ h => ⟨h, nofun⟩
                · next hread =>
                    generalize hn : min (max 1 count)
                      (min partReadSliceBytes (length - body.length)) = n at hread ⊢
                    have hpos := List.length_pos_iff.mpr hread
                    have hlen := List.length_take_le n (file.drop (start + body.length))
                    refine triple_readLoop fuel _ ?_ ?_ ?_
                    · rw [List.length_append, List.take_add, ← hbody, List.drop_drop]
                      congr 1
                      rw [List.take_eq_take_iff]
                      rw [List.length_take]
                      omega
                    · rw [List.length_append]
                      omega
                    · rw [List.length_append]
                      omega

end

end OmniRush.Archive
