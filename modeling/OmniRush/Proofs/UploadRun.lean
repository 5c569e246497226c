import OmniRush.Proofs.UploadCalls
import OmniRush.Proofs.UploadCost

/-!
# Every upload ends, and sends what it may

A turn of the loop over the parts leaves less to go (`triple_putTurn`), so the fuel of a
round is never used up. The record is written after every change, so whatever beginning of
a drain's log the next drain finds, it goes on from an upload whose tags are known
(`Drained`).

So over any number of drains, each cut anywhere, with any answers: a PUT sends the bytes of
its part, the parts are the whole file, a completion has a tag for every part, learned under
the current upload, and a drain ends after a number of requests that depends on the size of
the archive and the attempts of a request only (`uploads_sound`).
-/

namespace OmniRush.Archive

open OmniRush

section

variable {job : ArchiveUploadJob} {file : List UInt8} {history : List Event} {out : Outside}
  {u : ArchiveUploadState} {up : Option ArchiveUploadState}

/-! ## The record -/

theorem Holds.setUpload {up' : Option ArchiveUploadState} {log : List Event}
    {upload : Option ArchiveUploadState} (h : Holds job.request file history up log upload)
    (hup : ∀ u, up' = some u → (seen job.request (history ++ log)).Knows job.request.size u) :
    Holds job.request file history up' log up' := ⟨h.fine, hup, rfl⟩

theorem Holds.persisted {log : List Event} {upload : Option ArchiveUploadState} {recreates : Nat}
    (h : Holds job.request file history up log upload) :
    Holds job.request file history up (log ++ [.persisted upload recreates]) upload := by
  refine ⟨?_, fun u hu => ?_, h.upload⟩
  · rw [← List.append_assoc]
    refine .snoc h.fine nofun fun u hu => ?_
    rw [stored_persisted] at hu
    rw [seen_snoc]
    exact h.knows u (h.upload ▸ hu)
  · rw [← List.append_assoc, seen_snoc]
    exact h.knows u hu

theorem triple_persist :
    Triple (On (Holds job.request file history up)) (persist out)
      (fun _ => On fun log upload => Holds job.request file history up log upload ∧
        (stored (history ++ log)).1 = up) (On (StaysFine job.request file history)) := by
  refine Triple.bind triple_turn fun persists => ?_
  cases persists with
  | false => exact Triple.throw fun _ h => h.fine
  | true =>
      refine Triple.modify fun s h => ⟨h.persisted, ?_⟩
      rw [← List.append_assoc, stored_persisted]
      exact h.upload

/-! ## The loop over the parts -/

/-- How the loop may end with an upload. -/
def Ended (u : ArchiveUploadState) : Put → Prop
  | .stuck => False
  | .done => u.missing = []
  | .outcome o => o ≠ .uploaded
  | .recreate => True

/-- What a turn of the loop leaves: an upload whose tags are known, and less to go. -/
def Turned (job : ArchiveUploadJob) (file : List UInt8) (history : List Event) (toGo : Nat) :
    PutTurn → List Event → Option ArchiveUploadState → Prop
  | .stop put, log, upload => ∃ u, Holds job.request file history (some u) log upload ∧ Ended u put
  | .next urls forbiddenInRow, log, upload => ∃ u,
      Holds job.request file history (some u) log upload ∧ u.toGo urls forbiddenInRow < toGo

theorem knows_learn {log : List Event} {upload : Option ArchiveUploadState}
    {held : List HeldPart} (h : Holds job.request file history (some u) log upload)
    (hheld : ∀ part ∈ held, nonEmpty part.etag = true)
    (hlearned : ∀ tag ∈ heldTags u job.request.size held,
      tag ∈ (seen job.request (history ++ log)).learned) :
    (seen job.request (history ++ log)).Knows job.request.size
      (u.learn job.request.size held).1 := by
  have hknows := h.knows u rfl
  have hgrows : u.Grows (u.learn job.request.size held).1 :=
    ArchiveUploadState.grows_learn hheld
  refine ⟨hknows.current.trans (congrArg some hgrows.same.symm), ?_, fun part etag he => ?_⟩
  · rw [hgrows.partCount, hgrows.partSize]
    exact hknows.partCount
  · rcases ArchiveUploadState.etag_learn he with he | he
    · exact hknows.learned part etag he
    · exact hlearned _ he

theorem triple_listMissing {part : Nat} {rest : List Nat} {urls : List (Nat × String)}
    {forbiddenInRow : Nat} (hmissing : u.missing = part :: rest) (hurl : urlOf urls part = none) :
    Triple (On (Holds job.request file history (some u)))
      (listMissing out job.request.size u part urls forbiddenInRow)
      (fun turn => On (Turned job file history (u.toGo urls forbiddenInRow) turn))
      (On (StaysFine job.request file history)) := by
  refine Triple.bind (triple_listParts.weaken (fun _ h => ⟨h, trivial, nofun⟩)
    (fun _ _ h => h) fun _ h => h) fun listed => ?_
  cases listed with
  | outcome o => exact Triple.pure fun _ h => ⟨u, h.1.toHolds, h.2⟩
  | recreate => exact Triple.pure fun _ h => ⟨u, h.1.toHolds, trivial⟩
  | parts listed held =>
      refine Triple.assume fun s₀ h₀ => ?_
      have hgrows : u.Grows (u.learn job.request.size held).1 :=
        ArchiveUploadState.grows_learn h₀.2.1
      refine Triple.weaken (P := On fun log upload =>
        Holds job.request file history (some u) log upload ∧
        ∀ tag ∈ heldTags u job.request.size held,
          tag ∈ (seen job.request (history ++ log)).learned) ?_
        (fun s hs => hs ▸ ⟨h₀.1.toHolds, h₀.2.2⟩) (fun _ _ h => h) fun _ h => h
      refine Triple.bind (Q := fun _ => On (Holds job.request file history
        (some (u.learn job.request.size held).1))) (Triple.modify fun s h => ?_) fun _ => ?_
      · refine h.1.setUpload fun u' hu' => ?_
        cases hu'
        exact knows_learn h.1 h₀.2.1 h.2
      refine Triple.bind (Q := fun _ => On (Holds job.request file history
        (some (u.learn job.request.size held).1))) ?_ fun _ => ?_
      · unfold persistIf
        split
        · exact triple_persist.weaken (fun _ h => h) (fun _ _ h => h.1) fun _ h => h
        · exact Triple.pure fun _ h => h
      · split
        · exact Triple.pure fun _ h => ⟨_, h, nofun⟩
        · next hlisted =>
            refine Triple.pure fun _ h => ⟨_, h, ?_⟩
            rw [not_and_or, Option.isNone_iff_eq_none, Option.isNone_iff_eq_none] at hlisted
            by_cases hetag : (u.learn job.request.size held).1.etag part = none
            · refine ArchiveUploadState.toGo_listed hgrows hmissing hurl hetag ?_
              exact hlisted.resolve_right (not_not_intro hetag)
            · exact ArchiveUploadState.toGo_tagged hgrows (hmissing ▸ List.mem_cons_self) hetag

theorem triple_partGone {part : Nat} {rest : List Nat} {urls : List (Nat × String)}
    {forbiddenInRow : Nat} (hmissing : u.missing = part :: rest) (hurl : urlOf urls part ≠ none) :
    Triple (On (Holds job.request file history (some u))) (partGone out part forbiddenInRow)
      (fun turn => On (Turned job file history (u.toGo urls forbiddenInRow) turn))
      (On (StaysFine job.request file history)) := by
  refine Triple.bind (triple_listParts.weaken (fun _ h => ⟨h, trivial, nofun⟩)
    (fun _ _ h => h) fun _ h => h) fun listed => ?_
  cases listed with
  | outcome o => exact Triple.pure fun _ h => ⟨u, h.1.toHolds, h.2⟩
  | recreate => exact Triple.pure fun _ h => ⟨u, h.1.toHolds, trivial⟩
  | parts listed held =>
      dsimp only
      split
      · exact Triple.pure fun _ h => ⟨u, h.1.toHolds, nofun⟩
      · next hrow =>
          exact Triple.pure fun _ h => ⟨u, h.1.toHolds,
            ArchiveUploadState.toGo_refused hmissing hurl hrow⟩

theorem triple_partStored {part : Nat} {etag : String} {rest : List Nat}
    {urls : List (Nat × String)} {forbiddenInRow : Nat} (hmissing : u.missing = part :: rest) :
    Triple (On (Stored job file history u part (.etag etag))) (partStored out u part etag urls)
      (fun turn => On (Turned job file history (u.toGo urls forbiddenInRow) turn))
      (On (StaysFine job.request file history)) := by
  refine Triple.assume fun s₀ h₀ => ?_
  obtain ⟨hne, -⟩ := h₀.2 etag rfl
  refine Triple.bind (Q := fun _ => On (Holds job.request file history
    (some (u.setEtag part etag)))) (Triple.modify ?_) fun _ => ?_
  · rintro _ rfl
    refine h₀.1.setUpload fun u' hu' => ?_
    cases hu'
    exact (h₀.1.knows u rfl).setEtag (h₀.2 etag rfl).2
  · refine Triple.bind triple_persist fun _ => Triple.pure fun _ h => ⟨_, h.1, ?_⟩
    refine ArchiveUploadState.toGo_tagged (ArchiveUploadState.grows_setEtag hne)
      (hmissing ▸ List.mem_cons_self) ?_
    rw [ArchiveUploadState.etag_setEtag, if_pos rfl, Option.filter_some_pos hne]
    exact nofun

theorem triple_putOnePart {part : Nat} {url : String} {rest : List Nat}
    {urls : List (Nat × String)} {forbiddenInRow : Nat} (hmissing : u.missing = part :: rest)
    (hurl : urlOf urls part = some url) :
    Triple (On (Holds job.request file history (some u)))
      (putOnePart out file job.request.size u part url urls forbiddenInRow)
      (fun turn => On (Turned job file history (u.toGo urls forbiddenInRow) turn))
      (On (StaysFine job.request file history)) := by
  have hlisted : urlOf urls part ≠ none := hurl ▸ nofun
  refine Triple.bind (triple_readLoop _ [] rfl (Nat.zero_le _) (Nat.le_add_left _ _))
    fun read => ?_
  cases read with
  | failed reason => exact Triple.pure fun _ h => ⟨u, h.1, nofun⟩
  | aborted => exact Triple.pure fun _ h => ⟨u, h.1, nofun⟩
  | bytes body =>
      refine Triple.bind (Q := fun result => On (Stored job file history u part result))
        (Triple.weaken (triple_putLoop _) (fun s h => ?_) (fun _ _ h => h) fun _ h => h)
        fun result => ?_
      · refine ⟨h.1, ?_, nofun⟩
        rw [h.2 body rfl]
        exact (h.1.knows u rfl).allows_put (hmissing ▸ List.mem_cons_self)
      cases result with
      | forbidden =>
          dsimp only
          split
          · exact Triple.pure fun _ h => ⟨u, h.1, nofun⟩
          · next hrow =>
              exact Triple.pure fun _ h => ⟨u, h.1,
                ArchiveUploadState.toGo_refused hmissing hlisted hrow⟩
      | gone =>
          exact (triple_partGone hmissing hlisted).weaken (fun _ h => h.1) (fun _ _ h => h)
            fun _ h => h
      | failed reason =>
          refine Triple.bind triple_turn fun aborted => ?_
          cases aborted with
          | true => exact Triple.pure fun _ h => ⟨u, h.1, nofun⟩
          | false => exact Triple.pure fun _ h => ⟨u, h.1, nofun⟩
      | etag etag => exact triple_partStored hmissing

theorem triple_putTurn {urls : List (Nat × String)} {forbiddenInRow : Nat} :
    Triple (On (Holds job.request file history (some u)))
      (putTurn out file job.request.size urls forbiddenInRow)
      (fun turn => On (Turned job file history (u.toGo urls forbiddenInRow) turn))
      (On (StaysFine job.request file history)) := by
  refine Triple.bind triple_turn fun aborted => ?_
  cases aborted with
  | true => exact Triple.pure fun _ h => ⟨u, h, nofun⟩
  | false =>
      refine Triple.bind (Q := fun a s => a = s ∧ On (Holds job.request file history (some u)) s)
        (Triple.get fun s h => ⟨rfl, h⟩) fun a => Triple.assume fun s h => ?_
      obtain ⟨rfl, h⟩ := h
      rw [show a.upload = some u from h.upload]
      cases hmissing : u.missing with
      | nil =>
          dsimp only
          rw [hmissing]
          refine Triple.pure ?_
          rintro _ ⟨rfl, -⟩
          exact ⟨u, h, hmissing⟩
      | cons part rest =>
          dsimp only
          rw [hmissing]
          dsimp only
          split
          · next hurl =>
              exact (triple_listMissing hmissing hurl).weaken (fun s hs => hs ▸ h)
                (fun _ _ h => h) fun _ h => h
          · next url hurl =>
              exact (triple_putOnePart hmissing hurl).weaken (fun s hs => hs ▸ h)
                (fun _ _ h => h) fun _ h => h

theorem triple_putMissingParts : ∀ (fuel : Nat) (u : ArchiveUploadState)
    (urls : List (Nat × String)) (forbiddenInRow : Nat), u.toGo urls forbiddenInRow < fuel →
    Triple (On (Holds job.request file history (some u)))
      (putMissingParts out file job.request.size fuel urls forbiddenInRow)
      (fun put => On fun log upload =>
        ∃ u', Holds job.request file history (some u') log upload ∧ Ended u' put)
      (On (StaysFine job.request file history))
  | 0, _, _, _, hfuel => absurd hfuel (Nat.not_lt_zero _)
  | fuel + 1, u, urls, forbiddenInRow, hfuel => by
      refine Triple.bind triple_putTurn fun turn => ?_
      cases turn with
      | stop put => exact Triple.pure fun _ h => h
      | next urls' forbiddenInRow' =>
          refine Triple.assume fun s h => ?_
          obtain ⟨u', hholds, hless⟩ := h
          exact (triple_putMissingParts fuel u' urls' forbiddenInRow' (by omega)).weaken
            (fun s' hs' => hs' ▸ hholds) (fun _ _ h => h) fun _ h => h

/-! ## Rounds -/

/-- What a round leaves. -/
def RoundEnds (job : ArchiveUploadJob) (file : List UInt8) (history : List Event) :
    Round → List Event → Option ArchiveUploadState → Prop
  | .outcome o, log, upload => StaysFine job.request file history log upload ∧
      (o = .uploaded → SaidUploaded job.request job.payload log)
  | .another, log, upload => Begins job.request file history log upload
  | .stuck, _, _ => False

theorem triple_recreate :
    Triple (On (Holds job.request file history up)) (recreate out)
      (fun round => On (RoundEnds job file history round))
      (On (StaysFine job.request file history)) := by
  refine Triple.bind (Q := fun _ => On (Holds job.request file history none))
    (Triple.modify fun s h => h.setUpload nofun) fun _ => ?_
  exact Triple.bind triple_persist fun _ => Triple.pure fun _ h => ⟨none, h.1, fun _ => h.2⟩

theorem triple_relist :
    Triple (On (Holds job.request file history (some u))) (relist out u)
      (fun round => On (RoundEnds job file history round))
      (On (StaysFine job.request file history)) := by
  refine Triple.bind (Q := fun _ => On (Holds job.request file history (some u.clearEtags)))
    (Triple.modify fun s h => h.setUpload fun u' hu' => ?_) fun _ => ?_
  · cases hu'
    exact (h.knows u rfl).clearEtags
  · exact Triple.bind triple_persist fun _ => Triple.pure fun _ h => ⟨_, h.1, nofun⟩

theorem triple_reupload {code : String} :
    Triple (On (Holds job.request file history up)) (reupload out code)
      (fun round => On (RoundEnds job file history round))
      (On (StaysFine job.request file history)) := by
  refine Triple.bind (Q := fun _ => On (Holds job.request file history up))
    (Triple.get fun s h => h) fun s => ?_
  split
  · exact Triple.pure fun _ h => ⟨h.fine, nofun⟩
  · refine Triple.bind (Q := fun _ => On (Holds job.request file history none))
      (Triple.modify fun s h => h.setUpload nofun) fun _ => ?_
    exact Triple.bind triple_persist fun _ => Triple.pure fun _ h => ⟨none, h.1, fun _ => h.2⟩

theorem triple_finishUpload :
    Triple (On fun log upload => ∃ u, Holds job.request file history (some u) log upload ∧
        u.missing = []) (finishUpload out job)
      (fun round => On (RoundEnds job file history round))
      (On (StaysFine job.request file history)) := by
  refine Triple.assume fun s h => ?_
  obtain ⟨u, h, hmissing⟩ := h
  refine Triple.bind (Q := fun a s' => a = s' ∧ s' = s) (Triple.get fun s' h => ⟨rfl, h⟩)
    fun a => Triple.assume fun s' h' => ?_
  obtain ⟨rfl, rfl⟩ := h'
  rw [show a.upload = some u from h.upload]
  refine Triple.bind (Triple.weaken
    (P := On (MaySend job.request file history (.complete u.completeParts) (some u)))
    triple_complete (fun s' hs' => ?_) (fun _ _ h => h) fun _ h => h) fun completed => ?_
  · exact hs' ▸ ⟨h, (h.knows u rfl).allows_complete hmissing, nofun⟩
  cases completed with
  | outcome o =>
      exact Triple.pure fun _ h => ⟨h.1.fine, fun ho => h.2 (congrArg Completed.outcome ho)⟩
  | recreate => exact triple_recreate.weaken (fun _ h => h.1) (fun _ _ h => h) fun _ h => h
  | relist => exact triple_relist.weaken (fun _ h => h.1) (fun _ _ h => h) fun _ h => h
  | reupload code => exact triple_reupload.weaken (fun _ h => h.1) (fun _ _ h => h) fun _ h => h

theorem triple_ensureUpload :
    Triple (On (Begins job.request file history)) (ensureUpload out job)
      (fun ensured => On fun log upload => match ensured with
        | .outcome o => StaysFine job.request file history log upload ∧
            (o = .uploaded → SaidUploaded job.request job.payload log)
        | .ready _ => ∃ u, Holds job.request file history (some u) log upload)
      (On (StaysFine job.request file history)) := by
  refine Triple.assume fun s h => ?_
  obtain ⟨up, h, hstored⟩ := h
  refine Triple.bind (Q := fun a s' => a = s' ∧ s' = s) (Triple.get fun s' h => ⟨rfl, h⟩)
    fun a => Triple.assume fun s' h' => ?_
  obtain ⟨rfl, rfl⟩ := h'
  rw [show a.upload = up from h.upload]
  cases up with
  | some u =>
      refine Triple.pure ?_
      rintro _ rfl
      exact ⟨u, h⟩
  | none =>
      refine Triple.bind (Triple.weaken
        (P := On (MaySend job.request file history .create none))
        triple_create (fun s' hs' => ?_) (fun _ _ h => h) fun _ h => h) fun made => ?_
      · exact hs' ▸ ⟨h, trivial, fun _ => ⟨rfl, hstored rfl⟩⟩
      cases made with
      | outcome o => exact Triple.pure fun _ h => ⟨h.1.fine, fun ho => absurd ho h.2⟩
      | uploaded => exact Triple.pure fun _ h => ⟨h.1.fine, fun _ => h.2⟩
      | fresh u urls =>
          refine Triple.bind (Q := fun _ => On (Holds job.request file history (some u)))
            (Triple.modify fun s h => h.1.setUpload fun u' hu' => ?_) fun _ => ?_
          · cases hu'
            exact h.2
          · exact Triple.bind triple_persist fun _ => Triple.pure fun _ h => ⟨u, h.1⟩

theorem triple_uploadRound :
    Triple (On (Begins job.request file history)) (uploadRound out file job)
      (fun round => On (RoundEnds job file history round))
      (On (StaysFine job.request file history)) := by
  refine Triple.bind triple_turn fun aborted => ?_
  cases aborted with
  | true => exact Triple.pure fun _ ⟨_, h, _⟩ => ⟨h.fine, nofun⟩
  | false =>
      refine Triple.bind triple_ensureUpload fun ensured => ?_
      cases ensured with
      | outcome o => exact Triple.pure fun _ h => h
      | ready urls =>
          refine Triple.assume fun s h => ?_
          obtain ⟨u, h⟩ := h
          have hfuel : u.toGo urls 0 < partFuel job.request.size := by
            have htoGo := ArchiveUploadState.toGo_le u urls 0
            have hcount : ceilDiv job.request.size u.partSize ≤ job.request.size :=
              ceilDiv_le u.partSize_pos.1
            rw [← (h.knows u rfl).partCount] at hcount
            unfold partFuel
            omega
          refine Triple.bind ((triple_putMissingParts _ u urls 0 hfuel).weaken
            (fun s' hs' => hs' ▸ h) (fun _ _ h => h) fun _ h => h) fun put => ?_
          cases put with
          | stuck => exact Triple.pure fun _ ⟨_, _, h⟩ => h
          | outcome o => exact Triple.pure fun _ ⟨_, h, ho⟩ => ⟨h.fine, fun heq => absurd heq ho⟩
          | recreate =>
              refine Triple.assume fun s h => ?_
              obtain ⟨u, h, -⟩ := h
              exact triple_recreate.weaken (fun s' hs' => hs' ▸ h) (fun _ _ h => h) fun _ h => h
          | done => exact triple_finishUpload

theorem triple_uploadFrom : ∀ rounds,
    Triple (On (Begins job.request file history)) (uploadFrom out file job rounds)
      (fun result => On fun log upload => ∃ o, result = some o ∧
        RoundEnds job file history (.outcome o) log upload)
      (On (StaysFine job.request file history))
  | 0 => Triple.pure fun _ ⟨_, h, _⟩ => ⟨_, rfl, h.fine, nofun⟩
  | rounds + 1 => by
      refine Triple.bind triple_uploadRound fun round => ?_
      cases round with
      | outcome o => exact Triple.pure fun _ h => ⟨o, rfl, h⟩
      | stuck => exact Triple.pure fun _ h => h.elim
      | another => exact triple_uploadFrom rounds

/-- A file of the size of the archive is the sealed file. -/
def Sealed (job : ArchiveUploadJob) (file : List UInt8) (found : Option (List UInt8)) : Prop :=
  ∀ f, found = some f → f.length = job.request.size → f = file

theorem triple_upload {found : Option (List UInt8)} (hfound : Sealed job file found) :
    Triple (On (Begins job.request file history)) (Archive.upload out found job)
      (fun result => On fun log upload => ∃ o, result = some o ∧
        RoundEnds job file history (.outcome o) log upload)
      (On (StaysFine job.request file history)) := by
  refine Triple.bind triple_turn fun aborted => ?_
  cases aborted with
  | true => exact Triple.pure fun _ ⟨_, h, _⟩ => ⟨_, rfl, h.fine, nofun⟩
  | false =>
      cases found with
      | none => exact Triple.pure fun _ ⟨_, h, _⟩ => ⟨_, rfl, h.fine, nofun⟩
      | some f =>
          rw [if_neg Bool.false_ne_true]
          dsimp only
          split
          · exact Triple.pure fun _ ⟨_, h, _⟩ => ⟨_, rfl, h.fine, nofun⟩
          · next hlength =>
              rw [hfound f rfl (not_not.mp hlength)]
              exact triple_uploadFrom _

end

/-! ## Drains -/

/-- The job of the next drain, as the record on disk has it. -/
def nextJob (request : ArchiveCreateRequest) (payload : Payload) (history : List Event) :
    ArchiveUploadJob :=
  { request, payload, upload := (stored history).1, recreates := (stored history).2 }

/-- One drain of the job. -/
def drain (out : Outside) (found : Option (List UInt8)) (job : ArchiveUploadJob) :
    Except Unit (Option UploadOutcome) × Uploading :=
  (upload out found job).run.run job.start

/-- What was sent and written over the drains of an archive, from when it was queued. A drain
may be cut anywhere; the next one begins with the record on disk. -/
inductive Drained (request : ArchiveCreateRequest) (payload : Payload) (file : List UInt8) :
    List Event → Prop
  | queued : Drained request payload file []
  | drain {history log : List Event} {out : Outside} {found : Option (List UInt8)} :
      Drained request payload file history →
      Sealed (nextJob request payload history) file found →
      log <+: (Archive.drain out found (nextJob request payload history)).2.log →
      Drained request payload file (history ++ log)

/-- No part is empty, and every byte is in exactly one. -/
structure PartitionsFile (size : Nat) (u : ArchiveUploadState) : Prop where
  nonempty : ∀ part, 1 ≤ part → part ≤ u.partCount →
    (part - 1) * u.partSize < min (part * u.partSize) size
  covers : ∀ i < size, ∃! part, (1 ≤ part ∧ part ≤ u.partCount) ∧
    (part - 1) * u.partSize ≤ i ∧ i < min (part * u.partSize) size

theorem partitionsFile {size : Nat} {u : ArchiveUploadState}
    (h : u.partCount = ceilDiv size u.partSize) : PartitionsFile size u := by
  refine ⟨fun part hpart hcount => ?_, fun i hi => ?_⟩
  · have hsize := mul_lt_of_le_ceilDiv u.partSize_pos.1 hpart (h ▸ hcount)
    have hle := Nat.le_mul_of_pos_left u.partSize hpart
    have hpos := u.partSize_pos.1
    rw [Nat.lt_min]
    refine ⟨?_, hsize⟩
    rw [Nat.sub_mul, Nat.one_mul]
    omega
  · rw [h]
    exact existsUnique_part u.partSize_pos.1 hi

section

variable {request : ArchiveCreateRequest} {payload : Payload} {file : List UInt8}
  {history : List Event} {out : Outside} {found : Option (List UInt8)}

theorem begins_nextJob (h : Fine request file history) :
    On (Begins request file history) (nextJob request payload history).start := by
  have hnil : history ++ (nextJob request payload history).start.log = history :=
    List.append_nil history
  unfold On Begins
  rw [hnil]
  refine ⟨(stored history).1, ⟨?_, fun u hu => ?_, rfl⟩, id⟩
  · rwa [hnil]
  · rw [hnil]
    exact h.knows hu

/-- A drain that is not cut ends with an outcome, or where the record is not written. -/
theorem drain_ends (h : Fine request file history)
    (hfound : Sealed (nextJob request payload history) file found)
    {result : Except Unit (Option UploadOutcome)} {s : Uploading}
    (hrun : drain out found (nextJob request payload history) = (result, s)) :
    Fine request file (history ++ s.log) ∧ ∀ r, result = .ok r → ∃ o, r = some o ∧
      (o = .uploaded → SaidUploaded request payload s.log) := by
  have htriple := @triple_upload (nextJob request payload history) file history out found hfound
  cases result with
  | ok r =>
      obtain ⟨o, ho, hfine, hsaid⟩ := htriple.ok (begins_nextJob h) hrun
      refine ⟨hfine, fun r' hr' => ?_⟩
      cases hr'
      exact ⟨o, ho, hsaid⟩
  | error e => exact ⟨htriple.error (begins_nextJob h) hrun, nofun⟩

theorem Drained.fine (h : Drained request payload file history) : Fine request file history := by
  induction h with
  | queued => exact .nil
  | @drain history log out found _ hfound hcut ih =>
      obtain ⟨rest, hrest⟩ := hcut
      cases hrun : Archive.drain out found (nextJob request payload history) with
      | mk result s =>
          have hfine := (drain_ends ih hfound hrun).1
          rw [hrun] at hrest
          rw [← hrest, ← List.append_assoc] at hfine
          exact hfine.before

/-- Every PUT sends the bytes of its part, and the parts are the whole file. Every completion
has a tag for each part, in order, learned under the upload created last. Every drain ends
after so many requests, and says `uploaded` only where the server did. -/
theorem uploads_sound (h : Drained request payload file history) :
    (∀ before after part url body answer,
      history = before ++ .sent (.put part url body) answer :: after →
      ∃ u, (seen request before).current = some u ∧ PartitionsFile request.size u ∧
        1 ≤ part ∧ part ≤ u.partCount ∧
        body = fileRange file ((part - 1) * u.partSize)
          (min (part * u.partSize) request.size)) ∧
    (∀ before after parts answer,
      history = before ++ .sent (.complete parts) answer :: after →
      ∃ u, (seen request before).current = some u ∧ PartitionsFile request.size u ∧
        parts.map (·.1) = (List.range u.partCount).map (· + 1) ∧
        ∀ tag ∈ parts, tag ∈ (seen request before).learned) ∧
    ∀ out found, Sealed (nextJob request payload history) file found →
      (drain out found (nextJob request payload history)).1 ≠ .ok none ∧
      (drain out found (nextJob request payload history)).2.requests ≤
        uploadCost out request.size ∧
      ((drain out found (nextJob request payload history)).1 = .ok (some .uploaded) →
        SaidUploaded request payload
          (drain out found (nextJob request payload history)).2.log) := by
  refine ⟨?_, ?_, fun out found hfound => ⟨?_, ?_, ?_⟩⟩
  · rintro before after part url body answer rfl
    obtain ⟨u, hcurrent, hcount, hpos, hle, hbody⟩ := h.fine.allows
    exact ⟨u, hcurrent, partitionsFile hcount, hpos, hle, hbody⟩
  · rintro before after parts answer rfl
    obtain ⟨u, hcurrent, hcount, hparts, hlearned⟩ := h.fine.allows
    exact ⟨u, hcurrent, partitionsFile hcount, hparts, hlearned⟩
  · intro hnone
    obtain ⟨o, ho, -⟩ := (drain_ends h.fine hfound (Prod.ext hnone rfl)).2 none rfl
    cases ho
  · exact (sends_upload.run_le).trans (Nat.le_of_eq (Nat.zero_add _))
  · intro huploaded
    obtain ⟨o, ho, hsaid⟩ := (drain_ends h.fine hfound (Prod.ext huploaded rfl)).2 _ rfl
    cases ho
    exact hsaid rfl

end

/-! ## A drain of three bytes in two parts -/

def threeBytes : ArchiveCreateRequest where
  archiveId := "a"
  sessionId := "s"
  kind := .base
  sequence := 1
  turn := 1
  parentArchiveId := none
  size := 3
  sha256 := ""
  kid := ""
  marker := ""

def twoParts : Json :=
  .obj [("archive_id", .str "a"), ("status", .str "uploading"), ("upload_id", .str "u"),
    ("object_key", .str "k"), ("part_size", .num 2), ("part_count", .num 2),
    ("parts", .arr [.obj [("part_number", .num 1), ("url", .str "1")],
      .obj [("part_number", .num 2), ("url", .str "2")]])]

def plainDrain : Outside where
  answer tick :=
    .response { status := 200, etag := some "e", body := if tick = 3 then twoParts else .null }
  aborted _ := false
  refreshed _ := false
  read _ := some 2
  persists _ := true
  attempts := 1

def firstDrain : Except Unit (Option UploadOutcome) × Uploading :=
  drain plainDrain (some [1, 2, 3]) (nextJob threeBytes .project [])

theorem firstDrain_drained : Drained threeBytes .project [1, 2, 3] firstDrain.2.log := by
  rw [← List.nil_append firstDrain.2.log]
  unfold firstDrain
  exact .drain .queued (fun _ h _ => (Option.some.inj h).symm) (List.prefix_refl _)

theorem uploads_sound_twoParts :
    firstDrain.1 = .ok (some .uploaded) ∧
    SaidUploaded threeBytes .project firstDrain.2.log ∧
    (drain plainDrain none (nextJob threeBytes .project firstDrain.2.log)).2.requests ≤
      uploadCost plainDrain 3 := by
  have hdone : firstDrain.1 = .ok (some .uploaded) := by decide +kernel
  refine ⟨hdone, ?_, ?_⟩
  · unfold firstDrain at hdone ⊢
    exact ((uploads_sound .queued).2.2 plainDrain (some [1, 2, 3])
      fun _ h _ => (Option.some.inj h).symm).2.2 hdone
  · exact ((uploads_sound firstDrain_drained).2.2 plainDrain none nofun).2.1

end OmniRush.Archive
