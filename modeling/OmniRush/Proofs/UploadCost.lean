import OmniRush.Archive.Upload

/-!
# How many requests a drain sends

Each piece of the uploader sends at most so many requests, also where the record cannot be
written: the attempts of a call and one more after a refreshed bearer, a PUT and a listing
a turn of the loop over the parts, and a creation, the parts and a completion a round.
-/

namespace OmniRush.Archive

open OmniRush

def Event.isRequest : Event → Bool
  | .sent _ _ => true
  | .persisted _ _ => false

def Uploading.requests (s : Uploading) : Nat := s.log.countP Event.isRequest

section

variable {α : Type} {out : Outside}

abbrev Sends (k : Nat) (code : Upload α) : Prop := Costs Uploading.requests k code

theorem sends_turn {f : Nat → α} : Sends 0 (turn f) := fun _ _ h => h

theorem sends_send {request : Request} : Sends 1 (send out request) := by
  intro n s h
  change Uploading.requests _ ≤ n + 1
  unfold Uploading.requests at h ⊢
  rw [List.countP_append]
  exact Nat.add_le_add_right h 1

theorem sends_persist : Sends 0 (persist out) := by
  refine Costs.free sends_turn fun persists => ?_
  cases persists with
  | false => exact fun n => Triple.throw fun _ h => h
  | true =>
      refine Costs.modify fun s => ?_
      unfold Uploading.requests
      rw [List.countP_append]
      rfl

theorem sends_callOnce {request : Request} {mayRefresh : Bool} :
    Sends 1 (callOnce out request mayRefresh) := by
  refine Costs.free sends_turn fun aborted => ?_
  cases aborted with
  | true => exact Costs.pure
  | false =>
      refine Costs.bind (l := 0) sends_send fun answer => ?_
      cases answer with
      | failed name => exact Costs.free sends_turn fun aborted => by cases aborted <;> exact Costs.pure
      | response r =>
          dsimp only
          split
          · exact Costs.pure
          · refine Costs.free ?_ fun refreshed => by cases refreshed <;> exact Costs.pure
            unfold refresh
            split
            · exact sends_turn
            · exact Costs.pure

theorem sends_callRefreshed {request : Request} : ∀ left,
    Sends (left + 1) (callRefreshed out request left)
  | 0 => Costs.bind (l := 0) sends_callOnce fun _ => Costs.pure
  | left + 1 => by
      refine Costs.mono (Costs.bind sends_callOnce fun tried => ?_) (Nat.le_of_eq (Nat.add_comm 1 (left + 1)))
      cases tried with
      | done result => exact Costs.pure
      | refreshed => exact Costs.pure
      | again failure => exact sends_callRefreshed left

theorem sends_callLoop {request : Request} : ∀ left,
    Sends (left + 2) (callLoop out request left)
  | 0 => by
      refine Costs.mono (Costs.bind (l := 1) sends_callOnce fun tried => ?_) (Nat.le_refl 2)
      cases tried with
      | done result => exact Costs.pure
      | again failure => exact Costs.pure
      | refreshed => exact sends_callRefreshed 0
  | left + 1 => by
      refine Costs.mono (Costs.bind sends_callOnce fun tried => ?_) (Nat.le_of_eq (Nat.add_comm 1 (left + 2)))
      cases tried with
      | done result => exact Costs.pure
      | again failure => exact sends_callLoop left
      | refreshed => exact sends_callRefreshed (left + 1)

/-- The attempts of a request of the API, and one more where the bearer is refreshed. -/
def callCost (out : Outside) : Nat := out.attempts - 1 + 2

def putCost (out : Outside) : Nat := out.attempts - 1 + 1

theorem sends_call {request : Request} : Sends (callCost out) (call out request) :=
  sends_callLoop _

theorem sends_putLoop {part : Nat} {url : String} {body : List UInt8} : ∀ left,
    Sends (left + 1) (putLoop out part url body left) := by
  have honce : Sends 1 (putOnce out part url body) := by
    refine Costs.free sends_turn fun aborted => ?_
    cases aborted with
    | true => exact Costs.pure
    | false =>
        refine Costs.bind (l := 0) sends_send fun answer => ?_
        cases answer with
        | failed name =>
            exact Costs.free sends_turn fun aborted => by cases aborted <;> exact Costs.pure
        | response r => exact Costs.pure
  intro left
  induction left with
  | zero => exact Costs.bind (l := 0) honce fun _ => Costs.pure
  | succ left ih =>
      refine Costs.mono (Costs.bind honce fun tried => ?_) (Nat.le_of_eq (Nat.add_comm 1 (left + 1)))
      cases tried with
      | done result => exact Costs.pure
      | refreshed => exact Costs.pure
      | again failure => exact ih

theorem sends_readLoop {file : List UInt8} {start length : Nat} : ∀ (fuel : Nat)
    (body : List UInt8), Sends 0 (readLoop out file start length fuel body)
  | 0, body => Costs.free sends_turn fun aborted => by cases aborted <;> exact Costs.pure
  | fuel + 1, body => by
      unfold readLoop
      split
      · exact Costs.free sends_turn fun aborted => by cases aborted <;> exact Costs.pure
      · refine Costs.free sends_turn fun aborted => ?_
        cases aborted with
        | true => exact Costs.pure
        | false =>
            refine Costs.free sends_turn fun count => ?_
            cases count with
            | none => exact Costs.pure
            | some count =>
                dsimp only
                split
                · exact Costs.pure
                · exact sends_readLoop fuel _

theorem sends_create {request : ArchiveCreateRequest} :
    Sends (callCost out) (create out request) := by
  refine Costs.bind (l := 0) sends_call fun result => ?_
  repeat' split
  all_goals exact Costs.pure

theorem sends_listParts {numbers : List Nat} : Sends (callCost out) (listParts out numbers) := by
  refine Costs.bind (l := 0) sends_call fun result => ?_
  repeat' split
  all_goals exact Costs.pure

theorem sends_complete {job : ArchiveUploadJob} {u : ArchiveUploadState} :
    Sends (callCost out) (complete out job u) := by
  refine Costs.bind (l := 0) sends_call fun result => ?_
  repeat' split
  all_goals exact Costs.pure

theorem sends_setUpload {up : Option ArchiveUploadState} : Sends 0 (setUpload up) :=
  Costs.modify fun _ => rfl

theorem sends_putTurn {file : List UInt8} {size : Nat} {urls : List (Nat × String)}
    {forbiddenInRow : Nat} :
    Sends (putCost out + callCost out) (putTurn out file size urls forbiddenInRow) := by
  refine Costs.free sends_turn fun aborted => ?_
  cases aborted with
  | true => exact Costs.pure
  | false =>
      refine Costs.free Costs.get fun s => ?_
      repeat' split
      all_goals try exact Costs.pure
      · refine Costs.mono (Costs.bind (l := 0) sends_listParts fun listed => ?_)
          (Nat.le_add_left _ _)
        cases listed with
        | outcome o => exact Costs.pure
        | recreate => exact Costs.pure
        | parts listed held =>
            refine Costs.free sends_setUpload fun _ => Costs.free ?_ fun _ => ?_
            · unfold persistIf
              split
              · exact sends_persist
              · exact Costs.pure
            · split <;> exact Costs.pure
      · refine Costs.free (sends_readLoop _ _) fun read => ?_
        cases read with
        | failed reason => exact Costs.pure
        | aborted => exact Costs.pure
        | bytes body =>
            refine Costs.bind (sends_putLoop _) fun result => ?_
            cases result with
            | forbidden =>
                dsimp only
                split <;> exact Costs.pure
            | gone =>
                refine Costs.bind (l := 0) sends_listParts fun listed => ?_
                cases listed with
                | outcome o => exact Costs.pure
                | recreate => exact Costs.pure
                | parts listed held =>
                    dsimp only
                    split <;> exact Costs.pure
            | failed reason =>
                exact Costs.free sends_turn fun aborted => by cases aborted <;> exact Costs.pure
            | etag etag =>
                exact Costs.free sends_setUpload fun _ => Costs.free sends_persist fun _ => Costs.pure

theorem sends_putMissingParts {file : List UInt8} {size : Nat} : ∀ (fuel : Nat)
    (urls : List (Nat × String)) (forbiddenInRow : Nat),
    Sends (fuel * (putCost out + callCost out))
      (putMissingParts out file size fuel urls forbiddenInRow)
  | 0, _, _ => Costs.pure
  | fuel + 1, urls, forbiddenInRow => by
      refine Costs.mono (Costs.bind sends_putTurn fun turn => ?_)
        (by rw [Nat.add_mul, Nat.one_mul, Nat.add_comm])
      cases turn with
      | stop put => exact Costs.pure
      | next urls' forbiddenInRow' => exact sends_putMissingParts fuel urls' forbiddenInRow'

/-- The requests of a round: the creation, the parts and the completion. -/
def roundCost (out : Outside) (size : Nat) : Nat :=
  callCost out + (partFuel size * (putCost out + callCost out) + callCost out)

theorem sends_uploadRound {file : List UInt8} {job : ArchiveUploadJob} :
    Sends (roundCost out job.request.size) (uploadRound out file job) := by
  refine Costs.free sends_turn fun aborted => ?_
  cases aborted with
  | true => exact Costs.pure
  | false =>
      refine Costs.bind (Costs.free Costs.get fun s => ?_) fun ensured => ?_
      · split
        · exact Costs.pure
        · refine Costs.bind (l := 0) sends_create fun made => ?_
          cases made with
          | outcome o => exact Costs.pure
          | uploaded => exact Costs.pure
          | fresh u urls =>
              exact Costs.free sends_setUpload fun _ => Costs.free sends_persist fun _ => Costs.pure
      cases ensured with
      | outcome o => exact Costs.pure
      | ready urls =>
          refine Costs.bind (sends_putMissingParts _ _ _) fun put => ?_
          cases put with
          | outcome o => exact Costs.pure
          | stuck => exact Costs.pure
          | recreate =>
              exact Costs.free sends_setUpload fun _ => Costs.free sends_persist fun _ => Costs.pure
          | done =>
              refine Costs.free Costs.get fun s => ?_
              split
              · exact Costs.pure
              · refine Costs.bind (l := 0) sends_complete fun completed => ?_
                cases completed with
                | outcome o => exact Costs.pure
                | recreate => exact Costs.free sends_setUpload fun _ =>
                    Costs.free sends_persist fun _ => Costs.pure
                | relist => exact Costs.free sends_setUpload fun _ =>
                    Costs.free sends_persist fun _ => Costs.pure
                | reupload code =>
                    refine Costs.free Costs.get fun s => ?_
                    split
                    · exact Costs.pure
                    · exact Costs.free (Costs.modify fun _ => rfl) fun _ =>
                        Costs.free sends_persist fun _ => Costs.pure

theorem sends_uploadFrom {file : List UInt8} {job : ArchiveUploadJob} : ∀ rounds,
    Sends (rounds * roundCost out job.request.size) (uploadFrom out file job rounds)
  | 0 => Costs.pure
  | rounds + 1 => by
      refine Costs.mono (Costs.bind sends_uploadRound fun round => ?_)
        (by rw [Nat.add_mul, Nat.one_mul, Nat.add_comm])
      cases round with
      | outcome o => exact Costs.pure
      | stuck => exact Costs.pure
      | another => exact sends_uploadFrom rounds

/-- A bound of the requests of a drain, by the archive's size and the attempts of one. -/
def uploadCost (out : Outside) (size : Nat) : Nat := maxUploadRounds * roundCost out size

theorem sends_upload {found : Option (List UInt8)} {job : ArchiveUploadJob} :
    Sends (uploadCost out job.request.size) (upload out found job) := by
  refine Costs.free sends_turn fun aborted => ?_
  cases aborted with
  | true => exact Costs.pure
  | false =>
      rw [if_neg Bool.false_ne_true]
      cases found with
      | none => exact Costs.pure
      | some f =>
          dsimp only
          split
          · exact Costs.pure
          · exact sends_uploadFrom _

end

end OmniRush.Archive
