import OmniRush.Proofs.UploadTags

/-!
# What a log says of an upload

A log of requests, over any number of drains of one archive, is read from its start
(`seen`): the multipart upload created last, and the tags learned since, from a PUT or
from a listing of a part of the right size. A record on disk holds what was persisted
last (`stored`).

A log is `Fine` when each request in it may be sent by what was seen before it, and the
record on disk knows only tags that were learned under the upload it names, after every
event. Beginnings of fine logs are fine, so a drain may be cut anywhere.
-/

namespace OmniRush.Archive

open OmniRush

/-! ## Reading a log -/

/-- The multipart upload created last, without its tags, and the tags learned since. -/
structure Seen where
  current : Option ArchiveUploadState := none
  learned : List (Nat × String) := []

def Seen.learn (s : Seen) (tags : List (Nat × String)) : Seen :=
  { s with learned := s.learned ++ tags }

/-- The parts of `u` that a listing holds whole. -/
def heldTags (u : ArchiveUploadState) (size : Nat) (held : List HeldPart) : List (Nat × String) :=
  (held.filter (u.holds size)).map fun part => (part.part, part.etag)

/-- The answer to a request that was a success. -/
def Seen.ok (create : ArchiveCreateRequest) (s : Seen) (r : Response) : Request → Seen
  | .create =>
      match createAnswer create r.body with
      | .fresh upload _ => { current := some upload.clearEtags }
      | _ => s
  | .put part _ _ => s.learn ((r.etag.filter nonEmpty).map fun etag => (part, etag)).toList
  | .parts _ =>
      match partsSchema r.body, s.current with
      | some (_, held), some u => s.learn (heldTags u create.size held)
      | _, _ => s
  | .complete _ => s

def Seen.after (create : ArchiveCreateRequest) (s : Seen) : Event → Seen
  | .sent request (.response r) => if r.ok then s.ok create r request else s
  | _ => s

def seen (create : ArchiveCreateRequest) (log : List Event) : Seen :=
  log.foldl (Seen.after create) {}

/-- The upload and the recreations of the record on disk; a job is queued with none. -/
def stored (log : List Event) : Option ArchiveUploadState × Nat :=
  log.foldl (fun kept event =>
    match event with
    | .persisted upload recreates => (upload, recreates)
    | .sent _ _ => kept) (none, 0)

def fileRange (file : List UInt8) (start stop : Nat) : List UInt8 :=
  (file.drop start).take (stop - start)

/-- What may be sent once this was seen: the bytes of a part of the current upload, and a
completion with a tag for every part of it, each learned under it. -/
def Seen.Allows (file : List UInt8) (size : Nat) (s : Seen) : Request → Prop
  | .create | .parts _ => True
  | .put part _ body => ∃ u, s.current = some u ∧ u.partCount = ceilDiv size u.partSize ∧
      1 ≤ part ∧ part ≤ u.partCount ∧
      body = fileRange file ((part - 1) * u.partSize) (min (part * u.partSize) size)
  | .complete parts => ∃ u, s.current = some u ∧ u.partCount = ceilDiv size u.partSize ∧
      parts.map (·.1) = (List.range u.partCount).map (· + 1) ∧ ∀ p ∈ parts, p ∈ s.learned

/-- An upload whose tags were all learned under it. -/
structure Seen.Knows (size : Nat) (s : Seen) (u : ArchiveUploadState) : Prop where
  current : s.current = some u.clearEtags
  partCount : u.partCount = ceilDiv size u.partSize
  learned : ∀ part etag, u.etag part = some etag → (part, etag) ∈ s.learned

/-- The server said that it has the archive: at the request of an upload, or at the
completion with a receipt where one is asked for. -/
def SaidUploaded (create : ArchiveCreateRequest) (payload : Payload) (log : List Event) : Prop :=
  ∃ before request r, log = before ++ [.sent request (.response r)] ∧ r.ok = true ∧
    match request with
    | .create => createAnswer create r.body = .uploaded
    | .complete _ => payload = .project ∨
        receiptSchema r.body = some (create.archiveId, create.size)
    | _ => False

/-! ## Fine logs -/

inductive Fine (create : ArchiveCreateRequest) (file : List UInt8) : List Event → Prop
  | nil : Fine create file []
  | snoc {log : List Event} {event : Event} :
      Fine create file log →
      (∀ request answer, event = .sent request answer →
        (seen create log).Allows file create.size request) →
      (∀ u, (stored (log ++ [event])).1 = some u →
        (seen create (log ++ [event])).Knows create.size u) →
      Fine create file (log ++ [event])

section

variable {create : ArchiveCreateRequest} {file : List UInt8} {size : Nat} {log : List Event}
  {event : Event} {s s' : Seen} {u : ArchiveUploadState} {request : Request}

@[simp] theorem seen_snoc :
    seen create (log ++ [event]) = (seen create log).after create event := by
  unfold seen
  rw [List.foldl_append, List.foldl_cons, List.foldl_nil]

@[simp] theorem stored_persisted {upload : Option ArchiveUploadState} {recreates : Nat} :
    stored (log ++ [.persisted upload recreates]) = (upload, recreates) := by
  unfold stored
  rw [List.foldl_append, List.foldl_cons, List.foldl_nil]

@[simp] theorem stored_sent {answer : Answer} :
    stored (log ++ [.sent request answer]) = stored log := by
  unfold stored
  rw [List.foldl_append, List.foldl_cons, List.foldl_nil]

theorem Fine.before {later : List Event} (h : Fine create file (log ++ later)) :
    Fine create file log := by
  induction later using List.reverseRecOn with
  | nil => rwa [List.append_nil] at h
  | append_singleton later event ih =>
      rw [← List.append_assoc] at h
      generalize hlog : log ++ later ++ [event] = whole at h
      cases h with
      | nil => exact absurd hlog (List.append_ne_nil_of_right_ne_nil _ (List.cons_ne_nil _ _))
      | snoc hfine _ _ =>
          obtain ⟨rfl, -⟩ := List.append_inj' hlog rfl
          exact ih hfine

theorem Fine.allows {before after : List Event} {answer : Answer}
    (h : Fine create file (before ++ .sent request answer :: after)) :
    (seen create before).Allows file create.size request := by
  rw [List.append_cons] at h
  have h := h.before
  generalize hlog : before ++ [Event.sent request answer] = whole at h
  cases h with
  | nil => exact absurd hlog (List.append_ne_nil_of_right_ne_nil _ (List.cons_ne_nil _ _))
  | snoc _ hallows _ =>
      obtain ⟨rfl, hevent⟩ := List.append_inj' hlog rfl
      exact hallows request answer (List.cons.inj hevent).1.symm

theorem Fine.knows (h : Fine create file log) (hstored : (stored log).1 = some u) :
    (seen create log).Knows create.size u := by
  cases h with
  | nil => cases hstored
  | snoc _ _ hknows => exact hknows u hstored

/-! ## What is seen later -/

/-- The same multipart upload, with all its tags and perhaps others. -/
structure Seen.Le (s s' : Seen) : Prop where
  current : s'.current = s.current
  learned : ∀ tag ∈ s.learned, tag ∈ s'.learned

theorem Seen.Le.refl : Seen.Le s s := ⟨rfl, fun _ h => h⟩

theorem Seen.le_learn {tags : List (Nat × String)} : Seen.Le s (s.learn tags) :=
  ⟨rfl, fun _ h => List.mem_append_left _ h⟩

theorem Seen.le_ok {r : Response} (hrequest : request ≠ .create) :
    Seen.Le s (s.ok create r request) := by
  cases request with
  | create => exact absurd rfl hrequest
  | put part url body => exact le_learn
  | complete _ => exact Le.refl
  | parts _ =>
      dsimp only [Seen.ok]
      split
      · exact le_learn
      · exact Le.refl

theorem Seen.le_after (hevent : ∀ answer, event ≠ .sent .create answer) :
    Seen.Le s (s.after create event) := by
  unfold Seen.after
  split
  · next request r =>
      split
      · refine le_ok fun h => ?_
        rw [h] at hevent
        exact hevent _ rfl
      · exact Le.refl
  · exact Le.refl

theorem Seen.Knows.mono (h : s.Knows size u) (hle : Seen.Le s s') : s'.Knows size u :=
  ⟨hle.current.trans h.current, h.partCount, fun part etag he => hle.learned _ (h.learned part etag he)⟩

theorem Seen.Allows.mono (h : s.Allows file size request) (hle : Seen.Le s s') :
    s'.Allows file size request := by
  cases request with
  | create => trivial
  | parts _ => trivial
  | put part _ body =>
      obtain ⟨u, hcurrent, hrest⟩ := h
      exact ⟨u, hle.current.trans hcurrent, hrest⟩
  | complete parts =>
      obtain ⟨u, hcurrent, hcount, hparts, hlearned⟩ := h
      exact ⟨u, hle.current.trans hcurrent, hcount, hparts, fun p hp => hle.learned p (hlearned p hp)⟩

theorem Seen.Knows.setEtag {part : Nat} {etag : String} (h : s.Knows size u)
    (hlearned : (part, etag) ∈ s.learned) : s.Knows size (u.setEtag part etag) := by
  refine ⟨h.current, h.partCount, fun q e he => ?_⟩
  rw [ArchiveUploadState.etag_setEtag] at he
  split at he
  · next hq =>
      rw [hq, ← Option.some.inj (Option.eq_some_of_filter_eq_some he)]
      exact hlearned
  · exact h.learned q e he

theorem Seen.Knows.clearEtags (h : s.Knows size u) : s.Knows size u.clearEtags :=
  ⟨h.current, h.partCount, fun _ _ he => by cases he⟩

theorem Seen.Knows.allows_complete (h : s.Knows size u) (hmissing : u.missing = []) :
    s.Allows file size (.complete u.completeParts) := by
  refine ⟨u.clearEtags, h.current, h.partCount, ?_, fun p hp => ?_⟩
  · unfold ArchiveUploadState.completeParts
    rw [List.map_map]
    rfl
  · obtain ⟨i, hi, rfl⟩ := List.mem_map.mp hp
    have hi := List.mem_range.mp hi
    cases hetag : u.etag (i + 1) with
    | some etag => exact h.learned _ _ hetag
    | none =>
        have hmem := ArchiveUploadState.mem_missing.mpr
          ⟨Nat.le_add_left 1 i, hi, hetag⟩
        rw [hmissing] at hmem
        cases hmem

theorem Seen.Knows.allows_put {part : Nat} {url : String} (h : s.Knows size u)
    (hpart : part ∈ u.missing) :
    s.Allows file size (.put part url
      ((file.drop ((part - 1) * u.partSize)).take (u.partBytes size part))) := by
  obtain ⟨hpos, hcount, -⟩ := ArchiveUploadState.mem_missing.mp hpart
  refine ⟨u.clearEtags, h.current, h.partCount, hpos, hcount, ?_⟩
  have hsize := mul_lt_of_le_ceilDiv u.partSize_pos.1 hpos (h.partCount ▸ hcount)
  have hsub : (part - 1) * u.partSize = part * u.partSize - u.partSize := by
    rw [Nat.sub_mul, Nat.one_mul]
  have hle := Nat.le_mul_of_pos_left u.partSize hpos
  change _ = fileRange file ((part - 1) * u.partSize) (min (part * u.partSize) size)
  unfold fileRange ArchiveUploadState.partBytes
  congr 1
  omega

end

end OmniRush.Archive
