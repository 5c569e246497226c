import Mathlib.Data.List.Basic
import OmniRush.Lib.JsonRoundTrip
import OmniRush.Proofs.RunLifecycle

/-!
# Where the schedule pointer stands

A claim writes the next due time that its caller computed from the automation and the
revision it had read. The lock it takes orders the writes and compares nothing, so a
claim that comes late puts an old time back: a manual run writes the time it read, and
a tick the next time of a schedule that was edited since.

`Current` is the condition on a step that excludes this. The automation a claim finds
still has the due time its caller read, a scheduled one and an activation still find the
schedule they read, and an edit or an activation is not timed before an occurrence that
was claimed already. A claim whose occurrence key is taken writes nothing and is always
current.

In every run of such steps the pointer of an active automation is an occurrence of its
current schedule later than every claimed one (`Db.PointsAt`). Keys tell occurrences
apart (`automationOccurrenceIdentity_inj`), so a tick that claims what it lists is not
told that the occurrence has a run already.
-/

namespace OmniRush.Automations

open OmniRush

/-! ## Occurrence keys -/

theorem forall_byte {P : UInt8 → Prop} (h : ∀ n : Fin 256, P (UInt8.ofNat n)) (b : UInt8) : P b := by
  have hb := h ⟨b.toNat, b.toNat_lt⟩
  rwa [UInt8.ofNat_toNat] at hb

/-- The byte a code word stands for. -/
def uriByte : List Char → UInt8
  | ['%', high, low] =>
      let value := fun c : Char => if c.isDigit then c.toNat - 48 else c.toNat - 55
      UInt8.ofNat (value high * 16 + value low)
  | c :: _ => UInt8.ofNat c.toNat
  | [] => 0

theorem uriByte_encode (b : UInt8) : uriByte (encodeUriByte b) = b := by
  revert b
  exact forall_byte (by decide +kernel)

/-- A code word begins with a percent sign exactly when it has three characters. -/
theorem encodeUriByte_shape (b : UInt8) :
    ((encodeUriByte b).head? = some '%' ∧ (encodeUriByte b).length = 3) ∨
      ((encodeUriByte b).head? ≠ some '%' ∧ (encodeUriByte b).length = 1) := by
  revert b
  exact forall_byte (by decide +kernel)

theorem colon_notMem_encodeUriByte (b : UInt8) : ':' ∉ encodeUriByte b := by
  revert b
  exact forall_byte (by decide +kernel)

theorem encodeUriByte_ne_nil (b : UInt8) : encodeUriByte b ≠ [] := by
  intro h
  rcases encodeUriByte_shape b with ⟨-, hlen⟩ | ⟨-, hlen⟩
  all_goals
    rw [h] at hlen
    cases hlen

theorem encodeUriByte_append_inj {b b' : UInt8} {xs ys : List Char}
    (h : encodeUriByte b ++ xs = encodeUriByte b' ++ ys) : b = b' ∧ xs = ys := by
  have hhead : (encodeUriByte b).head? = (encodeUriByte b').head? := by
    have hheads := congrArg List.head? h
    obtain ⟨c, cs, hcs⟩ := List.exists_cons_of_ne_nil (encodeUriByte_ne_nil b)
    obtain ⟨c', cs', hcs'⟩ := List.exists_cons_of_ne_nil (encodeUriByte_ne_nil b')
    rw [hcs, hcs'] at hheads ⊢
    exact hheads
  have hlength : (encodeUriByte b).length = (encodeUriByte b').length := by
    rcases encodeUriByte_shape b with ⟨hb, hlen⟩ | ⟨hb, hlen⟩ <;>
      rcases encodeUriByte_shape b' with ⟨hb', hlen'⟩ | ⟨hb', hlen'⟩
    · omega
    · exact absurd (hhead ▸ hb) hb'
    · exact absurd (hhead ▸ hb') hb
    · omega
  obtain ⟨hword, hrest⟩ := List.append_inj h hlength
  refine ⟨?_, hrest⟩
  rw [← uriByte_encode b, ← uriByte_encode b', hword]

theorem flatMap_encodeUriByte_inj {bs bs' : List UInt8}
    (h : bs.flatMap encodeUriByte = bs'.flatMap encodeUriByte) : bs = bs' := by
  induction bs generalizing bs' with
  | nil =>
      cases bs' with
      | nil => rfl
      | cons b' bs' =>
          exact absurd (List.append_eq_nil_iff.mp h.symm).1 (encodeUriByte_ne_nil b')
  | cons b bs ih =>
      cases bs' with
      | nil => exact absurd (List.append_eq_nil_iff.mp h).1 (encodeUriByte_ne_nil b)
      | cons b' bs' =>
          obtain ⟨rfl, hrest⟩ := encodeUriByte_append_inj h
          rw [ih hrest]

theorem encodeUriComponent_inj {s t : String} (h : encodeUriComponent s = encodeUriComponent t) :
    s = t := by
  have hbytes := Array.toList_inj.mp (flatMap_encodeUriByte_inj h)
  exact String.toByteArray_inj.mp (ByteArray.ext hbytes)

theorem colon_notMem_encodeUriComponent (s : String) : ':' ∉ encodeUriComponent s := by
  intro h
  obtain ⟨b, -, hb⟩ := List.mem_flatMap.mp h
  exact colon_notMem_encodeUriByte b hb

theorem intChars_inj {m n : Int} (h : Json.intChars m = Json.intChars n) : m = n := by
  have hm := @Json.parseNumber_intChars m [] rfl
  rw [h, @Json.parseNumber_intChars n [] rfl] at hm
  simpa using hm.symm

theorem intChars_head (n : Int) : (Json.intChars n).head? ≠ some 'm' := by
  cases n with
  | ofNat n =>
      obtain ⟨c, cs, hcs, hc⟩ := Json.natChars_cons n
      rw [Json.intChars, hcs, List.head?_cons]
      rintro ⟨⟩
      exact absurd hc (by decide)
  | negSucc n =>
      rw [Json.intChars, List.head?_cons]
      decide

theorem automationOccurrenceIdentity_inj {id id' : String} {t : Int} {scheduledFor : Option Int}
    {nonce nonce' : Option String} {key : String}
    (h : automationOccurrenceIdentity id (some t) nonce = some key)
    (h' : automationOccurrenceIdentity id' scheduledFor nonce' = some key) :
    id' = id ∧ scheduledFor = some t := by
  unfold automationOccurrenceIdentity at h h'
  obtain ⟨occurrence, hoccurrence, hkey⟩ := Option.map_eq_some_iff.mp h
  obtain ⟨occurrence', hoccurrence', hkey'⟩ := Option.map_eq_some_iff.mp h'
  obtain rfl := Option.some.inj hoccurrence
  have hchars := congrArg String.toList (hkey'.trans hkey.symm)
  simp only [String.toList_append, String.toList_ofList, List.append_assoc,
    List.append_cancel_left_eq] at hchars
  obtain ⟨hid, -, hrest⟩ := (List.append_cons_inj_of_notMem (colon_notMem_encodeUriComponent _)
    (colon_notMem_encodeUriComponent _)).mp hchars
  refine ⟨encodeUriComponent_inj hid, ?_⟩
  have hsame : occurrence' = String.ofList (Json.intChars t) := encodeUriComponent_inj hrest
  cases scheduledFor with
  | some t' =>
      obtain rfl := Option.some.inj hoccurrence'
      rw [intChars_inj (String.ofList_inj.mp hsame)]
  | none =>
      cases nonce' with
      | none => cases hoccurrence'
      | some nonce' =>
          dsimp only at hoccurrence'
          split at hoccurrence'
          · cases hoccurrence'
          · obtain rfl := Option.some.inj hoccurrence'
            have hhead := congrArg (fun s : String => s.toList.head?) hsame
            simp only [String.toList_append, String.toList_ofList] at hhead
            exact absurd hhead.symm (intChars_head t)

/-! ## Current steps -/

/-- The occurrence of a claim has its run. -/
def Db.answered (db : Db) (input : ClaimInput) : Bool :=
  db.runs.any fun r => automationOccurrenceIdentity input.item.automation.id input.scheduledFor
    input.nonce = some r.idempotencyKey

/-- The due time an item was read with is still the automation's. -/
def Db.SameDue (db : Db) (item : Item) : Prop :=
  ∀ a ∈ db.automations, a.id = item.automation.id → a.state = .active →
    a.nextDueAt = item.automation.nextDueAt

/-- An automation's current schedule is the one an item was read with. -/
def Db.ScheduleOf (db : Db) (item : Item) (a : AutomationRow) : Prop :=
  ∃ rev, db.revision a.currentRevisionId = some rev ∧ rev.schedule = item.revision.schedule

/-- An edit that leaves the definition as it is. -/
def Db.SameDigest (db : Db) (input : Changes) : Prop :=
  ∀ a ∈ db.automations, a.id = input.automationId →
    ∀ rev ∈ db.revision a.currentRevisionId, input.digest = rev.digest

/-- The occurrences of an automation that were claimed are not later than `now`. -/
def Db.ClaimedBy (db : Db) (automationId : String) (now : Int) : Prop :=
  ∀ r ∈ db.runs, r.automationId = automationId → ∀ t ∈ r.scheduledFor, t ≤ now

/-- What a step read of the schedule and its pointer still holds. -/
def Current (w : Den) : Action → Prop
  | .write (.due item now) drawn =>
      ((Pending.due item now).claimInput drawn).any w.db.answered = true ∨
        (w.db.SameDue item ∧ ∀ a ∈ w.db.automations, a.id = item.automation.id →
          a.state = .active → w.db.ScheduleOf item a)
  | .write (.manual item) drawn =>
      ((Pending.manual item).claimInput drawn).any w.db.answered = true ∨ w.db.SameDue item
  | .write (.settingState item state now) _ =>
      state = .active → item.automation.state ≠ .active →
        (∀ a ∈ w.db.automations, a.id = item.automation.id → w.db.ScheduleOf item a) ∧
          w.db.ClaimedBy item.automation.id now
  | .update input => w.db.SameDigest input ∨ w.db.ClaimedBy input.automationId input.now
  | _ => True

/-! ## The pointer of one automation -/

section

variable (zones : TimeZones)

/-- The pointer of an active automation is an occurrence of its current schedule, later
than every claimed one. -/
structure Db.PointsAt (db : Db) (a : AutomationRow) (due : Int) : Prop where
  occurs : ∃ rev, db.revision a.currentRevisionId = some rev ∧ rev.schedule.Occurs zones due
  later : ∀ r ∈ db.runs, r.automationId = a.id → ∀ t, r.scheduledFor = some t → t < due

def Db.Pointed (db : Db) (a : AutomationRow) : Prop :=
  a.state = .active → ∀ due, a.nextDueAt = some due → db.PointsAt zones a due

variable {zones}

/-- What the revisions and the claimed occurrences of an automation leave of its pointer. -/
theorem Db.PointsAt.mono {db db' : Db} {a : AutomationRow} {due : Int}
    (h : db.PointsAt zones a due)
    (hrevisions : ∀ id rev, db.revision id = some rev → db'.revision id = some rev)
    (hruns : ∀ r' ∈ db'.runs, r'.automationId = a.id →
      ∃ r ∈ db.runs, r.automationId = r'.automationId ∧ r.scheduledFor = r'.scheduledFor) :
    db'.PointsAt zones a due := by
  obtain ⟨⟨rev, hrev, hoccurs⟩, hlater⟩ := h
  refine ⟨⟨rev, hrevisions _ _ hrev, hoccurs⟩, fun r' hr' hid t ht => ?_⟩
  obtain ⟨r, hr, hid', hfor⟩ := hruns r' hr' hid
  exact hlater r hr (hid'.trans hid) t (hfor.trans ht)

theorem Db.Pointed.mono {db db' : Db} {a : AutomationRow} (h : db.Pointed zones a)
    (hrevisions : ∀ id rev, db.revision id = some rev → db'.revision id = some rev)
    (hruns : ∀ r' ∈ db'.runs, r'.automationId = a.id →
      ∃ r ∈ db.runs, r.automationId = r'.automationId ∧ r.scheduledFor = r'.scheduledFor) :
    db'.Pointed zones a :=
  fun hactive due hdue => (h hactive due hdue).mono hrevisions hruns

theorem pointsAt_next {db : Db} {a : AutomationRow} {rev : RevisionRow} {after due : Int}
    (hrev : db.revision a.currentRevisionId = some rev)
    (hnext : nextAutomationOccurrence zones rev.schedule after = some due)
    (hclaimed : db.ClaimedBy a.id after) : db.PointsAt zones a due := by
  obtain ⟨hlater, hoccurs⟩ := nextAutomationOccurrence_spec zones hnext
  refine ⟨⟨rev, hrev, hoccurs⟩, fun r hr hid t ht => ?_⟩
  have := hclaimed r hr hid t ht
  omega

theorem updateAutomations_pointed {db : Db} {selects : AutomationRow → Bool}
    {set : AutomationRow → AutomationRow}
    (hkeep : ∀ a ∈ db.automations, selects a = false → db.Pointed zones a)
    (hset : ∀ a ∈ db.automations, selects a = true → db.Pointed zones (set a)) :
    ∀ a ∈ (db.updateAutomations selects set).automations,
      (db.updateAutomations selects set).Pointed zones a := by
  intro a ha
  obtain ⟨a₀, ha₀, rfl⟩ := List.mem_map.mp ha
  have hrow : db.Pointed zones (if selects a₀ = true then set a₀ else a₀) := by
    split
    · next hselected => exact hset a₀ ha₀ hselected
    · next hselected => exact hkeep a₀ ha₀ (Bool.eq_false_iff.mpr hselected)
  exact hrow.mono (fun _ _ h => h) fun r hr _ => ⟨r, hr, rfl, rfl⟩

theorem revision_append {db : Db} {rev : RevisionRow} {id : String} {found : RevisionRow}
    (h : db.revision id = some found) :
    ({ db with revisions := db.revisions ++ [rev] } : Db).revision id = some found := by
  show List.find? _ (db.revisions ++ [rev]) = _
  rw [List.find?_append, show db.revisions.find? _ = _ from h]
  rfl

theorem find_revision_new {revisions : List RevisionRow} {rev : RevisionRow} {id : String}
    (hid : rev.id = id) (hfresh : ∀ r ∈ revisions, r.id ≠ id) :
    (revisions ++ [rev]).find? (fun r => r.id = id) = some rev := by
  have hnone : revisions.find? (fun r => r.id = id) = none :=
    List.find?_eq_none.mpr fun r hr => by simpa using hfresh r hr
  rw [List.find?_append, hnone]
  simp [hid]

/-! ## Steps -/

/-- The pointers, and the keys of the runs. -/
structure Scheduled (zones : TimeZones) (db : Db) : Prop where
  pointed : ∀ a ∈ db.automations, db.Pointed zones a
  keys : ∀ r ∈ db.runs, ∃ nonce,
    automationOccurrenceIdentity r.automationId r.scheduledFor nonce = some r.idempotencyKey

theorem Scheduled.runs {db : Db} {f : RunRow → RunRow} (hdb : Scheduled zones db)
    (hf : ∀ r ∈ db.runs, SameRun r (f r)) : Scheduled zones { db with runs := db.runs.map f } := by
  refine ⟨fun a ha => (hdb.pointed a ha).mono (fun _ _ h => h) fun r' hr' _ => ?_, fun r' hr' => ?_⟩
  · obtain ⟨r, hr, rfl⟩ := List.mem_map.mp hr'
    exact ⟨r, hr, (hf r hr).automationId.symm, (hf r hr).scheduledFor.symm⟩
  · obtain ⟨r, hr, rfl⟩ := List.mem_map.mp hr'
    obtain ⟨nonce, hkey⟩ := hdb.keys r hr
    have hsame := hf r hr
    exact ⟨nonce, by rw [hsame.automationId, hsame.scheduledFor, hsame.idempotencyKey, hkey]⟩

theorem Scheduled.create {db : Db} {input : NewAutomation} (hdb : Scheduled zones db)
    (hfresh : db.fresh input.automationId input.revisionId = true) :
    Scheduled zones (db.create zones input) := by
  simp only [Db.fresh, Bool.and_eq_true, List.all_eq_true, decide_eq_true_eq] at hfresh
  obtain ⟨⟨-, hruns⟩, hrevisions⟩ := hfresh
  refine ⟨fun a ha => ?_, hdb.keys⟩
  rcases List.mem_append.mp ha with ha | ha
  · exact (hdb.pointed a ha).mono (fun _ _ h => revision_append h) fun r hr _ => ⟨r, hr, rfl, rfl⟩
  · obtain rfl := List.mem_singleton.mp ha
    intro _ due hdue
    refine pointsAt_next (find_revision_new rfl hrevisions) hdue fun r hr hid => ?_
    exact absurd hid (hruns r hr)

theorem Scheduled.update {db db' : Db} {input : Changes} (hdb : Scheduled zones db)
    (hfresh : ∀ r ∈ db.revisions, r.id ≠ input.newRevisionId)
    (hcurrent : db.SameDigest input ∨ db.ClaimedBy input.automationId input.now)
    (h : db.update zones input = .ok db') : Scheduled zones db' := by
  unfold Db.update at h
  split at h
  · cases h
  · next automation hfound =>
      obtain ⟨⟨hid, -⟩, -⟩ : ((automation.id = input.automationId ∧ _) ∧ _) := by
        simpa only [Bool.and_eq_true, decide_eq_true_eq] using List.find?_some hfound
      split at h
      · cases h
      · split at h
        · cases h
        · next current hrev =>
            dsimp only at h
            split at h
            · cases h
              refine ⟨updateAutomations_pointed (fun a ha _ => hdb.pointed a ha)
                fun a ha _ => ?_, hdb.keys⟩
              exact fun hactive due hdue =>
                ⟨(hdb.pointed a ha hactive due hdue).occurs, (hdb.pointed a ha hactive due hdue).later⟩
            · next hdigest =>
                cases h
                refine ⟨updateAutomations_pointed (fun a ha _ => ?_) fun a ha hselected => ?_,
                  hdb.keys⟩
                · exact (hdb.pointed a ha).mono (fun _ _ h => revision_append h)
                    fun r hr _ => ⟨r, hr, rfl, rfl⟩
                · intro _ due hdue
                  refine pointsAt_next (find_revision_new rfl hfresh) hdue ?_
                  have ha' : a.id = automation.id := of_decide_eq_true hselected
                  rw [hid] at ha'
                  rcases hcurrent with hcurrent | hcurrent
                  · exact absurd (hcurrent automation (List.mem_of_find?_eq_some hfound) hid current hrev)
                      hdigest
                  · show db.ClaimedBy a.id _
                    rw [ha']
                    exact hcurrent

theorem Scheduled.markNeedsAttention {db : Db} (hdb : Scheduled zones db)
    (automationId expectedRevisionId : String) (now : Int) :
    Scheduled zones (db.markNeedsAttention automationId expectedRevisionId now) := by
  refine ⟨updateAutomations_pointed (fun a ha _ => hdb.pointed a ha) fun a ha _ => ?_, hdb.keys⟩
  rintro ⟨⟩

theorem Scheduled.setState {db : Db} {item : Item} {state : AutomationState} {now : Int}
    (hdb : Scheduled zones db)
    (hcurrent : state = .active → item.automation.state ≠ .active →
      (∀ a ∈ db.automations, a.id = item.automation.id → db.ScheduleOf item a) ∧
        db.ClaimedBy item.automation.id now) :
    Scheduled zones (db.setState zones item state now) := by
  unfold Db.setState
  split
  · exact hdb
  · next hstate =>
      refine ⟨updateAutomations_pointed (fun a ha _ => hdb.pointed a ha) fun a ha hselected => ?_,
        hdb.keys⟩
      intro hactive due hdue
      have hactive : state = .active := hactive
      have hid : a.id = item.automation.id := of_decide_eq_true hselected
      obtain ⟨hschedule, hclaimed⟩ := hcurrent hactive (by rwa [hactive] at hstate)
      obtain ⟨rev, hrev, hsame⟩ := hschedule a ha hid
      simp only [hactive, if_true, ← hsame] at hdue
      refine pointsAt_next hrev hdue ?_
      show db.ClaimedBy a.id now
      rw [hid]
      exact hclaimed

theorem not_answered {db : Db} {input : ClaimInput} {key : String}
    (hfree : db.runs.find? (fun r => r.idempotencyKey = key) = none)
    (hkey : automationOccurrenceIdentity input.item.automation.id input.scheduledFor input.nonce
      = some key) : ¬ db.answered input = true := by
  intro h
  obtain ⟨r, hr, hr'⟩ := List.any_eq_true.mp h
  rw [hkey] at hr'
  have hsame := Option.some.inj (of_decide_eq_true hr')
  exact List.find?_eq_none.mp hfree r hr (decide_eq_true hsame.symm)

theorem Scheduled.claim {db db' : Db} {input : ClaimInput} {answer : ClaimAnswer}
    (hdb : Scheduled zones db)
    (hcurrent : db.answered input = true ∨
      ∀ a ∈ db.automations, a.id = input.item.automation.id → a.state = .active →
        ∀ due, input.nextDueAt zones = some due →
          db.PointsAt zones a due ∧ ∀ t, input.scheduledFor = some t → t < due)
    (h : db.claim zones input = .ok (answer, db')) : Scheduled zones db' := by
  rcases claim_cases h with ⟨_, -, rfl⟩ | ⟨key, overlap, hfree, hkey, rfl⟩
  · exact hdb
  · have hcurrent := hcurrent.resolve_left (not_answered hfree hkey)
    refine ⟨updateAutomations_pointed (fun a ha hother => ?_) fun a ha hselected => ?_,
      fun r hr => ?_⟩
    · have hother : a.id ≠ input.item.automation.id := of_decide_eq_false hother
      refine (hdb.pointed a ha).mono (fun _ _ h => h) fun r hr hid => ?_
      rcases List.mem_append.mp hr with hr | hr
      · exact ⟨r, hr, rfl, rfl⟩
      · obtain rfl := List.mem_singleton.mp hr
        exact absurd hid.symm hother
    · intro hactive due hdue
      obtain ⟨⟨hoccurs, hlater⟩, hnew⟩ :=
        hcurrent a ha (of_decide_eq_true hselected) hactive due hdue
      refine ⟨hoccurs, fun r hr hid t ht => ?_⟩
      rcases List.mem_append.mp hr with hr | hr
      · exact hlater r hr hid t ht
      · obtain rfl := List.mem_singleton.mp hr
        exact hnew t ht
    · rcases List.mem_append.mp hr with hr | hr
      · exact hdb.keys r hr
      · obtain rfl := List.mem_singleton.mp hr
        exact ⟨input.nonce, hkey⟩

theorem due_claim_current {db : Db} {item : Item} {now : Int} {drawn : Drawn} {input : ClaimInput}
    (hdb : Scheduled zones db)
    (hinput : (Pending.due item now).claimInput drawn = some input)
    (hdue : db.SameDue item)
    (hschedule : ∀ a ∈ db.automations, a.id = item.automation.id → a.state = .active →
      db.ScheduleOf item a) :
    ∀ a ∈ db.automations, a.id = input.item.automation.id → a.state = .active →
      ∀ due, input.nextDueAt zones = some due →
        db.PointsAt zones a due ∧ ∀ t, input.scheduledFor = some t → t < due := by
  obtain ⟨claimed, hclaimed, rfl⟩ := Option.map_eq_some_iff.mp hinput
  intro a ha hid hactive due hnext
  obtain ⟨rev, hrev, hsame⟩ := hschedule a ha hid hactive
  obtain ⟨-, hlater⟩ := hdb.pointed a ha hactive claimed ((hdue a ha hid hactive).trans hclaimed)
  have hnext : nextAutomationOccurrence zones item.revision.schedule claimed = some due := hnext
  refine ⟨pointsAt_next hrev (hsame ▸ hnext) fun r hr hid t ht => ?_, fun t ht => ?_⟩
  · have := hlater r hr hid t ht
    omega
  · obtain rfl := Option.some.inj ht
    exact (nextAutomationOccurrence_spec zones hnext).1

theorem manual_claim_current {db : Db} {item : Item} {drawn : Drawn} {input : ClaimInput}
    (hdb : Scheduled zones db)
    (hinput : (Pending.manual item).claimInput drawn = some input) (hdue : db.SameDue item) :
    ∀ a ∈ db.automations, a.id = input.item.automation.id → a.state = .active →
      ∀ due, input.nextDueAt zones = some due →
        db.PointsAt zones a due ∧ ∀ t, input.scheduledFor = some t → t < due := by
  cases hinput
  intro a ha hid hactive due hnext
  have hnext : item.automation.nextDueAt = some due := hnext
  refine ⟨hdb.pointed a ha hactive due ((hdue a ha hid hactive).trans hnext), fun t ht => ?_⟩
  cases ht

theorem Scheduled.step {w w' : Den} {a : Action} (hdb : Scheduled zones w.db)
    (hcurrent : Current w a) (h : w.step zones a = some w') : Scheduled zones w'.db := by
  cases step_moves h with
  | runs _ hrewritten =>
      obtain ⟨f, rfl, hf⟩ := hrewritten
      exact hdb.runs fun r hr => (hf r hr).1
  | read _ => exact hdb
  | create _ hfresh => exact hdb.create hfresh
  | update ha hfresh hupdate =>
      rw [ha] at hcurrent
      exact hdb.update hfresh hcurrent hupdate
  | attention _ _ _ => exact hdb.markNeedsAttention ..
  | setState ha _ =>
      rw [ha] at hcurrent
      exact hdb.setState hcurrent
  | @claim p drawn input answer db' ha _ hinput hclaim =>
      rw [ha] at hcurrent
      refine hdb.claim ?_ hclaim
      cases p with
      | due item now =>
          rcases hcurrent with hanswered | ⟨hdue, hschedule⟩
          · rw [hinput] at hanswered
            exact .inl hanswered
          · exact .inr (due_claim_current hdb hinput hdue hschedule)
      | manual item =>
          rcases hcurrent with hanswered | hdue
          · rw [hinput] at hanswered
            exact .inl hanswered
          · exact .inr (manual_claim_current hdb hinput hdue)
      | settingState _ _ _ => cases hinput
      | cancelling _ _ => cases hinput
      | retrying _ _ _ => cases hinput
      | recovering _ _ => cases hinput
      | expiring _ _ => cases hinput

/-! ## Runs -/

theorem claim_duplicate {db db' : Db} {input : ClaimInput} {run : RunRow}
    (h : db.claim zones input = .ok (.duplicate run, db')) :
    run ∈ db.runs ∧ automationOccurrenceIdentity input.item.automation.id input.scheduledFor
      input.nonce = some run.idempotencyKey := by
  unfold Db.claim at h
  dsimp only at h
  split at h
  · split at h
    · cases h
    · next key hkey =>
        split at h
        · next found hfound =>
            cases h
            have hsame : run.idempotencyKey = key := by simpa using List.find?_some hfound
            exact ⟨List.mem_of_find?_eq_some hfound, hsame ▸ hkey⟩
        · split at h <;> cases h
  · cases h

theorem Scheduled.no_duplicate {db db' : Db} (hdb : Scheduled zones db) {item : Item} {now : Int}
    {drawn : Drawn} {input : ClaimInput} {run : RunRow} (hlisted : item ∈ db.listDue now)
    (hinput : (Pending.due item now).claimInput drawn = some input) :
    db.claim zones input ≠ .ok (.duplicate run, db') := by
  intro h
  obtain ⟨due, hdue, rfl⟩ := Option.map_eq_some_iff.mp hinput
  obtain ⟨hrun, hkey⟩ := claim_duplicate h
  obtain ⟨nonce, hkey'⟩ := hdb.keys run hrun
  obtain ⟨hid, hfor⟩ := automationOccurrenceIdentity_inj hkey hkey'
  obtain ⟨a, ha, hitem⟩ := List.mem_filterMap.mp hlisted
  obtain ⟨ha, hactive⟩ := List.mem_filter.mp ha
  obtain ⟨rev, -, rfl⟩ := Option.map_eq_some_iff.mp hitem
  have hactive := of_decide_eq_true (Bool.and_eq_true_iff.mp hactive).1
  have := (hdb.pointed a ha hactive due hdue).later run hrun hid due hfor
  omega

/-- In every run of current steps, the pointer of an active automation is an occurrence of
its current schedule that no scheduled run has claimed, and a claim of what is listed is
no duplicate. -/
theorem schedule_pointer_stays {w : Den} (hrun : Reach (Den.step zones) Current {} w) :
    (∀ a ∈ w.db.automations, a.state = .active → ∀ due, a.nextDueAt = some due →
      (∃ rev, w.db.revision a.currentRevisionId = some rev ∧ rev.schedule.Occurs zones due) ∧
      ∀ r ∈ w.db.runs, r.automationId = a.id → r.trigger = .scheduled →
        r.scheduledFor ≠ some due) ∧
    ∀ now, ∀ item ∈ w.db.listDue now, ∀ drawn input,
      (Pending.due item now).claimInput drawn = some input →
        ∀ run db', w.db.claim zones input ≠ .ok (.duplicate run, db') := by
  have hkeep : ∀ s a t, Scheduled zones s.db → Current s a → Den.step zones s a = some t →
      Scheduled zones t.db := fun s a t hs hcurrent hstep => hs.step hcurrent hstep
  have hdb : Scheduled zones w.db :=
    hrun.invariant hkeep ⟨fun _ ha => (List.not_mem_nil ha).elim,
      fun _ hr => (List.not_mem_nil hr).elim⟩
  refine ⟨fun a ha hactive due hdue => ?_, fun now item hlisted drawn input hinput run db' =>
    hdb.no_duplicate hlisted hinput⟩
  obtain ⟨hoccurs, hlater⟩ := hdb.pointed a ha hactive due hdue
  refine ⟨hoccurs, fun r hr hid _ hfor => ?_⟩
  have := hlater r hr hid due hfor
  omega

end

/-! ## A late manual run -/

instance (w : Den) (a : Action) : Decidable (Current w a) := by
  unfold Current Db.SameDue Db.ScheduleOf Db.SameDigest Db.ClaimedBy
  split <;> infer_instance

/-- An occurrence claimed by a tick, then an edit to a later one. -/
theorem schedule_pointer_stays_edited :
    ∃ w, runActions (Den.step exampleZones) [
        .create ⟨"a", "v", "o", "m", "n", .once "UTC" 10, .desktop, "d", 0⟩,
        .read (.due exampleItem 10), .write (.due exampleItem 10) exampleDrawn,
        .update ⟨"o", "m", "a", "v2", none, some (.once "UTC" 30), "d2", 20⟩] {} = some w ∧
      (∃ a ∈ w.db.automations, a.state = .active ∧ a.nextDueAt = some 30) ∧
      (∀ a ∈ w.db.automations, a.state = .active → ∀ due, a.nextDueAt = some due →
        (∃ rev, w.db.revision a.currentRevisionId = some rev ∧
          rev.schedule.Occurs exampleZones due) ∧
        ∀ r ∈ w.db.runs, r.automationId = a.id → r.trigger = .scheduled →
          r.scheduledFor ≠ some due) ∧
      ∀ now, ∀ item ∈ w.db.listDue now, ∀ drawn input,
        (Pending.due item now).claimInput drawn = some input →
          ∀ run db', w.db.claim exampleZones input ≠ .ok (.duplicate run, db') := by
  have hrun : (runActions (fun w a => if Current w a then w.step exampleZones a else none) [
      .create ⟨"a", "v", "o", "m", "n", .once "UTC" 10, .desktop, "d", 0⟩,
      .read (.due exampleItem 10), .write (.due exampleItem 10) exampleDrawn,
      .update ⟨"o", "m", "a", "v2", none, some (.once "UTC" 30), "d2", 20⟩] {}).any (fun w =>
        ∃ a ∈ w.db.automations, a.state = .active ∧ a.nextDueAt = some 30) = true := by
    decide +kernel
  obtain ⟨w, hw, hpointer⟩ := exists_of_any hrun
  obtain ⟨hreach, hplain⟩ := reach_of_checked hw
  exact ⟨w, hplain, of_decide_eq_true hpointer, schedule_pointer_stays hreach⟩

/-- A manual run reads the automation, a tick claims the due occurrence, and the manual
claim puts its time back: from then on a tick is answered a duplicate and nothing moves. -/
theorem schedule_pointer_put_back :
    ∃ w, runActions (Den.step exampleZones) [
        .create ⟨"a", "v", "o", "m", "n", .once "UTC" 10, .desktop, "d", 0⟩,
        .read (.manual exampleItem), .read (.due exampleItem 10),
        .write (.due exampleItem 10) exampleDrawn,
        .write (.manual exampleItem) { newRunId := "r2", nonce := some "n", now := 11 }] {}
        = some w ∧
      (∃ a ∈ w.db.automations, a.state = .active ∧ a.nextDueAt = some 10 ∧
        ∃ r ∈ w.db.runs, r.automationId = a.id ∧ r.trigger = .scheduled ∧
          r.scheduledFor = some 10) ∧
      ∃ item ∈ w.db.listDue 12, ∃ input, (Pending.due item 12).claimInput {} = some input ∧
        ∃ run, w.db.claim exampleZones input = .ok (.duplicate run, w.db) := by
  have hrun : (runActions (Den.step exampleZones) [
        .create ⟨"a", "v", "o", "m", "n", .once "UTC" 10, .desktop, "d", 0⟩,
        .read (.manual exampleItem), .read (.due exampleItem 10),
        .write (.due exampleItem 10) exampleDrawn,
        .write (.manual exampleItem) { newRunId := "r2", nonce := some "n", now := 11 }] {}).any
      (fun w => (∃ a ∈ w.db.automations, a.state = .active ∧ a.nextDueAt = some 10 ∧
        ∃ r ∈ w.db.runs, r.automationId = a.id ∧ r.trigger = .scheduled ∧
          r.scheduledFor = some 10) ∧
        ∃ item ∈ w.db.listDue 12, ∃ input ∈ (Pending.due item 12).claimInput {},
          ∃ run ∈ w.db.runs, (w.db.claim exampleZones input).toOption
            = some (.duplicate run, w.db)) = true := by
    decide +kernel
  obtain ⟨w, hw, hcheck⟩ := exists_of_any hrun
  obtain ⟨hpointer, item, hitem, input, hinput, run, -, hclaim⟩ := of_decide_eq_true hcheck
  refine ⟨w, hw, hpointer, item, hitem, input, hinput, run, ?_⟩
  cases hanswer : w.db.claim exampleZones input with
  | error e =>
      rw [hanswer] at hclaim
      cases hclaim
  | ok answer =>
      rw [hanswer] at hclaim
      rw [Option.some.inj hclaim]

end OmniRush.Automations
