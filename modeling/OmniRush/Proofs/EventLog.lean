import OmniRush.Proofs.RunUpdates
import OmniRush.Proofs.StateTransitions
import OmniRush.Lib.JsonRoundTrip

/-!
# The event log of a run

A delivery is stored when its attempt holds the lease and its sequence is the next one,
and is answered from the log when its key is there. The key ends in the sequence, so what
answers a delivery is an event of the same sequence, and the first delivery of a sequence
is the one whose payload is kept. Every way back to `queued` resets the count of the run,
and every claim counts an attempt, so the events of a new attempt begin at one
(`EventLog`).

That much holds in every run. The bound on the attempts does not: `queueRetry` reads the
attempts and then selects by id, and a recovery that read an earlier lease of the same
owner requeues what it finds. Both can requeue a run whose last attempt is under way.
`AttemptsLeft` is the condition on the two updates, and over a run of such steps no run
is attempted more than `automationMaximumAttempts` times (`run_events_exactly_once`).
-/

namespace OmniRush.Automations

open OmniRush

/-! ## Keys -/

theorem colon_notMem_natChars (n : Nat) : ':' ∉ Json.natChars n :=
  fun h => absurd (Json.natChars_isDigit h) (by decide)

theorem natChars_inj {m n : Nat} (h : Json.natChars m = Json.natChars n) : m = n := by
  have hm := @Json.parseNat_natChars m [] rfl
  rw [h, @Json.parseNat_natChars n [] rfl] at hm
  injection hm with hm
  injection hm with hm _
  exact hm.symm

theorem takeWhile_natChars (n : Nat) (ys : List Char) :
    ((Json.natChars n).reverse ++ ':' :: ys).takeWhile (fun c => c ≠ ':')
      = (Json.natChars n).reverse := by
  rw [List.takeWhile_append_of_pos]
  · simp
  · intro c hc
    rw [decide_eq_true_eq]
    rintro rfl
    exact colon_notMem_natChars n (List.mem_reverse.mp hc)

theorem sequence_of_key {xs ys : List Char} {m n : Nat}
    (h : xs ++ ':' :: Json.natChars m = ys ++ ':' :: Json.natChars n) : m = n := by
  have hrev := congrArg List.reverse h
  simp only [List.reverse_append, List.reverse_cons, List.append_assoc, List.singleton_append]
    at hrev
  have htake := congrArg (List.takeWhile fun c => c ≠ ':') hrev
  rw [takeWhile_natChars, takeWhile_natChars] at htake
  exact natChars_inj (List.reverse_inj.mp htake)

/-- The key of an event ends in its sequence. -/
def EventRow.Keyed (e : EventRow) : Prop :=
  ∃ owner, e.engineIdempotencyKey = String.ofList (owner ++ ':' :: Json.natChars e.sequence)

theorem keyed_row (input : EventInput) (source : EventSource) : (input.row source).Keyed :=
  ⟨_, rfl⟩

theorem EventRow.Keyed.sequence {e : EventRow} {input : EventInput} {source : EventSource}
    (he : e.Keyed) (hkey : e.engineIdempotencyKey = String.ofList (input.idempotencyKey source)) :
    e.sequence = input.sequence := by
  obtain ⟨owner, howner⟩ := he
  rw [howner] at hkey
  have hchars := String.ofList_inj.mp hkey
  unfold EventInput.idempotencyKey at hchars
  exact sequence_of_key hchars

/-! ## The log -/

/-- The sequences of the events of an attempt, in the order they were stored. -/
def sequencesOf (events : List EventRow) (runId : String) (attempt : Nat) : List Nat :=
  (events.filter fun e => e.runId = runId && e.attempt = attempt).map (·.sequence)

/-- A delivery of the event. -/
def EventInput.delivers (input : EventInput) (e : EventRow) : Bool :=
  input.runId = e.runId && input.attempt = e.attempt && input.sequence = e.sequence

theorem delivers_iff {input : EventInput} {e : EventRow} : input.delivers e = true ↔
    input.runId = e.runId ∧ input.attempt = e.attempt ∧ input.sequence = e.sequence := by
  simp only [EventInput.delivers, Bool.and_eq_true, decide_eq_true_eq, and_assoc]

theorem delivers_row (input : EventInput) (source : EventSource) :
    input.delivers (input.row source) = true := delivers_iff.mpr ⟨rfl, rfl, rfl⟩

/-- The event is as its first accepted delivery had it. -/
def FirstDelivered (accepted : List EventInput) (e : EventRow) : Prop :=
  ∃ input, accepted.find? (fun input => input.delivers e) = some input ∧
    e.type = input.type ∧ e.payload = input.payload

/-- The events are those accepted, once each and in order, and the attempt that holds the
lease has as many as its run counts. -/
structure Service.ExactlyOnce (w : Service) : Prop where
  dense : ∀ runId attempt, ∃ n, sequencesOf w.events runId attempt = List.range' 1 n
  first : ∀ e ∈ w.events, FirstDelivered w.accepted e
  stored : ∀ input ∈ w.accepted, ∃ e ∈ w.events, input.delivers e = true
  current : ∀ r ∈ w.den.db.runs, r.leaseOwner ≠ none →
    sequencesOf w.events r.id r.attemptCount = List.range' 1 r.engineSequence

/-- What keeps it. -/
structure EventLog (w : Service) : Prop extends w.ExactlyOnce where
  one : w.den.db.OneRun
  waiting : ∀ r ∈ w.den.db.runs, r.status = .queued → r.leaseOwner = none ∧ r.engineSequence = 0
  counted : ∀ e ∈ w.events, ∃ r ∈ w.den.db.runs, r.id = e.runId ∧ e.attempt ≤ r.attemptCount
  keyed : ∀ e ∈ w.events, e.Keyed

theorem eventLog_empty : EventLog {} where
  dense _ _ := ⟨0, rfl⟩
  first := by simp
  stored := by simp
  current := by simp
  one := List.nodup_nil
  waiting := by simp
  counted := by simp
  keyed := by simp

theorem sequencesOf_append_singleton (events : List EventRow) (e : EventRow) (runId : String)
    (attempt : Nat) :
    sequencesOf (events ++ [e]) runId attempt = sequencesOf events runId attempt
      ++ if e.runId = runId ∧ e.attempt = attempt then [e.sequence] else [] := by
  unfold sequencesOf
  rw [List.filter_append, List.map_append, List.filter_singleton]
  congr 1
  by_cases h : e.runId = runId ∧ e.attempt = attempt
  · simp [h]
  · rw [if_neg h]
    have hfalse : (decide (e.runId = runId) && decide (e.attempt = attempt)) = false := by
      simpa using fun hrun hattempt => h ⟨hrun, hattempt⟩
    rw [hfalse]
    rfl

theorem EventLog.sequencesOf_later {w : Service} (hw : EventLog w) {r : RunRow}
    (hr : r ∈ w.den.db.runs) : sequencesOf w.events r.id (r.attemptCount + 1) = [] := by
  unfold sequencesOf
  rw [List.map_eq_nil_iff, List.filter_eq_nil_iff]
  intro e he hmatch
  simp only [Bool.and_eq_true, decide_eq_true_eq] at hmatch
  obtain ⟨r', hr', hid, hattempt⟩ := hw.counted e he
  obtain rfl := List.inj_on_of_nodup_map hw.one hr' hr (hid.trans hmatch.1)
  omega

/-! ## Runs after a step -/

theorem RunMoved.attempts {w : Service} {act : ServiceAction} {r r' : RunRow}
    (h : RunMoved w act r r') : r.attemptCount ≤ r'.attemptCount := by
  cases h <;> omega

theorem RunsMoved.id {w w' : Service} {act : ServiceAction} (hm : RunsMoved w act w') {r : RunRow}
    (hr : r ∈ w.den.db.runs) : (hm.set r).id = r.id := (hm.same r hr).id

theorem RunsMoved.mem {w w' : Service} {act : ServiceAction} (hm : RunsMoved w act w')
    {r' : RunRow} (h : r' ∈ w'.den.db.runs) :
    (∃ r ∈ w.den.db.runs, r' = hm.set r) ∨ r' ∈ hm.inserted := by
  rw [hm.rows, List.mem_append, List.mem_map] at h
  rcases h with ⟨r, hr, rfl⟩ | h
  · exact .inl ⟨r, hr, rfl⟩
  · exact .inr h

theorem RunsMoved.set_mem {w w' : Service} {act : ServiceAction} (hm : RunsMoved w act w')
    {r : RunRow} (hr : r ∈ w.den.db.runs) : hm.set r ∈ w'.den.db.runs := by
  rw [hm.rows, List.mem_append]
  exact .inl (List.mem_map_of_mem hr)

/-- A column that no update changes and every insert draws anew stays unique. -/
theorem RunsMoved.nodup {w w' : Service} {act : ServiceAction} (hm : RunsMoved w act w')
    {f : RunRow → String} (hsame : ∀ r ∈ w.den.db.runs, f (hm.set r) = f r)
    (hfresh : ∀ r' ∈ hm.inserted, ∀ r ∈ w.den.db.runs, f r ≠ f r')
    (hw : (w.den.db.runs.map f).Nodup) : (w'.den.db.runs.map f).Nodup := by
  have hold : (w.den.db.runs.map hm.set).map f = w.den.db.runs.map f := by
    rw [List.map_map]
    exact List.map_congr_left hsame
  rw [hm.rows, List.map_append, hold]
  refine List.nodup_append.mpr ⟨hw, ?_, fun x hx y hy => ?_⟩
  · match hinserted : hm.inserted with
    | [] => exact List.nodup_nil
    | [r] => exact List.nodup_singleton _
    | _ :: _ :: _ =>
        have hle := hm.single
        rw [hinserted, List.length_cons, List.length_cons] at hle
        omega
  · obtain ⟨r, hr, rfl⟩ := List.mem_map.mp hx
    obtain ⟨r', hr', rfl⟩ := List.mem_map.mp hy
    exact hfresh r' hr' r hr

theorem RunsMoved.oneRun {w w' : Service} {act : ServiceAction} (hm : RunsMoved w act w')
    (hw : w.den.db.OneRun) : w'.den.db.OneRun :=
  hm.nodup (fun _ hr => hm.id hr) (fun r' hr' => (hm.news r' hr').fresh) hw

/-! ## Deliveries -/

/-- What an answered delivery found and did. -/
inductive Appended (db : Db) (events : List EventRow) (input : EventInput) (source : EventSource)
    (db' : Db) (events' : List EventRow) : Prop
  | duplicate (e : EventRow) (he : e ∈ events) (run : e.runId = input.runId)
      (attempt : e.attempt = input.attempt)
      (key : e.engineIdempotencyKey = String.ofList (input.idempotencyKey source))
      (hdb : db' = db) (hevents : events' = events)
  | stored (r : RunRow) (hr : r ∈ db.runs) (claims : input.claims r = true)
      (next : input.sequence = r.engineSequence + 1)
      (hdb : db' = db.updateRuns (fun r' => r'.id = r.id) fun r' =>
        { r' with engineSequence := input.sequence, updatedAt := input.now })
      (hevents : events' = events ++ [input.row source])

theorem claims_id {input : EventInput} {r : RunRow} (h : input.claims r = true) :
    r.id = input.runId ∧ r.leaseOwner = some input.leaseOwner ∧ r.attemptCount = input.attempt ∧
      r.status = .running := by
  simp only [EventInput.claims, Bool.and_eq_true, decide_eq_true_eq] at h
  exact ⟨h.1.1.1.1, h.1.1.1.2, h.1.1.2, h.1.2⟩

theorem append_cases {db db' : Db} {events events' : List EventRow} {input : EventInput}
    {source : EventSource} {e : EventRow}
    (h : appendClaimedEvent db events input source = .ok (e, db', events')) :
    Appended db events input source db' events' := by
  unfold appendClaimedEvent at h
  split at h
  · cases h
  · next run hrun =>
      have hclaims := List.find?_some hrun
      dsimp only at h
      split at h
      · next duplicate hduplicate =>
          have hmatch := List.find?_some hduplicate
          simp only [Bool.and_eq_true, decide_eq_true_eq] at hmatch
          cases h
          exact .duplicate e (List.mem_of_find?_eq_some hduplicate)
            (hmatch.1.1.trans (claims_id hclaims).1) hmatch.1.2 hmatch.2 rfl rfl
      · split at h
        · cases h
        · next hnext =>
            split at h
            · cases h
            · cases h
              exact .stored run (List.mem_of_find?_eq_some hrun) hclaims (not_not.mp hnext) rfl rfl

theorem append_stale {db : Db} {events : List EventRow} {input : EventInput} {source : EventSource}
    (h : ∀ r ∈ db.runs, input.claims r = false) :
    appendClaimedEvent db events input source = .error "automation_run_lease_lost" := by
  unfold appendClaimedEvent
  rw [List.find?_eq_none.mpr fun r hr => by rw [h r hr]; simp]

theorem find?_delivers_append {accepted : List EventInput} {input : EventInput} {e : EventRow}
    (h : FirstDelivered accepted e) : FirstDelivered (accepted ++ [input]) e := by
  obtain ⟨first, hfirst, hsame⟩ := h
  refine ⟨first, ?_, hsame⟩
  rw [List.find?_append, hfirst]
  rfl

/-! ## Steps -/

section

variable {zones : TimeZones} {w w' : Service}

theorem step_events {act : ServiceAction} (hact : ∀ input source, act ≠ .append input source)
    (h : w.step zones act = some w') : w'.events = w.events ∧ w'.accepted = w.accepted := by
  cases act with
  | append input source => exact absurd rfl (hact input source)
  | den a =>
      simp only [Service.step, Option.map_eq_some_iff] at h
      obtain ⟨den, -, rfl⟩ := h
      exact ⟨rfl, rfl⟩
  | recordSkippedManual input =>
      simp only [Service.step] at h
      split at h <;> cases h
      exact ⟨rfl, rfl⟩
  | completeCloud input =>
      simp only [Service.step] at h
      split at h <;> cases h <;> exact ⟨rfl, rfl⟩
  | writeArtifactState index =>
      simp only [Service.step, Option.map_eq_some_iff] at h
      obtain ⟨input, -, rfl⟩ := h
      exact ⟨rfl, rfl⟩

theorem EventLog.other {act : ServiceAction} (hw : EventLog w)
    (hact : ∀ input source, act ≠ .append input source) (h : w.step zones act = some w') :
    EventLog w' := by
  obtain ⟨hevents, haccepted⟩ := step_events hact h
  obtain ⟨hm⟩ := step_moved hw.one h
  refine ⟨⟨?_, ?_, ?_, fun r' hr' howner => ?_⟩, hm.oneRun hw.one, fun r' hr' hqueued => ?_,
    fun e he => ?_, ?_⟩
  · rw [hevents]; exact hw.dense
  · rw [hevents, haccepted]; exact hw.first
  · rw [hevents, haccepted]; exact hw.stored
  · rw [hevents]
    rcases hm.mem hr' with ⟨r, hr, rfl⟩ | hinserted
    · rw [hm.id hr]
      cases hm.moves r hr with
      | kept status owner attempts sequence =>
          rw [attempts, sequence]
          exact hw.current r hr (by rwa [owner] at howner)
      | taken queued status attempts sequence room =>
          rw [attempts, sequence, hw.sequencesOf_later hr, (hw.waiting r hr queued).2]
          rfl
      | ended live status owner attempts sequence =>
          rw [attempts, sequence]
          rcases owner with owner | owner
          · exact hw.current r hr (by rwa [owner] at howner)
          · exact absurd owner howner
      | recovered run now drawn hact id lease status owner attempts sequence =>
          exact absurd owner howner
      | cancelled run now drawn hact id status owner attempts sequence =>
          rw [attempts, sequence]
          exact hw.current r hr (by rwa [owner] at howner)
      | retried run leaseOwner now drawn hact id status owner attempts sequence =>
          exact absurd owner howner
      | appended input source happend => exact absurd happend (hact input source)
    · exact absurd (hm.news r' hinserted).owner howner
  · rcases hm.mem hr' with ⟨r, hr, rfl⟩ | hinserted
    · cases hm.moves r hr with
      | kept status owner attempts sequence =>
          rw [owner, sequence]
          exact hw.waiting r hr (by rwa [status] at hqueued)
      | taken queued status attempts sequence room =>
          rw [status] at hqueued
          cases hqueued
      | ended live status owner attempts sequence =>
          rw [hqueued] at status
          cases status
      | recovered run now drawn hact id lease status owner attempts sequence =>
          rw [status] at hqueued
          split at hqueued
          · next hretry => exact ⟨owner, sequence hretry⟩
          · cases hqueued
      | cancelled run now drawn hact id status owner attempts sequence =>
          rw [status] at hqueued
          split at hqueued
          · cases hqueued
          · next hne => exact absurd hqueued hne
      | retried run leaseOwner now drawn hact id status owner attempts sequence =>
          exact ⟨owner, sequence⟩
      | appended input source happend => exact absurd happend (hact input source)
    · exact ⟨(hm.news r' hinserted).owner, (hm.news r' hinserted).sequence⟩
  · rw [hevents] at he
    obtain ⟨r, hr, hid, hattempt⟩ := hw.counted e he
    exact ⟨hm.set r, hm.set_mem hr, (hm.id hr).trans hid,
      Nat.le_trans hattempt (hm.moves r hr).attempts⟩
  · rw [hevents]; exact hw.keyed

theorem EventLog.duplicate {input : EventInput} (hw : EventLog w) {e : EventRow}
    (he : e ∈ w.events) (hdelivers : input.delivers e = true) :
    EventLog { w with accepted := w.accepted ++ [input] } where
  dense := hw.dense
  first e he := find?_delivers_append (hw.first e he)
  stored input' hinput' := by
    rcases List.mem_append.mp hinput' with hold | hnew
    · exact hw.stored input' hold
    · rw [List.mem_singleton.mp hnew]
      exact ⟨e, he, hdelivers⟩
  current := hw.current
  one := hw.one
  waiting := hw.waiting
  counted := hw.counted
  keyed := hw.keyed

theorem EventLog.sequence_le (hw : EventLog w) {r : RunRow} (hr : r ∈ w.den.db.runs)
    (howner : r.leaseOwner ≠ none) {e : EventRow} (he : e ∈ w.events) (hrun : e.runId = r.id)
    (hattempt : e.attempt = r.attemptCount) : e.sequence ≤ r.engineSequence := by
  have hmem : e.sequence ∈ sequencesOf w.events r.id r.attemptCount := by
    refine List.mem_map_of_mem (List.mem_filter.mpr ⟨he, ?_⟩)
    rw [hrun, hattempt, decide_eq_true rfl, decide_eq_true rfl]
    rfl
  rw [hw.current r hr howner, List.mem_range'_1] at hmem
  omega

theorem EventLog.next {input : EventInput} {source : EventSource} (hw : EventLog w) {r : RunRow}
    (hr : r ∈ w.den.db.runs) (hclaims : input.claims r = true)
    (hnext : input.sequence = r.engineSequence + 1) :
    EventLog { w with
      den := { w.den with db := w.den.db.updateRuns (fun r' => r'.id = r.id) fun r' =>
        { r' with engineSequence := input.sequence, updatedAt := input.now } }
      events := w.events ++ [input.row source], accepted := w.accepted ++ [input] } := by
  obtain ⟨hid, howner, hattempt, hrunning⟩ := claims_id hclaims
  have hleased : r.leaseOwner ≠ none := by rw [howner]; simp
  have hnow := hw.current r hr hleased
  have hnone : w.accepted.find? (fun input' => input'.delivers (input.row source)) = none := by
    rw [List.find?_eq_none]
    intro input' hinput' hmatch
    obtain ⟨hrun, hsame, hsequence⟩ := delivers_iff.mp hmatch
    obtain ⟨e, he, hdelivers⟩ := hw.stored input' hinput'
    obtain ⟨hrun', hsame', hsequence'⟩ := delivers_iff.mp hdelivers
    have hle := hw.sequence_le hr hleased he (hrun'.symm.trans (hrun.trans hid.symm))
      (hsame'.symm.trans (hsame.trans hattempt.symm))
    have hnew : input'.sequence = input.sequence := hsequence
    omega
  have hrows : ∀ r' ∈ (w.den.db.updateRuns (fun r' => r'.id = r.id) fun r' =>
      { r' with engineSequence := input.sequence, updatedAt := input.now }).runs,
      (r' ∈ w.den.db.runs ∧ r'.id ≠ r.id) ∨
        r' = { r with engineSequence := input.sequence, updatedAt := input.now } := by
    intro r' hr'
    obtain ⟨r₀, hr₀, rfl⟩ := List.mem_map.mp hr'
    by_cases hsame : r₀.id = r.id
    · rw [List.inj_on_of_nodup_map hw.one hr₀ hr hsame]
      exact .inr (by simp)
    · refine .inl ?_
      rw [if_neg (by simpa using hsame)]
      exact ⟨hr₀, hsame⟩
  refine ⟨⟨fun runId attempt => ?_, fun e he => ?_, fun input' hinput' => ?_,
    fun r' hr' howner' => ?_⟩, ?_, fun r' hr' hqueued => ?_, fun e he => ?_, fun e he => ?_⟩
  · rw [sequencesOf_append_singleton]
    by_cases hmatch : (input.row source).runId = runId ∧ (input.row source).attempt = attempt
    · refine ⟨r.engineSequence + 1, ?_⟩
      obtain ⟨rfl, rfl⟩ := hmatch
      rw [if_pos ⟨rfl, rfl⟩, List.range'_1_concat, ← hnow]
      show sequencesOf w.events input.runId input.attempt ++ [input.sequence] = _
      rw [hid, hattempt, hnext, Nat.add_comm]
    · rw [if_neg hmatch, List.append_nil]
      exact hw.dense runId attempt
  · rcases List.mem_append.mp he with hold | hnew
    · exact find?_delivers_append (hw.first e hold)
    · rw [List.mem_singleton.mp hnew]
      refine ⟨input, ?_, rfl, rfl⟩
      rw [List.find?_append, hnone, Option.none_or, List.find?_singleton, delivers_row]
      rfl
  · rcases List.mem_append.mp hinput' with hold | hnew
    · obtain ⟨e, he, hdelivers⟩ := hw.stored input' hold
      exact ⟨e, List.mem_append_left _ he, hdelivers⟩
    · rw [List.mem_singleton.mp hnew]
      exact ⟨_, List.mem_append_right _ (List.mem_singleton.mpr rfl), delivers_row input source⟩
  · rw [sequencesOf_append_singleton]
    rcases hrows r' hr' with ⟨hold, hne⟩ | rfl
    · rw [if_neg fun hmatch => hne (hmatch.1.symm.trans hid.symm), List.append_nil]
      exact hw.current r' hold howner'
    · rw [if_pos ⟨hid.symm, hattempt.symm⟩]
      show sequencesOf w.events r.id r.attemptCount ++ [input.sequence]
        = List.range' 1 input.sequence
      rw [hnow, hnext, List.range'_1_concat, Nat.add_comm]
  · have hids : (w.den.db.updateRuns (fun r' => r'.id = r.id) fun r' =>
        { r' with engineSequence := input.sequence, updatedAt := input.now }).runs.map (·.id)
        = w.den.db.runs.map (·.id) := by
      unfold Db.updateRuns
      rw [List.map_map]
      refine List.map_congr_left fun r' _ => ?_
      rw [Function.comp_apply]
      split <;> rfl
    show (List.map _ _).Nodup
    rw [hids]
    exact hw.one
  · rcases hrows r' hr' with ⟨hold, -⟩ | rfl
    · exact hw.waiting r' hold hqueued
    · rw [show r.status = .queued from hqueued] at hrunning
      cases hrunning
  · have hkept : ∀ r' ∈ w.den.db.runs, ∃ r'' ∈ (w.den.db.updateRuns (fun r' => r'.id = r.id)
        fun r' => { r' with engineSequence := input.sequence, updatedAt := input.now }).runs,
        r''.id = r'.id ∧ r''.attemptCount = r'.attemptCount := fun r' hr' =>
      ⟨_, List.mem_map_of_mem hr', by split <;> exact ⟨rfl, rfl⟩⟩
    rcases List.mem_append.mp he with hold | hnew
    · obtain ⟨r', hr', hid', hle⟩ := hw.counted e hold
      obtain ⟨r'', hr'', hid'', hsame⟩ := hkept r' hr'
      exact ⟨r'', hr'', hid''.trans hid', hsame ▸ hle⟩
    · rw [List.mem_singleton.mp hnew]
      obtain ⟨r'', hr'', hid'', hsame⟩ := hkept r hr
      exact ⟨r'', hr'', hid''.trans hid, hsame ▸ Nat.le_of_eq hattempt.symm⟩
  · rcases List.mem_append.mp he with hold | hnew
    · exact hw.keyed e hold
    · rw [List.mem_singleton.mp hnew]
      exact keyed_row input source

theorem EventLog.step {act : ServiceAction} (hw : EventLog w) (h : w.step zones act = some w') :
    EventLog w' := by
  by_cases hact : ∃ input source, act = .append input source
  · obtain ⟨input, source, rfl⟩ := hact
    simp only [Service.step] at h
    split at h
    · cases h
      exact hw
    · next hanswer =>
        cases h
        cases append_cases hanswer with
        | duplicate e he run attempt key hdb hevents =>
            rw [hdb, hevents]
            exact hw.duplicate he
              (delivers_iff.mpr ⟨run.symm, attempt.symm, ((hw.keyed e he).sequence key).symm⟩)
        | stored r hr claims next hdb hevents =>
            rw [hdb, hevents]
            exact hw.next hr claims next
  · exact hw.other (fun input source heq => hact ⟨input, source, heq⟩) h

/-- A delivery stores nothing unless its attempt is the one whose lease is live. -/
def Service.RefusesStale (zones : TimeZones) (w : Service) : Prop :=
  ∀ input source, (∀ r ∈ w.den.db.runs, r.id = input.runId → r.status = .running →
      r.leaseOwner = some input.leaseOwner → r.attemptCount = input.attempt →
      ∀ expires, r.leaseExpiresAt = some expires → expires ≤ input.now) →
    w.step zones (.append input source) = some w

theorem refusesStale (w : Service) : w.RefusesStale zones := by
  intro input source hstale
  have hnone : ∀ r ∈ w.den.db.runs, input.claims r = false := by
    intro r hr
    by_contra hclaims
    rw [Bool.not_eq_false] at hclaims
    obtain ⟨hid, howner, hattempt, hrunning⟩ := claims_id hclaims
    simp only [EventInput.claims, Bool.and_eq_true, Option.any_eq_true, decide_eq_true_eq] at hclaims
    obtain ⟨-, expires, hexpires, hlater⟩ := hclaims
    have hle := hstale r hr hid hrunning howner hattempt expires hexpires
    omega
  simp only [Service.step, append_stale hnone]

/-! ## Attempts -/

/-- Neither update that requeues a run finds one without an attempt left. -/
def AttemptsLeft (w : Service) : ServiceAction → Prop
  | .den (.write (.retrying run _ _) _) =>
      ∀ r ∈ w.den.db.runs, r.id = run.id → r.attemptCount < automationMaximumAttempts
  | .den (.write (.recovering run now) _) =>
      run.attemptCount < automationMaximumAttempts → ∀ r ∈ w.den.db.runs, r.id = run.id →
        r.leaseOwner = run.leaseOwner →
        (r.leaseExpiresAt.any fun expires => expires < now) = true →
        r.attemptCount < automationMaximumAttempts
  | _ => True

structure RunRow.Attempted (r : RunRow) : Prop where
  bound : r.attemptCount ≤ automationMaximumAttempts
  waiting : r.status = .queued → r.attemptCount < automationMaximumAttempts

theorem RunMoved.attempted {act : ServiceAction} {r r' : RunRow} (hr : r ∈ w.den.db.runs)
    (hleft : AttemptsLeft w act) (h : RunMoved w act r r') (hattempted : r.Attempted) :
    r'.Attempted := by
  have hbound := hattempted.bound
  have hwaiting := hattempted.waiting
  cases h with
  | kept status owner attempts sequence =>
      exact ⟨by omega, fun hqueued => by
        have hlt := hwaiting (status.symm.trans hqueued)
        omega⟩
  | taken queued status attempts sequence room =>
      have hlt := hwaiting queued
      refine ⟨by omega, fun hqueued => ?_⟩
      rw [status] at hqueued
      cases hqueued
  | ended live status owner attempts sequence =>
      refine ⟨by omega, fun hqueued => ?_⟩
      rw [hqueued] at status
      cases status
  | recovered run now drawn hact id lease status owner attempts sequence =>
      subst hact
      refine ⟨by omega, fun hqueued => ?_⟩
      rw [status] at hqueued
      split at hqueued
      · next hretry =>
          have hlt := hleft hretry r hr id lease.1 lease.2
          omega
      · cases hqueued
  | cancelled run now drawn hact id status owner attempts sequence =>
      refine ⟨by omega, fun hqueued => ?_⟩
      rw [status] at hqueued
      split at hqueued
      · cases hqueued
      · next hne => exact absurd hqueued hne
  | retried run leaseOwner now drawn hact id status owner attempts sequence =>
      subst hact
      have hlt := hleft r hr id
      exact ⟨by omega, fun _ => by omega⟩
  | appended input source happend claims status owner attempts sequence =>
      exact ⟨by omega, fun hqueued => by
        have hlt := hwaiting (status.symm.trans hqueued)
        omega⟩

/-- In every run the log is exact and refuses stale deliveries, and while the updates that
requeue find attempts left, no run is attempted more often than it may. -/
theorem run_events_exactly_once (zones : TimeZones) :
    (∀ w, Reach (Service.step zones) (fun _ _ => True) {} w →
      w.ExactlyOnce ∧ w.RefusesStale zones) ∧
    ∀ w, Reach (Service.step zones) AttemptsLeft {} w →
      w.ExactlyOnce ∧ w.RefusesStale zones ∧
        ∀ r ∈ w.den.db.runs, r.attemptCount ≤ automationMaximumAttempts := by
  have hlog : ∀ guard w, Reach (Service.step zones) guard {} w → EventLog w := fun guard w hw =>
    hw.invariant (fun s act t hs _ hstep => hs.step hstep) eventLog_empty
  refine ⟨fun w hw => ⟨(hlog _ w hw).toExactlyOnce, refusesStale w⟩, fun w hw =>
    ⟨(hlog _ w hw).toExactlyOnce, refusesStale w, ?_⟩⟩
  have hattempted := hw.invariant (I := fun v => EventLog v ∧ ∀ r ∈ v.den.db.runs, r.Attempted)
    (fun s act t hs hleft hstep => by
      obtain ⟨hm⟩ := step_moved hs.1.one hstep
      refine ⟨hs.1.step hstep, fun r' hr' => ?_⟩
      rcases hm.mem hr' with ⟨r, hr, rfl⟩ | hinserted
      · exact (hm.moves r hr).attempted hr hleft (hs.2 r hr)
      · have hzero := (hm.news r' hinserted).attempts
        have hmaximum : automationMaximumAttempts = 2 := rfl
        exact ⟨by omega, fun _ => by omega⟩)
    ⟨eventLog_empty, fun r hr => nomatch hr⟩
  exact fun r hr => (hattempted.2 r hr).bound

end

/-! ## A third attempt -/

instance (w : Service) (act : ServiceAction) : Decidable (AttemptsLeft w act) := by
  refine act.casesOn (fun a => a.casesOn ?_ ?_ ?_ ?_
    (fun p drawn => p.casesOn ?_ ?_ ?_ ?_ ?_ ?_ ?_) ?_ ?_ ?_ ?_ ?_ ?_ ?_) ?_ ?_ ?_ ?_
  all_goals
    intros
    dsimp only [AttemptsLeft]
    infer_instance

/-- The cloud run as a server takes it at `now`. -/
def cloudRun (leaseOwner : String) (now : Int) : RunRow :=
  ((⟨cloudItem, .scheduled, some 10, none, "r", 100, none, 10⟩ : ClaimInput).run exampleZones
    "automation:a:10" false).take leaseOwner 100 now

def delivery (leaseOwner : String) (attempt sequence : Nat) (payload : String) (now : Int) :
    EventInput :=
  ⟨"r", leaseOwner, attempt, sequence, .assistant, .str payload, now⟩

/-- Two deliveries of one event with other payloads, a gap, and a retry by another server. -/
def retriedActions : List ServiceAction :=
  takenCloudActions ++
    [.append (delivery "server" 1 1 "a" 30) .cloud, .append (delivery "server" 1 1 "b" 31) .cloud,
      .append (delivery "server" 1 3 "c" 32) .cloud,
      .den (.read (.retrying { cloudRun "server" 20 with engineSequence := 1, updatedAt := 30 }
        "server" 60)),
      .den (.write (.retrying { cloudRun "server" 20 with engineSequence := 1, updatedAt := 30 }
        "server" 60) {}),
      .den (.claimCloud "r" "other" 100 2 70), .append (delivery "server" 1 2 "d" 80) .cloud,
      .append (delivery "other" 2 1 "e" 81) .cloud]

theorem run_events_exactly_once_retried :
    ∃ w, runActions (Service.step exampleZones) retriedActions {} = some w ∧
      (w.events.map fun e => (e.attempt, e.sequence)) = [(1, 1), (2, 1)] ∧
      (w.ExactlyOnce ∧ w.RefusesStale exampleZones) ∧
      w.ExactlyOnce ∧ w.RefusesStale exampleZones ∧
        ∀ r ∈ w.den.db.runs, r.attemptCount ≤ automationMaximumAttempts := by
  have hrun : (runActions (fun w a => if AttemptsLeft w a then w.step exampleZones a else none)
      retriedActions {}).any (fun w =>
        (w.events.map fun e => (e.attempt, e.sequence)) = [(1, 1), (2, 1)]) = true := by
    decide +kernel
  obtain ⟨w, hw, hevents⟩ := exists_of_any hrun
  obtain ⟨hreach, hplain⟩ := reach_of_checked hw
  exact ⟨w, hplain, of_decide_eq_true hevents,
    (run_events_exactly_once exampleZones).1 w (hreach.mono fun _ _ _ => trivial),
    (run_events_exactly_once exampleZones).2 w hreach⟩

/-- A retry of the first attempt is read, the lease expires and another server takes the
second attempt. The update then requeues it, and a third is taken. -/
def thirdAttemptActions : List ServiceAction :=
  takenCloudActions ++
    [.den (.read (.retrying (cloudRun "server" 20) "server" 60)),
      .den (.read (.recovering (cloudRun "server" 20) 130)),
      .den (.write (.recovering (cloudRun "server" 20) 130) {}),
      .den (.claimCloud "r" "other" 100 2 140),
      .den (.write (.retrying (cloudRun "server" 20) "server" 60) {}),
      .den (.claimCloud "r" "third" 100 2 150)]

theorem third_attempt_taken :
    ∃ w, runActions (Service.step exampleZones) thirdAttemptActions {} = some w ∧
      ∃ r ∈ w.den.db.runs, automationMaximumAttempts < r.attemptCount := by
  have hrun : (runActions (Service.step exampleZones) thirdAttemptActions {}).any (fun w =>
      w.den.db.runs.any fun r => automationMaximumAttempts < r.attemptCount) = true := by
    decide +kernel
  obtain ⟨w, hw, hattempts⟩ := exists_of_any hrun
  obtain ⟨r, hr, hattempts⟩ := List.any_eq_true.mp hattempts
  exact ⟨w, hw, r, hr, of_decide_eq_true hattempts⟩

end OmniRush.Automations
