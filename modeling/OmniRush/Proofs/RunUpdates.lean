import Mathlib.Data.List.Nodup
import OmniRush.Proofs.RunLifecycle
import OmniRush.Automations.Events

/-!
# What a step does to a run

Every statement on the run table updates the rows it selects or inserts one row. Here
each is read off once, as the change of the columns that decide what may happen to a run
next: the status, the lease's owner, the attempts and the events counted. The two updates
that select by id alone, and the recovery, say which read they belong to. What follows
about events and about occupied automations is derived from these cases and opens no
statement again.
-/

namespace OmniRush.Automations

open OmniRush

/-- Waiting or taken. -/
def RunStatus.isUnfinished (status : RunStatus) : Bool := status = .queued || status.isLeased

/-- The runs `claimCloud` counts. -/
def RunRow.occupiesCloud (r : RunRow) : Bool := r.executionTarget = .cloud && r.status.isLeased

def Db.OneRun (db : Db) : Prop := (db.runs.map (·.id)).Nodup

/-- The columns no update touches. -/
structure SameOccurrence (r r' : RunRow) : Prop extends SameRun r r' where
  executionTarget : r'.executionTarget = r.executionTarget

theorem SameOccurrence.refl (r : RunRow) : SameOccurrence r r := ⟨.refl r, rfl⟩

/-- A claim of a cloud run found room. -/
def ServiceAction.Admits (w : Service) (act : ServiceAction) (r : RunRow) : Prop :=
  ∃ leaseOwner leaseMs maxConcurrency now,
    act = .den (.claimCloud r.id leaseOwner leaseMs maxConcurrency now) ∧
      w.den.db.runs.countP RunRow.occupiesCloud < maxConcurrency

/-- How a row changes. -/
inductive RunMoved (w : Service) (act : ServiceAction) (r r' : RunRow) : Prop
  | kept (status : r'.status = r.status) (owner : r'.leaseOwner = r.leaseOwner)
      (attempts : r'.attemptCount = r.attemptCount)
      (sequence : r'.engineSequence = r.engineSequence)
  | taken (queued : r.status = .queued) (status : r'.status = .running)
      (attempts : r'.attemptCount = r.attemptCount + 1)
      (sequence : r'.engineSequence = r.engineSequence)
      (room : r.executionTarget = .cloud → act.Admits w r)
  | ended (live : r.status.isUnfinished = true) (status : r'.status.isTerminal = true)
      (owner : r'.leaseOwner = r.leaseOwner ∨ r'.leaseOwner = none)
      (attempts : r'.attemptCount = r.attemptCount)
      (sequence : r'.engineSequence = r.engineSequence)
  | recovered (run : RunRow) (now : Int) (drawn : Drawn)
      (hact : act = .den (.write (.recovering run now) drawn)) (id : r.id = run.id)
      (lease : r.leaseOwner = run.leaseOwner ∧
        (r.leaseExpiresAt.any fun expires => expires < now) = true)
      (status : r'.status
        = if run.attemptCount < automationMaximumAttempts then .queued else .failed)
      (owner : r'.leaseOwner = none) (attempts : r'.attemptCount = r.attemptCount)
      (sequence : run.attemptCount < automationMaximumAttempts → r'.engineSequence = 0)
  | cancelled (run : RunRow) (now : Int) (drawn : Drawn)
      (hact : act = .den (.write (.cancelling run now) drawn)) (id : r.id = run.id)
      (status : r'.status = if run.status = .queued then .cancelled else run.status)
      (owner : r'.leaseOwner = r.leaseOwner) (attempts : r'.attemptCount = r.attemptCount)
      (sequence : r'.engineSequence = r.engineSequence)
  | retried (run : RunRow) (leaseOwner : String) (now : Int) (drawn : Drawn)
      (hact : act = .den (.write (.retrying run leaseOwner now) drawn)) (id : r.id = run.id)
      (status : r'.status = .queued) (owner : r'.leaseOwner = none)
      (attempts : r'.attemptCount = r.attemptCount) (sequence : r'.engineSequence = 0)
  | appended (input : EventInput) (source : EventSource) (hact : act = .append input source)
      (claims : input.claims r = true) (status : r'.status = r.status)
      (owner : r'.leaseOwner = r.leaseOwner) (attempts : r'.attemptCount = r.attemptCount)
      (sequence : r'.engineSequence = input.sequence)

theorem RunMoved.refl (w : Service) (act : ServiceAction) (r : RunRow) : RunMoved w act r r :=
  .kept rfl rfl rfl rfl

/-- A run as it is inserted. -/
structure Inserted (db : Db) (r : RunRow) : Prop where
  fresh : ∀ r' ∈ db.runs, r'.id ≠ r.id
  newKey : ∀ r' ∈ db.runs, r'.idempotencyKey ≠ r.idempotencyKey
  owner : r.leaseOwner = none
  attempts : r.attemptCount = 0
  sequence : r.engineSequence = 0
  status : r.status = .skipped ∨ (r.status = .queued ∧
    ∀ r' ∈ db.runs, r'.automationId = r.automationId → r'.status.isUnfinished = false)
  key : ∃ nonce, automationOccurrenceIdentity r.automationId r.scheduledFor nonce
    = some r.idempotencyKey

/-- The run table after a step. -/
structure RunsMoved (w : Service) (act : ServiceAction) (w' : Service) where
  set : RunRow → RunRow
  inserted : List RunRow
  rows : w'.den.db.runs = w.den.db.runs.map set ++ inserted
  same : ∀ r ∈ w.den.db.runs, SameOccurrence r (set r)
  moves : ∀ r ∈ w.den.db.runs, RunMoved w act r (set r)
  single : inserted.length ≤ 1
  news : ∀ r ∈ inserted, Inserted w.den.db r

section

variable {w w' : Service} {act : ServiceAction}

theorem runsMoved_same (h : w'.den.db.runs = w.den.db.runs) : Nonempty (RunsMoved w act w') :=
  ⟨⟨id, [], by rw [h, List.map_id, List.append_nil], fun r _ => .refl r, fun r _ => .refl w act r,
    by simp, by simp⟩⟩

theorem runsMoved_update {selects : RunRow → Bool} {set : RunRow → RunRow}
    (h : w'.den.db.runs = (w.den.db.updateRuns selects set).runs)
    (hsame : ∀ r, SameOccurrence r (set r))
    (hmove : ∀ r ∈ w.den.db.runs, selects r = true → RunMoved w act r (set r)) :
    Nonempty (RunsMoved w act w') := by
  refine ⟨⟨_, [], by rw [List.append_nil]; exact h, fun r hr => ?_, fun r hr => ?_, by simp, by simp⟩⟩
  · split
    · exact hsame r
    · exact .refl r
  · split
    · next hselected => exact hmove r hr hselected
    · exact .refl w act r

theorem runsMoved_insert {r : RunRow} (h : w'.den.db.runs = w.den.db.runs ++ [r])
    (hr : Inserted w.den.db r) : Nonempty (RunsMoved w act w') := by
  refine ⟨⟨id, [r], by rw [h, List.map_id], fun r _ => .refl r, fun r _ => .refl w act r,
    by simp, fun r' hr' => ?_⟩⟩
  rw [List.mem_singleton.mp hr']
  exact hr

/-! ## Taking a run -/

theorem claimCloud_moved (runId leaseOwner : String) (leaseMs : Int) (maxConcurrency : Nat)
    (now : Int) (hact : act = .den (.claimCloud runId leaseOwner leaseMs maxConcurrency now))
    (h : w'.den.db = w.den.db.claimCloud runId leaseOwner leaseMs maxConcurrency now) :
    Nonempty (RunsMoved w act w') := by
  unfold Db.claimCloud at h
  dsimp only at h
  split at h
  · exact runsMoved_same (congrArg Db.runs h)
  · next hroom =>
      split at h
      · exact runsMoved_same (congrArg Db.runs h)
      · next run hrun =>
          have hid : run.id = runId := by
            have hsome := List.find?_some hrun
            simp only [Bool.and_eq_true, decide_eq_true_eq] at hsome
            exact hsome.1.1.1
          have hcount : w.den.db.runs.countP RunRow.occupiesCloud < maxConcurrency := by
            rw [List.length_take, ← List.countP_eq_length_filter] at hroom
            unfold RunRow.occupiesCloud
            omega
          split at h
          · exact runsMoved_same (congrArg Db.runs h)
          · refine runsMoved_update (congrArg Db.runs h)
              (fun r => ⟨⟨rfl, rfl, rfl, rfl, rfl⟩, rfl⟩) fun r _ hselected => ?_
            simp only [Bool.and_eq_true, decide_eq_true_eq] at hselected
            refine .taken hselected.2 rfl rfl rfl fun _ =>
              ⟨leaseOwner, leaseMs, maxConcurrency, now, ?_, hcount⟩
            rw [hact, hselected.1, hid]

theorem claimDesktop_moved (hone : w.den.db.OneRun)
    (organizationId ownerMemberId leaseOwner : String) (leaseMs : Int) (runId : String) (now : Int)
    (h : w'.den.db
      = w.den.db.claimDesktop organizationId ownerMemberId leaseOwner leaseMs runId now) :
    Nonempty (RunsMoved w act w') := by
  unfold Db.claimDesktop at h
  dsimp only at h
  split at h
  · exact runsMoved_same (congrArg Db.runs h)
  · split at h
    · exact runsMoved_same (congrArg Db.runs h)
    · next run hrun =>
        have hdesktop : run.executionTarget = .desktop := by
          have hsome := List.find?_some hrun
          simp only [Bool.and_eq_true, decide_eq_true_eq] at hsome
          exact hsome.1.2
        refine runsMoved_update (congrArg Db.runs h)
          (fun r => ⟨⟨rfl, rfl, rfl, rfl, rfl⟩, rfl⟩) fun r hr hselected => ?_
        simp only [Bool.and_eq_true, decide_eq_true_eq] at hselected
        refine .taken hselected.2 rfl rfl rfl fun hcloud => ?_
        rw [List.inj_on_of_nodup_map hone hr (List.mem_of_find?_eq_some hrun) hselected.1,
          hdesktop] at hcloud
        cases hcloud

/-! ## Ends -/

theorem complete_moved {db' : Db} {runId leaseOwner : String} {attempt : Option Nat}
    {status : FinalStatus} {resultSummary : Option String} {error : Option AutomationError}
    {now : Int}
    (hanswer : w.den.db.complete runId leaseOwner attempt status resultSummary error now = .ok db')
    (h : w'.den.db = db') : Nonempty (RunsMoved w act w') := by
  subst h
  unfold Db.complete at hanswer
  dsimp only at hanswer
  split at hanswer
  · cases hanswer
  · split at hanswer
    · split at hanswer
      · cases hanswer
      · injection hanswer with hanswer
        exact runsMoved_same (congrArg Db.runs hanswer.symm)
    · split at hanswer
      · cases hanswer
      · injection hanswer with hanswer
        refine runsMoved_update (congrArg Db.runs hanswer.symm)
          (fun r => ⟨⟨rfl, rfl, rfl, rfl, rfl⟩, rfl⟩) fun r _ hselected => ?_
        simp only [Bool.and_eq_true, decide_eq_true_eq] at hselected
        refine .ended ?_ status.2 (.inl rfl) rfl rfl
        rw [hselected.1.2]
        rfl

theorem recoverLease_moved (run : RunRow) (now : Int) (drawn : Drawn)
    (hact : act = .den (.write (.recovering run now) drawn))
    (h : w'.den.db = w.den.db.recoverLease run now) : Nonempty (RunsMoved w act w') := by
  unfold Db.recoverLease at h
  split at h
  · exact runsMoved_same (congrArg Db.runs h)
  · next leaseOwner howner =>
      refine runsMoved_update (congrArg Db.runs h)
        (fun r => ⟨⟨rfl, rfl, rfl, rfl, rfl⟩, rfl⟩) fun r _ hselected => ?_
      simp only [Bool.and_eq_true, decide_eq_true_eq] at hselected
      refine .recovered run now drawn hact hselected.1.1
        ⟨hselected.1.2.trans howner.symm, hselected.2⟩ (by simp) rfl rfl fun hretry => ?_
      simp [hretry]

/-! ## Inserts -/

theorem claim_moved {zones : TimeZones} {db' : Db} {input : ClaimInput} {answer : ClaimAnswer}
    (hfresh : ∀ r ∈ w.den.db.runs, r.id ≠ input.newRunId)
    (hanswer : w.den.db.claim zones input = .ok (answer, db')) (h : w'.den.db = db') :
    Nonempty (RunsMoved w act w') := by
  subst h
  unfold Db.claim at hanswer
  dsimp only at hanswer
  split at hanswer
  · split at hanswer
    · cases hanswer
    · next key hkey =>
        split at hanswer
        · next run _ =>
            injection hanswer with hanswer
            injection hanswer with _ hanswer
            exact runsMoved_same (congrArg Db.runs hanswer.symm)
        · next hfree =>
            injection hanswer with hanswer
            injection hanswer with _ hanswer
            refine runsMoved_insert (congrArg Db.runs hanswer.symm)
              ⟨hfresh, fun r hr => ?_, rfl, rfl, rfl, ?_, input.nonce, hkey⟩
            · show r.idempotencyKey ≠ key
              simpa using List.find?_eq_none.mp hfree r hr
            · cases hoverlap : w.den.db.runs.any fun r =>
                  decide (r.automationId = input.item.automation.id)
                    && (decide (r.status = .queued) || r.status.isLeased) with
              | true => exact .inl (by simp [ClaimInput.run])
              | false =>
                  refine .inr ⟨by simp [ClaimInput.run], fun r hr hid => ?_⟩
                  have hnone := List.any_eq_false.mp hoverlap r hr
                  have hid : r.automationId = input.item.automation.id := hid
                  simpa [RunStatus.isUnfinished, hid] using hnone
  · cases hanswer

theorem recordSkippedManual_moved {db' : Db} {input : SkippedManual}
    (hfresh : ∀ r ∈ w.den.db.runs, r.id ≠ input.newRunId)
    (hanswer : w.den.db.recordSkippedManual input = .ok db') (h : w'.den.db = db') :
    Nonempty (RunsMoved w act w') := by
  subst h
  unfold Db.recordSkippedManual at hanswer
  split at hanswer
  · cases hanswer
  · split at hanswer
    · cases hanswer
    · split at hanswer
      · cases hanswer
      · split at hanswer
        · cases hanswer
        · next key hkey =>
            split at hanswer
            · cases hanswer
            · next hfree =>
                injection hanswer with hanswer
                refine runsMoved_insert (congrArg Db.runs hanswer.symm)
                  ⟨hfresh, fun r hr => ?_, rfl, rfl, rfl, .inl rfl, some input.nonce, hkey⟩
                show r.idempotencyKey ≠ key
                simpa using List.any_eq_false.mp (Bool.eq_false_iff.mpr hfree) r hr

/-! ## Events -/

theorem append_moved {events' : List EventRow} {input : EventInput} {source : EventSource}
    {e : EventRow} {db' : Db} (hact : act = .append input source) (hone : w.den.db.OneRun)
    (hanswer : appendClaimedEvent w.den.db w.events input source = .ok (e, db', events'))
    (h : w'.den.db = db') : Nonempty (RunsMoved w act w') := by
  subst h
  unfold appendClaimedEvent at hanswer
  split at hanswer
  · cases hanswer
  · next run hrun =>
      dsimp only at hanswer
      split at hanswer
      · injection hanswer with hanswer
        injection hanswer with _ hanswer
        injection hanswer with hanswer _
        exact runsMoved_same (congrArg Db.runs hanswer.symm)
      · split at hanswer
        · cases hanswer
        · split at hanswer
          · cases hanswer
          · injection hanswer with hanswer
            injection hanswer with _ hanswer
            injection hanswer with hanswer _
            refine runsMoved_update (congrArg Db.runs hanswer.symm)
              (fun r => ⟨⟨rfl, rfl, rfl, rfl, rfl⟩, rfl⟩) fun r hr hselected => ?_
            have hsame := List.inj_on_of_nodup_map hone hr (List.mem_of_find?_eq_some hrun)
              (of_decide_eq_true hselected)
            exact .appended input source hact (hsame ▸ List.find?_some hrun) rfl rfl rfl rfl

/-! ## Steps -/

variable {zones : TimeZones}

theorem claimInput_newRunId {drawn : Drawn} {p : Pending} {input : ClaimInput}
    (h : p.claimInput drawn = some input) : input.newRunId = drawn.newRunId := by
  cases p with
  | due item now =>
      obtain ⟨_, -, rfl⟩ := Option.map_eq_some_iff.mp h
      rfl
  | manual item =>
      cases h
      rfl
  | _ => cases h

theorem claimWrite_moved {p : Pending} {drawn : Drawn}
    (hfresh : ∀ r ∈ w.den.db.runs, r.id ≠ drawn.newRunId)
    (h : w'.den.db = match (p.claimInput drawn).map (w.den.db.claim zones) with
      | some (.ok (_, db')) => db'
      | _ => w.den.db) : Nonempty (RunsMoved w act w') := by
  cases hinput : p.claimInput drawn with
  | none =>
      rw [hinput] at h
      exact runsMoved_same (congrArg Db.runs h)
  | some input =>
      rw [hinput, Option.map_some] at h
      cases hanswer : w.den.db.claim zones input with
      | error e =>
          rw [hanswer] at h
          exact runsMoved_same (congrArg Db.runs h)
      | ok answer =>
          rw [hanswer] at h
          refine claim_moved (fun r hr => ?_) hanswer h
          rw [claimInput_newRunId hinput]
          exact hfresh r hr

theorem write_moved {p : Pending} {drawn : Drawn} (hact : act = .den (.write p drawn))
    (hfresh : ∀ r ∈ w.den.db.runs, r.id ≠ drawn.newRunId)
    (h : w'.den.db = w.den.db.write zones drawn p) : Nonempty (RunsMoved w act w') := by
  cases p with
  | due item now => exact claimWrite_moved hfresh h
  | manual item => exact claimWrite_moved hfresh h
  | settingState item state now =>
      refine runsMoved_same ?_
      rw [h]
      unfold Db.write Db.setState
      dsimp only
      split <;> rfl
  | cancelling run now =>
      refine runsMoved_update (congrArg Db.runs h)
        (fun r => ⟨⟨rfl, rfl, rfl, rfl, rfl⟩, rfl⟩) fun r _ hselected => ?_
      exact .cancelled run now drawn hact (of_decide_eq_true hselected) (by simp) rfl rfl rfl
  | retrying run leaseOwner now =>
      refine runsMoved_update (congrArg Db.runs h)
        (fun r => ⟨⟨rfl, rfl, rfl, rfl, rfl⟩, rfl⟩) fun r _ hselected => ?_
      exact .retried run leaseOwner now drawn hact (of_decide_eq_true hselected) rfl rfl rfl rfl
  | recovering run now => exact recoverLease_moved run now drawn hact h
  | expiring run now =>
      refine runsMoved_update (congrArg Db.runs h)
        (fun r => ⟨⟨rfl, rfl, rfl, rfl, rfl⟩, rfl⟩) fun r _ hselected => ?_
      simp only [Bool.and_eq_true, decide_eq_true_eq] at hselected
      exact .ended (by rw [hselected.2]; rfl) rfl (.inl rfl) rfl rfl

theorem renew_moved {selects : RunRow → Bool} {leaseMs now : Int}
    (h : w'.den.db = w.den.db.updateRuns selects fun r => r.renew leaseMs now) :
    Nonempty (RunsMoved w act w') :=
  runsMoved_update (congrArg Db.runs h) (fun _ => ⟨⟨rfl, rfl, rfl, rfl, rfl⟩, rfl⟩)
    fun _ _ _ => .kept rfl rfl rfl rfl

theorem den_moved {a : Action} (hone : w.den.db.OneRun) (hact : act = .den a)
    (h : w.den.step zones a = some w'.den) : Nonempty (RunsMoved w act w') := by
  cases a with
  | create input =>
      simp only [Den.step] at h
      split at h
      · injection h with h
        exact runsMoved_same (by rw [← h]; rfl)
      · cases h
  | update input =>
      simp only [Den.step] at h
      split at h
      · injection h with h
        refine runsMoved_same ?_
        rw [← h]
        cases hanswer : w.den.db.update zones input with
        | error e => rfl
        | ok db' =>
            unfold Db.update at hanswer
            repeat' split at hanswer
            all_goals cases hanswer
            all_goals rfl
      · cases h
  | markNeedsAttention automationId expectedRevisionId now =>
      injection h with h
      exact runsMoved_same (by rw [← h]; rfl)
  | read p =>
      simp only [Den.step] at h
      split at h
      · injection h with h
        exact runsMoved_same (by rw [← h])
      · cases h
  | write p drawn =>
      simp only [Den.step] at h
      split at h
      · next hguard =>
          injection h with h
          refine write_moved hact (fun r hr => ?_) (congrArg Den.db h).symm
          simpa using List.all_eq_true.mp hguard.2 r hr
      · cases h
  | claimCloud runId leaseOwner leaseMs maxConcurrency now =>
      injection h with h
      exact claimCloud_moved _ _ _ _ _ hact (congrArg Den.db h).symm
  | claimDesktop organizationId ownerMemberId leaseOwner leaseMs runId now =>
      injection h with h
      exact claimDesktop_moved hone _ _ _ _ _ _ (congrArg Den.db h).symm
  | heartbeat runId leaseOwner leaseMs now =>
      injection h with h
      exact renew_moved (congrArg Den.db h).symm
  | heartbeatCloud runId leaseOwner leaseMs now =>
      injection h with h
      exact renew_moved (congrArg Den.db h).symm
  | heartbeatDesktop runId leaseOwner attempt leaseMs now =>
      injection h with h
      exact renew_moved (congrArg Den.db h).symm
  | complete runId leaseOwner attempt status resultSummary error now =>
      injection h with h
      cases hanswer : w.den.db.complete runId leaseOwner attempt status resultSummary error now with
      | error e =>
          rw [hanswer] at h
          exact runsMoved_same (by rw [← h]; rfl)
      | ok db' =>
          rw [hanswer] at h
          exact complete_moved hanswer (congrArg Den.db h).symm
  | skipRun runId code message now =>
      injection h with h
      refine runsMoved_update (congrArg (fun den => Db.runs (Den.db den)) h).symm
        (fun r => ⟨⟨rfl, rfl, rfl, rfl, rfl⟩, rfl⟩) fun r _ hselected => ?_
      simp only [Bool.and_eq_true, Bool.or_eq_true, decide_eq_true_eq] at hselected
      refine .ended ?_ rfl (.inr rfl) rfl rfl
      rcases hselected.2 with hstatus | hstatus <;> (rw [hstatus]; rfl)

theorem step_moved (hone : w.den.db.OneRun) (h : w.step zones act = some w') :
    Nonempty (RunsMoved w act w') := by
  cases act with
  | den a =>
      simp only [Service.step, Option.map_eq_some_iff] at h
      obtain ⟨den, hstep, rfl⟩ := h
      exact den_moved hone rfl hstep
  | append input source =>
      simp only [Service.step] at h
      split at h
      · injection h with h
        exact runsMoved_same (by rw [h])
      · next hanswer =>
          injection h with h
          exact append_moved rfl hone hanswer (by rw [← h])
  | recordSkippedManual input =>
      simp only [Service.step] at h
      split at h
      · next hfresh =>
          injection h with h
          cases hanswer : w.den.db.recordSkippedManual input with
          | error e =>
              rw [hanswer] at h
              exact runsMoved_same (by rw [← h]; rfl)
          | ok db' =>
              rw [hanswer] at h
              refine recordSkippedManual_moved (fun r hr => ?_) hanswer (by rw [← h]; rfl)
              simpa using List.all_eq_true.mp hfresh r hr
      · cases h
  | completeCloud input =>
      simp only [Service.step] at h
      split at h
      · injection h with h
        exact runsMoved_same (by rw [h])
      · next hanswer =>
          injection h with h
          exact complete_moved hanswer (by rw [← h])
  | writeArtifactState index =>
      simp only [Service.step, Option.map_eq_some_iff] at h
      obtain ⟨input, -, rfl⟩ := h
      exact runsMoved_same rfl

end

end OmniRush.Automations
