import OmniRush.Lib.Machine
import OmniRush.Automations.Server

/-!
# What becomes of a run

A taken run has an owner and an expiry, and a run that ended keeps its status. Every
writer but two compares what it needs in the statement that updates. `recoverLease`
compares no status, and needs none: a run that waits or has ended has no expiry
(`RunRow.LeaseSound`), so the lease it read is gone.

`cancelRun` and `queueRetry` select by id what an earlier statement read. A run that
ended in between is written over. The condition that excludes it is on the two updates:
the run a cancellation read still has the status it read, and the run a retry read has
not ended (`Fresh`). In every run of such steps both properties hold
(`ended_runs_stay`).
-/

namespace OmniRush.Automations

open OmniRush

/-! ## Rows -/

/-- What identifies a run and its occurrence. -/
structure SameRun (r r' : RunRow) : Prop where
  id : r'.id = r.id
  automationId : r'.automationId = r.automationId
  trigger : r'.trigger = r.trigger
  scheduledFor : r'.scheduledFor = r.scheduledFor
  idempotencyKey : r'.idempotencyKey = r.idempotencyKey

theorem SameRun.refl (r : RunRow) : SameRun r r := ⟨rfl, rfl, rfl, rfl, rfl⟩

/-- A taken run has a lease, every other one has no expiry. -/
structure RunRow.LeaseSound (r : RunRow) : Prop where
  leased : r.status.isLeased = true → r.leaseOwner.isSome = true ∧ r.leaseExpiresAt.isSome = true
  free : r.status.isLeased = false → r.leaseExpiresAt = none

/-- A run with a sound lease keeps one, and keeps the status it ended with. -/
structure LeaseStep (r r' : RunRow) : Prop where
  sound : r.LeaseSound → r'.LeaseSound
  final : r.LeaseSound → r.status.isTerminal = true → r'.status = r.status

theorem LeaseStep.refl (r : RunRow) : LeaseStep r r := ⟨id, fun _ _ => rfl⟩

theorem LeaseStep.of_live {r r' : RunRow} (hlive : r.status.isTerminal = false)
    (hsound : r'.LeaseSound) : LeaseStep r r' := by
  refine ⟨fun _ => hsound, fun _ hterminal => ?_⟩
  rw [hlive] at hterminal
  cases hterminal

theorem leaseSound_free {r : RunRow} (hfree : r.status.isLeased = false)
    (hexpires : r.leaseExpiresAt = none) : r.LeaseSound := by
  refine ⟨fun h => ?_, fun _ => hexpires⟩
  rw [hfree] at h
  cases h

theorem leaseSound_leased {r : RunRow} {leaseOwner : String} {expires : Int}
    (hleased : r.status.isLeased = true) (howner : r.leaseOwner = some leaseOwner)
    (hexpires : r.leaseExpiresAt = some expires) : r.LeaseSound := by
  refine ⟨fun _ => ?_, fun h => ?_⟩
  · rw [howner, hexpires]
    exact ⟨rfl, rfl⟩
  · rw [hleased] at h
    cases h

theorem isLeased_of_terminal {status : RunStatus} (h : status.isTerminal = true) :
    status.isLeased = false := by
  cases status <;> first | rfl | cases h

/-! ## Updates of runs -/

/-- A database whose runs were rewritten one by one, each as `P` allows. -/
def Db.RunsRewritten (P : RunRow → RunRow → Prop) (db db' : Db) : Prop :=
  ∃ f : RunRow → RunRow, db' = { db with runs := db.runs.map f } ∧ ∀ r ∈ db.runs, P r (f r)

/-- A rewritten run is the same run, and its lease moved as it should if `good` holds of
what the update found. -/
def RunMove (good : RunRow → Prop) (r r' : RunRow) : Prop :=
  SameRun r r' ∧ (good r → LeaseStep r r')

theorem runsRewritten_refl {good : RunRow → Prop} (db : Db) :
    db.RunsRewritten (RunMove good) db :=
  ⟨id, by rw [List.map_id], fun r _ => ⟨.refl r, fun _ => .refl r⟩⟩

theorem updateRuns_rewritten {good : RunRow → Prop} {db : Db} {selects : RunRow → Bool}
    {set : RunRow → RunRow} (hsame : ∀ r, SameRun r (set r))
    (hmove : ∀ r ∈ db.runs, selects r = true → good r → LeaseStep r (set r)) :
    db.RunsRewritten (RunMove good) (db.updateRuns selects set) := by
  refine ⟨_, rfl, fun r hr => ?_⟩
  split
  · next hselected => exact ⟨hsame r, hmove r hr hselected⟩
  · exact ⟨.refl r, fun _ => .refl r⟩

section

variable {db : Db} {good : RunRow → Prop}

theorem RunRow.take_queued {r : RunRow} {leaseOwner : String} {leaseMs now : Int}
    (hqueued : r.status = .queued) : LeaseStep r (r.take leaseOwner leaseMs now) :=
  .of_live (by rw [hqueued]; rfl) (leaseSound_leased rfl rfl rfl)

theorem RunRow.renew_leased {r : RunRow} {leaseMs now : Int} (hleased : r.status.isLeased = true) :
    LeaseStep r (r.renew leaseMs now) := by
  refine ⟨fun hsound => ⟨fun h => ⟨(hsound.leased h).1, rfl⟩, fun h => ?_⟩, fun _ _ => rfl⟩
  have h : r.status.isLeased = false := h
  rw [hleased] at h
  cases h

theorem claimCloud_rewritten (runId leaseOwner : String) (leaseMs : Int) (maxConcurrency : Nat)
    (now : Int) :
    db.RunsRewritten (RunMove good) (db.claimCloud runId leaseOwner leaseMs maxConcurrency now) := by
  unfold Db.claimCloud
  dsimp only
  split
  · exact runsRewritten_refl db
  · split
    · exact runsRewritten_refl db
    · split
      · exact runsRewritten_refl db
      · refine updateRuns_rewritten (fun r => ⟨rfl, rfl, rfl, rfl, rfl⟩) fun r _ hselected _ => ?_
        exact RunRow.take_queued (of_decide_eq_true (Bool.and_eq_true_iff.mp hselected).2)

theorem claimDesktop_rewritten (organizationId ownerMemberId leaseOwner : String) (leaseMs : Int)
    (runId : String) (now : Int) :
    db.RunsRewritten (RunMove good)
      (db.claimDesktop organizationId ownerMemberId leaseOwner leaseMs runId now) := by
  unfold Db.claimDesktop
  dsimp only
  split
  · exact runsRewritten_refl db
  · split
    · exact runsRewritten_refl db
    · refine updateRuns_rewritten (fun r => ⟨rfl, rfl, rfl, rfl, rfl⟩) fun r _ hselected _ => ?_
      exact RunRow.take_queued (of_decide_eq_true (Bool.and_eq_true_iff.mp hselected).2)

theorem heartbeat_rewritten (runId leaseOwner : String) (leaseMs now : Int) :
    db.RunsRewritten (RunMove good) (db.heartbeat runId leaseOwner leaseMs now) := by
  refine updateRuns_rewritten (fun r => ⟨rfl, rfl, rfl, rfl, rfl⟩) fun r _ hselected _ => ?_
  exact RunRow.renew_leased (Bool.and_eq_true_iff.mp hselected).2

theorem heartbeatCloud_rewritten (runId leaseOwner : String) (leaseMs now : Int) :
    db.RunsRewritten (RunMove good) (db.heartbeatCloud runId leaseOwner leaseMs now) := by
  refine updateRuns_rewritten (fun r => ⟨rfl, rfl, rfl, rfl, rfl⟩) fun r _ hselected _ => ?_
  refine RunRow.renew_leased ?_
  rw [of_decide_eq_true (Bool.and_eq_true_iff.mp (Bool.and_eq_true_iff.mp hselected).1).2]
  rfl

theorem heartbeatDesktop_rewritten (runId leaseOwner : String) (attempt : Nat)
    (leaseMs now : Int) :
    db.RunsRewritten (RunMove good)
      (db.heartbeatDesktop runId leaseOwner attempt leaseMs now) := by
  refine updateRuns_rewritten (fun r => ⟨rfl, rfl, rfl, rfl, rfl⟩) fun r _ hselected _ => ?_
  refine RunRow.renew_leased ?_
  rw [of_decide_eq_true (Bool.and_eq_true_iff.mp (Bool.and_eq_true_iff.mp hselected).1).2]
  rfl

theorem complete_rewritten (runId leaseOwner : String) (attempt : Option Nat)
    (status : FinalStatus) (resultSummary : Option String) (error : Option AutomationError)
    (now : Int) :
    db.RunsRewritten (RunMove good)
      ((db.complete runId leaseOwner attempt status resultSummary error now).toOption.getD db) := by
  unfold Db.complete
  dsimp only
  split
  · exact runsRewritten_refl db
  · split
    · split <;> exact runsRewritten_refl db
    · split
      · exact runsRewritten_refl db
      · refine updateRuns_rewritten (fun r => ⟨rfl, rfl, rfl, rfl, rfl⟩) fun r _ hselected _ => ?_
        have hrunning := of_decide_eq_true
          (Bool.and_eq_true_iff.mp (Bool.and_eq_true_iff.mp hselected).1).2
        exact .of_live (by rw [hrunning]; rfl) (leaseSound_free (isLeased_of_terminal status.2) rfl)

theorem skipRun_rewritten (runId code message : String) (now : Int) :
    db.RunsRewritten (RunMove good) (db.skipRun runId code message now) := by
  refine updateRuns_rewritten (fun r => ⟨rfl, rfl, rfl, rfl, rfl⟩) fun r _ hselected _ => ?_
  refine .of_live ?_ (leaseSound_free rfl rfl)
  rcases Bool.or_eq_true_iff.mp (Bool.and_eq_true_iff.mp hselected).2 with h | h
  all_goals
    rw [of_decide_eq_true h]
    rfl

theorem expireDesktop_rewritten (runId message : String) (now : Int) :
    db.RunsRewritten (RunMove good) (db.expireDesktop runId message now) := by
  refine updateRuns_rewritten (fun r => ⟨rfl, rfl, rfl, rfl, rfl⟩) fun r _ hselected _ => ?_
  have hqueued := of_decide_eq_true (Bool.and_eq_true_iff.mp hselected).2
  have hlive : r.status.isLeased = false ∧ r.status.isTerminal = false := by
    rw [hqueued]
    exact ⟨rfl, rfl⟩
  refine ⟨fun hsound => leaseSound_free rfl (hsound.free hlive.1), fun _ hterminal => ?_⟩
  rw [hlive.2] at hterminal
  cases hterminal

/-- A recovery compares no status: a run that is not taken has no expiry to find. -/
theorem recoverLease_rewritten (run : RunRow) (now : Int) :
    db.RunsRewritten (RunMove good) (db.recoverLease run now) := by
  unfold Db.recoverLease
  split
  · exact runsRewritten_refl db
  · refine updateRuns_rewritten (fun r => ⟨rfl, rfl, rfl, rfl, rfl⟩) fun r _ hselected _ => ?_
    have hexpires := (Bool.and_eq_true_iff.mp hselected).2
    refine ⟨fun _ => leaseSound_free ?_ rfl, fun hsound hterminal => ?_⟩
    · dsimp only
      split <;> rfl
    · rw [hsound.free (isLeased_of_terminal hterminal)] at hexpires
      cases hexpires

theorem cancelRun_rewritten (run : RunRow) (now : Int)
    (hgood : ∀ r ∈ db.runs, good r → r.id = run.id → r.status = run.status) :
    db.RunsRewritten (RunMove good) (db.cancelRun run now) := by
  refine updateRuns_rewritten (fun r => ⟨rfl, rfl, rfl, rfl, rfl⟩) fun r hr hselected hgoodr => ?_
  have hsame := hgood r hr hgoodr (of_decide_eq_true hselected)
  by_cases himmediate : run.status = .queued
  · simp only [himmediate, if_true]
    rw [himmediate] at hsame
    refine ⟨fun hsound => leaseSound_free rfl (hsound.free (by rw [hsame]; rfl)),
      fun _ hterminal => ?_⟩
    rw [hsame] at hterminal
    cases hterminal
  · simp only [himmediate, if_false]
    rw [← hsame]
    exact ⟨fun hsound => ⟨hsound.leased, hsound.free⟩, fun _ _ => rfl⟩

theorem queueRetry_rewritten (runId : String) (now : Int)
    (hgood : ∀ r ∈ db.runs, good r → r.id = runId → r.status.isTerminal = false) :
    db.RunsRewritten (RunMove good) (db.queueRetry runId now) := by
  refine updateRuns_rewritten (fun r => ⟨rfl, rfl, rfl, rfl, rfl⟩) fun r hr hselected hgoodr => ?_
  exact .of_live (hgood r hr hgoodr (of_decide_eq_true hselected)) (leaseSound_free rfl rfl)

end

/-! ## Steps -/

/-- The run an update found is the one its method read: a cancellation finds the status
it read, a retry finds a run that has not ended. -/
def Fresh (w : Den) : Action → Prop
  | .write (.cancelling run _) _ => ∀ r ∈ w.db.runs, r.id = run.id → r.status = run.status
  | .write (.retrying run _ _) _ =>
      ∀ r ∈ w.db.runs, r.id = run.id → r.status.isTerminal = false
  | _ => True

section

variable (zones : TimeZones)

/-- What a step did. -/
inductive Den.Moves (w : Den) (a : Action) : Den → Prop
  | runs {db' : Db} {pending' : List Pending} (hpending : ∀ p ∈ pending', p ∈ w.pending)
      (h : w.db.RunsRewritten (RunMove fun _ => Fresh w a) db') : Moves w a ⟨db', pending'⟩
  | read {p : Pending} (h : w.db.reads p = true) : Moves w a ⟨w.db, w.pending ++ [p]⟩
  | create {input : NewAutomation} (ha : a = .create input)
      (hfresh : w.db.fresh input.automationId input.revisionId = true) :
      Moves w a ⟨w.db.create zones input, w.pending⟩
  | update {input : Changes} {db' : Db} (ha : a = .update input)
      (hfresh : ∀ r ∈ w.db.revisions, r.id ≠ input.newRevisionId)
      (h : w.db.update zones input = .ok db') : Moves w a ⟨db', w.pending⟩
  | attention (automationId expectedRevisionId : String) (now : Int) :
      Moves w a ⟨w.db.markNeedsAttention automationId expectedRevisionId now, w.pending⟩
  | setState {item : Item} {state : AutomationState} {now : Int} {drawn : Drawn}
      (ha : a = .write (.settingState item state now) drawn)
      (hp : .settingState item state now ∈ w.pending) :
      Moves w a ⟨w.db.setState zones item state now,
        w.pending.erase (.settingState item state now)⟩
  | claim {p : Pending} {drawn : Drawn} {input : ClaimInput} {answer : ClaimAnswer} {db' : Db}
      (ha : a = .write p drawn) (hp : p ∈ w.pending) (hinput : p.claimInput drawn = some input)
      (h : w.db.claim zones input = .ok (answer, db')) : Moves w a ⟨db', w.pending.erase p⟩

variable {zones}

theorem Den.Moves.same {w : Den} {a : Action} {pending' : List Pending}
    (hpending : ∀ p ∈ pending', p ∈ w.pending) : Den.Moves zones w a ⟨w.db, pending'⟩ :=
  .runs hpending (runsRewritten_refl w.db)

/-- What a claim leaves behind, which may have been refused. -/
def Db.afterClaim (db : Db) (claimed : Option (Except String (ClaimAnswer × Db))) : Db :=
  match claimed with
  | some (.ok (_, db')) => db'
  | _ => db

theorem write_moves {w : Den} {p : Pending} {drawn : Drawn} (hp : p ∈ w.pending) :
    Den.Moves zones w (.write p drawn) ⟨w.db.write zones drawn p, w.pending.erase p⟩ := by
  have herase : ∀ q ∈ w.pending.erase p, q ∈ w.pending := fun _ => List.mem_of_mem_erase
  have hclaim : ∀ input, p.claimInput drawn = some input →
      Den.Moves zones w (.write p drawn)
        ⟨w.db.afterClaim ((some input).map (w.db.claim zones)), w.pending.erase p⟩ := by
    intro input hinput
    cases hanswer : w.db.claim zones input with
    | error e =>
        simp only [Option.map_some, hanswer]
        exact .same herase
    | ok answer =>
        simp only [Option.map_some, hanswer]
        exact .claim rfl hp hinput hanswer
  cases p with
  | due item now =>
      simp only [Db.write]
      cases hinput : Pending.claimInput drawn (.due item now) with
      | none => exact .same herase
      | some input => exact hclaim input hinput
  | manual item => exact hclaim _ rfl
  | settingState item state now => exact .setState rfl hp
  | cancelling run now =>
      exact .runs herase (cancelRun_rewritten run now fun r hr hgood => hgood r hr)
  | retrying run leaseOwner now =>
      exact .runs herase (queueRetry_rewritten run.id now fun r hr hgood => hgood r hr)
  | recovering run now => exact .runs herase (recoverLease_rewritten run now)
  | expiring run now => exact .runs herase (expireDesktop_rewritten run.id drawn.message now)

theorem step_moves {w w' : Den} {a : Action} (h : w.step zones a = some w') :
    Den.Moves zones w a w' := by
  cases a with
  | create input =>
      simp only [Den.step] at h
      split at h
      · next hfresh =>
          cases h
          exact .create rfl hfresh
      · cases h
  | update input =>
      simp only [Den.step] at h
      split at h
      · next hfresh =>
          cases h
          cases hanswer : w.db.update zones input with
          | error e => exact .same fun _ hp => hp
          | ok db' =>
              refine .update rfl (fun r hr => ?_) hanswer
              simpa using List.all_eq_true.mp hfresh r hr
      · cases h
  | markNeedsAttention automationId expectedRevisionId now =>
      cases h
      exact .attention automationId expectedRevisionId now
  | read p =>
      simp only [Den.step] at h
      split at h
      · next hreads =>
          cases h
          exact .read hreads
      · cases h
  | write p drawn =>
      simp only [Den.step] at h
      split at h
      · next hguard =>
          cases h
          exact write_moves hguard.1
      · cases h
  | claimCloud runId leaseOwner leaseMs maxConcurrency now =>
      cases h
      exact .runs (fun _ hp => hp) (claimCloud_rewritten ..)
  | claimDesktop organizationId ownerMemberId leaseOwner leaseMs runId now =>
      cases h
      exact .runs (fun _ hp => hp) (claimDesktop_rewritten ..)
  | heartbeat runId leaseOwner leaseMs now =>
      cases h
      exact .runs (fun _ hp => hp) (heartbeat_rewritten ..)
  | heartbeatCloud runId leaseOwner leaseMs now =>
      cases h
      exact .runs (fun _ hp => hp) (heartbeatCloud_rewritten ..)
  | heartbeatDesktop runId leaseOwner attempt leaseMs now =>
      cases h
      exact .runs (fun _ hp => hp) (heartbeatDesktop_rewritten ..)
  | complete runId leaseOwner attempt status resultSummary error now =>
      cases h
      exact .runs (fun _ hp => hp) (complete_rewritten ..)
  | skipRun runId code message now =>
      cases h
      exact .runs (fun _ hp => hp) (skipRun_rewritten ..)

/-- A claim that is answered inserts a run that waits or was skipped, or nothing. -/
theorem claim_cases {db db' : Db} {input : ClaimInput} {answer : ClaimAnswer}
    (h : db.claim zones input = .ok (answer, db')) :
    (∃ run, answer = .duplicate run ∧ db' = db) ∨
      ∃ key overlap, db.runs.find? (fun r => r.idempotencyKey = key) = none ∧
        automationOccurrenceIdentity input.item.automation.id input.scheduledFor input.nonce
          = some key ∧
        db' = ({ db with runs := db.runs ++ [input.run zones key overlap] } : Db).updateAutomations
          (fun a => a.id = input.item.automation.id) fun a =>
            { a with
              nextDueAt := input.nextDueAt zones
              latestRunAt := some input.now
              updatedAt := input.now } := by
  unfold Db.claim at h
  dsimp only at h
  split at h
  · split at h
    · cases h
    · next key hkey =>
        split at h
        · next run _ =>
            cases h
            exact .inl ⟨run, rfl, rfl⟩
        · next hnone =>
            cases h
            exact .inr ⟨key, _, hnone, hkey, rfl⟩
  · cases h

theorem claimRun_sound (input : ClaimInput) (key : String) (overlap : Bool) :
    (input.run zones key overlap).LeaseSound := by
  refine leaseSound_free ?_ rfl
  unfold ClaimInput.run
  cases overlap <;> rfl

/-! ## Runs -/

theorem step_runs {w w' : Den} {a : Action} (h : w.step zones a = some w') (hfresh : Fresh w a) :
    ∃ f inserted, w'.db.runs = w.db.runs.map f ++ inserted ∧
      (∀ r ∈ w.db.runs, (f r).id = r.id ∧ LeaseStep r (f r)) ∧
      ∀ r ∈ inserted, r.LeaseSound := by
  have hsame : ∀ db' : Db, db'.runs = w.db.runs → ∃ f inserted,
      db'.runs = w.db.runs.map f ++ inserted ∧
        (∀ r ∈ w.db.runs, (f r).id = r.id ∧ LeaseStep r (f r)) ∧
        ∀ r ∈ inserted, r.LeaseSound := by
    intro db' hruns
    refine ⟨id, [], ?_, fun r _ => ⟨rfl, .refl r⟩, fun _ hr => ?_⟩
    · rw [hruns, List.map_id, List.append_nil]
    · cases hr
  cases step_moves h with
  | @runs db' pending' _ hrewritten =>
      obtain ⟨f, rfl, hf⟩ := hrewritten
      refine ⟨f, [], (List.append_nil _).symm, fun r hr => ?_, fun _ hr => ?_⟩
      · exact ⟨(hf r hr).1.id, (hf r hr).2 hfresh⟩
      · cases hr
  | read _ => exact hsame _ rfl
  | create _ _ => exact hsame _ rfl
  | @update input db' _ _ hupdate =>
      refine hsame _ ?_
      unfold Db.update at hupdate
      split at hupdate
      · cases hupdate
      · split at hupdate
        · cases hupdate
        · split at hupdate
          · cases hupdate
          · dsimp only at hupdate
            split at hupdate <;> (cases hupdate; rfl)
  | attention _ _ _ => exact hsame _ rfl
  | @setState item state now drawn _ _ =>
      refine hsame _ ?_
      dsimp only
      unfold Db.setState
      split <;> rfl
  | @claim p drawn input answer db' _ _ _ hclaim =>
      rcases claim_cases hclaim with ⟨_, -, rfl⟩ | ⟨key, overlap, -, -, rfl⟩
      · exact hsame _ rfl
      · refine ⟨id, [input.run zones key overlap], ?_, fun r _ => ⟨rfl, .refl r⟩, fun r hr => ?_⟩
        · rw [List.map_id]
          rfl
        · rw [List.mem_singleton.mp hr]
          exact claimRun_sound input key overlap

def Sound (w : Den) : Prop := ∀ r ∈ w.db.runs, r.LeaseSound

theorem Sound.step {w w' : Den} {a : Action} (hsound : Sound w) (hfresh : Fresh w a)
    (h : w.step zones a = some w') : Sound w' := by
  obtain ⟨f, inserted, hruns, hf, hinserted⟩ := step_runs h hfresh
  intro r hr
  rw [hruns] at hr
  rcases List.mem_append.mp hr with hr | hr
  · obtain ⟨r₀, hr₀, rfl⟩ := List.mem_map.mp hr
    exact (hf r₀ hr₀).2.sound (hsound r₀ hr₀)
  · exact hinserted r hr

theorem find_map_id {f : RunRow → RunRow} {runs : List RunRow} {id : String}
    (hf : ∀ r ∈ runs, (f r).id = r.id) :
    (runs.map f).find? (fun r => r.id = id) = (runs.find? fun r => r.id = id).map f := by
  induction runs with
  | nil => rfl
  | cons r runs ih =>
      have hid := hf r (List.mem_cons_self ..)
      have hrest := ih fun r' hr' => hf r' (List.mem_cons_of_mem _ hr')
      rw [List.map_cons, List.find?_cons, List.find?_cons, hid, hrest]
      split <;> rfl

theorem run_final {w w' : Den} {a : Action} (hsound : Sound w) (hfresh : Fresh w a)
    (h : w.step zones a = some w') {id : String} {r : RunRow} (hr : w.db.run id = some r)
    (hterminal : r.status.isTerminal = true) :
    ∃ r', w'.db.run id = some r' ∧ r'.status = r.status := by
  obtain ⟨f, inserted, hruns, hf, -⟩ := step_runs h hfresh
  have hmem := List.mem_of_find?_eq_some hr
  refine ⟨f r, ?_, (hf r hmem).2.final (hsound r hmem) hterminal⟩
  have hfind : (w.db.runs.map f).find? (fun r => r.id = id) = some (f r) := by
    rw [find_map_id fun r hr => (hf r hr).1]
    exact congrArg (Option.map f) hr
  show w'.db.runs.find? _ = _
  rw [hruns, List.find?_append, hfind]
  rfl

/-- In every run of fresh updates, a taken run has an owner and an expiry, and a run
that ended keeps its status for good. -/
theorem ended_runs_stay {w : Den} (hrun : Reach (Den.step zones) Fresh {} w) :
    (∀ r ∈ w.db.runs, r.status.isLeased = true →
      r.leaseOwner.isSome = true ∧ r.leaseExpiresAt.isSome = true) ∧
    ∀ w', Reach (Den.step zones) Fresh w w' → ∀ id r, w.db.run id = some r →
      r.status.isTerminal = true → ∃ r', w'.db.run id = some r' ∧ r'.status = r.status := by
  have hkeep : ∀ s a t, Sound s → Fresh s a → Den.step zones s a = some t → Sound t :=
    fun s a t hs hfresh hstep => hs.step hfresh hstep
  have hsound : Sound w := hrun.invariant hkeep (fun _ hr => nomatch hr)
  refine ⟨fun r hr => (hsound r hr).leased, fun w' hrun' id r hr hterminal => ?_⟩
  have hinv := hrun'.invariant (I := fun v => Sound v ∧ ∃ r', v.db.run id = some r' ∧
      r'.status = r.status)
    (fun s a t hs hfresh hstep => ⟨hs.1.step hfresh hstep, by
      obtain ⟨r', hr', hstatus⟩ := hs.2
      obtain ⟨r'', hr'', hstatus'⟩ := run_final hs.1 hfresh hstep hr' (by rw [hstatus, hterminal])
      exact ⟨r'', hr'', hstatus'.trans hstatus⟩⟩)
    ⟨hsound, r, hr, rfl⟩
  exact hinv.2

end

/-! ## A run on one automation -/

instance (w : Den) (a : Action) : Decidable (Fresh w a) := by
  unfold Fresh
  split <;> infer_instance

def exampleZones : TimeZones := fun _ _ => ⟨⟨1970, 1, 1⟩, 0, 0⟩

def exampleRevision : RevisionRow :=
  ⟨"v", "a", 1, .once "UTC" 10, .desktop, "d", 0⟩

def exampleAutomation : AutomationRow where
  id := "a"
  organizationId := "o"
  ownerMemberId := "m"
  name := "n"
  state := .active
  currentRevisionId := "v"
  nextDueAt := some 10
  updatedAt := 0

def exampleItem : Item := ⟨exampleAutomation, exampleRevision⟩

def exampleDrawn : Drawn := { newRunId := "r", leaseMs := 100 }

def exampleClaim : ClaimInput :=
  ⟨exampleItem, .scheduled, some 10, none, "r", 100, none, 10⟩

/-- The run of the example as its runner took it. -/
def exampleRun : RunRow :=
  (exampleClaim.run exampleZones "automation:a:10" false).take "runner" 100 20

/-- One occurrence, claimed by a tick and taken by a runner. -/
def takenActions : List Action :=
  [.create ⟨"a", "v", "o", "m", "n", .once "UTC" 10, .desktop, "d", 0⟩,
    .read (.due exampleItem 10), .write (.due exampleItem 10) exampleDrawn,
    .claimDesktop "o" "m" "runner" 100 "r" 20]

def completeAction : Action := .complete "r" "runner" (some 1) ⟨.succeeded, rfl⟩ (some "ok") none 40

/-- A cancellation of a running run, then its completion. -/
theorem ended_runs_stay_cancelled :
    ∃ w, runActions (Den.step exampleZones) (takenActions ++
        [.read (.cancelling exampleRun 30), .write (.cancelling exampleRun 30) {}]) {} = some w ∧
      (∃ r, w.db.run "r" = some r ∧ r.status = .running ∧ r.cancelRequestedAt = some 30) ∧
      (∀ r ∈ w.db.runs, r.status.isLeased = true →
        r.leaseOwner.isSome = true ∧ r.leaseExpiresAt.isSome = true) ∧
      ∀ w', Reach (Den.step exampleZones) Fresh w w' → ∀ id r, w.db.run id = some r →
        r.status.isTerminal = true → ∃ r', w'.db.run id = some r' ∧ r'.status = r.status := by
  have hrun : (runActions (fun w a => if Fresh w a then w.step exampleZones a else none)
      (takenActions ++ [.read (.cancelling exampleRun 30), .write (.cancelling exampleRun 30) {}])
      {}).any (fun w => (w.db.run "r").any fun r =>
        r.status = .running && r.cancelRequestedAt = some 30) = true := by decide +kernel
  obtain ⟨w, hw, hcheck⟩ := exists_of_any hrun
  obtain ⟨r, hr, hcheck⟩ := exists_of_any hcheck
  obtain ⟨hstatus, hcancel⟩ := Bool.and_eq_true_iff.mp hcheck
  obtain ⟨hreach, hplain⟩ := reach_of_checked hw
  exact ⟨w, hplain, ⟨r, hr, of_decide_eq_true hstatus, of_decide_eq_true hcancel⟩,
    ended_runs_stay hreach⟩

/-- The run completes between the read of a cancellation and its update: it runs again,
without an expiry. -/
theorem ended_run_revived :
    ∃ w w', runActions (Den.step exampleZones) (takenActions ++
        [.read (.cancelling exampleRun 30), completeAction]) {} = some w ∧
      w.step exampleZones (.write (.cancelling exampleRun 30) {}) = some w' ∧
      (∃ r, w.db.run "r" = some r ∧ r.status = .succeeded) ∧
      ∃ r', w'.db.run "r" = some r' ∧ r'.status = .running ∧ r'.leaseExpiresAt = none := by
  have hrun : (runActions (Den.step exampleZones) (takenActions ++
      [.read (.cancelling exampleRun 30), completeAction]) {}).any (fun w =>
        (w.db.run "r").any (fun r => r.status = .succeeded) &&
        (w.step exampleZones (.write (.cancelling exampleRun 30) {})).any fun w' =>
          (w'.db.run "r").any fun r => r.status = .running && r.leaseExpiresAt = none) = true := by
    decide +kernel
  obtain ⟨w, hw, hcheck⟩ := exists_of_any hrun
  obtain ⟨hbefore, hafter⟩ := Bool.and_eq_true_iff.mp hcheck
  obtain ⟨r, hr, hsucceeded⟩ := exists_of_any hbefore
  obtain ⟨w', hw', hafter⟩ := exists_of_any hafter
  obtain ⟨r', hr', hafter⟩ := exists_of_any hafter
  obtain ⟨hstatus, hexpires⟩ := Bool.and_eq_true_iff.mp hafter
  exact ⟨w, w', hw, hw', ⟨r, hr, of_decide_eq_true hsucceeded⟩, r', hr',
    of_decide_eq_true hstatus, of_decide_eq_true hexpires⟩

end OmniRush.Automations
