import OmniRush.Proofs.EventLog

/-!
# One unfinished run, one run an occurrence, and the cloud's room

An insert looks for another unfinished run of its automation under the automation's lock,
and a claim of a cloud run counts the cloud runs that are taken. Neither is looked at by
the writers that put a status back: a cancellation writes the status it read, `queueRetry`
and the recovery write `queued`, and none of them compares the status of the row it
selects. A run that finished in between is unfinished again beside a later one.

The condition on the three updates is that the run they put back has not finished, and
for a cloud run that a cancellation writes as taken, that it is still taken
(`FindsUnfinished`). Over a run of such steps no automation has two unfinished runs, no
occurrence two runs, and no more cloud runs are taken than the servers allow
(`runs_exclusive`).
-/

namespace OmniRush.Automations

open OmniRush

/-! ## Counting -/

theorem countP_le_one {α β : Type} [DecidableEq β] {f : α → β} {p : α → Bool} {l : List α}
    (hnodup : (l.map f).Nodup)
    (hsame : ∀ a ∈ l, ∀ b ∈ l, p a = true → p b = true → f a = f b) : l.countP p ≤ 1 := by
  induction l with
  | nil => simp
  | cons a l ih =>
      rw [List.map_cons, List.nodup_cons] at hnodup
      have htail := ih hnodup.2 fun b hb c hc =>
        hsame b (List.mem_cons_of_mem _ hb) c (List.mem_cons_of_mem _ hc)
      rw [List.countP_cons]
      split
      · next ha =>
          have hzero : l.countP p = 0 := by
            rw [List.countP_eq_zero]
            intro b hb hpb
            refine hnodup.1 ?_
            rw [hsame a (List.mem_cons_self ..) b (List.mem_cons_of_mem _ hb) ha hpb]
            exact List.mem_map_of_mem hb
          omega
      · omega

theorem countP_le_succ {α β : Type} [DecidableEq β] {f : α → β} {p q : α → Bool} {l : List α}
    (hnodup : (l.map f).Nodup) (k : β) (h : ∀ a ∈ l, q a = true → p a = true ∨ f a = k) :
    l.countP q ≤ l.countP p + 1 := by
  have hsplit : l.countP q ≤ l.countP p + l.countP fun a => f a = k := by
    clear hnodup
    induction l with
    | nil => simp
    | cons a l ih =>
        have htail := ih fun b hb => h b (List.mem_cons_of_mem _ hb)
        have hhead := h a (List.mem_cons_self ..)
        simp only [List.countP_cons, decide_eq_true_eq]
        split
        · next hq =>
            rcases hhead hq with hp | hk
            · simp only [hp, if_true]
              omega
            · simp only [hk, if_true]
              omega
        · omega
  have hone : (l.countP fun a => f a = k) ≤ 1 := countP_le_one hnodup fun a _ b _ ha hb =>
    (of_decide_eq_true ha).trans (of_decide_eq_true hb).symm
  omega

/-! ## The properties -/

/-- The run of a manual claim with the nonce. -/
def RunRow.ofNonce (r : RunRow) (nonce : String) : Bool :=
  automationOccurrenceIdentity r.automationId none (some nonce) = some r.idempotencyKey

structure Service.Exclusive (w : Service) (maxConcurrency : Nat) : Prop where
  unfinished : ∀ automationId,
    w.den.db.runs.countP (fun r => r.automationId = automationId && r.status.isUnfinished) ≤ 1
  scheduled : ∀ automationId t,
    w.den.db.runs.countP (fun r => r.automationId = automationId && r.scheduledFor = some t) ≤ 1
  manual : ∀ automationId nonce,
    w.den.db.runs.countP (fun r => r.automationId = automationId && r.ofNonce nonce) ≤ 1
  cloud : w.den.db.runs.countP RunRow.occupiesCloud ≤ maxConcurrency

/-- No update puts a finished run back, and a cloud run written as taken is taken. -/
def FindsUnfinished (w : Service) : ServiceAction → Prop
  | .den (.write (.cancelling run _) _) =>
      run.status.isLeased = true → ∀ r ∈ w.den.db.runs, r.id = run.id →
        r.status.isUnfinished = true ∧ (r.executionTarget = .cloud → r.status.isLeased = true)
  | .den (.write (.retrying run _ _) _) =>
      ∀ r ∈ w.den.db.runs, r.id = run.id → r.status.isUnfinished = true
  | .den (.write (.recovering run now) _) =>
      run.attemptCount < automationMaximumAttempts → ∀ r ∈ w.den.db.runs, r.id = run.id →
        r.leaseOwner = run.leaseOwner →
        (r.leaseExpiresAt.any fun expires => expires < now) = true → r.status.isUnfinished = true
  | _ => True

/-- Every server is configured with the same bound. -/
def AllowsCloud (maxConcurrency : Nat) : ServiceAction → Prop
  | .den (.claimCloud _ _ _ limit _) => limit = maxConcurrency
  | _ => True

/-- What keeps them. -/
structure Occupied (w : Service) : Prop where
  one : w.den.db.OneRun
  keys : (w.den.db.runs.map (·.idempotencyKey)).Nodup
  keyed : ∀ r ∈ w.den.db.runs, ∃ nonce,
    automationOccurrenceIdentity r.automationId r.scheduledFor nonce = some r.idempotencyKey
  single : ∀ r ∈ w.den.db.runs, ∀ r' ∈ w.den.db.runs, r.automationId = r'.automationId →
    r.status.isUnfinished = true → r'.status.isUnfinished = true → r = r'

theorem occupied_empty : Occupied {} where
  one := List.nodup_nil
  keys := List.nodup_nil
  keyed := by simp
  single := by simp

/-! ## Rows over a step -/

section

variable {zones : TimeZones} {w w' : Service} {act : ServiceAction}

theorem RunMoved.unfinished {r r' : RunRow} (hr : r ∈ w.den.db.runs)
    (hguard : FindsUnfinished w act) (h : RunMoved w act r r')
    (hunfinished : r'.status.isUnfinished = true) : r.status.isUnfinished = true := by
  cases h with
  | kept status owner attempts sequence => rwa [status] at hunfinished
  | taken queued status attempts sequence room =>
      rw [queued]
      rfl
  | ended live status owner attempts sequence => exact live
  | recovered run now drawn hact id lease status owner attempts sequence =>
      subst hact
      rw [status] at hunfinished
      split at hunfinished
      · next hretry => exact hguard hretry r hr id lease.1 lease.2
      · cases hunfinished
  | cancelled run now drawn hact id status owner attempts sequence =>
      subst hact
      rw [status] at hunfinished
      split at hunfinished
      · cases hunfinished
      · next hne =>
          have hleased : run.status.isLeased = true := by
            simpa [RunStatus.isUnfinished, hne] using hunfinished
          exact (hguard hleased r hr id).1
  | retried run leaseOwner now drawn hact id status owner attempts sequence =>
      subst hact
      exact hguard r hr id
  | appended input source happend claims status owner attempts sequence =>
      rwa [status] at hunfinished

/-- A cloud run taken after a step was so before, or was claimed with room left. -/
theorem RunMoved.occupies {r r' : RunRow} (hr : r ∈ w.den.db.runs)
    (hguard : FindsUnfinished w act) (hsame : SameOccurrence r r') (h : RunMoved w act r r')
    (hoccupies : r'.occupiesCloud = true) : r.occupiesCloud = true ∨ act.Admits w r := by
  simp only [RunRow.occupiesCloud, Bool.and_eq_true, decide_eq_true_eq] at hoccupies
  obtain ⟨hcloud, hleased⟩ := hoccupies
  rw [hsame.executionTarget] at hcloud
  have hkept : r.status.isLeased = true → r.occupiesCloud = true := fun hleased => by
    unfold RunRow.occupiesCloud
    rw [hcloud, hleased]
    rfl
  cases h with
  | kept status owner attempts sequence => exact .inl (hkept (by rwa [status] at hleased))
  | taken queued status attempts sequence room => exact .inr (room hcloud)
  | ended live status owner attempts sequence =>
      rw [isLeased_of_terminal status] at hleased
      cases hleased
  | recovered run now drawn hact id lease status owner attempts sequence =>
      rw [status] at hleased
      split at hleased <;> cases hleased
  | cancelled run now drawn hact id status owner attempts sequence =>
      subst hact
      rw [status] at hleased
      split at hleased
      · cases hleased
      · exact .inl (hkept ((hguard hleased r hr id).2 hcloud))
  | retried run leaseOwner now drawn hact id status owner attempts sequence =>
      rw [status] at hleased
      cases hleased
  | appended input source happend claims status owner attempts sequence =>
      exact .inl (hkept (by rwa [status] at hleased))

theorem Inserted.waiting {r : RunRow} (h : Inserted w.den.db r)
    (hunfinished : r.status.isUnfinished = true) :
    ∀ r' ∈ w.den.db.runs, r'.automationId = r.automationId → r'.status.isUnfinished = false := by
  rcases h.status with hskipped | ⟨-, hnone⟩
  · rw [hskipped] at hunfinished
    cases hunfinished
  · exact hnone

theorem RunsMoved.inserted_eq (hm : RunsMoved w act w') {r r' : RunRow} (hr : r ∈ hm.inserted)
    (hr' : r' ∈ hm.inserted) : r = r' := by
  match hinserted : hm.inserted with
  | [] =>
      rw [hinserted] at hr
      cases hr
  | [x] =>
      rw [hinserted, List.mem_singleton] at hr hr'
      rw [hr, hr']
  | _ :: _ :: _ =>
      have hle := hm.single
      rw [hinserted, List.length_cons, List.length_cons] at hle
      omega

/-! ## Steps -/

theorem Occupied.step (hw : Occupied w) (hguard : FindsUnfinished w act)
    (h : w.step zones act = some w') : Occupied w' := by
  obtain ⟨hm⟩ := step_moved hw.one h
  have hkeys := hm.nodup (fun r hr => (hm.same r hr).idempotencyKey)
    (fun r hr => (hm.news r hr).newKey) hw.keys
  refine ⟨hm.oneRun hw.one, hkeys, fun r' hr' => ?_, fun r hr r' hr' hid hu hu' => ?_⟩
  · rcases hm.mem hr' with ⟨r, hr, rfl⟩ | hinserted
    · have hsame := hm.same r hr
      rw [hsame.automationId, hsame.scheduledFor, hsame.idempotencyKey]
      exact hw.keyed r hr
    · exact (hm.news r' hinserted).key
  · rcases hm.mem hr with ⟨x, hx, rfl⟩ | hinserted <;>
      rcases hm.mem hr' with ⟨x', hx', rfl⟩ | hinserted'
    · rw [(hm.same x hx).automationId, (hm.same x' hx').automationId] at hid
      rw [hw.single x hx x' hx' hid ((hm.moves x hx).unfinished hx hguard hu)
        ((hm.moves x' hx').unfinished hx' hguard hu')]
    · have hnone := (hm.news r' hinserted').waiting hu' x hx
        ((hm.same x hx).automationId.symm.trans hid)
      rw [(hm.moves x hx).unfinished hx hguard hu] at hnone
      cases hnone
    · have hnone := (hm.news r hinserted).waiting hu x' hx'
        ((hm.same x' hx').automationId.symm.trans hid.symm)
      rw [(hm.moves x' hx').unfinished hx' hguard hu'] at hnone
      cases hnone
    · exact hm.inserted_eq hinserted hinserted'

theorem Occupied.cloud {maxConcurrency : Nat} (hw : Occupied w) (hguard : FindsUnfinished w act)
    (hallows : AllowsCloud maxConcurrency act)
    (hcloud : w.den.db.runs.countP RunRow.occupiesCloud ≤ maxConcurrency)
    (h : w.step zones act = some w') :
    w'.den.db.runs.countP RunRow.occupiesCloud ≤ maxConcurrency := by
  obtain ⟨hm⟩ := step_moved hw.one h
  have hinserted : hm.inserted.countP RunRow.occupiesCloud = 0 := by
    rw [List.countP_eq_zero]
    intro r hr
    unfold RunRow.occupiesCloud
    rcases (hm.news r hr).status with hstatus | ⟨hstatus, -⟩ <;>
      simp [hstatus, RunStatus.isLeased]
  rw [hm.rows, List.countP_append, List.countP_map, hinserted, Nat.add_zero]
  by_cases hadmits : ∃ r, act.Admits w r
  · obtain ⟨r₀, leaseOwner, leaseMs, limit, now, rfl, hroom⟩ := hadmits
    have hlimit : limit = maxConcurrency := hallows
    have hgrow := countP_le_succ (p := RunRow.occupiesCloud) (q := RunRow.occupiesCloud ∘ hm.set)
      hw.one r₀.id fun r hr hoccupies => by
        rcases (hm.moves r hr).occupies hr hguard (hm.same r hr) hoccupies with hold | hadmits
        · exact .inl hold
        · obtain ⟨_, _, _, _, hact, -⟩ := hadmits
          simp only [ServiceAction.den.injEq, Action.claimCloud.injEq] at hact
          exact .inr hact.1.symm
    omega
  · refine Nat.le_trans (List.countP_mono_left fun r hr hoccupies => ?_) hcloud
    rcases (hm.moves r hr).occupies hr hguard (hm.same r hr) hoccupies with hold | hroom
    · exact hold
    · exact absurd ⟨r, hroom⟩ hadmits

theorem Occupied.exclusive {maxConcurrency : Nat} (hw : Occupied w)
    (hcloud : w.den.db.runs.countP RunRow.occupiesCloud ≤ maxConcurrency) :
    w.Exclusive maxConcurrency where
  unfinished automationId := by
    refine countP_le_one hw.one fun r hr r' hr' h h' => ?_
    simp only [Bool.and_eq_true, decide_eq_true_eq] at h h'
    rw [hw.single r hr r' hr' (h.1.trans h'.1.symm) h.2 h'.2]
  scheduled automationId t := by
    refine countP_le_one hw.keys fun r hr r' hr' h h' => ?_
    simp only [Bool.and_eq_true, decide_eq_true_eq] at h h'
    obtain ⟨nonce, hkey⟩ := hw.keyed r hr
    obtain ⟨nonce', hkey'⟩ := hw.keyed r' hr'
    rw [h.1, h.2] at hkey
    rw [h'.1, h'.2] at hkey'
    exact Option.some.inj (hkey.symm.trans hkey')
  manual automationId nonce := by
    refine countP_le_one hw.keys fun r hr r' hr' h h' => ?_
    simp only [RunRow.ofNonce, Bool.and_eq_true, decide_eq_true_eq] at h h'
    rw [h.1] at h
    rw [h'.1] at h'
    exact Option.some.inj (h.2.symm.trans h'.2)
  cloud := hcloud

/-- In every run of steps that put back no finished run, with one bound for all servers, an
automation has one unfinished run, an occurrence one run, and the cloud its room. -/
theorem runs_exclusive (zones : TimeZones) (maxConcurrency : Nat) {w : Service}
    (hrun : Reach (Service.step zones)
      (fun w act => FindsUnfinished w act ∧ AllowsCloud maxConcurrency act) {} w) :
    w.Exclusive maxConcurrency := by
  have hinv := hrun.invariant
    (I := fun v => Occupied v ∧ v.den.db.runs.countP RunRow.occupiesCloud ≤ maxConcurrency)
    (fun s a t hs hguard hstep => ⟨hs.1.step hguard.1 hstep,
      hs.1.cloud hguard.1 hguard.2 hs.2 hstep⟩) ⟨occupied_empty, Nat.zero_le _⟩
  exact hinv.1.exclusive hinv.2

end

/-! ## Two unfinished runs -/

instance (w : Service) (act : ServiceAction) : Decidable (FindsUnfinished w act) := by
  refine act.casesOn (fun a => a.casesOn ?_ ?_ ?_ ?_
    (fun p drawn => p.casesOn ?_ ?_ ?_ ?_ ?_ ?_ ?_) ?_ ?_ ?_ ?_ ?_ ?_ ?_) ?_ ?_ ?_ ?_
  all_goals
    intros
    dsimp only [FindsUnfinished]
    infer_instance

instance (maxConcurrency : Nat) (act : ServiceAction) :
    Decidable (AllowsCloud maxConcurrency act) := by
  unfold AllowsCloud
  split <;> infer_instance

/-- A manual run of the automation once its occurrence is claimed. -/
def manualActions : List ServiceAction :=
  [.den (.read (.manual claimedCloudItem)),
    .den (.write (.manual claimedCloudItem)
      { newRunId := "s", nonce := some "n", leaseMs := 100, now := 50 })]

/-- A cancellation while the run is taken, its end, and a manual run after it. -/
theorem runs_exclusive_cancelled :
    ∃ w, runActions (Service.step exampleZones) (takenCloudActions ++
        [.den (.read (.cancelling (cloudRun "server" 20) 30)),
          .den (.write (.cancelling (cloudRun "server" 20) 30) {}),
          .den (.complete "r" "server" none ⟨.succeeded, rfl⟩ (some "ok") none 40)] ++
        manualActions) {} = some w ∧
      (w.den.db.runs.map (·.status)) = [.succeeded, .queued] ∧ w.Exclusive 2 := by
  have hrun : (runActions (fun w a => if FindsUnfinished w a ∧ AllowsCloud 2 a then
      w.step exampleZones a else none) (takenCloudActions ++
        [.den (.read (.cancelling (cloudRun "server" 20) 30)),
          .den (.write (.cancelling (cloudRun "server" 20) 30) {}),
          .den (.complete "r" "server" none ⟨.succeeded, rfl⟩ (some "ok") none 40)] ++
        manualActions) {}).any (fun w => (w.den.db.runs.map (·.status)) = [.succeeded, .queued])
      = true := by decide +kernel
  obtain ⟨w, hw, hstatus⟩ := exists_of_any hrun
  obtain ⟨hreach, hplain⟩ := reach_of_checked hw
  exact ⟨w, hplain, of_decide_eq_true hstatus, runs_exclusive exampleZones 2 hreach⟩

/-- The cancellation is read while the run is taken, and its update comes after the end of
the run and after a manual claim that found no other unfinished run. -/
theorem two_unfinished_runs :
    ∃ w, runActions (Service.step exampleZones) (takenCloudActions ++
        [.den (.read (.cancelling (cloudRun "server" 20) 30)),
          .den (.complete "r" "server" none ⟨.succeeded, rfl⟩ (some "ok") none 40)] ++
        manualActions ++ [.den (.write (.cancelling (cloudRun "server" 20) 30) {})]) {} = some w ∧
      w.den.db.runs.countP (fun r => r.automationId = "a" && r.status.isUnfinished) = 2 ∧
      ¬ w.Exclusive 2 := by
  have hrun : (runActions (Service.step exampleZones) (takenCloudActions ++
        [.den (.read (.cancelling (cloudRun "server" 20) 30)),
          .den (.complete "r" "server" none ⟨.succeeded, rfl⟩ (some "ok") none 40)] ++
        manualActions ++ [.den (.write (.cancelling (cloudRun "server" 20) 30) {})]) {}).any
      (fun w => w.den.db.runs.countP (fun r => r.automationId = "a" && r.status.isUnfinished) = 2)
      = true := by decide +kernel
  obtain ⟨w, hw, hcount⟩ := exists_of_any hrun
  have hcount := of_decide_eq_true hcount
  refine ⟨w, hw, hcount, fun hexclusive => ?_⟩
  have hle := hexclusive.unfinished "a"
  omega

end OmniRush.Automations
