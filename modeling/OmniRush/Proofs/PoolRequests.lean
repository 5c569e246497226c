import OmniRush.Engine.Requests
import OmniRush.Proofs.PoolRoles

/-!
# Requests of a rollover are not lost

Three members decide what becomes of a request: whether a rollover is in flight, the
request that is pending, and whether the pool is disposed. Every process but the rollover
leaves them as they are (`resume_quiet`), and the rollover changes them only where it ends
(`resumeRollover_slots`).

A rollover that parks or is throttled puts its own request over the pending one, and with
it go the flags of the requests that joined since it started. Where that takes nothing away
each request stays covered (`requests_covered`).
-/

namespace OmniRush.Engine

open Process Pool

def Process.request : Process → Option Request
  | .rollover request _ => some request
  | _ => none

/-- The requests of the rollovers. -/
def requests (ps : List Process) : List Request := ps.filterMap Process.request

theorem requests_append (ps qs : List Process) :
    requests (ps ++ qs) = requests ps ++ requests qs := List.filterMap_append

@[simp] theorem requests_rollover (request : Request) (stage : RolloverStage)
    (ps : List Process) :
    requests (.rollover request stage :: ps) = request :: requests ps := rfl

/-! ## The members a step leaves alone -/

/-- The members that say what becomes of a request. -/
structure Pool.SameSlot (s t : Pool) : Prop where
  inFlight : t.inFlight = s.inFlight
  pending : t.pendingRollover = s.pendingRollover
  disposed : t.disposed = s.disposed

/-- Nothing is pending while no rollover is in flight. -/
def Pool.Waits (s : Pool) : Prop := s.inFlight = false → s.pendingRollover = none

/-- A step that neither starts a rollover nor changes a request. -/
structure Pool.Quiet (s t : Pool) (ps : List Process) : Prop where
  slot : s.SameSlot t
  none : requests ps = []

theorem Pool.SameSlot.refl (s : Pool) : s.SameSlot s := ⟨rfl, rfl, rfl⟩

theorem Pool.SameSlot.trans {s t u : Pool} (h : s.SameSlot t) (h' : t.SameSlot u) :
    s.SameSlot u :=
  ⟨h'.inFlight.trans h.inFlight, h'.pending.trans h.pending, h'.disposed.trans h.disposed⟩

theorem Pool.SameSlot.waits {s t : Pool} (h : s.SameSlot t) (hs : s.Waits) : t.Waits := by
  intro hfree
  rw [h.pending]
  exact hs (h.inFlight.symm.trans hfree)

theorem Pool.Quiet.after {s t u : Pool} {ps : List Process} (h : s.SameSlot t)
    (h' : t.Quiet u ps) : s.Quiet u ps := ⟨h.trans h'.slot, h'.none⟩

theorem beginRun_request (s : Pool) (request : Request) (ps : List Process) :
    requests (s.beginRun request :: ps) = request :: requests ps := by
  unfold beginRun
  split <;> rfl

theorem requestPending_quiet {s t : Pool} (h : s.SameSlot t) (hnone : t.pendingRollover = none) :
    s.Quiet t.requestPending.1 t.requestPending.2 := by
  unfold requestPending
  rw [hnone]
  exact ⟨h, rfl⟩

theorem beginRetire_slot (s : Pool) (g : Nat) : s.SameSlot (s.beginRetire g).1 := by
  unfold beginRetire
  split
  · exact .refl s
  · exact ⟨rfl, rfl, rfl⟩

theorem endRetire_quiet {s : Pool} (hs : s.Waits) (shutdown : Bool) (g : Nat) :
    s.Quiet (s.endRetire shutdown g).1 (s.endRetire shutdown g).2 := by
  have hdrop : s.SameSlot { s.drop g with drainWaiting := false } := ⟨rfl, rfl, rfl⟩
  unfold endRetire
  dsimp only
  split
  · exact ⟨hdrop, rfl⟩
  · next hnot =>
      have hfree : s.inFlight = false := by
        have hdropped : (s.drop g).inFlight = s.inFlight := rfl
        rw [hdropped] at hnot
        revert hnot
        cases s.inFlight <;> simp
      exact requestPending_quiet hdrop (hs hfree)

theorem stepRetire_quiet {s : Pool} (hs : s.Waits) (shutdown : Bool) (r : Retire) :
    s.Quiet (s.stepRetire shutdown r).1 (s.stepRetire shutdown r).2.2 := by
  cases r with
  | closing g =>
      rw [stepRetire]
      split
      · exact ⟨.refl s, rfl⟩
      · exact endRetire_quiet hs shutdown g
  | unregistering g =>
      have hslot : s.SameSlot (s.update g fun e => { e with registered := false }) :=
        ⟨rfl, rfl, rfl⟩
      rw [stepRetire]
      exact (endRetire_quiet (hslot.waits hs) shutdown g).after hslot

theorem stepSweep_quiet {s : Pool} (hs : s.Waits) (sweep : Sweep) :
    s.Quiet (s.stepSweep sweep).1 (s.stepSweep sweep).2.2 := by
  cases sweep with
  | aborting g rest =>
      have hslot := beginRetire_slot s g
      rw [stepSweep]
      split
      · next heq =>
          rw [heq] at hslot
          exact ⟨hslot, rfl⟩
      · next heq =>
          rw [heq] at hslot
          exact ⟨hslot, rfl⟩
  | retiring r rest =>
      have hquiet := stepRetire_quiet hs false r
      rw [stepSweep]
      split
      · next heq =>
          rw [heq] at hquiet
          exact hquiet
      · next heq =>
          rw [heq] at hquiet
          exact hquiet

theorem beginTick_requests (s : Pool) (g : Nat) : requests (s.beginTick g) = [] := by
  unfold beginTick
  split <;> rfl

theorem sweeps_requests (sweeps : List Sweep) :
    requests (sweeps.map Process.sweep) = [] := by
  unfold requests
  rw [List.filterMap_map]
  exact List.filterMap_eq_nil_iff.mpr fun _ _ => rfl

/-! ## The recovery, the drains and the sweeps -/

theorem probePrevious_quiet {s t : Pool} (h : s.SameSlot t) (previous : Option Nat) :
    s.Quiet (t.probePrevious previous).1 (t.probePrevious previous).2 := by
  cases previous with
  | none => exact ⟨h, rfl⟩
  | some previous => exact ⟨h, rfl⟩

theorem recoverDeadPrimary_quiet {s t : Pool} (h : s.SameSlot t) :
    s.Quiet t.recoverDeadPrimary.1 t.recoverDeadPrimary.2 := by
  unfold recoverDeadPrimary
  split
  · exact ⟨h, rfl⟩
  · dsimp only
    split
    · exact ⟨⟨h.inFlight, h.pending, h.disposed⟩, rfl⟩
    · exact probePrevious_quiet (t := { t with recovering := true })
        ⟨h.inFlight, h.pending, h.disposed⟩ _

theorem reportRequestFailure_quiet (s : Pool) (toPrimary recent : Bool) :
    s.Quiet (s.reportRequestFailure toPrimary recent).1
      (s.reportRequestFailure toPrimary recent).2 := by
  unfold reportRequestFailure
  split
  · exact ⟨.refl s, rfl⟩
  · dsimp only
    split
    · exact ⟨⟨rfl, rfl, rfl⟩, rfl⟩
    · exact recoverDeadPrimary_quiet ⟨rfl, rfl, rfl⟩

theorem resumeRecovery_quiet {s t : Pool} {stage : RecoveryStage} {answer : Answer}
    {ps : List Process} (h : s.resumeRecovery stage answer = some (t, ps)) : s.Quiet t ps := by
  have hfail : ∀ {u : Pool}, s.SameSlot u → s.Quiet u.failRecovery.1 u.failRecovery.2 :=
    fun hu => ⟨⟨hu.inFlight, hu.pending, hu.disposed⟩, rfl⟩
  have hprobe : ∀ previous, s.Quiet ({ s with recoveryOrphan := none }.probePrevious previous).1
      ({ s with recoveryOrphan := none }.probePrevious previous).2 :=
    fun previous => probePrevious_quiet (s := s) (t := { s with recoveryOrphan := none })
      ⟨rfl, rfl, rfl⟩ previous
  have hsame : ∀ {u : Pool} {qs : List Process} {after : Pool × List Process},
      s.Quiet after.1 after.2 → some after = some (u, qs) → s.Quiet u qs := by
    intro u qs after hquiet heq
    rw [Option.some.inj heq] at hquiet
    exact hquiet
  unfold resumeRecovery at h
  split at h
  · split at h
    · exact hsame (hfail (.refl s)) h
    · exact hsame (hprobe _) h
  all_goals try split at h
  all_goals first
    | exact hsame (hfail ⟨rfl, rfl, rfl⟩) h
    | (cases h; exact ⟨⟨rfl, rfl, rfl⟩, rfl⟩)
    | (dsimp only at h; split at h <;> (cases h; exact ⟨⟨rfl, rfl, rfl⟩, rfl⟩))
    | cases h

theorem resume_quiet {s t : Pool} {p : Process} {answer : Answer} {ps : List Process}
    (hs : s.Waits) (hp : p.request = none) (h : s.resume p answer = some (t, ps)) :
    s.Quiet t ps := by
  unfold resume at h
  split at h
  · cases hp
  · exact resumeRecovery_quiet h
  · next g mayClose =>
      have hslot := beginRetire_slot s g
      split at h
      · split at h
        · next heq =>
            rw [heq] at hslot
            cases h
            exact ⟨hslot, rfl⟩
        · next heq =>
            rw [heq] at hslot
            cases h
            exact ⟨hslot, rfl⟩
      · cases h
        exact ⟨.refl s, rfl⟩
  · next r =>
      have hquiet := stepRetire_quiet hs false r
      split at h
      · next heq =>
          rw [heq] at hquiet
          cases h
          exact ⟨hquiet.slot, hquiet.none⟩
      · next heq =>
          rw [heq] at hquiet
          cases h
          exact hquiet
  · next sweep =>
      have hquiet := stepSweep_quiet hs sweep
      split at h
      · next heq =>
          rw [heq] at hquiet
          cases h
          exact ⟨hquiet.slot, hquiet.none⟩
      · next heq =>
          rw [heq] at hquiet
          cases h
          exact hquiet
  · cases h

/-! ## The steps of a rollover -/

/-- A rollover ended, and the next one was started if a request was pending. -/
structure Pool.Freed (next : Option Request) (t : Pool) (ps : List Process) : Prop where
  inFlight : t.inFlight = next.isSome
  pending : t.pendingRollover = none
  opened : t.disposed = false
  started : requests ps = next.toList

/-- A resumed rollover with its outcome. -/
inductive Pool.Resumed (s : Pool) (request : Request) (t : Pool) (ps : List Process) :
    Option RolloverOutcome → Prop
  | goesOn (h : s.SameSlot t) (hps : requests ps = [request]) : Resumed s request t ps none
  | parked (h : Pool.Freed (some request) t ps) : Resumed s request t ps (some .coalesced)
  | ended {o : RolloverOutcome} (ho : o ≠ .coalesced) (h : Pool.Freed s.pendingRollover t ps) :
      Resumed s request t ps (some o)

theorem endRollover_freed {s : Pool} (hopen : s.disposed = false) :
    Pool.Freed s.pendingRollover s.endRollover.1 s.endRollover.2 := by
  unfold endRollover requestPending
  rw [hopen]
  cases hpending : s.pendingRollover with
  | none => exact ⟨rfl, rfl, rfl, rfl⟩
  | some request =>
      have hstart : requests (beginRun
          { s with inFlight := true, pendingRollover := none, disposed := false } request :: [])
            = [request] := beginRun_request _ _ _
      exact ⟨rfl, rfl, rfl, hstart⟩

theorem Pool.Freed.of_slot {s u t : Pool} {ps : List Process} (hopen : s.disposed = false)
    (h : s.SameSlot u) (heq : u.endRollover = (t, ps)) : Pool.Freed s.pendingRollover t ps := by
  have hfreed := endRollover_freed (h.disposed.trans hopen)
  rw [heq, h.pending] at hfreed
  exact hfreed

theorem Pool.Resumed.of_end {s u t : Pool} {request : Request} {ps : List Process}
    {o : RolloverOutcome} (ho : o ≠ .coalesced) (hopen : s.disposed = false) (h : s.SameSlot u)
    (heq : u.endRollover = (t, ps)) : s.Resumed request t ps (some o) :=
  .ended ho (.of_slot hopen h heq)

theorem rollOverBusy_resumed {s t : Pool} {request : Request} {fingerprint : String}
    {primary : Option Nat} {recent : Bool} {ps : List Process} (hopen : s.disposed = false)
    (h : s.rollOverBusy request fingerprint primary recent = (t, ps)) :
    s.Resumed request t ps (if s.parks request recent then some .coalesced else none) := by
  have hpark : ∀ {t : Pool} {ps : List Process},
      { s with pendingRollover := some request }.endRollover = (t, ps) →
        s.Resumed request t ps (some .coalesced) := by
    intro t ps heq
    have hfreed := endRollover_freed (s := { s with pendingRollover := some request }) hopen
    rw [heq] at hfreed
    exact .parked hfreed
  unfold rollOverBusy at h
  unfold parks
  split at h
  · next hdraining =>
      split at h
      · next hforce =>
          cases h
          simp only [hforce, Bool.not_true, Bool.false_and, Bool.false_eq_true, if_false]
          exact .goesOn ⟨rfl, rfl, rfl⟩ rfl
      · next hforce =>
          simp only [hforce, hdraining, Bool.not_false, Bool.true_or, Bool.and_true, if_true]
          exact hpark h
  · next hdraining =>
      have hnone : s.draining.isSome = false := Bool.eq_false_iff.mpr hdraining
      rw [hnone, Bool.false_or]
      split at h
      · next hthrottled =>
          have hparks : (!request.forceStandby && (!request.manual && recent)) = true := by
            revert hthrottled
            cases request.manual <;> cases request.forceStandby <;> simp
          rw [if_pos hparks]
          exact hpark h
      · next hfree =>
          have hparks : ¬ (!request.forceStandby && (!request.manual && recent)) = true := by
            revert hfree
            cases request.manual <;> cases request.forceStandby <;> simp
          rw [if_neg hparks]
          cases h
          exact .goesOn (.refl s) rfl

theorem registerStandby_resumed (s : Pool) (request : Request) (g : Nat) (primary : Option Nat) :
    s.Resumed request (s.registerStandby request g primary).1
      (s.registerStandby request g primary).2 none := by
  unfold registerStandby
  split
  · exact .goesOn ⟨rfl, rfl, rfl⟩ rfl
  · exact .goesOn (.refl s) rfl

theorem rollOverFlip_resumed (s : Pool) (request : Request) (g : Nat) (primary : Option Nat) :
    s.Resumed request (s.rollOverFlip request g primary).1
      (s.rollOverFlip request g primary).2 none := by
  cases primary with
  | none => exact .goesOn ⟨rfl, rfl, rfl⟩ rfl
  | some previous =>
      have hticks : requests (Process.rollover request .rolledOver ::
          ((s.flip g (some previous)).monitor previous).beginTick previous) = [request] := by
        rw [requests_rollover, beginTick_requests]
      exact .goesOn ⟨rfl, rfl, rfl⟩ hticks

theorem resumeStandby_resumed {s t : Pool} {request : Request} {g : Nat} {primary : Option Nat}
    {stage : StandbyStage} {answer : Answer} {ps : List Process}
    (h : s.resumeStandby request g primary stage answer = some (t, ps)) :
    s.Resumed request t ps none := by
  have hregister : some (s.registerStandby request g primary) = some (t, ps) →
      s.Resumed request t ps none := by
    intro heq
    have hresumed := registerStandby_resumed s request g primary
    rw [Option.some.inj heq] at hresumed
    exact hresumed
  unfold resumeStandby at h
  split at h
  · cases h
    exact .goesOn ⟨rfl, rfl, rfl⟩ rfl
  · split at h
    · cases h
      exact .goesOn (.refl s) rfl
    · exact hregister h
  · exact hregister h
  · exact hregister h
  · cases h
    exact .goesOn (.refl s) rfl
  · cases h
    exact .goesOn (.refl s) rfl
  · cases h
    exact .goesOn (.refl s) rfl
  · have hresumed := rollOverFlip_resumed s request g primary
    rw [Option.some.inj h] at hresumed
    exact hresumed
  · cases h

/-- A sweep of a rollover goes on, or leaves the pool for what comes after it. -/
theorem resumeSweep_cases {s t : Pool} {request : Request} {stage : Sweep → RolloverStage}
    {sweep : Sweep} {after : Pool → Pool × List Process} {ps : List Process} (hs : s.Waits)
    (h : s.resumeSweep request stage sweep after = (t, ps)) :
    (s.stepSweep sweep).2.1.isSome = true ∧ s.Resumed request t ps none ∨
      (s.stepSweep sweep).2.1 = none ∧ ∃ u qs, s.SameSlot u ∧ after u = (t, qs) ∧
        requests ps = requests qs := by
  have hquiet := stepSweep_quiet hs sweep
  unfold resumeSweep at h
  split at h
  · next u sweep' started heq =>
      rw [heq] at hquiet
      cases h
      refine .inl ⟨by rw [heq]; rfl, .goesOn hquiet.slot ?_⟩
      rw [requests_rollover, hquiet.none]
  · next u started heq =>
      rw [heq] at hquiet
      refine .inr ⟨by rw [heq], u, (after u).2, hquiet.slot, ?_, ?_⟩
      · rw [← (Prod.mk.inj h).1]
      · rw [← (Prod.mk.inj h).2, requests_append, hquiet.none, List.append_nil]

theorem resumeRollover_resumed {s t : Pool} {request : Request} {stage : RolloverStage}
    {answer : Answer} {ps : List Process} (hopen : s.disposed = false) (hs : s.Waits)
    (h : s.resumeRollover request stage answer = some (t, ps)) :
    s.Resumed request t ps (s.outcome request stage answer) := by
  unfold resumeRollover at h
  split at h
  · next sweep =>
      rcases resumeSweep_cases hs (Option.some.inj h) with
        ⟨-, hresumed⟩ | ⟨-, u, qs, hslot, hafter, hrequests⟩
      · exact hresumed
      · cases hafter
        exact .goesOn hslot hrequests
  · cases h
    exact .goesOn (.refl s) rfl
  · cases h
    exact .goesOn (.refl s) rfl
  · next text =>
      rw [outcome]
      unfold rollOverChanged at h
      split at h
      · next hsame =>
          rw [if_pos hsame]
          exact .of_end (by simp) hopen (.refl s) (Option.some.inj h)
      · next hchanged =>
          rw [if_neg hchanged]
          split at h
          · next hforce =>
              have hresumed := rollOverBusy_resumed hopen (Option.some.inj h)
              have hparks : s.parks request false = false := by
                unfold parks
                rw [hforce]
                rfl
              rw [hparks] at hresumed
              exact hresumed
          · cases h
            exact .goesOn (.refl s) rfl
  · next fingerprint primary isBusy recent =>
      rw [outcome]
      split at h
      · next hbusy =>
          rw [hbusy, Bool.true_and]
          exact rollOverBusy_resumed hopen (Option.some.inj h)
      · next hidle =>
          rw [Bool.eq_false_iff.mpr hidle, Bool.false_and]
          cases h
          exact .goesOn (.refl s) rfl
  · next fingerprint primary =>
      split at h
      · next g =>
          have hslot : s.SameSlot (s.update g fun e => { e with fingerprint := fingerprint }) :=
            ⟨rfl, rfl, rfl⟩
          exact .of_end (by simp) hopen hslot (Option.some.inj h)
      · exact .of_end (by simp) hopen (.refl s) (Option.some.inj h)
  · exact .of_end (by simp) hopen (.refl s) (Option.some.inj h)
  · rw [outcome]
    rw [hopen]
    split at h
    · cases h
    · rw [hopen] at h
      cases h
      exact .goesOn (.refl s) (beginRun_request s request [])
  · exact .of_end (by simp) hopen (.refl s) (Option.some.inj h)
  · cases h
    exact .goesOn ⟨rfl, rfl, rfl⟩ rfl
  · exact resumeStandby_resumed h
  · exact .of_end (by simp) hopen (.refl s) (Option.some.inj h)
  · exact .of_end (by simp) hopen (.refl s) (Option.some.inj h)
  · rw [outcome]
    split at h
    · next sweep hsweep =>
        rw [hsweep]
        cases h
        exact .goesOn (.refl s) rfl
    · next hsweep =>
        rw [hsweep]
        exact .of_end (by simp) hopen (.refl s) (Option.some.inj h)
  · next sweep =>
      rw [outcome]
      rcases resumeSweep_cases hs (Option.some.inj h) with
        ⟨hsome, hresumed⟩ | ⟨hnone, u, qs, hslot, hafter, hrequests⟩
      · rw [Option.isNone_eq_false_iff.mpr hsome]
        exact hresumed
      · rw [hnone]
        have hfreed := Pool.Freed.of_slot hopen hslot hafter
        exact .ended (by simp) ⟨hfreed.inFlight, hfreed.pending, hfreed.opened,
          hrequests.trans hfreed.started⟩
  · cases h

/-! ## Flags that are carried -/

theorem carries_one (request : Request) : request.Carries [request] where
  manual := by simp
  await := by simp
  force := by simp
  retire := by cases h : request.retireDrainingIf <;> simp [h]

theorem carries_coalesce {s : Pool} {waiting : List Request}
    (hpending : ∀ pending ∈ s.pendingRollover, pending.Carries waiting)
    (hnone : s.pendingRollover = none → waiting = []) (request : Request) :
    (s.coalesce request).Carries (waiting ++ [request]) := by
  cases h : s.pendingRollover with
  | none =>
      have hone : s.coalesce request = request := by
        unfold coalesce
        rw [h]
        cases request with
        | mk manual await force retire => cases retire <;> simp
      rw [hone, hnone h]
      exact carries_one request
  | some pending =>
      obtain ⟨hmanual, hawait, hforce, hretire⟩ := hpending pending h
      refine ⟨?_, ?_, ?_, ?_⟩
      · simp [coalesce, h, hmanual, Bool.or_comm]
      · simp [coalesce, h, hawait, Bool.or_comm]
      · simp [coalesce, h, hforce, Bool.or_comm]
      · rw [List.filterMap_append, List.getLast?_append, ← hretire]
        cases hlast : request.retireDrainingIf <;> simp [coalesce, h, hlast]

theorem or_eq_left {a b : Bool} (h : b = true → a = true) : (a || b) = a := by
  cases a with
  | true => rfl
  | false => cases b with
    | true => exact absurd (h rfl) (by simp)
    | false => rfl

/-- A request that carries some goes on to carry those of a pending one within it. -/
theorem Request.Carries.append {request pending : Request} {serving waiting : List Request}
    (h : request.Carries serving) (h' : pending.Carries waiting) (hwithin : pending.Within request) :
    request.Carries (serving ++ waiting) where
  manual := by
    rw [List.any_append, ← h.manual, ← h'.manual, or_eq_left hwithin.manual]
  await := by
    rw [List.any_append, ← h.await, ← h'.await, or_eq_left hwithin.await]
  force := by
    rw [List.any_append, ← h.force, ← h'.force, or_eq_left hwithin.force]
  retire := by
    rw [List.filterMap_append, List.getLast?_append, ← h.retire, ← h'.retire]
    rcases hwithin.retire with hnone | hsame
    · rw [hnone]
      rfl
    · rw [hsame]
      cases request.retireDrainingIf <;> rfl

/-! ## Every run -/

/-- What every run without a disposal keeps: one rollover while it is in flight, which
carries the requests it was started for, and nothing without one. -/
structure Requested.Slots (r : Requested) : Prop where
  opened : r.world.pool.disposed = false
  running : r.world.disposal = none
  waits : r.world.pool.Waits
  free : r.world.pool.inFlight = false →
    requests r.world.processes = [] ∧ r.serving = [] ∧ r.waiting = []
  taken : r.world.pool.inFlight = true → ∃ request,
    requests r.world.processes = [request] ∧ request.Carries r.serving
  pending : ∀ request ∈ r.world.pool.pendingRollover, request.Carries r.waiting
  nothing : r.world.pool.pendingRollover = none → r.waiting = []

namespace Requested

theorem mem_requests {ps : List Process} {request : Request} (h : request ∈ requests ps) :
    ∃ stage, .rollover request stage ∈ ps := by
  obtain ⟨p, hp, hrequest⟩ := List.mem_filterMap.mp h
  cases p with
  | rollover request' stage =>
      cases hrequest
      exact ⟨stage, hp⟩
  | _ => cases hrequest

theorem Slots.covered {r : Requested} (h : r.Slots) : r.Covered where
  running hserving := by
    have htaken : r.world.pool.inFlight = true := by
      by_contra hfree
      exact hserving (h.free (Bool.eq_false_iff.mpr hfree)).2.1
    obtain ⟨request, hrequests, hcarries⟩ := h.taken htaken
    obtain ⟨stage, hmem⟩ := mem_requests (hrequests ▸ List.mem_singleton.mpr rfl)
    exact ⟨request, stage, hmem, hcarries⟩
  pending hwaiting := by
    cases hpending : r.world.pool.pendingRollover with
    | none => exact absurd (h.nothing hpending) hwaiting
    | some request => exact ⟨request, rfl, h.pending request hpending⟩
  idle hfree := (h.free hfree).2

theorem Slots.quiet {r r' : Requested} {ps : List Process} (h : r.Slots)
    (hquiet : r.world.pool.Quiet r'.world.pool ps) (hdisposal : r'.world.disposal = none)
    (hprocesses : requests r'.world.processes = requests r.world.processes ++ requests ps)
    (hserving : r'.serving = r.serving) (hwaiting : r'.waiting = r.waiting) : r'.Slots := by
  rw [hquiet.none, List.append_nil] at hprocesses
  obtain ⟨hflight, hpending, hdisposed⟩ := hquiet.slot
  refine ⟨hdisposed.trans h.opened, hdisposal, hquiet.slot.waits h.waits, fun hfree => ?_,
    fun htaken => ?_, fun request hrequest => ?_, fun hnone => ?_⟩
  · rw [hprocesses, hserving, hwaiting]
    exact h.free (hflight ▸ hfree)
  · rw [hprocesses, hserving]
    exact h.taken (hflight ▸ htaken)
  · rw [hwaiting]
    exact h.pending request (hpending ▸ hrequest)
  · rw [hwaiting]
    exact h.nothing (hpending ▸ hnone)

theorem Slots.freed {r : Requested} {next : Option Request} {ps : List Process}
    (h : Pool.Freed next r.world.pool ps) (hdisposal : r.world.disposal = none)
    (hprocesses : requests r.world.processes = requests ps)
    (hnext : ∀ request ∈ next, request.Carries r.serving) (hnone : next = none → r.serving = [])
    (hwaiting : r.waiting = []) : r.Slots := by
  rw [h.started] at hprocesses
  refine ⟨h.opened, hdisposal, fun _ => h.pending, fun hfree => ?_, fun htaken => ?_,
    fun request hrequest => ?_, fun _ => hwaiting⟩
  · have hnext : next = none := by
      rw [h.inFlight] at hfree
      exact Option.isSome_eq_false_iff.mp hfree |> Option.isNone_iff_eq_none.mp
    rw [hprocesses, hnone hnext, hnext, hwaiting]
    exact ⟨rfl, rfl, rfl⟩
  · rw [h.inFlight] at htaken
    obtain ⟨request, hrequest⟩ := Option.isSome_iff_exists.mp htaken
    exact ⟨request, by rw [hprocesses, hrequest]; rfl, hnext request hrequest⟩
  · rw [h.pending] at hrequest
    cases hrequest

theorem Slots.requestRollover {r : Requested} (h : r.Slots) (request : Request) :
    ∃ r', r.step (.requestRollover request) = some r' ∧ r'.Slots := by
  have hopen : ¬ r.world.pool.disposed = true := Bool.eq_false_iff.mp h.opened
  refine ⟨_, rfl, ?_⟩
  cases hflight : r.world.pool.inFlight with
  | true =>
      have hstart : r.world.pool.requestRollover request
          = ({ r.world.pool with pendingRollover := some (r.world.pool.coalesce request) }, []) := by
        unfold Pool.requestRollover
        rw [if_neg hopen, if_pos hflight]
      have hfollow : r.follow (.requestRollover request)
          = (r.serving, r.waiting ++ [request]) := by
        rw [follow, h.opened, hflight]
        rfl
      obtain ⟨running, hrunning, hcarries⟩ := h.taken hflight
      rw [hstart, hfollow]
      refine ⟨h.opened, h.running, fun hfree => ?_, fun hfree => ?_, fun _ => ?_,
        fun pending hpending => ?_, fun hnone => ?_⟩
      · have htaken : r.world.pool.inFlight = false := hfree
        rw [hflight] at htaken
        cases htaken
      · have htaken : r.world.pool.inFlight = false := hfree
        rw [hflight] at htaken
        cases htaken
      · exact ⟨running, by rw [← hrunning]; simp [World.start], hcarries⟩
      · cases hpending
        exact carries_coalesce h.pending h.nothing request
      · cases hnone
  | false =>
      obtain ⟨hprocesses, hserving, hwaiting⟩ := h.free hflight
      have hpending := h.waits hflight
      have hstart : r.world.pool.requestRollover request
          = ({ r.world.pool with inFlight := true }, [r.world.pool.beginRun request]) := by
        unfold Pool.requestRollover
        rw [if_neg hopen, if_neg (Bool.eq_false_iff.mp hflight)]
      have hfollow : r.follow (.requestRollover request) = ([request], r.waiting) := by
        rw [follow, h.opened, hflight]
        rfl
      rw [hstart, hfollow]
      have hfreed : Pool.Freed (some request) { r.world.pool with inFlight := true }
          [r.world.pool.beginRun request] := ⟨rfl, hpending, h.opened, beginRun_request _ _ _⟩
      refine .freed hfreed h.running ?_ (fun next hnext => ?_) (fun hnone => ?_) hwaiting
      · rw [World.start, requests_append, hprocesses, List.nil_append]
      · cases hnext
        exact carries_one request
      · cases hnone

theorem requests_eraseIdx {ps : List Process} {i : Nat} {p : Process} (h : ps[i]? = some p) :
    (requests ps).Perm (p.request.toList ++ requests (ps.eraseIdx i)) := by
  obtain ⟨hi, rfl⟩ := List.getElem?_eq_some_iff.mp h
  have hperm : ps.Perm (ps[i] :: ps.eraseIdx i) := (List.getElem_cons_eraseIdx_perm hi).symm
  have hrequests := hperm.filterMap Process.request
  rw [List.filterMap_cons] at hrequests
  unfold requests
  cases hrequest : ps[i].request <;> rw [hrequest] at hrequests <;> exact hrequests

theorem Slots.length {r : Requested} (h : r.Slots) : (requests r.world.processes).length ≤ 1 := by
  cases hflight : r.world.pool.inFlight with
  | true =>
      obtain ⟨request, hrequests, -⟩ := h.taken hflight
      rw [hrequests]
      exact Nat.le_refl 1
  | false =>
      rw [(h.free hflight).1]
      exact Nat.zero_le 1

theorem Slots.resumed {r : Requested} (h : r.Slots) {i : Nat} {request : Request}
    {stage : RolloverStage} (hget : r.world.processes[i]? = some (.rollover request stage)) :
    r.world.pool.inFlight = true ∧ request.Carries r.serving ∧
      requests (r.world.processes.eraseIdx i) = [] := by
  have hperm := requests_eraseIdx hget
  cases hflight : r.world.pool.inFlight with
  | false =>
      rw [(h.free hflight).1] at hperm
      exact absurd hperm.symm.eq_nil (by simp [Process.request])
  | true =>
      obtain ⟨request', hrequests, hcarries⟩ := h.taken hflight
      rw [hrequests] at hperm
      have hsame : [request'] = request :: requests (r.world.processes.eraseIdx i) :=
        (List.perm_singleton.mp hperm.symm).symm
      obtain ⟨rfl, hrest⟩ := List.cons.inj hsame
      exact ⟨rfl, hcarries, hrest.symm⟩

theorem Slots.other {r : Requested} (h : r.Slots) {i : Nat} {p : Process}
    (hget : r.world.processes[i]? = some p) (hp : p.request = none) :
    requests (r.world.processes.eraseIdx i) = requests r.world.processes := by
  have hperm := requests_eraseIdx hget
  rw [hp, Option.toList_none, List.nil_append] at hperm
  have hlength := h.length
  match hrequests : requests r.world.processes with
  | [] =>
      rw [hrequests] at hperm
      exact hperm.symm.eq_nil
  | [request] =>
      rw [hrequests] at hperm
      exact List.perm_singleton.mp hperm.symm
  | _ :: _ :: _ =>
      rw [hrequests] at hlength
      simp at hlength

theorem step_resume {r r' : Requested} {i : Nat} {answer : Answer}
    (h : r.step (.resume i answer) = some r') :
    ∃ p t ps, r.world.processes[i]? = some p ∧ r.world.pool.resume p answer = some (t, ps) ∧
      r'.world.pool = t ∧ r'.world.disposal = r.world.disposal ∧
      r'.world.processes = r.world.processes.eraseIdx i ++ ps ∧
      (r'.serving, r'.waiting) = r.follow (.resume i answer) := by
  obtain ⟨w, hstep, rfl⟩ := Option.map_eq_some_iff.mp h
  obtain ⟨p, hget, hafter⟩ := Option.bind_eq_some_iff.mp hstep
  obtain ⟨⟨t, ps⟩, hresume, rfl⟩ := Option.map_eq_some_iff.mp hafter
  exact ⟨p, t, ps, hget, hresume, rfl, rfl, rfl, rfl⟩

theorem within_of_parked {r : Requested} {i : Nat} {answer : Answer} {request : Request}
    {stage : RolloverStage} (hkeeps : r.KeepsPending (.resume i answer))
    (hget : r.world.processes[i]? = some (.rollover request stage))
    (h : r.world.pool.outcome request stage answer = some .coalesced) :
    ∀ pending ∈ r.world.pool.pendingRollover, pending.Within request := by
  unfold outcome at h
  split at h
  · split at h <;> cases h
  · next fingerprint primary isBusy recent =>
      split at h
      · next hparks =>
          obtain ⟨rfl, hparks⟩ := Bool.and_eq_true_iff.mp hparks
          exact hkeeps request fingerprint primary hget hparks
      · cases h
  all_goals first
    | cases h
    | (split at h <;> cases h)

theorem Slots.rollover {r r' : Requested} (h : r.Slots) {i : Nat} {request : Request}
    {stage : RolloverStage} {answer : Answer} {ps : List Process}
    (hget : r.world.processes[i]? = some (.rollover request stage))
    (hkeeps : r.KeepsPending (.resume i answer)) (hdisposal : r'.world.disposal = none)
    (hprocesses : r'.world.processes = r.world.processes.eraseIdx i ++ ps)
    (hresumed : r.world.pool.Resumed request r'.world.pool ps
      (r.world.pool.outcome request stage answer))
    (hfollow : (r'.serving, r'.waiting) = r.follow (.resume i answer)) : r'.Slots := by
  obtain ⟨hflight, hcarries, hrest⟩ := h.resumed hget
  have hrequests : requests r'.world.processes = requests ps := by
    rw [hprocesses, requests_append, hrest, List.nil_append]
  rw [follow, hget] at hfollow
  dsimp only at hfollow
  cases houtcome : r.world.pool.outcome request stage answer with
  | none =>
      rw [houtcome] at hresumed hfollow
      obtain ⟨hserving, hwaiting⟩ := Prod.mk.inj hfollow
      cases hresumed with
      | goesOn hslot hps =>
          refine ⟨hslot.disposed.trans h.opened, hdisposal, hslot.waits h.waits,
            fun hfree => ?_, fun _ => ⟨request, hrequests.trans hps, hserving ▸ hcarries⟩,
            fun pending hpending => ?_, fun hnone => ?_⟩
          · rw [hslot.inFlight, hflight] at hfree
            cases hfree
          · rw [hwaiting]
            exact h.pending pending (hslot.pending ▸ hpending)
          · rw [hwaiting]
            exact h.nothing (hslot.pending ▸ hnone)
  | some o =>
      rw [houtcome] at hresumed hfollow
      cases hresumed with
      | parked hfreed =>
          obtain ⟨hserving, hwaiting⟩ := Prod.mk.inj hfollow
          refine .freed hfreed hdisposal hrequests (fun next hnext => ?_)
            (fun hnone => by cases hnone) hwaiting
          cases hnext
          rw [hserving]
          cases hpending : r.world.pool.pendingRollover with
          | none =>
              rw [h.nothing hpending, List.append_nil]
              exact hcarries
          | some pending =>
              refine hcarries.append (h.pending pending hpending) ?_
              exact within_of_parked hkeeps hget houtcome pending hpending
      | ended ho hfreed =>
          have hlists : (r'.serving, r'.waiting) = (r.waiting, []) := by
            rw [hfollow]
            cases o <;> first | rfl | exact absurd rfl ho
          obtain ⟨hserving, hwaiting⟩ := Prod.mk.inj hlists
          refine .freed hfreed hdisposal hrequests (fun next hnext => ?_)
            (fun hnone => hserving.trans (h.nothing hnone)) hwaiting
          rw [hserving]
          exact h.pending next hnext

theorem Slots.resume {r r' : Requested} (h : r.Slots) {i : Nat} {answer : Answer}
    (hkeeps : r.KeepsPending (.resume i answer))
    (hstep : r.step (.resume i answer) = some r') : r'.Slots := by
  obtain ⟨p, t, ps, hget, hresume, rfl, hdisposal, hprocesses, hfollow⟩ := step_resume hstep
  have hdisposal := hdisposal.trans h.running
  cases hp : p.request with
  | none =>
      have hsame : r.follow (.resume i answer) = (r.serving, r.waiting) := by
        rw [follow, hget]
        cases p with
        | rollover request stage => cases hp
        | _ => rfl
      rw [hsame] at hfollow
      obtain ⟨hserving, hwaiting⟩ := Prod.mk.inj hfollow
      refine h.quiet (resume_quiet h.waits hp hresume) hdisposal ?_ hserving hwaiting
      rw [hprocesses, requests_append, h.other hget hp]
  | some request =>
      cases p with
      | rollover request' stage =>
          cases hp
          exact h.rollover hget hkeeps hdisposal hprocesses
            (resumeRollover_resumed h.opened h.waits hresume) hfollow
      | _ => cases hp

theorem Slots.step {r r' : Requested} {e : Event} (h : r.Slots) (hkeeps : r.KeepsPending e)
    (he : e.isDisposal = false) (hstep : r.step e = some r') : r'.Slots := by
  have hquiet : ∀ {t : Pool} {ps : List Process}, r.world.pool.Quiet t ps →
      Slots { world := r.world.start (t, ps), serving := r.serving, waiting := r.waiting } :=
    fun hquiet => h.quiet hquiet h.running (requests_append _ _) rfl rfl
  cases e with
  | requestRollover request =>
      obtain ⟨r'', hstep', hslots⟩ := h.requestRollover request
      rw [hstep] at hstep'
      cases hstep'
      exact hslots
  | retireDraining shouldRetire =>
      cases hstep
      exact hquiet ⟨.refl _, sweeps_requests _⟩
  | reportRequestFailure toPrimary recent =>
      cases hstep
      exact hquiet (reportRequestFailure_quiet _ toPrimary recent)
  | reportRequestSuccess toPrimary =>
      obtain ⟨w, hw, rfl⟩ := Option.map_eq_some_iff.mp hstep
      simp only [World.step] at hw
      split at hw
      · cases hw
        exact hquiet ⟨⟨rfl, rfl, rfl⟩, rfl⟩
      · cases hw
        exact h
  | recoveryTimer =>
      obtain ⟨w, hw, rfl⟩ := Option.map_eq_some_iff.mp hstep
      simp only [World.step] at hw
      split at hw
      · cases hw
        exact hquiet (recoverDeadPrimary_quiet ⟨rfl, rfl, rfl⟩)
      · cases hw
  | drainCheck g =>
      obtain ⟨w, hw, rfl⟩ := Option.map_eq_some_iff.mp hstep
      simp only [World.step] at hw
      split at hw
      · cases hw
        exact hquiet ⟨.refl _, beginTick_requests _ g⟩
      · cases hw
  | disposeAll => cases he
  | resume i answer => exact h.resume hkeeps hstep
  | resumeDisposal =>
      obtain ⟨w, hw, -⟩ := Option.map_eq_some_iff.mp hstep
      simp only [World.step, h.running] at hw
      cases hw

theorem slots_adopted (config : ServerConfig) (prepares : Bool) (handle : Server)
    (fingerprint : String) (registered : Bool) :
    Slots { world := World.adopted config prepares handle fingerprint registered } where
  opened := rfl
  running := rfl
  waits _ := rfl
  free _ := ⟨rfl, rfl, rfl⟩
  taken h := by cases h
  pending _ h := by cases h
  nothing _ := rfl

end Requested

/-- **No request is lost.** In a run without a disposal whose parked and throttled
rollovers take nothing from the pending request, every request made is covered until a
rollover that carries its flags ends. -/
theorem requests_covered (config : ServerConfig) (prepares : Bool) (handle : Server)
    (fingerprint : String) (registered : Bool) (r : Requested)
    (h : Reach Requested.step (fun r e => r.KeepsPending e ∧ e.isDisposal = false)
      { world := World.adopted config prepares handle fingerprint registered } r) :
    r.Covered := by
  have hslots : r.Slots := h.invariant (I := Requested.Slots)
    (fun _ _ _ hr hguard hstep => hr.step hguard.1 hguard.2 hstep)
    (Requested.slots_adopted ..)
  exact hslots.covered

def firstRequested : Requested := { world := firstWorld }

/-- A rollover that hears of a changed configuration. -/
def changedEvents : List Event :=
  [.requestRollover {}, .resume 0 .done, .resume 0 (.fingerprint "next")]

/-- A rollover is throttled, is started again, and a manual request joins it. -/
theorem requests_covered_throttled : ∃ r : Requested, r.serving.length = 1 ∧
    r.waiting.any (·.manual) = true ∧ r.Covered := by
  obtain ⟨r, hrun, hr⟩ := exists_of_any
    (p := fun r : Requested => decide (r.serving.length = 1) && r.waiting.any (·.manual))
    (show (runActions (fun r e => if r.world.pool.pendingRollover.isNone = true ∧
      e.isDisposal = false then Requested.step r e else none)
      (changedEvents ++ [.resume 0 (.busy true true), .requestRollover { manual := true }])
      firstRequested).any _ = true by decide +kernel)
  rw [Bool.and_eq_true, decide_eq_true_eq] at hr
  obtain ⟨hreach, -⟩ := reach_of_checked hrun
  refine ⟨r, hr.1, hr.2, requests_covered _ _ _ _ _ r (hreach.mono fun r e hguard => ?_)⟩
  refine ⟨?_, hguard.2⟩
  unfold Requested.KeepsPending
  split
  · intro request fingerprint primary hget hparks pending hpending
    rw [Option.isNone_iff_eq_none.mp hguard.1] at hpending
    cases hpending
  · trivial

/-- A rollover is throttled after a manual request joined it, and goes on without it. -/
theorem manual_request_lost : ¬ ∀ (actions : List Event) (r : Requested),
    (∀ e ∈ actions, e.isDisposal = false) →
      runActions Requested.step actions firstRequested = some r → r.Covered := by
  intro h
  obtain ⟨r, hrun, hr⟩ := exists_of_any (p := fun r : Requested => r.serving.any (·.manual) &&
      r.world.processes.all fun p => p.request.all fun request => !request.manual)
    (show (runActions Requested.step (changedEvents ++
      [.requestRollover { manual := true }, .resume 0 (.busy true true)]) firstRequested).any _
        = true by decide +kernel)
  obtain ⟨hserving, hprocesses⟩ := Bool.and_eq_true_iff.mp hr
  have hcovered := h _ r (by decide +kernel) hrun
  have hsome : r.serving ≠ [] := by
    intro hnil
    rw [hnil] at hserving
    cases hserving
  obtain ⟨request, stage, hmem, hcarries⟩ := hcovered.running hsome
  have hmanual := List.all_eq_true.mp hprocesses _ hmem
  simp only [Process.request, Option.all_some, Bool.not_eq_true', hcarries.manual, hserving]
    at hmanual
  cases hmanual

end OmniRush.Engine
