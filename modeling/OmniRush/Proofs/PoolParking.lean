import OmniRush.Proofs.PoolSweeps

/-!
# A parked rollover is evaluated at once

The request that a rollover parks is in the slot that the end of the same rollover takes its next
request from. So it is evaluated again before anything else happens, finds what it found before,
and is parked again. It rests in a pool that is disposed of (`rests_iff`).
-/

namespace OmniRush.Engine

open Process Pool

variable {w w' : World}

/-! ## A pool that is disposed of -/

/-- It has no rollover and never will have. -/
structure Pool.Gone (s : Pool) : Prop where
  disposed : s.disposed = true
  inFlight : s.inFlight = false
  pending : s.pendingRollover = none

theorem Pool.Gone.slot {s t : Pool} (h : s.Gone) (hslot : s.SameSlot t) : t.Gone where
  disposed := hslot.disposed.trans h.disposed
  inFlight := hslot.inFlight.trans h.inFlight
  pending := hslot.pending.trans h.pending

theorem Gone.no_rollover (hkept : w.Kept) (h : w.pool.Gone) :
    ∀ p ∈ w.processes, p.isRollover = false := by
  have hone := hkept.one
  rw [h.inFlight] at hone
  have hnone := List.countP_eq_zero.mp (Nat.le_zero.mp hone)
  intro p hp
  simpa using hnone p hp

theorem Gone.step {e : Event} (hw : w.Orderly) (h : w.pool.Gone) (hstep : w.step e = some w') :
    w'.pool.Gone := by
  cases e with
  | requestRollover request =>
      cases hstep
      simp only [World.start, requestRollover, h.disposed, if_true]
      exact h
  | retireDraining shouldRetire =>
      cases hstep
      exact h
  | reportRequestFailure toPrimary recent =>
      cases hstep
      exact h.slot (reportRequestFailure_quiet w.pool toPrimary recent).slot
  | reportRequestSuccess toPrimary =>
      simp only [World.step] at hstep
      split at hstep
      · cases hstep
        exact h.slot ⟨rfl, rfl, rfl⟩
      · cases hstep
        exact h
  | recoveryTimer =>
      simp only [World.step] at hstep
      split at hstep
      · cases hstep
        have hslot : w.pool.SameSlot { w.pool with recoveryTimer := false } := ⟨rfl, rfl, rfl⟩
        exact h.slot (recoverDeadPrimary_quiet hslot).slot
      · cases hstep
  | drainCheck g =>
      simp only [World.step] at hstep
      split at hstep
      · cases hstep
        exact h
      · cases hstep
  | disposeAll =>
      simp only [World.step, ← hw.disposed, h.disposed, if_true] at hstep
      cases hstep
  | resume i answer =>
      obtain ⟨p, hget, hafter⟩ := Option.bind_eq_some_iff.mp hstep
      obtain ⟨⟨t, ps⟩, hresume, rfl⟩ := Option.map_eq_some_iff.mp hafter
      have hnot := Gone.no_rollover hw.kept h p (List.mem_of_getElem? hget)
      have hrequest : p.request = none := by
        cases p with
        | rollover request stage => cases hnot
        | _ => rfl
      exact h.slot (resume_quiet (fun _ => h.pending) hrequest hresume).slot
  | resumeDisposal =>
      obtain ⟨before, -, hafter⟩ := Option.bind_eq_some_iff.mp hstep
      obtain ⟨⟨t, after⟩, hresume, rfl⟩ := Option.map_eq_some_iff.mp hafter
      exact h.slot (resumeDisposal_slot hresume)

/-! ## The parked request -/

theorem resume_parked {s : Pool} {request : Request} {fingerprint : String} {primary : Option Nat}
    {recent : Bool} (h : s.parks request recent = true) :
    s.resume (.rollover request (.askingBusy fingerprint primary)) (.busy true recent) =
      some { s with pendingRollover := some request }.endRollover := by
  simp only [parks, Bool.and_eq_true, Bool.not_eq_true', Bool.or_eq_true] at h
  obtain ⟨hforce, hdrain | ⟨hmanual, hrecent⟩⟩ := h
  · simp [resume, resumeRollover, rollOverBusy, hforce, hdrain]
  · cases hdraining : s.draining with
    | none => simp [resume, resumeRollover, rollOverBusy, hforce, hdraining, hmanual, hrecent]
    | some g => simp [resume, resumeRollover, rollOverBusy, hforce, hdraining]

theorem endRollover_disposed {s : Pool} (h : s.disposed = true) :
    s.endRollover = ({ s with inFlight := false, pendingRollover := none }, []) := by
  simp only [endRollover, h, if_true, requestPending]

theorem endRollover_open {s : Pool} {request : Request} (h : s.disposed = false)
    (hclear : s.sweepOf request = none) :
    { s with pendingRollover := some request }.endRollover =
      ({ s with inFlight := true, pendingRollover := none }, [.rollover request .writing]) := by
  have hbegin : ∀ u : Pool, u.engines = s.engines → u.generations = s.generations →
      beginRun u request = .rollover request .writing := by
    intro u hengines hgenerations
    have hsame : u.sweepOf request = s.sweepOf request := by
      simp only [sweepOf, drainingThat, status, generation, hengines, hgenerations]
      rfl
    simp only [beginRun, hsame, hclear]
  simp only [endRollover, requestPending, requestRollover, h, Bool.false_eq_true, if_false]
  exact congrArg (fun p => (_, [p])) (hbegin _ rfl rfl)

theorem sweepOf_asking {s : Pool} {request : Request} {fingerprint : String} {primary : Option Nat}
    (h : Process.Swept s (.rollover request (.askingBusy fingerprint primary))) :
    s.sweepOf request = none := by
  simp only [sweepOf]
  cases hretire : request.retireDrainingIf with
  | none => rfl
  | some shouldRetire =>
      have hnone : s.drainingThat shouldRetire = [] :=
        List.eq_nil_iff_forall_not_mem.mpr fun g hg =>
          List.not_mem_nil (h request [] rfl shouldRetire hretire g hg)
      rw [Option.bind_some, hnone]
      rfl

namespace Clocked

variable {minSpawnInterval : Nat} {c c' : Clocked}

theorem step_keeps {I : World → Prop} (hI : ∀ w e w', I w → w.step e = some w' → I w') {m : Moment}
    (h : I c.world) (hstep : c.step minSpawnInterval m = some c') : I c'.world := by
  cases m with
  | pass ms =>
      cases hstep
      exact h
  | event e =>
      simp only [step] at hstep
      split at hstep
      · obtain ⟨w, hw, rfl⟩ := Option.map_eq_some_iff.mp hstep
        exact hI _ _ _ h hw
      · cases hstep

theorem step_parked {i : Nat} {request : Request} {text : String} {primary : Option Nat}
    (hget : c.world.processes[i]? = some (.rollover request (.askingBusy text primary)))
    (hparks : c.world.pool.parks request (c.recent minSpawnInterval) = true)
    (hstep : c.step minSpawnInterval
      (.event (.resume i (.busy true (c.recent minSpawnInterval)))) = some c') :
    let after := { c.world.pool with pendingRollover := some request }.endRollover
    c'.world = { c.world with processes := c.world.processes.eraseIdx i }.start after ∧
      c'.now = c.now ∧
      c'.lastSpawnAt = if after.2.any (·.spawns) then c.now else c.lastSpawnAt := by
  have hresume := @resume_parked _ _ text primary _ hparks
  simp only [step, tells, decide_true, if_true, World.step, resumed, hget, Option.bind_some,
    hresume, Option.map_some, Option.some.injEq] at hstep
  subst hstep
  exact ⟨rfl, rfl, rfl⟩

/-- **A parked rollover rests only in a pool that is disposed of.** -/
theorem rests_iff (minSpawnInterval now : Nat) (config : ServerConfig) (prepares : Bool)
    (handle : Server) (fingerprint : String) (registered : Bool) {c c' : Clocked}
    (h : Reach (step minSpawnInterval) (fun _ _ => True)
      (.adopted now config prepares handle fingerprint registered) c)
    {i : Nat} {request : Request} {text : String} {primary : Option Nat}
    (hget : c.world.processes[i]? = some (.rollover request (.askingBusy text primary)))
    (hparks : c.world.pool.parks request (c.recent minSpawnInterval) = true)
    (hstep : c.step minSpawnInterval
      (.event (.resume i (.busy true (c.recent minSpawnInterval)))) = some c') :
    c'.Rests minSpawnInterval c.world.pool.draining ↔ c.world.pool.disposed = true := by
  have horderly : c.world.Orderly := h.invariant (I := fun c => c.world.Orderly)
    (fun _ _ _ hw _ => step_keeps (fun _ _ _ hw => hw.step) hw) (orderly_adopted ..)
  have hafter : c'.world.Orderly := step_keeps (fun _ _ _ hw => hw.step) horderly hstep
  obtain ⟨hworld, hnow, hspawn⟩ := step_parked hget hparks hstep
  constructor
  · intro hrests
    by_contra hopen
    have hopen : c.world.pool.disposed = false := Bool.eq_false_iff.mpr hopen
    have hrunning : c.world.disposal = none := by
      rw [horderly.disposed] at hopen
      exact Option.isNone_iff_eq_none.mp (by simpa using hopen)
    have hclear := sweepOf_asking
      ((horderly.ordered hrunning).swept _ (List.mem_of_getElem? hget))
    rw [endRollover_open hopen hclear] at hworld hspawn
    have hholds : Holds minSpawnInterval c.world.pool.draining c' := by
      cases hdraining : c.world.pool.draining with
      | some g =>
          show c'.world.pool.draining = some g
          rw [hworld]
          exact hdraining
      | none =>
          simp only [parks, hdraining, Option.isSome_none, Bool.false_or, Bool.and_eq_true]
            at hparks
          simp only [Holds, recent, hnow, hspawn]
          exact hparks.2.2
    have hmem : Process.rollover request .writing ∈ c'.world.processes := by
      rw [hworld]
      exact List.mem_append_right _ (List.mem_singleton.mpr rfl)
    have hrest := hrests c' .refl hholds _ hmem
    cases hrest
  · intro hdisposed c'' hreach _ p hp
    have hgone : c'.world.pool.Gone := by
      rw [hworld,
        endRollover_disposed (s := { c.world.pool with pendingRollover := some request }) hdisposed]
      exact ⟨hdisposed, rfl, rfl⟩
    have hkeeps : c''.world.Orderly ∧ c''.world.pool.Gone :=
      hreach.invariant (I := fun c => c.world.Orderly ∧ c.world.pool.Gone)
        (fun _ _ _ hc _ => step_keeps (I := fun w => w.Orderly ∧ w.pool.Gone)
          (fun _ _ _ hw hstep => ⟨hw.1.step hstep, Gone.step hw.1 hw.2 hstep⟩) hc)
        ⟨hafter, hgone⟩
    have hnot := Gone.no_rollover hkeeps.1.kept hkeeps.2 p hp
    cases p with
    | rollover request stage => cases hnot
    | _ => rfl

/-! ### Over and over -/

/-- The configuration is written, its fingerprint is read, and the engine is busy. -/
def evaluation (i : Nat) (text : String) (recent : Bool) : List Moment :=
  [.event (.resume i .done), .event (.resume i (.fingerprint text)),
    .event (.resume i (.busy true recent))]

theorem step_last {before : List Process} {p q : Process} {answer : Answer}
    (hlast : c.world.processes = before ++ [p])
    (hresume : c.world.pool.resume p answer = some (c.world.pool, [q])) (hq : q.spawns = false)
    (htells : c.tells minSpawnInterval (.resume before.length answer) = true) :
    c.step minSpawnInterval (.event (.resume before.length answer)) =
      some { c with world := { c.world with processes := before ++ [q] } } := by
  have hget : c.world.processes[before.length]? = some p := by
    rw [hlast, List.getElem?_append_right (Nat.le_refl _), Nat.sub_self]
    rfl
  have herase : c.world.processes.eraseIdx before.length = before := by
    rw [hlast, List.eraseIdx_append_of_length_le (Nat.le_refl _), Nat.sub_self]
    exact List.append_nil before
  simp only [step, htells, if_true, World.step, resumed, hget, Option.bind_some, hresume,
    Option.map_some, herase, World.start, List.any_cons, hq, List.any_nil, Bool.or_self,
    Bool.false_eq_true, if_false]

/-- A request that is parked once is evaluated and parked any number of times, and each time the
pool is in the state it was in. -/
theorem evaluated_again {before : List Process} {request : Request} {text : String}
    (hlast : c.world.processes = before ++ [.rollover request .writing])
    (hflight : c.world.pool.inFlight = true) (hfree : c.world.pool.pendingRollover = none)
    (hopen : c.world.pool.disposed = false) (hclear : c.world.pool.sweepOf request = none)
    (hchanged : ∀ g ∈ c.world.pool.primary, (c.world.pool.generation g).fingerprint ≠ text)
    (hparks : c.world.pool.parks request (c.recent minSpawnInterval) = true) (n : Nat) :
    runActions (step minSpawnInterval)
      (List.replicate n (evaluation before.length text (c.recent minSpawnInterval))).flatten c =
        some c := by
  have hforce : request.forceStandby = false := by
    simp only [parks, Bool.and_eq_true, Bool.not_eq_true'] at hparks
    exact hparks.1
  have hany : (c.world.pool.primary.any fun g =>
      decide ((c.world.pool.generation g).fingerprint = text)) = false := by
    cases hprimary : c.world.pool.primary with
    | none => rfl
    | some g => simpa using hchanged g hprimary
  have hback : { c.world.pool with pendingRollover := some request }.endRollover =
      (c.world.pool, [.rollover request .writing]) := by
    rw [endRollover_open hopen hclear, ← hflight, ← hfree]
  let evaluating (stage : RolloverStage) : Clocked :=
    { c with world := { c.world with processes := before ++ [.rollover request stage] } }
  have hsame : evaluating .writing = c := by
    simp only [evaluating, ← hlast]
  have hwritten : (evaluating .writing).step minSpawnInterval
      (.event (.resume before.length .done)) = some (evaluating .fingerprinting) :=
    step_last rfl rfl rfl rfl
  have hread : (evaluating .fingerprinting).step minSpawnInterval
      (.event (.resume before.length (.fingerprint text))) =
        some (evaluating (.askingBusy text c.world.pool.primary)) := by
    refine step_last rfl ?_ rfl rfl
    show c.world.pool.resume _ _ = some (c.world.pool, _)
    simp only [resume, resumeRollover, rollOverChanged, hany, Bool.and_false, Bool.false_eq_true,
      if_false, hforce]
  have hparked : (evaluating (.askingBusy text c.world.pool.primary)).step minSpawnInterval
      (.event (.resume before.length (.busy true (c.recent minSpawnInterval)))) =
        some (evaluating .writing) := by
    refine step_last rfl ?_ rfl (decide_eq_true rfl)
    exact (resume_parked hparks).trans (congrArg some hback)
  have honce : runActions (step minSpawnInterval)
      (evaluation before.length text (c.recent minSpawnInterval)) c = some c := by
    rw [← hsame]
    simp only [evaluation, runActions, hwritten, hread, Option.bind_some]
    have hrecent : (evaluating .writing).recent minSpawnInterval = c.recent minSpawnInterval := rfl
    rw [hrecent, hparked]
    rfl
  induction n with
  | zero => rfl
  | succ n ih =>
      rw [List.replicate_succ, List.flatten_cons, runActions_append _ honce]
      exact ih

/-! ### Two runs -/

def firstClocked : Clocked := ⟨firstWorld, 0, 0⟩

/-- A changed configuration is heard of at once after the first engine is adopted. -/
def throttledMoments : List Moment := changedEvents.map .event

/-- The first process asks whether it is busy, and its request is parked. -/
def asksParked (c : Clocked) : Bool :=
  match c.world.processes[(0 : Nat)]? with
  | some (.rollover request (.askingBusy _ _)) => c.world.pool.parks request (c.recent 30000)
  | _ => false

theorem throttled_not_rests : ∃ c c' : Clocked,
    runActions (step 30000) throttledMoments firstClocked = some c ∧
      c.step 30000 (.event (.resume 0 (.busy true true))) = some c' ∧
      c.world.pool.disposed = false ∧ ¬ c'.Rests 30000 c.world.pool.draining := by
  have hrun : (runActions (step 30000) throttledMoments firstClocked).any (fun c : Clocked =>
      c.asksParked && c.recent 30000 && !c.world.pool.disposed &&
        (c.step 30000 (.event (.resume 0 (.busy true true)))).isSome) = true := by decide +kernel
  obtain ⟨c, hc, hstate⟩ := exists_of_any hrun
  simp only [Bool.and_eq_true, Bool.not_eq_true'] at hstate
  obtain ⟨⟨⟨hprocess, hrecent⟩, hopen⟩, hsome⟩ := hstate
  obtain ⟨c', hstep⟩ := Option.isSome_iff_exists.mp hsome
  have hreach : Reach (step 30000) (fun _ _ => True) firstClocked c :=
    reach_of_run (fun _ _ _ => trivial) hc
  refine ⟨c, c', hc, hstep, hopen, fun hrests => ?_⟩
  unfold asksParked at hprocess
  split at hprocess
  · next request text primary hget =>
      have hrests_iff := rests_iff 30000 0 _ _ _ _ _ hreach hget hprocess
        (by rw [hrecent]; exact hstep)
      have hdisposed := hrests_iff.mp hrests
      rw [hopen] at hdisposed
      cases hdisposed
  · cases hprocess

/-- A rollover, the interval, and another rollover while the engine before drains. -/
def drainMoments : List Moment :=
  (spawnEvents ++ flipEvents).map .event ++ [.pass 30000, .event (.requestRollover {})]

/-- The second process writes, and its request would be parked and sweeps nothing. -/
def writesParked (c : Clocked) : Bool :=
  match c.world.processes with
  | [.checking _, .rollover request .writing] =>
      request.retireDrainingIf.isNone && c.world.pool.parks request (c.recent 30000)
  | _ => false

/-- The drain goes on, no time passes, no rollover is asked for, and a request that is parked
behind the drain is evaluated any number of times. -/
theorem parked_over_and_over : ∃ c : Clocked,
    runActions (step 30000) drainMoments firstClocked = some c ∧ c.world.pool.draining = some 0 ∧
      ∀ n, runActions (step 30000) (List.replicate n (evaluation 1 "later" false)).flatten c =
        some c := by
  have hrun : (runActions (step 30000) drainMoments firstClocked).any (fun c : Clocked =>
      c.writesParked && c.world.pool.inFlight && c.world.pool.pendingRollover.isNone &&
        !c.world.pool.disposed && !c.recent 30000 && decide (c.world.pool.draining = some 0) &&
        c.world.pool.primary.all fun g =>
          decide ((c.world.pool.generation g).fingerprint ≠ "later")) = true := by decide +kernel
  obtain ⟨c, hc, hstate⟩ := exists_of_any hrun
  simp only [Bool.and_eq_true, Bool.not_eq_true', Option.isNone_iff_eq_none, decide_eq_true_eq]
    at hstate
  obtain ⟨⟨⟨⟨⟨⟨hprocesses, hflight⟩, hfree⟩, hopen⟩, hold⟩, hdraining⟩, hchanged⟩ := hstate
  refine ⟨c, hc, hdraining, fun n => ?_⟩
  unfold writesParked at hprocesses
  split at hprocesses
  · next g request hlist =>
      rw [Bool.and_eq_true, Option.isNone_iff_eq_none] at hprocesses
      have hclear : c.world.pool.sweepOf request = none := by
        rw [sweepOf, hprocesses.1]
        rfl
      have hnew : ∀ g ∈ c.world.pool.primary,
          (c.world.pool.generation g).fingerprint ≠ "later" := by
        intro g hg
        rw [Option.mem_def.mp hg] at hchanged
        exact of_decide_eq_true hchanged
      have hagain := @evaluated_again 30000 c [.checking g] request "later" hlist hflight hfree
        hopen hclear hnew hprocesses.2 n
      rw [hold] at hagain
      exact hagain
  · cases hprocesses

end Clocked

end OmniRush.Engine
