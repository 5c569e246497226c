import OmniRush.Engine.Requests
import OmniRush.Proofs.PoolRequests

/-!
# The drains that a rollover still retires

A request may want drains retired, and a rollover of it retires those it finds when it starts
(`Sweep.ahead`). Handles stay, and no engine begins to drain but at the flip of the only rollover
there is. So past its sweep no drain is left that the request wants retired (`Swept`). That holds
in every run until the pool is disposed of (`World.Orderly`).
-/

namespace OmniRush.Engine

open Process Pool

namespace Pool

/-! ## Handles stay -/

/-- The engines keep their handles, and the pool is disposed of or not as before. -/
structure Onward (s t : Pool) : Prop where
  handles : ∀ g, g < s.engines.length → (t.generation g).handle = (s.generation g).handle
  length : s.engines.length ≤ t.engines.length
  disposed : t.disposed = s.disposed

theorem Onward.of_engines {s t : Pool} (h : t.engines = s.engines)
    (hdisposed : t.disposed = s.disposed) : s.Onward t := by
  refine ⟨fun g _ => ?_, Nat.le_of_eq (by rw [h]), hdisposed⟩
  simp only [generation, h]

theorem Onward.refl (s : Pool) : s.Onward s := .of_engines rfl rfl

theorem Onward.trans {s t u : Pool} (h : s.Onward t) (h' : t.Onward u) : s.Onward u where
  handles g hg := (h'.handles g (Nat.lt_of_lt_of_le hg h.length)).trans (h.handles g hg)
  length := Nat.le_trans h.length h'.length
  disposed := h'.disposed.trans h.disposed

theorem Onward.update (s : Pool) (g : Nat) (f : Generation → Generation)
    (h : ∀ e, (f e).handle = e.handle) : s.Onward (s.update g f) where
  handles x _ := handle_update s g x f h
  length := Nat.le_of_eq (length_update s g f).symm
  disposed := rfl

theorem Onward.spawned (s : Pool) (handle : Server) (fingerprint : String) :
    s.Onward (s.spawned handle fingerprint) where
  handles g hg := by rw [generation_spawned, if_neg (Nat.ne_of_lt hg)]
  length := by simp [Pool.spawned]
  disposed := rfl

theorem Onward.flip (s : Pool) (next : Nat) (previous : Option Nat) :
    s.Onward (s.flip next previous) := by
  cases previous with
  | none =>
      exact (Onward.update s next (fun e => { e with status := .primary }) fun _ => rfl).trans
        (.of_engines rfl rfl)
  | some g =>
      have hprimary := Onward.update s next (fun e => { e with status := .primary }) fun _ => rfl
      have hdraining := Onward.update (s.update next fun e => { e with status := .primary }) g
        (fun e => { e with status := .draining }) fun _ => rfl
      exact (hprimary.trans hdraining).trans (.of_engines rfl rfl)

/-- A step that begins rollovers in the pool it leaves. -/
structure Begins (s t : Pool) (ps : List Process) : Prop where
  onward : s.Onward t
  begun : ∀ q ∈ ps, ∃ u request, q = beginRun u request ∧ u.engines = t.engines ∧
    u.generations = t.generations

theorem Begins.nil {s t : Pool} (h : s.Onward t) : s.Begins t [] := ⟨h, fun _ hq => by cases hq⟩

theorem Begins.after {s t u : Pool} {ps : List Process} (h : t.Begins u ps) (h' : s.Onward t) :
    s.Begins u ps := ⟨h'.trans h.onward, h.begun⟩

theorem requestRollover_begins (s : Pool) (request : Request) :
    s.Begins (s.requestRollover request).1 (s.requestRollover request).2 := by
  simp only [requestRollover]
  split
  · exact .nil (.refl s)
  split
  · exact .nil (.of_engines rfl rfl)
  · refine ⟨.of_engines rfl rfl, fun q hq => ?_⟩
    exact ⟨s, request, List.mem_singleton.mp hq, rfl, rfl⟩

theorem requestPending_begins (s : Pool) : s.Begins s.requestPending.1 s.requestPending.2 := by
  simp only [requestPending]
  split
  · exact .nil (.refl s)
  · exact (requestRollover_begins _ _).after (.of_engines rfl rfl)

theorem endRollover_begins (s : Pool) : s.Begins s.endRollover.1 s.endRollover.2 :=
  (requestPending_begins _).after (.of_engines rfl rfl)

theorem beginRetire_onward (s : Pool) (g : Nat) : s.Onward (s.beginRetire g).1 := by
  simp only [beginRetire]
  split
  · exact .refl s
  · exact .update s g _ fun _ => rfl

theorem endRetire_begins (s : Pool) (shutdown : Bool) (g : Nat) :
    s.Begins (s.endRetire shutdown g).1 (s.endRetire shutdown g).2 := by
  simp only [endRetire]
  split
  · exact .nil (.of_engines rfl rfl)
  · exact (requestPending_begins _).after (.of_engines rfl rfl)

theorem stepRetire_begins (s : Pool) (shutdown : Bool) (r : Retire) :
    s.Begins (s.stepRetire shutdown r).1 (s.stepRetire shutdown r).2.2 := by
  cases r with
  | closing g =>
      simp only [stepRetire]
      split
      · exact .nil (.refl s)
      · exact endRetire_begins s shutdown g
  | unregistering g =>
      exact (endRetire_begins _ shutdown g).after (.update s g _ fun _ => rfl)

theorem stepSweep_begins (s : Pool) (sweep : Sweep) :
    s.Begins (s.stepSweep sweep).1 (s.stepSweep sweep).2.2 := by
  cases sweep with
  | aborting g rest =>
      have honward := beginRetire_onward s g
      simp only [stepSweep]
      split
      · next heq =>
          rw [heq] at honward
          exact .nil honward
      · next heq =>
          rw [heq] at honward
          exact .nil honward
  | retiring r rest =>
      have hbegins := stepRetire_begins s false r
      simp only [stepSweep]
      split
      · next heq =>
          rw [heq] at hbegins
          exact hbegins
      · next heq =>
          rw [heq] at hbegins
          exact hbegins

/-! ## What a sweep has ahead -/

end Pool

/-- The drains that a request has still to retire before it is evaluated. -/
def Sweep.ahead : Sweep → List Nat
  | .aborting g rest => g :: rest
  | .retiring _ rest => rest

/-- The request of a rollover that is not past its evaluation, and the drains it still retires. -/
def Process.ahead : Process → Option (Request × List Nat)
  | .rollover request (.sweepFirst sw) => some (request, sw.ahead)
  | .rollover request stage => if stage.evaluates then some (request, []) else none
  | _ => none

/-- Each drain that the request wants retired is ahead. -/
def Process.Swept (s : Pool) (p : Process) : Prop :=
  ∀ request ahead, p.ahead = some (request, ahead) → ∀ shouldRetire ∈ request.retireDrainingIf,
    ∀ g ∈ s.drainingThat shouldRetire, g ∈ ahead

namespace Pool

theorem ahead_beginSweep {list : List Nat} {sw : Sweep} (h : beginSweep list = some sw) :
    sw.ahead = list := by
  cases list with
  | nil => cases h
  | cons g rest =>
      cases h
      rfl

theorem beginSweep_none {list : List Nat} (h : beginSweep list = none) : list = [] := by
  cases list with
  | nil => rfl
  | cons g rest => cases h

/-- What a sweep has ahead after a step. -/
def left : Option Sweep → List Nat
  | some sw => sw.ahead
  | none => []

theorem left_beginSweep (list : List Nat) : left (beginSweep list) = list := by
  cases list <;> rfl

theorem beginRetire_status (s : Pool) (g : Nat) : (s.beginRetire g).1.status g ≠ .draining := by
  simp only [beginRetire]
  split
  · next hdead =>
      rw [hdead]
      nofun
  · next hlive =>
      by_cases hlt : g < s.engines.length
      · simp [status, generation_update, hlt]
      · intro hdraining
        have hlive' : (s.update g fun e => { e with
            status := .dead, monitored := false, closed := true }).status g ≠ .starting := by
          rw [hdraining]
          nofun
        exact hlt (length_update s g _ ▸ lt_of_status hlive')

theorem stepSweep_left (s : Pool) (sw : Sweep) : ∀ g ∈ sw.ahead,
    g ∈ left (s.stepSweep sw).2.1 ∨ (s.stepSweep sw).1.status g ≠ .draining := by
  intro x hx
  cases sw with
  | aborting g rest =>
      have hstatus := beginRetire_status s g
      simp only [stepSweep]
      split
      · next heq =>
          rw [heq] at hstatus
          rcases List.mem_cons.mp hx with rfl | hrest
          · exact .inr hstatus
          · exact .inl hrest
      · next heq =>
          rw [heq] at hstatus
          rcases List.mem_cons.mp hx with rfl | hrest
          · exact .inr hstatus
          · exact .inl ((left_beginSweep rest).symm ▸ hrest)
  | retiring r rest =>
      simp only [stepSweep]
      split
      · exact .inl hx
      · exact .inl ((left_beginSweep rest).symm ▸ hx)

/-- A process of a rollover that goes on: what is no longer ahead of it does not drain. -/
def Continues (p : Process) (t : Pool) (q : Process) : Prop :=
  ∀ request ahead, q.ahead = some (request, ahead) → ∃ before,
    p.ahead = some (request, before) ∧ ∀ g ∈ before, g ∈ ahead ∨ t.status g ≠ .draining

/-- What a process leaves: rollovers that begin, and what goes on. -/
structure Follows (s : Pool) (p : Process) (t : Pool) (ps : List Process) : Prop where
  onward : s.Onward t
  each : ∀ q ∈ ps, (∃ u request, q = beginRun u request ∧ u.engines = t.engines ∧
    u.generations = t.generations) ∨ Continues p t q

variable {s t u : Pool} {p : Process} {ps : List Process}

theorem Begins.follows (h : s.Begins t ps) : s.Follows p t ps :=
  ⟨h.onward, fun q hq => .inl (h.begun q hq)⟩

theorem Follows.cons (h : s.Follows p t ps) {q : Process} (hq : Continues p t q) :
    s.Follows p t (q :: ps) := by
  refine ⟨h.onward, fun r hr => ?_⟩
  rcases List.mem_cons.mp hr with rfl | hr
  · exact .inr hq
  · exact h.each r hr

theorem continues_of_none {q : Process} (h : q.ahead = none) : Continues p t q := by
  intro request ahead heq
  rw [h] at heq
  cases heq

theorem Follows.past (h : s.Onward t) {q : Process} (hq : q.ahead = none) :
    s.Follows p t [q] := ((Begins.nil h).follows).cons (continues_of_none hq)

theorem Follows.end_of (h : s.Onward u) : s.Follows p u.endRollover.1 u.endRollover.2 :=
  ((endRollover_begins u).after h).follows

theorem Follows.evaluated {request : Request} {stage stage' : RolloverStage}
    (h : stage.evaluates = true) (h' : stage'.evaluates = true) :
    s.Follows (.rollover request stage) s [.rollover request stage'] := by
  have hahead : ∀ stage : RolloverStage, stage.evaluates = true →
      (Process.rollover request stage).ahead = some (request, []) := by
    intro stage hstage
    cases stage <;> first | rfl | cases hstage
  refine ((Begins.nil (.refl s)).follows).cons fun request' ahead heq => ?_
  rw [hahead stage' h'] at heq
  cases heq
  exact ⟨[], hahead stage h, by simp⟩

theorem rollOverBusy_follows {request : Request} {stage : RolloverStage} {fingerprint : String}
    {primary : Option Nat} {recent : Bool}
    (h : s.rollOverBusy request fingerprint primary recent = (t, ps)) :
    s.Follows (.rollover request stage) t ps := by
  have hpark : ∀ {t : Pool} {ps : List Process},
      { s with pendingRollover := some request }.endRollover = (t, ps) →
        s.Follows (.rollover request stage) t ps := by
    intro t ps heq
    have hfollows : s.Follows (.rollover request stage) _ _ :=
      .end_of (u := { s with pendingRollover := some request }) (.of_engines rfl rfl)
    rw [heq] at hfollows
    exact hfollows
  simp only [rollOverBusy] at h
  split at h
  · split at h
    · cases h
      refine Follows.past ?_ rfl
      exact .of_engines rfl rfl
    · exact hpark h
  · split at h
    · exact hpark h
    · cases h
      exact .past (.refl s) rfl

theorem rollOverChanged_follows {request : Request} {fingerprint : String}
    (h : s.rollOverChanged request fingerprint = (t, ps)) :
    s.Follows (.rollover request .fingerprinting) t ps := by
  simp only [rollOverChanged] at h
  split at h
  · have hfollows : s.Follows (.rollover request .fingerprinting) _ _ := .end_of (.refl s)
    rw [h] at hfollows
    exact hfollows
  · split at h
    · exact rollOverBusy_follows h
    · cases h
      exact .evaluated rfl rfl

theorem resumeStandby_follows {request : Request} {g : Nat} {primary : Option Nat}
    {stage : StandbyStage} {answer : Answer}
    (h : s.resumeStandby request g primary stage answer = some (t, ps)) :
    s.Follows p t ps := by
  have hregister : some (s.registerStandby request g primary) = some (t, ps) →
      s.Follows p t ps := by
    intro heq
    simp only [registerStandby] at heq
    split at heq
    · cases heq
      refine Follows.past ?_ rfl
      exact .update s g _ fun _ => rfl
    · cases heq
      exact .past (.refl s) rfl
  simp only [resumeStandby] at h
  split at h
  · cases h
    refine Follows.past ?_ rfl
    have hdrop : s.Onward (s.drop g) := .of_engines rfl rfl
    exact hdrop.trans (.update _ g _ fun _ => rfl)
  · split at h
    · cases h
      exact .past (.refl s) rfl
    · exact hregister h
  · exact hregister h
  · exact hregister h
  · cases h
    exact .past (.refl s) rfl
  · cases h
    exact .past (.refl s) rfl
  · cases h
    exact .past (.refl s) rfl
  · simp only [rollOverFlip] at h
    cases primary with
    | none =>
        cases h
        exact .past (.flip s g none) rfl
    | some previous =>
        cases h
        refine Follows.cons ⟨?_, fun q hq => ?_⟩ (continues_of_none rfl)
        · exact (Onward.flip s g (some previous)).trans (.update _ previous _ fun _ => rfl)
        · simp only [startDrainMonitor, beginTick] at hq
          split at hq
          · rw [List.mem_singleton.mp hq]
            exact .inr (continues_of_none rfl)
          · cases hq
  · cases h

theorem resumeSweep_follows {request : Request} {stage : Sweep → RolloverStage} {sw : Sweep}
    {after : Pool → Pool × List Process}
    (hgoes : ∀ (u : Pool) (sw' : Sweep), (∀ g ∈ sw.ahead, g ∈ sw'.ahead ∨ u.status g ≠ .draining) →
      Continues (.rollover request (stage sw)) u (.rollover request (stage sw')))
    (hafter : ∀ u : Pool, (∀ g ∈ sw.ahead, u.status g ≠ .draining) →
      u.Follows (.rollover request (stage sw)) (after u).1 (after u).2)
    (hsame : ∀ u : Pool, (after u).1.engines = u.engines ∧ (after u).1.generations = u.generations)
    (h : s.resumeSweep request stage sw after = (t, ps)) :
    s.Follows (.rollover request (stage sw)) t ps := by
  have hbegins := stepSweep_begins s sw
  have hleft := stepSweep_left s sw
  simp only [resumeSweep] at h
  split at h
  · next u sw' started heq =>
      rw [heq] at hbegins hleft
      cases h
      exact hbegins.follows.cons (hgoes _ sw' hleft)
  · next u started heq =>
      rw [heq] at hbegins hleft
      have hfollows := hafter u fun g hg => (hleft g hg).resolve_left (by simp [left])
      obtain ⟨hengines, hgenerations⟩ := hsame u
      cases h
      refine ⟨hbegins.onward.trans hfollows.onward, fun q hq => ?_⟩
      rcases List.mem_append.mp hq with hq | hq
      · exact hfollows.each q hq
      · obtain ⟨v, request', heq', hv, hv'⟩ := hbegins.begun q hq
        exact .inl ⟨v, request', heq', hv.trans hengines.symm, hv'.trans hgenerations.symm⟩

theorem endRollover_same (s : Pool) :
    s.endRollover.1.engines = s.engines ∧ s.endRollover.1.generations = s.generations := by
  simp only [endRollover, requestPending]
  split
  · exact ⟨rfl, rfl⟩
  · simp only [requestRollover]
    split
    · exact ⟨rfl, rfl⟩
    · split <;> exact ⟨rfl, rfl⟩

theorem resumeRollover_follows {request : Request} {stage : RolloverStage} {answer : Answer}
    (h : s.resumeRollover request stage answer = some (t, ps)) :
    s.Follows (.rollover request stage) t ps := by
  have hend : ∀ {stage : RolloverStage} {u : Pool}, s.Onward u → some u.endRollover = some (t, ps) →
      s.Follows (.rollover request stage) t ps := by
    intro stage u honward heq
    have hfollows : s.Follows (.rollover request stage) _ _ := .end_of honward
    rw [Option.some.inj heq] at hfollows
    exact hfollows
  simp only [resumeRollover] at h
  split at h
  · next sw =>
      refine resumeSweep_follows (fun u sw' hleft request' ahead heq => ?_) (fun u hnone => ?_)
        (fun u => ⟨rfl, rfl⟩) (Option.some.inj h)
      · cases heq
        exact ⟨sw.ahead, rfl, hleft⟩
      · refine ((Begins.nil (.refl u)).follows).cons fun request' ahead heq => ?_
        cases heq
        exact ⟨sw.ahead, rfl, fun g hg => .inr (hnone g hg)⟩
  · cases h
    exact .evaluated rfl rfl
  · cases h
    exact .evaluated rfl rfl
  · exact rollOverChanged_follows (Option.some.inj h)
  · split at h
    · exact rollOverBusy_follows (Option.some.inj h)
    · cases h
      exact .past (.refl s) rfl
  · split at h
    · next fingerprint _ g =>
        exact hend (.update s g (fun e => { e with fingerprint := fingerprint }) fun _ => rfl) h
    · exact hend (.refl s) h
  · exact hend (.refl s) h
  · split at h
    · cases h
    · split at h
      · exact hend (.refl s) h
      · cases h
        exact ⟨.refl s, fun q hq => .inl ⟨s, request, List.mem_singleton.mp hq, rfl, rfl⟩⟩
  · exact hend (.refl s) h
  · next fingerprint primary handle =>
      cases h
      refine Follows.past ?_ rfl
      exact (Onward.spawned s handle fingerprint).trans (.of_engines rfl rfl)
  · exact resumeStandby_follows h
  · exact hend (.refl s) h
  · exact hend (.refl s) h
  · split at h
    · cases h
      exact .past (.refl s) rfl
    · exact hend (.refl s) h
  · next sw =>
      refine resumeSweep_follows (fun u sw' _ => continues_of_none rfl)
        (fun u _ => (endRollover_begins u).follows) endRollover_same (Option.some.inj h)
  · cases h

/-! ## The other processes -/

theorem Follows.of_requests (h : s.Onward t) (hps : requests ps = []) : s.Follows p t ps := by
  refine ⟨h, fun q hq => .inr (continues_of_none ?_)⟩
  have hnone := List.filterMap_eq_nil_iff.mp hps q hq
  cases q with
  | rollover request stage => cases hnone
  | _ => rfl

theorem probePrevious_onward (s : Pool) (previous : Option Nat) :
    s.Onward (s.probePrevious previous).1 := by
  cases previous <;> exact .refl s

theorem recoverDeadPrimary_onward (s : Pool) : s.Onward s.recoverDeadPrimary.1 := by
  simp only [recoverDeadPrimary]
  split
  · exact .refl s
  · split
    · have hrecovering : s.Onward { s with recovering := true } := .of_engines rfl rfl
      exact hrecovering.trans (.update _ _ _ fun _ => rfl)
    · refine Onward.trans ?_ (probePrevious_onward _ _)
      exact .of_engines rfl rfl

theorem recoveryFlip_onward (s : Pool) (g : Nat) : s.Onward (s.recoveryFlip g).1 :=
  (Onward.flip s g none).trans (.of_engines rfl rfl)

theorem resumeRecovery_onward {stage : RecoveryStage} {answer : Answer}
    (h : s.resumeRecovery stage answer = some (t, ps)) : s.Onward t := by
  have hfail : ∀ {u : Pool}, s.Onward u → some u.failRecovery = some (t, ps) → s.Onward t := by
    intro u honward heq
    cases heq
    exact honward.trans (.of_engines rfl rfl)
  have hflip : ∀ {u : Pool} {g : Nat}, s.Onward u → some (u.recoveryFlip g) = some (t, ps) →
      s.Onward t := by
    intro u g honward heq
    cases heq
    exact honward.trans (recoveryFlip_onward u g)
  have hclose : ∀ g, s.Onward (s.close g) := fun g => .update s g _ fun _ => rfl
  have hdead : ∀ g, s.Onward (s.setStatus g .dead) := fun g => .update s g _ fun _ => rfl
  simp only [resumeRecovery] at h
  split at h
  · split at h
    · exact hfail (.refl s) h
    · next previous _ _ =>
        have hprobe := probePrevious_onward { s with recoveryOrphan := none } previous
        have hnone : s.Onward { s with recoveryOrphan := none } := .of_engines rfl rfl
        rw [Option.some.inj h] at hprobe
        exact hnone.trans hprobe
  · exact hfail (.refl s) h
  · split at h
    · cases h
      exact hclose _
    · cases h
      exact .of_engines rfl rfl
  · exact hfail (.refl s) h
  · split at h
    · exact hfail (.refl s) h
    · split at h
      · cases h
        exact hdead _
      · cases h
        exact (hdead _).trans (.of_engines rfl rfl)
  · exact hfail (.refl s) h
  · cases h
    exact .of_engines rfl rfl
  · cases h
    exact .of_engines rfl rfl
  · cases h
    exact .spawned s _ _
  · exact hfail (.refl s) h
  · cases h
    exact .refl s
  · cases h
    exact hclose _
  · next g text =>
      have hpush : s.Onward ((s.update g fun e => { e with fingerprint := text }).push g) :=
        (Onward.update s g (fun e => { e with fingerprint := text }) fun _ => rfl).trans
          (.of_engines rfl rfl)
      split at h
      · cases h
        exact hpush.trans (.update _ g _ fun _ => rfl)
      · exact hflip hpush h
  · exact hflip (.refl s) h
  · exact hflip (.refl s) h
  · refine hfail ?_ h
    exact .of_engines rfl rfl
  · refine hfail ?_ h
    exact .of_engines rfl rfl
  · cases h

theorem resumeRecovery_follows {stage : RecoveryStage} {answer : Answer}
    (h : s.resumeRecovery stage answer = some (t, ps)) : s.Follows p t ps :=
  .of_requests (resumeRecovery_onward h) (resumeRecovery_quiet h).none

/-- **What a resumed process leaves.** -/
theorem resume_follows {answer : Answer} (h : s.resume p answer = some (t, ps)) :
    s.Follows p t ps := by
  simp only [resume] at h
  split at h
  · exact resumeRollover_follows h
  · exact resumeRecovery_follows h
  · next g mayClose =>
      have honward := beginRetire_onward s g
      split at h
      · split at h
        · next heq =>
            rw [heq] at honward
            cases h
            exact .past honward rfl
        · next heq =>
            rw [heq] at honward
            cases h
            exact (Begins.nil honward).follows
      · cases h
        exact (Begins.nil (.refl s)).follows
  · next r =>
      have hbegins := stepRetire_begins s false r
      split at h
      · next heq =>
          rw [heq] at hbegins
          cases h
          exact hbegins.follows.cons (continues_of_none rfl)
      · next heq =>
          rw [heq] at hbegins
          cases h
          exact hbegins.follows
  · next sw =>
      have hbegins := stepSweep_begins s sw
      split at h
      · next heq =>
          rw [heq] at hbegins
          cases h
          exact hbegins.follows.cons (continues_of_none rfl)
      · next heq =>
          rw [heq] at hbegins
          cases h
          exact hbegins.follows
  · cases h

end Pool

/-! ## What every run keeps -/

/-- A rollover that is evaluated or will be: it has begun, or it goes on. -/
def World.Goes (w w' : World) : Prop :=
  ∀ q ∈ w'.processes, ∀ request ahead, q.ahead = some (request, ahead) →
    (∃ u request, q = beginRun u request ∧ u.engines = w'.pool.engines ∧
      u.generations = w'.pool.generations) ∨
    ∃ p ∈ w.processes, ∃ before, p.ahead = some (request, before) ∧
      ∀ g ∈ before, g ∈ ahead ∨ w'.pool.status g ≠ .draining

structure World.Ordered (w : World) : Prop where
  standby : ∀ p ∈ w.processes, ∀ g ∈ p.held, w.pool.status g = .starting
  swept : ∀ p ∈ w.processes, p.Swept w.pool

variable {w w' : World}

theorem goes_of_follows {ps : List Process} {p : Process} (h : w.pool.Follows p w'.pool ps)
    (hp : p ∈ w.processes ∨ p.ahead = none)
    (hps : ∀ q ∈ w'.processes, q ∈ w.processes ∨ q ∈ ps) : w.Goes w' := by
  intro q hq request ahead hahead
  rcases hps q hq with hold | hnew
  · exact .inr ⟨q, hold, ahead, hahead, fun g hg => .inl hg⟩
  · rcases h.each q hnew with hbegun | hgoes
    · exact .inl hbegun
    · obtain ⟨before, hbefore, hleft⟩ := hgoes request ahead hahead
      rcases hp with hmem | hnone
      · exact .inr ⟨p, hmem, before, hbefore, hleft⟩
      · rw [hnone] at hbefore
        cases hbefore

theorem goes_start {ps : List Process} {t : Pool}
    (h : w.pool.Follows (.recovery .spawning) t ps) : w.Goes (w.start (t, ps)) :=
  goes_of_follows h (.inr rfl) fun _ hq => List.mem_append.mp hq

theorem step_goes {e : Event} (h : w.step e = some w') (hbegins : e ≠ .disposeAll)
    (hresumes : e ≠ .resumeDisposal) :
    w.Goes w' ∧ w.pool.Onward w'.pool ∧ w'.disposal = w.disposal := by
  have hstart : ∀ {after : Pool × List Process},
      w.pool.Follows (.recovery .spawning) after.1 after.2 → w.start after = w' →
        w.Goes w' ∧ w.pool.Onward w'.pool ∧ w'.disposal = w.disposal := by
    rintro ⟨t, ps⟩ hfollows rfl
    exact ⟨goes_start hfollows, hfollows.onward, rfl⟩
  cases e with
  | requestRollover request =>
      exact hstart (requestRollover_begins w.pool request).follows (Option.some.inj h)
  | retireDraining shouldRetire =>
      exact hstart (.of_requests (.refl _) (sweeps_requests _)) (Option.some.inj h)
  | reportRequestFailure toPrimary recent =>
      have honward : w.pool.Onward (w.pool.reportRequestFailure toPrimary recent).1 := by
        simp only [reportRequestFailure]
        split
        · exact .refl _
        · split
          · exact .of_engines rfl rfl
          · refine Onward.trans ?_ (recoverDeadPrimary_onward _)
            exact .of_engines rfl rfl
      exact hstart (.of_requests honward (reportRequestFailure_quiet _ _ _).none)
        (Option.some.inj h)
  | reportRequestSuccess toPrimary =>
      simp only [World.step] at h
      split at h
      · refine hstart (.of_requests ?_ rfl) (Option.some.inj h)
        exact .of_engines rfl rfl
      · cases h
        exact ⟨fun q hq request ahead hahead => .inr ⟨q, hq, ahead, hahead, fun g hg => .inl hg⟩,
          .refl _, rfl⟩
  | recoveryTimer =>
      simp only [World.step] at h
      split at h
      · refine hstart (.of_requests ?_ (recoverDeadPrimary_quiet (.refl _)).none)
          (Option.some.inj h)
        refine Onward.trans ?_ (recoverDeadPrimary_onward _)
        exact .of_engines rfl rfl
      · cases h
  | drainCheck g =>
      simp only [World.step] at h
      split at h
      · exact hstart (.of_requests (.refl _) (beginTick_requests _ _)) (Option.some.inj h)
      · cases h
  | disposeAll => exact absurd rfl hbegins
  | resume i answer =>
      obtain ⟨p, hget, hafter⟩ := Option.bind_eq_some_iff.mp h
      obtain ⟨⟨t, ps⟩, hresume, rfl⟩ := Option.map_eq_some_iff.mp hafter
      have hfollows : w.pool.Follows p t ps := resume_follows hresume
      refine ⟨goes_of_follows hfollows (.inl (List.mem_of_getElem? hget)) fun q hq => ?_,
        hfollows.onward, rfl⟩
      exact (List.mem_append.mp hq).imp_left List.mem_of_mem_eraseIdx
  | resumeDisposal => exact absurd rfl hresumes

theorem begun_swept {s u : Pool} {request : Request} (hengines : u.engines = s.engines)
    (hgenerations : u.generations = s.generations) : (beginRun u request).Swept s := by
  intro request' ahead hahead shouldRetire hretire g hg
  have hsame : u.drainingThat shouldRetire = s.drainingThat shouldRetire := by
    simp only [drainingThat, status, generation, hengines, hgenerations]
    rfl
  rw [← hsame] at hg
  simp only [beginRun] at hahead
  split at hahead
  · next sw hsweep =>
      cases hahead
      simp only [sweepOf] at hsweep
      rw [Option.mem_def.mp hretire, Option.bind_some] at hsweep
      rw [ahead_beginSweep hsweep]
      exact hg
  · next hsweep =>
      cases hahead
      simp only [sweepOf] at hsweep
      rw [Option.mem_def.mp hretire, Option.bind_some] at hsweep
      rw [beginSweep_none hsweep] at hg
      exact hg

/-- If no engine begins to drain, the drains of each request stay ahead of it. -/
theorem swept_of_goes (h : w.Ordered) (hgoes : w.Goes w')
    (hback : ∀ shouldRetire, ∀ g ∈ w'.pool.drainingThat shouldRetire,
      g ∈ w.pool.drainingThat shouldRetire) : ∀ q ∈ w'.processes, q.Swept w'.pool := by
  intro q hq request ahead hahead shouldRetire hretire g hg
  rcases hgoes q hq request ahead hahead with
    ⟨u, request', rfl, hengines, hgenerations⟩ | ⟨p, hp, before, hbefore, hleft⟩
  · exact begun_swept hengines hgenerations request ahead hahead shouldRetire hretire g hg
  · have hmem := h.swept p hp request before hbefore shouldRetire hretire g (hback _ g hg)
    exact (hleft g hmem).resolve_right (not_not.mpr (mem_drainingThat hg))

/-- What drains in `t` and is in its list drained in `s`. -/
def Pool.DrainsBack (s t : Pool) : Prop :=
  ∀ g ∈ t.generations, t.status g = .draining → s.status g = .draining ∧ g ∈ s.generations

theorem mem_drainingThat_iff {s : Pool} {shouldRetire : String → Bool} {g : Nat} :
    g ∈ s.drainingThat shouldRetire ↔
      g ∈ s.generations ∧ s.status g = .draining ∧ shouldRetire (s.generation g).handle.url := by
  simp only [drainingThat, List.mem_filter, Bool.and_eq_true, decide_eq_true_eq]

theorem drainingThat_back {s t : Pool} (h : s.DrainsBack t) (honward : s.Onward t)
    (shouldRetire : String → Bool) : ∀ g ∈ t.drainingThat shouldRetire,
      g ∈ s.drainingThat shouldRetire := by
  intro g hg
  obtain ⟨hin, hstatus, hurl⟩ := mem_drainingThat_iff.mp hg
  obtain ⟨hbefore, hin'⟩ := h g hin hstatus
  have hlt : g < s.engines.length := lt_of_status (by rw [hbefore]; nofun)
  rw [honward.handles g hlt] at hurl
  exact mem_drainingThat_iff.mpr ⟨hin', hbefore, hurl⟩

theorem isRollover_of_ahead {q : Process} {request : Request} {ahead : List Nat}
    (h : q.ahead = some (request, ahead)) : q.isRollover = true ∧ q.passed = false := by
  cases q with
  | rollover request' stage =>
      cases stage <;> first | exact ⟨rfl, rfl⟩ | cases h
  | _ => cases h

theorem rollover_unique (h : w.Kept) {p q : Process} (hp : p ∈ w.processes) (hq : q ∈ w.processes)
    (hpr : p.isRollover = true) (hqr : q.isRollover = true) : p = q := by
  by_contra hne
  obtain ⟨before, after, hsplit⟩ := List.append_of_mem hp
  have hone := h.one
  rw [hsplit, rollovers, List.countP_append, List.countP_cons_of_pos hpr] at hone
  have hle := Bool.toNat_le w.pool.inFlight
  rw [hsplit, List.mem_append, List.mem_cons] at hq
  rcases hq with hq | heq | hq
  · have hpos : 0 < before.countP isRollover := List.countP_pos_iff.mpr ⟨q, hq, hqr⟩
    omega
  · exact hne heq.symm
  · have hpos : 0 < after.countP isRollover := List.countP_pos_iff.mpr ⟨q, hq, hqr⟩
    omega

theorem flips_names {s : Pool} {p : Process} {answer : Answer} {next : Nat} {previous : Option Nat}
    (h : flips s p answer = some (next, previous)) : ∀ g ∈ previous, g ∈ p.names := by
  intro g hg
  simp only [flips] at h
  split at h
  · cases h
    exact Option.mem_toList.mpr hg
  · split at h
    · cases h
    · cases h
      cases hg
  · cases h
    cases hg
  · cases h
    cases hg
  · cases h

theorem World.Ordered.runs (h : w.Ordered) (hkept : w.Kept) {p : Process} {rest ps : List Process}
    (hpick : w.Picks p rest) (hprocesses : w'.processes = rest ++ ps)
    (ho : Outcome w.pool p w'.pool ps) (hgoes : w.Goes w') (honward : w.pool.Onward w'.pool) :
    w'.Ordered := by
  obtain ⟨-, hrest, hdistinct, -⟩ := hkept.picks hpick
  have hstandby : ∀ g ∈ p.held, w.pool.status g = .starting := by
    cases hpick with
    | resumed hperm => exact h.standby p (hperm.mem_iff.mpr (List.mem_cons_self ..))
    | event => nofun
  refine ⟨fun q hq g hg => ?_,
    swept_of_goes h hgoes (drainingThat_back (fun g hin hstatus => ?_) honward)⟩
  · rw [hprocesses] at hq
    rcases List.mem_append.mp hq with hq | hq
    · have hstarting := h.standby q (hrest q hq).2 g hg
      rcases ho.moves.status g with heq | ⟨-, -, hcause⟩
      · rw [heq, hstarting]
      · rcases hcause with (hown | hnew) | hlive
        · exact absurd hown (held_ne hdistinct hq hg)
        · have hlt := (hrest q hq).1.held g hg
          omega
        · exact absurd hstarting hlive
    · obtain ⟨hcases, hstatus, -⟩ := ho.keeps q hq g hg
      rw [hstatus]
      rcases hcases with hheld | rfl
      · exact hstandby g hheld
      · exact status_new _
  · exact ho.role hstandby hin hstatus (by simp) (by simp)

theorem World.Ordered.flips (h : w.Ordered) (hkept : w.Kept) {e : Event} {p : Process}
    {rest ps : List Process} {next : Nat} {previous : Option Nat} (hpick : w.Picks p rest)
    (hprocesses : w'.processes = rest ++ ps) (hflip : w.flip e = some (next, previous))
    (hf : Flipped w.pool p next previous w'.pool ps) (hgoes : w.Goes w')
    (honward : w.pool.Onward w'.pool) : w'.Ordered := by
  obtain ⟨hrelies, hrest, hdistinct, -⟩ := hkept.picks hpick
  have hnamed : ∀ g ∈ previous, w.pool.status g ≠ .starting := by
    cases e with
    | resume i answer =>
        obtain ⟨p', hget, hflips⟩ := Option.bind_eq_some_iff.mp hflip
        intro g hg
        exact (hkept.relies p' (List.mem_of_getElem? hget)).names g (flips_names hflips g hg)
    | _ => cases hflip
  have hp : p ∈ w.processes ∨ p.passed = false := by
    cases hpick with
    | resumed hperm => exact .inl (hperm.mem_iff.mpr (List.mem_cons_self ..))
    | event => exact .inr rfl
  refine ⟨fun q hq g hg => ?_, ?_⟩
  · rw [hprocesses] at hq
    rcases List.mem_append.mp hq with hq | hq
    · have hstarting := h.standby q (hrest q hq).2 g hg
      have hnext : g ≠ next := fun heq => held_ne hdistinct hq hg (heq ▸ hf.holder)
      have hprevious : previous ≠ some g := fun heq => hnamed g heq hstarting
      rw [hf.status g ((hrest q hq).1.held g hg), if_neg hprevious, if_neg hnext, hstarting]
    · rw [(hf.relies q hq).2.1] at hg
      cases hg
  · rcases hf.demotes with rfl | hpassed
    · refine swept_of_goes h hgoes (drainingThat_back (fun g hin hstatus => ?_) honward)
      have hlt : g < w.pool.engines.length := by
        rw [← hf.length]
        exact lt_of_status (by rw [hstatus]; nofun)
      rw [hf.status g hlt] at hstatus
      split at hstatus
      · next heq => cases heq
      · split at hstatus
        · cases hstatus
        · next hne => exact ⟨hstatus, (hf.added g hin).resolve_right hne⟩
    · -- the rollover that flips is the only one, and past its evaluation
      have hmem : p ∈ w.processes := hp.resolve_right (by rw [hpassed]; nofun)
      intro q hq request ahead hahead
      rcases hgoes q hq request ahead hahead with
        ⟨u, request', rfl, hengines, hgenerations⟩ | ⟨p', hp', before, hbefore, -⟩
      · exact begun_swept hengines hgenerations request ahead hahead
      · obtain ⟨hrollover, hnot⟩ := isRollover_of_ahead hbefore
        rw [rollover_unique hkept hp' hmem hrollover (passed_isRollover hpassed), hpassed] at hnot
        cases hnot

/-- What is kept in every run. -/
structure World.Orderly (w : World) : Prop where
  kept : w.Kept
  disposed : w.pool.disposed = w.disposal.isSome
  ordered : w.disposal = none → w.Ordered

theorem disposeRest_slot (s : Pool) (list : List Nat) : s.SameSlot (s.disposeRest list).1 := by
  cases list with
  | nil => exact ⟨rfl, rfl, rfl⟩
  | cons g rest =>
      have hslot := beginRetire_slot s g
      simp only [disposeRest]
      split
      · next heq =>
          rw [heq] at hslot
          exact hslot
      · next heq =>
          rw [heq] at hslot
          exact hslot

theorem stepRetire_shutdown (s : Pool) (r : Retire) : s.SameSlot (s.stepRetire true r).1 := by
  cases r with
  | closing g =>
      simp only [stepRetire]
      split
      · exact .refl s
      · exact ⟨rfl, rfl, rfl⟩
  | unregistering g => exact ⟨rfl, rfl, rfl⟩

theorem resumeDisposal_slot {s t : Pool} {before after : Disposal}
    (h : s.resumeDisposal before = some (t, after)) : s.SameSlot t := by
  have hrest : ∀ {u : Pool} {list : List Nat}, s.SameSlot u →
      some (u.disposeRest list) = some (t, after) → s.SameSlot t := by
    intro u list hslot heq
    have hslot' := disposeRest_slot u list
    rw [Option.some.inj heq] at hslot'
    exact hslot.trans hslot'
  cases before with
  | closingOrphan => exact hrest (.refl s) h
  | next rest => exact hrest (.refl s) h
  | retiring r rest =>
      have hslot := stepRetire_shutdown s r
      simp only [resumeDisposal] at h
      split at h
      · next heq =>
          rw [heq] at hslot
          cases h
          exact hslot
      · next heq =>
          rw [heq] at hslot
          exact hrest hslot h
  | resolved => cases h

theorem World.Orderly.step {e : Event} (h : w.Orderly) (hstep : w.step e = some w') :
    w'.Orderly := by
  have hkept := Kept.step h.kept hstep
  by_cases hall : e = .disposeAll
  · subst hall
    simp only [World.step] at hstep
    split at hstep
    · cases hstep
    · cases hstep
      refine ⟨hkept, ?_, fun hrunning => by cases hrunning⟩
      show _ = true
      simp only [disposeAll]
      split
      · rfl
      · exact (disposeRest_slot _ _).disposed
  by_cases hresumes : e = .resumeDisposal
  · subst hresumes
    obtain ⟨before, hbefore, hafter⟩ := Option.bind_eq_some_iff.mp hstep
    obtain ⟨⟨t, after⟩, hresume, rfl⟩ := Option.map_eq_some_iff.mp hafter
    refine ⟨hkept, ?_, fun hrunning => by cases hrunning⟩
    show t.disposed = true
    rw [(resumeDisposal_slot hresume).disposed, h.disposed, hbefore]
    rfl
  obtain ⟨hgoes, honward, hdisposal⟩ := step_goes hstep hall hresumes
  refine ⟨hkept, ?_, fun hrunning => ?_⟩
  · rw [honward.disposed, h.disposed, hdisposal]
  · have hordered := h.ordered (hdisposal.symm.trans hrunning)
    cases step_cases hstep h.kept.sound h.kept.relies with
    | runs hpick hprocesses _ _ ho => exact hordered.runs h.kept hpick hprocesses ho hgoes honward
    | flips hpick hprocesses _ hflip hf =>
        exact hordered.flips h.kept hpick hprocesses hflip hf hgoes honward
    | disposes he => exact absurd he hall
    | goesOn he => exact absurd he hresumes

theorem orderly_adopted (config : ServerConfig) (prepares : Bool) (handle : Server)
    (fingerprint : String) (registered : Bool) :
    (World.adopted config prepares handle fingerprint registered).Orderly where
  kept := kept_adopted config prepares handle fingerprint registered
  disposed := rfl
  ordered _ := ⟨fun _ hp => absurd hp List.not_mem_nil, fun _ hp => absurd hp List.not_mem_nil⟩

end OmniRush.Engine
