import OmniRush.Proofs.PoolMoves

/-!
# What a resumed process leaves

A process that is resumed ends or waits again, and may start others. Unless it flips, it
moves no engine that another process holds, it keeps what it holds or has closed it, and
what it spawned it holds (`resume_outcome`).
-/

namespace OmniRush.Engine

open Process Pool

/-- What holds of the pool in every state. -/
structure Pool.Sound (s : Pool) : Prop where
  orphan : ∀ g ∈ s.recoveryOrphan, s.closed g = true
  dead : ∀ g, s.status g = .dead → s.closed g = true

/-- The engine a process flips to, and the generation it demotes. -/
def flips (s : Pool) : Process → Answer → Option (Nat × Option Nat)
  | .rollover _ (.standby .requests g primary), .done => some (g, primary)
  | .recovery (.fingerprinting g), .fingerprint _ =>
      if (s.generation g).handle.pid.isSome then none else some (g, none)
  | .recovery (.registering g), .done => some (g, none)
  | .recovery (.registering g), .failed => some (g, none)
  | _, _ => none

def holds (ps : List Process) : List Nat := ps.filterMap held

/-- What a process leaves that was resumed and does not flip. -/
structure Outcome (s : Pool) (p : Process) (t : Pool) (ps : List Process) : Prop where
  moves : s.Moves (fun x => p.held = some x ∨ s.engines.length ≤ x) t
  relies : ∀ q ∈ ps, q.Relies t
  keeps : ∀ q ∈ ps, ∀ g ∈ q.held, (p.held = some g ∨ g = s.engines.length) ∧
    t.status g = s.status g ∧ t.closed g = s.closed g ∧
    (q.listed = true → g ∈ t.generations ∨
      p.held = some g ∧ p.listed = true ∧ t.generations = s.generations)
  added : ∀ g ∈ t.generations, g ∈ s.generations ∨ g ∈ holds ps
  one : (holds ps).length ≤ 1
  passed : ∀ q ∈ ps, q.passed = true → p.passed = true ∨ t.draining = none
  count : rollovers ps + s.inFlight.toNat ≤ t.inFlight.toNat + p.isRollover.toNat
  orphan : ∀ g ∈ t.recoveryOrphan, s.recoveryOrphan = some g ∨ t.closed g = true
  gives : ∀ g ∈ p.held, g ∈ holds ps ∨ t.closed g = true
  fresh : ∀ x, s.engines.length ≤ x → x < t.engines.length → x ∈ holds ps
  config : t.config = s.config

/-! ## Four kinds of steps -/

theorem holds_starts {s : Pool} {ps : List Process} (h : ∀ q ∈ ps, q.Starts s) :
    holds ps = [] := by
  unfold holds
  rw [List.filterMap_eq_nil_iff]
  exact fun q hq => (h q hq).held

theorem keptOrphan {s t : Pool} (h : t.recoveryOrphan = s.recoveryOrphan) :
    ∀ g ∈ t.recoveryOrphan, s.recoveryOrphan = some g ∨ t.closed g = true :=
  fun _ hg => .inl (h ▸ hg)

theorem Outcome.quiet {s t u : Pool} {p : Process} {started : List Process} (next : List Process)
    (hp : p.held = none) (h : Ended (fun _ => False) t u started)
    (hmoves : s.Moves (fun _ => False) t) (hlength : t.engines.length = s.engines.length)
    (hnext : ∀ q ∈ next, q.Relies u ∧ q.held = none ∧ (q.passed = true → u.draining = none))
    (hcount : rollovers next + s.inFlight.toNat ≤ t.inFlight.toNat + p.isRollover.toNat)
    (horphan : ∀ g ∈ t.recoveryOrphan, s.recoveryOrphan = some g ∨ t.closed g = true)
    (hconfig : t.config = s.config) : Outcome s p u (next ++ started) := by
  have hnone : ∀ q ∈ next ++ started, q.held = none := by
    intro q hq
    rcases List.mem_append.mp hq with hq | hq
    · exact (hnext q hq).2.1
    · exact (h.starts q hq).held
  have hholds : holds (next ++ started) = [] := by
    unfold holds
    rw [List.filterMap_eq_nil_iff]
    exact hnone
  refine ⟨(hmoves.trans h.moves).mono fun x hx => hx.elim, fun q hq => ?_, fun q hq g hg => ?_,
    fun g hg => ((hmoves.trans h.moves).added g hg).imp_right False.elim,
    by simp [hholds], fun q hq hpassed => ?_, ?_, fun g hg => ?_, ?_, fun x hge hlt => ?_,
    h.config.trans hconfig⟩
  · rcases List.mem_append.mp hq with hq | hq
    · exact (hnext q hq).1
    · exact (h.starts q hq).relies
  · rw [hnone q hq] at hg
    cases hg
  · rcases List.mem_append.mp hq with hq | hq
    · exact .inr ((hnext q hq).2.2 hpassed)
    · rw [(h.starts q hq).passed] at hpassed
      cases hpassed
  · have hlater := h.count
    have hsum : rollovers (next ++ started) = rollovers next + rollovers started :=
      List.countP_append ..
    omega
  · rw [h.orphan] at hg
    exact (horphan g hg).imp_right h.moves.closed_mono
  · rw [hp]
    simp
  · have hsame := h.length.trans hlength
    omega

theorem Outcome.ends {s t u : Pool} {p : Process} {started : List Process}
    (hp : p.held = none) (h : Ended (fun _ => False) t u started)
    (hmoves : s.Moves (fun _ => False) t) (hlength : t.engines.length = s.engines.length)
    (hcount : s.inFlight.toNat ≤ t.inFlight.toNat + p.isRollover.toNat)
    (horphan : ∀ g ∈ t.recoveryOrphan, s.recoveryOrphan = some g ∨ t.closed g = true)
    (hconfig : t.config = s.config) : Outcome s p u started :=
  Outcome.quiet [] hp h hmoves hlength (by simp) (by simpa [rollovers] using hcount) horphan hconfig

theorem Outcome.after_ended {s t u : Pool} {p : Process} {ps started : List Process}
    (h : Ended (fun _ => False) s t started) (houtcome : Outcome t p u ps)
    (hp : p.held = none) (hnone : holds ps = []) : Outcome s p u (ps ++ started) := by
  have hstarted : ∀ q ∈ started, q.Starts u := fun q hq => (h.starts q hq).moves houtcome.moves
  have hholds : holds (ps ++ started) = [] := by
    have happend : holds (ps ++ started) = holds ps ++ holds started := List.filterMap_append
    rw [happend, hnone, holds_starts hstarted]
    rfl
  have hsame := h.length
  refine ⟨(h.moves.mono fun x hx => hx.elim).trans (houtcome.moves.mono fun x hx => ?_),
    fun q hq => ?_, fun q hq g hg => ?_, fun g hg => ?_, by simp [hholds],
    fun q hq hpassed => ?_, ?_, fun g hg => ?_, by simp [hp], fun x hge hlt => ?_,
    houtcome.config.trans h.config⟩
  · rw [← hsame]
    exact hx
  · rcases List.mem_append.mp hq with hq | hq
    · exact houtcome.relies q hq
    · exact (hstarted q hq).relies
  · have hmem : g ∈ holds (ps ++ started) := List.mem_filterMap.mpr ⟨q, hq, hg⟩
    rw [hholds] at hmem
    cases hmem
  · rcases houtcome.added g hg with hin | hin
    · exact .inl ((h.moves.added g hin).resolve_right id)
    · rw [hnone] at hin
      cases hin
  · rcases List.mem_append.mp hq with hq | hq
    · exact houtcome.passed q hq hpassed
    · rw [(hstarted q hq).passed] at hpassed
      cases hpassed
  · have hfirst := h.count
    have hlater := houtcome.count
    have hsum : rollovers (ps ++ started) = rollovers ps + rollovers started :=
      List.countP_append ..
    omega
  · rw [← h.orphan]
    exact houtcome.orphan g hg
  · rw [← hsame] at hge
    have hmem := houtcome.fresh x hge hlt
    rw [hnone] at hmem
    cases hmem

theorem Outcome.single {s t : Pool} {p : Process} (q : Process)
    (hmoves : s.Moves (fun x => p.held = some x ∨ s.engines.length ≤ x) t) (hrelies : q.Relies t)
    (hkeeps : ∀ g ∈ q.held, (p.held = some g ∨ g = s.engines.length) ∧
      t.status g = s.status g ∧ t.closed g = s.closed g ∧
      (q.listed = true → g ∈ t.generations ∨
        p.held = some g ∧ p.listed = true ∧ t.generations = s.generations))
    (hadded : ∀ g ∈ t.generations, g ∈ s.generations ∨ q.held = some g)
    (hpassed : q.passed = true → p.passed = true ∨ t.draining = none)
    (hcount : q.isRollover.toNat + s.inFlight.toNat ≤ t.inFlight.toNat + p.isRollover.toNat)
    (horphan : ∀ g ∈ t.recoveryOrphan, s.recoveryOrphan = some g ∨ t.closed g = true)
    (hgives : ∀ g ∈ p.held, q.held = some g ∨ t.closed g = true)
    (hfresh : ∀ x, s.engines.length ≤ x → x < t.engines.length → q.held = some x)
    (hconfig : t.config = s.config) : Outcome s p t [q] := by
  have hholds : holds [q] = q.held.toList := by
    unfold holds
    cases hq : q.held <;> simp [hq]
  have hone : rollovers [q] = q.isRollover.toNat := by
    unfold rollovers
    rw [List.countP_singleton]
    cases q.isRollover <;> rfl
  have hmem : ∀ g, g ∈ holds [q] ↔ q.held = some g := by
    intro g
    rw [hholds, Option.mem_toList]
  refine ⟨hmoves, fun q' hq' => ?_, fun q' hq' g hg => ?_,
    fun g hg => (hadded g hg).imp_right (hmem g).mpr, ?_, fun q' hq' h => ?_, by omega, horphan, fun g hg => ?_, fun x hge hlt => ?_, hconfig⟩
  · rw [List.mem_singleton.mp hq']
    exact hrelies
  · rw [List.mem_singleton.mp hq'] at hg ⊢
    exact hkeeps g hg
  · rw [hholds]
    cases q.held <;> simp
  · rw [List.mem_singleton.mp hq'] at h
    exact hpassed h
  · rw [hmem]
    exact hgives g hg
  · rw [hmem]
    exact hfresh x hge hlt

theorem Outcome.waits {s t : Pool} {p : Process} (q : Process) (hp : p.held = none)
    (hq : q.held = none) (hmoves : s.Moves (fun _ => False) t)
    (hlength : t.engines.length = s.engines.length) (hrelies : q.Relies t)
    (hpassed : q.passed = true → t.draining = none)
    (hcount : q.isRollover.toNat + s.inFlight.toNat ≤ t.inFlight.toNat + p.isRollover.toNat)
    (horphan : ∀ g ∈ t.recoveryOrphan, s.recoveryOrphan = some g ∨ t.closed g = true)
    (hconfig : t.config = s.config) : Outcome s p t [q] := by
  refine .single q (hmoves.mono fun x hx => hx.elim) hrelies (by simp [hq])
    (fun g hg => (hmoves.added g hg).imp_right False.elim) (fun h => .inr (hpassed h)) hcount
    horphan (by simp [hp]) (fun x hge hlt => ?_) hconfig
  omega

theorem Outcome.stays {s t : Pool} {p : Process} {g : Nat} (q : Process) (hp : p.held = some g)
    (hq : q.held = some g) (hmoves : s.Moves (fun x => p.held = some x) t)
    (hlength : t.engines.length = s.engines.length) (hrelies : q.Relies t)
    (hsame : t.status g = s.status g ∧ t.closed g = s.closed g)
    (hlisted : q.listed = true →
      g ∈ t.generations ∨ p.listed = true ∧ t.generations = s.generations)
    (hpassed : q.passed = p.passed)
    (hcount : q.isRollover.toNat + s.inFlight.toNat ≤ t.inFlight.toNat + p.isRollover.toNat)
    (horphan : t.recoveryOrphan = s.recoveryOrphan) (hconfig : t.config = s.config) :
    Outcome s p t [q] := by
  refine .single q (hmoves.mono fun x hx => .inl hx) hrelies (fun x hx => ?_)
    (fun x hx => (hmoves.added x hx).imp_right fun hown => ?_)
    (fun h => .inl (hpassed ▸ h)) hcount (keptOrphan horphan) (fun x hx => ?_)
    (fun x hge hlt => by omega) hconfig
  · rw [hq] at hx
    cases hx
    exact ⟨.inl hp, hsame.1, hsame.2, fun h => (hlisted h).imp_right fun hsame => ⟨hp, hsame⟩⟩
  · rw [hq, ← hp]
    exact hown
  · rw [hp] at hx
    cases hx
    exact .inl hq

theorem Outcome.gaveUp {s t : Pool} {p : Process} {g : Nat} (q : Process) (hp : p.held = some g)
    (hq : q.held = none) (hmoves : s.Moves (fun x => p.held = some x) t)
    (hlength : t.engines.length = s.engines.length) (hrelies : q.Relies t)
    (hclosed : t.closed g = true) (hadded : ∀ x ∈ t.generations, x ∈ s.generations)
    (hpassed : q.passed = false)
    (hcount : q.isRollover.toNat + s.inFlight.toNat ≤ t.inFlight.toNat + p.isRollover.toNat)
    (horphan : t.recoveryOrphan = s.recoveryOrphan) (hconfig : t.config = s.config) :
    Outcome s p t [q] := by
  refine .single q (hmoves.mono fun x hx => .inl hx) hrelies (by simp [hq])
    (fun x hx => .inl (hadded x hx)) (by simp [hpassed]) hcount (keptOrphan horphan) (fun x hx => ?_) (fun x hge hlt => by omega)
    hconfig
  rw [hp] at hx
  cases hx
  exact .inr hclosed

theorem Outcome.spawns {s t : Pool} {p : Process} (q : Process) (hp : p.held = none)
    (hq : q.held = some s.engines.length)
    (hmoves : s.Moves (fun x => s.engines.length ≤ x) t)
    (hlength : t.engines.length = s.engines.length + 1) (hrelies : q.Relies t)
    (hsame : ∀ x, t.status x = s.status x ∧ t.closed x = s.closed x)
    (hlisted : q.listed = true → s.engines.length ∈ t.generations)
    (hadded : ∀ x ∈ t.generations, x ∈ s.generations ∨ x = s.engines.length)
    (hpassed : q.passed = true → p.passed = true)
    (hcount : q.isRollover.toNat + s.inFlight.toNat ≤ t.inFlight.toNat + p.isRollover.toNat)
    (horphan : t.recoveryOrphan = s.recoveryOrphan) (hconfig : t.config = s.config) :
    Outcome s p t [q] := by
  refine .single q (hmoves.mono fun x hx => .inr hx) hrelies (fun x hx => ?_)
    (fun x hx => (hadded x hx).imp_right fun heq => by rw [hq, heq]) (fun h => .inl (hpassed h)) hcount (keptOrphan horphan) (by simp [hp]) (fun x hge hlt => ?_)
    hconfig
  · rw [hq] at hx
    cases hx
    exact ⟨.inr rfl, (hsame _).1, (hsame _).2, fun h => .inl (hlisted h)⟩
  · rw [hq]
    exact congrArg some (by omega)

/-! ## The rollover -/

theorem rollover_relies {s : Pool} {request : Request} {stage : RolloverStage}
    (hnames : ∀ g ∈ (Process.rollover request stage).names, s.status g ≠ .starting)
    (hshut : (Process.rollover request stage).shut = [])
    (hheld : (Process.rollover request stage).held = none) :
    (Process.rollover request stage).Relies s :=
  ⟨hnames, by simp [hshut], by simp [hheld]⟩

theorem primary_names {s : Pool} : ∀ g ∈ s.primary.toList, s.status g ≠ .starting := by
  intro g hg
  rw [primary_status (Option.mem_toList.mp hg)]
  simp

theorem endRollover_ended (s : Pool) : Ended (fun _ => False) { s with inFlight := false }
    s.endRollover.1 s.endRollover.2 :=
  (endRollover_started s).ended (.of_same rfl rfl) (Nat.le_refl _) rfl rfl rfl

theorem endRollover_outcome {s t : Pool} {request : Request} {stage : RolloverStage}
    (hp : (Process.rollover request stage).held = none) (hmoves : s.Moves (fun _ => False) t)
    (hlength : t.engines.length = s.engines.length)
    (horphan : t.recoveryOrphan = s.recoveryOrphan) (hconfig : t.config = s.config) :
    Outcome s (.rollover request stage) t.endRollover.1 t.endRollover.2 := by
  refine .ends hp (endRollover_ended t) (hmoves.trans (.of_same rfl rfl)) hlength ?_
    (keptOrphan horphan) hconfig
  show s.inFlight.toNat ≤ 0 + 1
  exact Bool.toNat_le _

theorem rollOverBusy_outcome {s : Pool} {request : Request} {stage : RolloverStage}
    (hp : (Process.rollover request stage).held = none) (fingerprint : String)
    {primary : Option Nat} (hprimary : ∀ g ∈ primary.toList, s.status g ≠ .starting)
    (recent : Bool) : Outcome s (.rollover request stage)
      (s.rollOverBusy request fingerprint primary recent).1
      (s.rollOverBusy request fingerprint primary recent).2 := by
  have hpark : Outcome s (.rollover request stage)
      { s with pendingRollover := some request }.endRollover.1
      { s with pendingRollover := some request }.endRollover.2 :=
    endRollover_outcome hp (.of_same rfl rfl) rfl rfl rfl
  unfold rollOverBusy
  split
  · split
    · refine .waits _ hp rfl (.of_same rfl rfl) rfl (rollover_relies ?_ rfl rfl) ?_ ?_
        (keptOrphan rfl) rfl
      · simp [names]
      · simp [passed]
      · simp [isRollover, Nat.add_comm]
    · exact hpark
  · next hdraining =>
      split
      · exact hpark
      · refine .waits _ hp rfl (.of_same rfl rfl) rfl (rollover_relies hprimary rfl rfl) ?_ ?_
          (keptOrphan rfl) rfl
        · intro
          simpa using hdraining
        · simp [isRollover, Nat.add_comm]

theorem rollOverChanged_outcome {s : Pool} {request : Request} {stage : RolloverStage}
    (hp : (Process.rollover request stage).held = none) (fingerprint : String) :
    Outcome s (.rollover request stage) (s.rollOverChanged request fingerprint).1
      (s.rollOverChanged request fingerprint).2 := by
  unfold rollOverChanged
  split
  · exact endRollover_outcome hp (.of_same rfl rfl) rfl rfl rfl
  · split
    · exact rollOverBusy_outcome hp fingerprint primary_names false
    · refine .waits _ hp rfl (.of_same rfl rfl) rfl (rollover_relies primary_names rfl rfl) ?_ ?_
        (keptOrphan rfl) rfl
      · simp [passed]
      · simp [isRollover, Nat.add_comm]

theorem resumeSweep_outcome {s : Pool} (hs : s.Sound) {request : Request}
    {stage : Sweep → RolloverStage} {sweep : Sweep}
    {after : Pool → Pool × List Process}
    (hstage : ∀ sweep, (Process.rollover request (stage sweep)).names = sweep.targets ∧
      (Process.rollover request (stage sweep)).shut = sweep.shut ∧
      (Process.rollover request (stage sweep)).held = none ∧
      (Process.rollover request (stage sweep)).passed = false)
    (hp : (Process.rollover request (stage sweep)).Relies s)
    (hafter : ∀ t, Outcome t (.rollover request (stage sweep)) (after t).1 (after t).2 ∧
      holds (after t).2 = []) :
    Outcome s (.rollover request (stage sweep)) (s.resumeSweep request stage sweep after).1
      (s.resumeSweep request stage sweep after).2 := by
  obtain ⟨hnames, hshut, hheld, -⟩ := hstage sweep
  obtain ⟨hended, hrelies⟩ := @stepSweep_ended (fun _ => False) s sweep hs.dead
    (hnames ▸ hp.names) (hshut ▸ hp.shut)
  unfold resumeSweep
  generalize s.stepSweep sweep = result at *
  obtain ⟨t, next, started⟩ := result
  cases next with
  | some sweep' =>
      obtain ⟨hnames', hshut', hheld', hpassed'⟩ := hstage sweep'
      obtain ⟨htargets, hclosed⟩ := hrelies sweep' rfl
      refine Outcome.quiet [.rollover request (stage sweep')] hheld hended (.of_same rfl rfl) rfl
        ?_ ?_ (keptOrphan rfl) rfl
      · intro q hq
        rw [List.mem_singleton.mp hq]
        exact ⟨⟨hnames' ▸ htargets, hshut' ▸ hclosed, by simp [hheld']⟩, hheld',
          by simp [hpassed']⟩
      · simp [rollovers, isRollover, Nat.add_comm]
  | none => exact .after_ended hended (hafter t).1 hheld (hafter t).2

theorem standby_stays {s t : Pool} {request : Request} {stage stage' : StandbyStage} {g : Nat}
    {primary : Option Nat} (hp : (Process.rollover request (.standby stage g primary)).Relies s)
    (hmoves : s.Moves (fun x => some g = some x) t)
    (hlength : t.engines.length = s.engines.length)
    (hsame : t.status g = s.status g ∧ t.closed g = s.closed g)
    (hlist : t.generations = s.generations) (hflight : t.inFlight = s.inFlight)
    (horphan : t.recoveryOrphan = s.recoveryOrphan) (hconfig : t.config = s.config) :
    Outcome s (.rollover request (.standby stage g primary)) t
      [.rollover request (.standby stage' g primary)] := by
  refine .stays _ rfl rfl hmoves hlength (Relies.moves ?_ hmoves) hsame
    (fun _ => .inr ⟨rfl, hlist⟩) rfl ?_ horphan hconfig
  · exact ⟨hp.names, by simp [shut], hp.held⟩
  · simp [isRollover, hflight, Nat.add_comm]

theorem registerStandby_outcome {s : Pool} {request : Request} {stage : StandbyStage} {g : Nat}
    {primary : Option Nat} (hp : (Process.rollover request (.standby stage g primary)).Relies s) :
    Outcome s (.rollover request (.standby stage g primary))
      (s.registerStandby request g primary).1 (s.registerStandby request g primary).2 := by
  unfold registerStandby
  split
  · exact standby_stays hp (moves_update s g _ (fun _ => rfl) fun _ => rfl) (by simp)
      ⟨status_update _ _ _ _ fun _ => rfl, closed_update _ _ _ _ fun _ => rfl⟩ rfl rfl rfl rfl
  · exact standby_stays hp (.of_same rfl rfl) rfl ⟨rfl, rfl⟩ rfl rfl rfl rfl

theorem resumeStandby_outcome {s t : Pool} {request : Request} {stage : StandbyStage} {g : Nat}
    {primary : Option Nat} {answer : Answer} {ps : List Process}
    (hp : (Process.rollover request (.standby stage g primary)).Relies s)
    (h : s.resumeStandby request g primary stage answer = some (t, ps))
    (hflip : flips s (.rollover request (.standby stage g primary)) answer = none) :
    Outcome s (.rollover request (.standby stage g primary)) t ps := by
  have hstays : ∀ stage', Outcome s (.rollover request (.standby stage g primary)) s
      [.rollover request (.standby stage' g primary)] := fun stage' =>
    standby_stays hp (.of_same rfl rfl) rfl ⟨rfl, rfl⟩ rfl rfl rfl rfl
  have hregister := registerStandby_outcome hp
  have hlt : g < s.engines.length := hp.held g rfl
  unfold resumeStandby at h
  split at h
  · cases h
    have hclosed : ((s.drop g).close g).closed g = true := closed_close_self hlt
    -- it leaves the list first, but nothing looks at it in between
    have hclose : s.Moves (fun x => some g = some x) (s.close g) :=
      moves_close s g (.inr (.inl rfl))
    have hmoves : s.Moves (fun x => some g = some x) ((s.close g).drop g) :=
      hclose.trans (moves_drop (s.close g) g (closed_close_self hlt) (.inl rfl))
    refine .gaveUp _ rfl rfl hmoves (by simp [close, drop]) (rollover_relies ?_ rfl rfl) hclosed
      (fun x hx => (List.mem_filter.mp hx).1) rfl ?_ rfl rfl
    · simp [names]
    · simp [isRollover, close, drop, update, Nat.add_comm]
  · split at h
    · cases h
      exact hstays .preparing
    · rw [Option.some.inj h] at hregister
      exact hregister
  · rw [Option.some.inj h] at hregister
    exact hregister
  · rw [Option.some.inj h] at hregister
    exact hregister
  · cases h
    exact hstays .sessions
  · cases h
    exact hstays .sessions
  · cases h
    exact hstays .requests
  · cases hflip
  · cases h

theorem resumeRollover_outcome {s t : Pool} (hs : s.Sound) {request : Request}
    {stage : RolloverStage} {answer : Answer} {ps : List Process}
    (hp : (Process.rollover request stage).Relies s)
    (h : s.resumeRollover request stage answer = some (t, ps))
    (hflip : flips s (.rollover request stage) answer = none) :
    Outcome s (.rollover request stage) t ps := by
  have hwaits : ∀ stage', (Process.rollover request stage).held = none →
      (∀ g ∈ (Process.rollover request stage').names, s.status g ≠ .starting) →
      (Process.rollover request stage').shut = [] → (Process.rollover request stage').held = none →
      (Process.rollover request stage').passed = false →
      Outcome s (.rollover request stage) s [.rollover request stage'] := by
    intro stage' hnone hnames hshut hheld hpassed
    refine .waits _ hnone hheld (.of_same rfl rfl) rfl (rollover_relies hnames hshut hheld)
      (by simp [hpassed]) ?_ (keptOrphan rfl) rfl
    simp [isRollover, Nat.add_comm]
  have hends : (Process.rollover request stage).held = none →
      Outcome s (.rollover request stage) s.endRollover.1 s.endRollover.2 := fun hnone =>
    endRollover_outcome hnone (.of_same rfl rfl) rfl rfl rfl
  unfold resumeRollover at h
  split at h
  · next sweep =>
      have hsweep := @resumeSweep_outcome s hs request .sweepFirst sweep
        (fun s => (s, [.rollover request .writing])) (fun _ => ⟨rfl, rfl, rfl, rfl⟩) hp fun t => by
          refine ⟨.waits _ rfl rfl (.of_same rfl rfl) rfl (rollover_relies ?_ rfl rfl) ?_ ?_
            (keptOrphan rfl) rfl, rfl⟩
          · simp [names]
          · simp [passed]
          · simp [isRollover, Nat.add_comm]
      rw [Option.some.inj h] at hsweep
      exact hsweep
  · cases h
    exact hwaits .fingerprinting rfl (by simp [names]) rfl rfl rfl
  · cases h
    exact hwaits .fingerprinting rfl (by simp [names]) rfl rfl rfl
  · next text =>
      have hchanged := @rollOverChanged_outcome s request .fingerprinting rfl text
      rw [Option.some.inj h] at hchanged
      exact hchanged
  · next fingerprint primary isBusy recent =>
      split at h
      · have hbusy := @rollOverBusy_outcome s request (.askingBusy fingerprint primary) rfl
          fingerprint primary hp.names recent
        rw [Option.some.inj h] at hbusy
        exact hbusy
      · cases h
        exact hwaits (.reloading fingerprint primary) rfl hp.names rfl rfl rfl
  · next fingerprint primary =>
      split at h
      · next g =>
          have hend := @endRollover_outcome s (s.update g fun e => { e with fingerprint := fingerprint })
            request (.reloading fingerprint (some g)) rfl (moves_update s g _ (fun _ => rfl) fun _ => rfl)
            (by simp) rfl rfl
          rw [Option.some.inj h] at hend
          exact hend
      · have hend := hends rfl
        rw [Option.some.inj h] at hend
        exact hend
  · have hend := hends rfl
    rw [Option.some.inj h] at hend
    exact hend
  · split at h
    · cases h
    · split at h
      · have hend := hends rfl
        rw [Option.some.inj h] at hend
        exact hend
      · cases h
        have hstart := beginRun_starts s request
        refine .waits _ rfl hstart.held (.of_same rfl rfl) rfl hstart.relies
          (by simp [hstart.passed]) ?_ (keptOrphan rfl) rfl
        rw [beginRun_isRollover, Nat.add_comm]
        exact Nat.le_refl _
  · have hend := hends rfl
    rw [Option.some.inj h] at hend
    exact hend
  · next fingerprint primary handle =>
      cases h
      have hspawn : s.Moves (fun x => s.engines.length ≤ x)
          ((s.spawned handle fingerprint).push s.engines.length) :=
        (moves_spawned s handle fingerprint).trans
          (moves_push (s.spawned handle fingerprint) _ (Nat.le_refl _))
      refine .spawns _ rfl rfl hspawn (by simp [spawned, push]) ?_ (fun x => ?_) ?_
        (fun x hx => (List.mem_append.mp hx).imp_right List.mem_singleton.mp) ?_ ?_ rfl rfl
      · refine ⟨fun x hx => hspawn.settled (hp.names x hx), by simp [shut], fun x hx => ?_⟩
        cases hx
        simp [spawned, push]
      · exact ⟨status_spawned s handle fingerprint x, closed_spawned s handle fingerprint x⟩
      · intro
        simp [push]
      · intro
        rfl
      · simp [isRollover, spawned, push, Nat.add_comm]
  · exact resumeStandby_outcome hp h hflip
  · have hend := hends rfl
    rw [Option.some.inj h] at hend
    exact hend
  · have hend := hends rfl
    rw [Option.some.inj h] at hend
    exact hend
  · split at h
    · next sweep hsweep =>
        cases h
        obtain ⟨htargets, hshut⟩ := targets_sweepOf hsweep
        exact hwaits (.sweepLast sweep) rfl htargets hshut rfl rfl
    · have hend := hends rfl
      rw [Option.some.inj h] at hend
      exact hend
  · next sweep =>
      have hsweep := @resumeSweep_outcome s hs request .sweepLast sweep
        (fun s => s.endRollover) (fun _ => ⟨rfl, rfl, rfl, rfl⟩) hp fun t =>
          ⟨endRollover_outcome rfl (.of_same rfl rfl) rfl rfl rfl,
            holds_starts (endRollover_started t).starts⟩
      rw [Option.some.inj h] at hsweep
      exact hsweep
  · cases h

/-! ## The recovery -/

theorem recovery_relies {s : Pool} {stage : RecoveryStage}
    (hnames : ∀ g ∈ (Process.recovery stage).names, s.status g ≠ .starting)
    (hshut : ∀ g ∈ (Process.recovery stage).shut, s.closed g = true)
    (hheld : (Process.recovery stage).held = none) : (Process.recovery stage).Relies s :=
  ⟨hnames, hshut, by simp [hheld]⟩

theorem recovery_ends {s t u : Pool} {p : Process} (hp : p.held = none)
    (hmoves : s.Moves (fun _ => False) t) (hlength : t.engines.length = s.engines.length)
    (hflight : t.inFlight = s.inFlight) (hu : u.engines = t.engines)
    (hlist : u.generations = t.generations) (hflight' : u.inFlight = t.inFlight)
    (horphan : ∀ g ∈ u.recoveryOrphan, s.recoveryOrphan = some g ∨ u.closed g = true)
    (hconfig : u.config = s.config) : Outcome s p u [] := by
  have hended : Ended (fun _ => False) u u [] :=
    (Started.refl u).ended (.of_same rfl rfl) (Nat.le_refl _) rfl rfl rfl
  refine .ends hp hended (hmoves.trans (.of_same hu hlist)) (by rw [hu, hlength]) ?_ horphan hconfig
  rw [hflight', hflight]
  omega

theorem failRecovery_outcome {s t : Pool} {p : Process} (hp : p.held = none)
    (hmoves : s.Moves (fun _ => False) t) (hlength : t.engines.length = s.engines.length)
    (hflight : t.inFlight = s.inFlight)
    (horphan : ∀ g ∈ t.recoveryOrphan, s.recoveryOrphan = some g ∨ t.closed g = true)
    (hconfig : t.config = s.config) :
    Outcome s p t.failRecovery.1 t.failRecovery.2 :=
  recovery_ends hp hmoves hlength hflight rfl rfl rfl horphan hconfig

theorem recovery_waits {s t : Pool} {p : Process} (stage : RecoveryStage) (hp : p.held = none)
    (hq : (Process.recovery stage).held = none) (hmoves : s.Moves (fun _ => False) t)
    (hlength : t.engines.length = s.engines.length) (hflight : t.inFlight = s.inFlight)
    (hrelies : (Process.recovery stage).Relies t)
    (horphan : ∀ g ∈ t.recoveryOrphan, s.recoveryOrphan = some g ∨ t.closed g = true)
    (hconfig : t.config = s.config) : Outcome s p t [.recovery stage] := by
  refine .waits _ hp hq hmoves hlength hrelies (by simp [passed]) ?_ horphan hconfig
  rw [hflight]
  simp [isRollover]

theorem probePrevious_outcome {s t : Pool} {p : Process} {previous : Option Nat}
    (hp : p.held = none) (hmoves : s.Moves (fun _ => False) t)
    (hlength : t.engines.length = s.engines.length) (hflight : t.inFlight = s.inFlight)
    (hprevious : ∀ g ∈ previous.toList, t.status g ≠ .starting)
    (horphan : ∀ g ∈ t.recoveryOrphan, s.recoveryOrphan = some g ∨ t.closed g = true)
    (hconfig : t.config = s.config) :
    Outcome s p (t.probePrevious previous).1 (t.probePrevious previous).2 := by
  cases previous with
  | some g =>
      exact recovery_waits (.probing g) hp rfl hmoves hlength hflight
        (recovery_relies hprevious (by simp [shut]) rfl) horphan hconfig
  | none =>
      exact recovery_waits .spawning hp rfl hmoves hlength hflight
        (recovery_relies (by simp [names]) (by simp [shut]) rfl) horphan hconfig

theorem recoverDeadPrimary_outcome {s t : Pool} (hs : s.Sound) {p : Process} (hp : p.held = none)
    (ht : t.engines = s.engines) (hlist : t.generations = s.generations)
    (hflight : t.inFlight = s.inFlight) (horphan : t.recoveryOrphan = s.recoveryOrphan)
    (hconfig : t.config = s.config) :
    Outcome s p t.recoverDeadPrimary.1 t.recoverDeadPrimary.2 := by
  have hmoves : s.Moves (fun _ => False) t := .of_same ht hlist
  have hlength : t.engines.length = s.engines.length := by rw [ht]
  unfold recoverDeadPrimary
  split
  · exact recovery_ends hp hmoves hlength hflight rfl rfl rfl (keptOrphan horphan) hconfig
  · dsimp only
    split
    · next orphan heq =>
        have hclosed : s.closed orphan = true := hs.orphan orphan (horphan ▸ heq)
        have hflag : Moves (fun _ => False) s { t with recovering := true } :=
          hmoves.trans (.of_same rfl rfl)
        have hclose : Moves (fun _ => False) { t with recovering := true }
            ({ t with recovering := true }.close orphan) :=
          moves_close _ _ (.inl (hmoves.closed_mono hclosed))
        refine recovery_waits _ hp rfl (hflag.trans hclose)
          ((length_update _ _ _).trans hlength) hflight (recovery_relies ?_ (by simp [shut]) rfl)
          (fun g hg => .inl ?_) hconfig
        · intro g hg
          rw [status_close]
          exact primary_names g hg
        · rw [← horphan]
          exact hg
    · exact probePrevious_outcome hp (hmoves.trans (.of_same rfl rfl)) hlength hflight
        primary_names (keptOrphan horphan) hconfig

theorem resumeRecovery_outcome {s t : Pool} {stage : RecoveryStage} {answer : Answer}
    {ps : List Process} (hp : (Process.recovery stage).Relies s)
    (h : s.resumeRecovery stage answer = some (t, ps))
    (hflip : flips s (.recovery stage) answer = none) : Outcome s (.recovery stage) t ps := by
  have hfails : (Process.recovery stage).held = none →
      Outcome s (.recovery stage) s.failRecovery.1 s.failRecovery.2 := fun hnone =>
    failRecovery_outcome hnone (.of_same rfl rfl) rfl rfl (keptOrphan rfl) rfl
  have hspawn : ∀ {u : Pool}, (Process.recovery stage).held = none →
      s.Moves (fun _ => False) u → u.engines.length = s.engines.length →
      u.inFlight = s.inFlight → u.recoveryOrphan = s.recoveryOrphan → u.config = s.config →
      Outcome s (.recovery stage) u [.recovery .spawning] := by
    intro u hnone hmoves hlength hflight horphan hconfig
    exact recovery_waits .spawning hnone rfl hmoves hlength hflight
      (recovery_relies (by simp [names]) (by simp [shut]) rfl) (keptOrphan horphan) hconfig
  unfold resumeRecovery at h
  split at h
  · next previous isAlive =>
      split at h
      · have hend := hfails rfl
        rw [Option.some.inj h] at hend
        exact hend
      · have hprobe := @probePrevious_outcome s { s with recoveryOrphan := none }
          (.recovery (.closingOrphan previous)) previous rfl (.of_same rfl rfl) rfl rfl hp.names
          (by simp) rfl
        rw [Option.some.inj h] at hprobe
        exact hprobe
  · have hend := hfails rfl
    rw [Option.some.inj h] at hend
    exact hend
  · next previous dead =>
      have hstatus : s.status previous ≠ .starting := hp.names previous (List.mem_singleton.mpr rfl)
      split at h
      · cases h
        have hclose : s.Moves (fun _ => False) (s.close previous) :=
          moves_close s previous (.inr (.inr hstatus))
        refine recovery_waits (.closingPrevious previous) rfl rfl hclose (length_update _ _ _) rfl
          (recovery_relies ?_ ?_ rfl) (keptOrphan rfl) rfl
        · exact fun g hg => hclose.settled (hp.names g hg)
        · intro g hg
          rw [List.mem_singleton.mp hg]
          exact closed_close_self (lt_of_status hstatus)
      · cases h
        exact recovery_ends rfl (.of_same rfl rfl) rfl rfl rfl rfl rfl (keptOrphan rfl) rfl
  · have hend := hfails rfl
    rw [Option.some.inj h] at hend
    exact hend
  · next previous isAlive =>
      have hstatus : s.status previous ≠ .starting := hp.names previous (List.mem_singleton.mpr rfl)
      have hclosed : s.closed previous = true := hp.shut previous (List.mem_singleton.mpr rfl)
      have hdead : s.Moves (fun _ => False) (s.setStatus previous .dead) :=
        moves_dead s previous hclosed (.inr hstatus)
      have hlength : (s.setStatus previous .dead).engines.length = s.engines.length :=
        length_update _ _ _
      split at h
      · have hend := hfails rfl
        rw [Option.some.inj h] at hend
        exact hend
      · dsimp only at h
        split at h
        · cases h
          exact recovery_waits (.unregistering previous) rfl rfl hdead hlength rfl
            (recovery_relies (fun g hg => hdead.settled (hp.names g hg))
              (fun g hg => hdead.closed_mono (hp.shut g hg)) rfl) (keptOrphan rfl) rfl
        · cases h
          exact hspawn rfl (hdead.trans (moves_drop _ _ (hdead.closed_mono hclosed)
            (.inr (hdead.settled hstatus)))) hlength rfl rfl rfl
  · have hend := hfails rfl
    rw [Option.some.inj h] at hend
    exact hend
  · next previous =>
      cases h
      exact hspawn rfl (moves_drop s previous (hp.shut previous (List.mem_singleton.mpr rfl))
        (.inr (hp.names previous (List.mem_singleton.mpr rfl)))) rfl rfl rfl rfl
  · next previous =>
      cases h
      exact hspawn rfl (moves_drop s previous (hp.shut previous (List.mem_singleton.mpr rfl))
        (.inr (hp.names previous (List.mem_singleton.mpr rfl)))) rfl rfl rfl rfl
  · next handle =>
      cases h
      refine .spawns _ rfl rfl (moves_spawned s handle "") (by simp [spawned]) ?_ (fun x => ?_)
        (by simp [listed]) (fun _ hx => .inl hx) (by simp [passed]) ?_ rfl rfl
      · exact ⟨by simp [names], by simp [shut], by simp [held, spawned]⟩
      · exact ⟨status_spawned s handle "" x, closed_spawned s handle "" x⟩
      · simp [isRollover, spawned]
  · have hend := hfails rfl
    rw [Option.some.inj h] at hend
    exact hend
  · next g =>
      cases h
      refine .stays _ rfl rfl (.of_same rfl rfl) rfl ?_ ⟨rfl, rfl⟩ (by simp [listed]) rfl ?_ rfl rfl
      · exact ⟨by simp [names], by simp [shut], hp.held⟩
      · simp [isRollover]
  · next g =>
      cases h
      have hclosed : (s.close g).closed g = true := closed_close_self (hp.held g rfl)
      have hclose : s.Moves (fun x => some g = some x) (s.close g) :=
        moves_close s g (.inr (.inl rfl))
      refine .gaveUp _ rfl rfl hclose (length_update _ _ _) (recovery_relies (by simp [names]) ?_ rfl)
        hclosed (fun _ hx => hx) rfl ?_ rfl rfl
      · intro x hx
        rw [List.mem_singleton.mp hx]
        exact hclosed
      · exact Nat.le_of_eq (by simp [isRollover, close, update])
  · next g text =>
      have hhandle : (((s.update g fun e => { e with fingerprint := text }).push g).generation
          g).handle = (s.generation g).handle := handle_update s g g _ fun _ => rfl
      dsimp only at h
      rw [hhandle] at h
      rw [flips] at hflip
      split at h
      · cases h
        have hfirst : s.Moves (fun x => some g = some x)
            (s.update g fun e => { e with fingerprint := text }) :=
          moves_update s g _ (fun _ => rfl) fun _ => rfl
        have hpush : s.Moves (fun x => some g = some x)
            ((s.update g fun e => { e with fingerprint := text }).push g) :=
          hfirst.trans (moves_push _ g rfl)
        refine .stays _ rfl rfl (hpush.trans (moves_update _ g _ (fun _ => rfl) fun _ => rfl))
          (by simp [push]) ?_ ⟨?_, ?_⟩ (fun _ => .inl ?_) rfl ?_ rfl rfl
        · refine ⟨by simp [names], by simp [shut], fun x hx => ?_⟩
          have hlt := hp.held x hx
          simpa [push] using hlt
        · rw [status_update]
          · exact status_update s g g _ fun _ => rfl
          · exact fun _ => rfl
        · rw [closed_update]
          · exact closed_update s g g _ fun _ => rfl
          · exact fun _ => rfl
        · simp [push]
        · exact Nat.le_of_eq (by simp [isRollover, push, update])
      · next hnone =>
          rw [if_neg hnone] at hflip
          cases hflip
  · cases hflip
  · cases hflip
  · next g isAlive =>
      have hfail := @failRecovery_outcome s
        { s with recoveryOrphan := if isAlive then some g else s.recoveryOrphan }
        (.recovery (.closingReplacement g)) rfl (.of_same rfl rfl) rfl rfl (fun x hx => ?_) rfl
      · rw [Option.some.inj h] at hfail
        exact hfail
      · dsimp only at hx
        split at hx
        · cases hx
          exact .inr (hp.shut g (List.mem_singleton.mpr rfl))
        · exact .inl hx
  · next g =>
      have hfail := @failRecovery_outcome s { s with recoveryOrphan := some g }
        (.recovery (.closingReplacement g)) rfl (.of_same rfl rfl) rfl rfl (fun x hx => ?_) rfl
      · rw [Option.some.inj h] at hfail
        exact hfail
      · cases hx
        exact .inr (hp.shut g (List.mem_singleton.mpr rfl))
  · cases h

/-! ## Every process -/

theorem retiring_outcome {s : Pool} {p : Process} {t : Pool} {started : List Process}
    (next : List Process) (hp : p.held = none) (hroll : p.isRollover = false)
    (h : Ended (fun _ => False) s t started)
    (hnext : ∀ q ∈ next, q.Relies t ∧ q.held = none ∧ q.passed = false ∧ q.isRollover = false) :
    Outcome s p t (next ++ started) := by
  refine Outcome.quiet next hp h (.of_same rfl rfl) rfl (fun q hq => ?_) ?_ (keptOrphan rfl) rfl
  · obtain ⟨hrelies, hheld, hpassed, -⟩ := hnext q hq
    exact ⟨hrelies, hheld, by simp [hpassed]⟩
  · have hnone : rollovers next = 0 := by
      unfold rollovers
      rw [List.countP_eq_zero]
      intro q hq
      simp [(hnext q hq).2.2.2]
    rw [hnone, hroll]
    simp

/-- **What a resumed process leaves when it does not flip.** -/
theorem resume_outcome {s t : Pool} (hs : s.Sound) {p : Process} {answer : Answer}
    {ps : List Process} (hp : p.Relies s) (h : s.resume p answer = some (t, ps))
    (hflip : flips s p answer = none) : Outcome s p t ps := by
  unfold resume at h
  split at h
  · exact resumeRollover_outcome hs hp h hflip
  · exact resumeRecovery_outcome hp h hflip
  · next g mayClose =>
      have hstatus : s.status g ≠ .starting := hp.names g (List.mem_singleton.mpr rfl)
      have hmoves := @beginRetire_moves (fun _ => False) s g (.inr hstatus)
      obtain ⟨hclosed, htarget⟩ := beginRetire_closed (lt_of_status hstatus) (hs.dead g)
      obtain ⟨hlength, hflight, horphan, hconfig, -⟩ := beginRetire_fields s g
      have hended : Ended (fun _ => False) s (s.beginRetire g).1 [] :=
        (Started.refl _).ended hmoves (Nat.le_of_eq (by rw [hflight])) hlength horphan hconfig
      have hafter := hmoves.settled hstatus
      split at h
      · generalize s.beginRetire g = after at *
        obtain ⟨u, result⟩ := after
        cases result with
        | some r =>
            cases h
            refine retiring_outcome [.retiring r] rfl rfl hended fun q hq => ?_
            rw [List.mem_singleton.mp hq]
            have hr := htarget r rfl
            refine ⟨⟨fun x hx => ?_, fun x hx => ?_, by simp [held]⟩, rfl, rfl, rfl⟩
            · rw [List.mem_singleton.mp hx, hr]
              exact hafter
            · rw [List.mem_singleton.mp hx, hr]
              exact hclosed
        | none =>
            cases h
            exact retiring_outcome [] rfl rfl hended (by simp)
      · cases h
        exact retiring_outcome [] rfl rfl ((Started.refl _).ended (.of_same rfl rfl)
          (Nat.le_refl _) rfl rfl rfl) (by simp)
  · next r =>
      have hstatus : s.status r.target ≠ .starting := hp.names _ (List.mem_singleton.mpr rfl)
      have hclosed : s.closed r.target = true := hp.shut _ (List.mem_singleton.mpr rfl)
      obtain ⟨hended, htarget⟩ := @stepRetire_ended (fun _ => False) s false r hclosed (.inr hstatus)
      have hafter := hended.moves.settled hstatus
      have hshut := hended.moves.closed_mono hclosed
      generalize s.stepRetire false r = after at *
      obtain ⟨u, result, started⟩ := after
      cases result with
      | some r' =>
          cases h
          refine retiring_outcome [.retiring r'] rfl rfl hended fun q hq => ?_
          rw [List.mem_singleton.mp hq]
          have hr := htarget r' rfl
          refine ⟨⟨fun x hx => ?_, fun x hx => ?_, by simp [held]⟩, rfl, rfl, rfl⟩
          · rw [List.mem_singleton.mp hx, hr]
            exact hafter
          · rw [List.mem_singleton.mp hx, hr]
            exact hshut
      | none =>
          cases h
          exact retiring_outcome [] rfl rfl hended (by simp)
  · next sweep =>
      obtain ⟨hended, hrelies⟩ := @stepSweep_ended (fun _ => False) s sweep hs.dead hp.names hp.shut
      generalize s.stepSweep sweep = after at *
      obtain ⟨u, result, started⟩ := after
      cases result with
      | some sweep' =>
          cases h
          refine retiring_outcome [.sweep sweep'] rfl rfl hended fun q hq => ?_
          rw [List.mem_singleton.mp hq]
          obtain ⟨htargets, hshut⟩ := hrelies sweep' rfl
          exact ⟨⟨htargets, hshut, by simp [held]⟩, rfl, rfl, rfl⟩
      | none =>
          cases h
          exact retiring_outcome [] rfl rfl hended (by simp)
  · cases h

/-! ## Flips -/

/-- What a process leaves that flips. -/
structure Flipped (s : Pool) (p : Process) (next : Nat) (previous : Option Nat) (t : Pool)
    (ps : List Process) : Prop where
  holder : p.held = some next
  length : t.engines.length = s.engines.length
  status : ∀ x, x < s.engines.length → t.status x =
    if previous = some x then .draining else if x = next then .primary else s.status x
  closed : ∀ x, t.closed x = s.closed x
  added : ∀ x ∈ t.generations, x ∈ s.generations ∨ x = next
  kept : ∀ x ∈ s.generations, x ∈ t.generations
  listed : next ∈ t.generations ∨ p.listed = true ∧ t.generations = s.generations
  relies : ∀ q ∈ ps, q.Relies t ∧ q.held = none ∧ q.passed = false
  count : rollovers ps + s.inFlight.toNat ≤ t.inFlight.toNat + p.isRollover.toNat
  orphan : t.recoveryOrphan = s.recoveryOrphan
  config : t.config = s.config.pointTo (s.generation next).handle
  demotes : previous = none ∨ p.passed = true

theorem status_flip (s : Pool) (next : Nat) (previous : Option Nat) {x : Nat}
    (hx : x < s.engines.length) : (s.flip next previous).status x =
      if previous = some x then .draining else if x = next then .primary else s.status x := by
  have hprimary : (s.setStatus next .primary).status x
      = if x = next then .primary else s.status x := by
    rw [status_setStatus]
    simp [hx]
  have hlength : x < (s.setStatus next .primary).engines.length := by
    simpa [setStatus] using hx
  cases previous with
  | none =>
      show (s.setStatus next .primary).status x = _
      rw [hprimary]
      simp
  | some g =>
      show ((s.setStatus next .primary).setStatus g .draining).status x = _
      rw [status_setStatus, hprimary]
      by_cases heq : x = g
      · simp [heq, heq ▸ hlength]
      · have hne : ¬ g = x := fun h => heq h.symm
        simp [heq, hne]

theorem closed_flip (s : Pool) (next : Nat) (previous : Option Nat) (x : Nat) :
    (s.flip next previous).closed x = s.closed x := by
  cases previous with
  | none => exact closed_setStatus s next x .primary
  | some g =>
      exact (closed_setStatus _ g x .draining).trans (closed_setStatus s next x .primary)

theorem length_flip (s : Pool) (next : Nat) (previous : Option Nat) :
    (s.flip next previous).engines.length = s.engines.length := by
  cases previous <;> simp [Pool.flip, setStatus]

theorem config_flip (s : Pool) (next : Nat) (previous : Option Nat) :
    (s.flip next previous).config = s.config.pointTo (s.generation next).handle := by
  cases previous with
  | none =>
      show s.config.pointTo ((s.setStatus next .primary).generation next).handle = _
      rw [handle_setStatus]
  | some g =>
      show s.config.pointTo (((s.setStatus next .primary).setStatus g .draining).generation
        next).handle = _
      rw [handle_setStatus, handle_setStatus]

theorem fields_flip (s : Pool) (next : Nat) (previous : Option Nat) :
    (s.flip next previous).generations = s.generations ∧
      (s.flip next previous).inFlight = s.inFlight ∧
      (s.flip next previous).recoveryOrphan = s.recoveryOrphan := by
  cases previous <;> exact ⟨rfl, rfl, rfl⟩

theorem rollOverFlip_flipped {s : Pool} {request : Request} {next : Nat} {previous : Option Nat}
    {stage : StandbyStage} :
    Flipped s (.rollover request (.standby stage next previous)) next previous
      (s.rollOverFlip request next previous).1 (s.rollOverFlip request next previous).2 := by
  obtain ⟨hlist, hflight, horphan⟩ := fields_flip s next previous
  have hrolled : ∀ t, (Process.rollover request .rolledOver).Relies t ∧
      (Process.rollover request .rolledOver).held = none ∧
      (Process.rollover request .rolledOver).passed = false := fun t =>
    ⟨rollover_relies (by simp [names]) rfl rfl, rfl, rfl⟩
  cases previous with
  | none =>
      refine ⟨rfl, length_flip s next none, fun x hx => status_flip s next none hx,
        closed_flip s next none, fun x hx => .inl (hlist ▸ hx), fun x hx => hlist.symm ▸ hx,
        .inr ⟨rfl, hlist⟩, fun q hq => ?_, ?_, horphan, config_flip s next none, .inl rfl⟩
      · rw [List.mem_singleton.mp hq]
        exact hrolled _
      · show 1 + s.inFlight.toNat ≤ (s.flip next none).inFlight.toNat + 1
        rw [hflight]
        omega
  | some g =>
      have hticks : ∀ q ∈ ((s.flip next (some g)).monitor g).beginTick g, q = .checking g ∧
          ((s.flip next (some g)).monitor g).status g = .draining := by
        intro q hq
        unfold beginTick at hq
        split at hq
        · next hdraining => exact ⟨List.mem_singleton.mp hq, hdraining⟩
        · cases hq
      have hcount : rollovers (((s.flip next (some g)).monitor g).beginTick g) = 0 := by
        unfold rollovers
        rw [List.countP_eq_zero]
        intro q hq
        rw [(hticks q hq).1]
        simp [isRollover]
      refine ⟨rfl, (length_update _ _ _).trans (length_flip s next (some g)),
        fun x hx => (status_monitor _ g x).trans (status_flip s next (some g) hx),
        fun x => (closed_monitor _ g x).trans (closed_flip s next (some g) x),
        fun x hx => .inl (hlist ▸ hx), fun x hx => hlist.symm ▸ hx, .inr ⟨rfl, hlist⟩,
        fun q hq => ?_, ?_, horphan, config_flip s next (some g), .inr rfl⟩
      · rcases List.mem_cons.mp hq with rfl | hq
        · exact hrolled _
        · obtain ⟨rfl, hdraining⟩ := hticks q hq
          refine ⟨⟨fun x hx => ?_, by simp [shut], by simp [held]⟩, rfl, rfl⟩
          rw [List.mem_singleton.mp hx]
          show ((s.flip next (some g)).monitor g).status g ≠ _
          rw [hdraining]
          simp
      · have hcons : rollovers (Process.rollover request .rolledOver ::
            ((s.flip next (some g)).monitor g).beginTick g) = 1 := by
          unfold rollovers at hcount ⊢
          rw [List.countP_cons, hcount]
          rfl
        show rollovers (_ :: _) + _ ≤ (s.flip next (some g)).inFlight.toNat + 1
        rw [hflight]
        omega

theorem recoveryFlip_flipped {s t : Pool} {stage : RecoveryStage} {next : Nat}
    (hp : (Process.recovery stage).held = some next) (hlength : t.engines.length = s.engines.length)
    (hstatus : ∀ x, t.status x = s.status x) (hclosed : ∀ x, t.closed x = s.closed x)
    (hhandle : (t.generation next).handle = (s.generation next).handle)
    (hadded : ∀ x ∈ t.generations, x ∈ s.generations ∨ x = next)
    (hkept : ∀ x ∈ s.generations, x ∈ t.generations)
    (hlisted : next ∈ t.generations ∨
      (Process.recovery stage).listed = true ∧ t.generations = s.generations)
    (hflight : t.inFlight = s.inFlight) (horphan : t.recoveryOrphan = s.recoveryOrphan)
    (hconfig : t.config = s.config) :
    Flipped s (.recovery stage) next none (t.recoveryFlip next).1 (t.recoveryFlip next).2 := by
  refine ⟨hp, (length_flip t next none).trans hlength, fun x hx => ?_,
    fun x => (closed_flip t next none x).trans (hclosed x), hadded, hkept, hlisted,
    by simp [recoveryFlip], ?_, horphan, ?_, .inl rfl⟩
  · rw [← hstatus]
    exact status_flip t next none (hlength.symm ▸ hx)
  · show 0 + s.inFlight.toNat ≤ t.inFlight.toNat + 0
    rw [hflight]
    omega
  · refine (config_flip t next none).trans ?_
    rw [hconfig, hhandle]

/-- **What a resumed process leaves when it flips.** -/
theorem resume_flipped {s t : Pool} {p : Process} {answer : Answer} {ps : List Process}
    {next : Nat} {previous : Option Nat} (h : s.resume p answer = some (t, ps))
    (hflip : flips s p answer = some (next, previous)) : Flipped s p next previous t ps := by
  have hregistered : ∀ g, Flipped s (.recovery (.registering g)) g none (s.recoveryFlip g).1
      (s.recoveryFlip g).2 := fun g =>
    recoveryFlip_flipped rfl rfl (fun _ => rfl) (fun _ => rfl) rfl (fun _ hx => .inl hx)
      (fun _ hx => hx) (.inr ⟨rfl, rfl⟩) rfl rfl rfl
  unfold flips at hflip
  split at hflip
  · next request g primary =>
      cases hflip
      have hflipped := @rollOverFlip_flipped s request next previous .requests
      rw [Option.some.inj h] at hflipped
      exact hflipped
  · next g text =>
      split at hflip
      · cases hflip
      · next hnone =>
          cases hflip
          have hhandle : (((s.update next fun e => { e with fingerprint := text }).push
              next).generation next).handle = (s.generation next).handle :=
            handle_update s next next _ fun _ => rfl
          have hflipped := @recoveryFlip_flipped s
            ((s.update next fun e => { e with fingerprint := text }).push next)
            (.fingerprinting next) next rfl (by simp [push])
            (fun x => status_update s next x _ fun _ => rfl)
            (fun x => closed_update s next x _ fun _ => rfl) hhandle
            (fun x hx => (List.mem_append.mp hx).imp_right List.mem_singleton.mp)
            (fun x hx => List.mem_append_left _ hx) (.inl (by simp [push])) rfl rfl rfl
          unfold resume resumeRecovery at h
          dsimp only at h
          rw [hhandle, if_neg hnone] at h
          rw [Option.some.inj h] at hflipped
          exact hflipped
  · next g =>
      cases hflip
      have hflipped := hregistered next
      rw [Option.some.inj h] at hflipped
      exact hflipped
  · next g =>
      cases hflip
      have hflipped := hregistered next
      rw [Option.some.inj h] at hflipped
      exact hflipped
  · cases hflip

end OmniRush.Engine
