import Mathlib.Tactic.ByContra
import OmniRush.Engine.Steps

/-!
# What a step does to the engines of the pool

Every step but a flip moves the engines one way: a status stays or becomes `dead`, `close`
stays called, and an engine leaves the list only closed (`Moves`). What a process relies
on is kept by the moves of the others: it names engines whose standby time is over, and
holds at most one that is its own.
-/

namespace OmniRush.Engine

namespace Pool

/-! ## Fields after an update -/

theorem generation_update (s : Pool) (g x : Nat) (f : Generation → Generation) :
    (s.update g f).generation x
      = if x = g ∧ x < s.engines.length then f (s.generation x) else s.generation x := by
  unfold generation update
  by_cases hx : x < s.engines.length
  · by_cases hg : g = x
    · simp [hg, hx]
    · have hg' : ¬ x = g := fun h => hg h.symm
      simp [hg, hg']
  · simp [hx]

@[simp] theorem length_update (s : Pool) (g : Nat) (f : Generation → Generation) :
    (s.update g f).engines.length = s.engines.length := by
  simp [update]

@[simp] theorem generations_update (s : Pool) (g : Nat) (f : Generation → Generation) :
    (s.update g f).generations = s.generations := rfl

theorem status_update (s : Pool) (g x : Nat) (f : Generation → Generation)
    (h : ∀ e, (f e).status = e.status) : (s.update g f).status x = s.status x := by
  unfold status
  rw [generation_update]
  split
  · exact h _
  · rfl

theorem closed_update (s : Pool) (g x : Nat) (f : Generation → Generation)
    (h : ∀ e, (f e).closed = e.closed) : (s.update g f).closed x = s.closed x := by
  unfold closed
  rw [generation_update]
  split
  · exact h _
  · rfl

theorem handle_update (s : Pool) (g x : Nat) (f : Generation → Generation)
    (h : ∀ e, (f e).handle = e.handle) :
    ((s.update g f).generation x).handle = (s.generation x).handle := by
  rw [generation_update]
  split
  · exact h _
  · rfl

theorem status_setStatus (s : Pool) (g x : Nat) (status : GenerationStatus) :
    (s.setStatus g status).status x
      = if x = g ∧ x < s.engines.length then status else s.status x := by
  show ((s.update g _).generation x).status = _
  rw [generation_update]
  split <;> rfl

theorem handle_setStatus (s : Pool) (g x : Nat) (status : GenerationStatus) :
    ((s.setStatus g status).generation x).handle = (s.generation x).handle :=
  handle_update _ _ _ _ fun _ => rfl

theorem status_monitor (s : Pool) (g x : Nat) : (s.monitor g).status x = s.status x :=
  status_update _ _ _ _ fun _ => rfl

theorem closed_monitor (s : Pool) (g x : Nat) : (s.monitor g).closed x = s.closed x :=
  closed_update _ _ _ _ fun _ => rfl

@[simp] theorem closed_setStatus (s : Pool) (g x : Nat) (status : GenerationStatus) :
    (s.setStatus g status).closed x = s.closed x := closed_update _ _ _ _ fun _ => rfl

@[simp] theorem status_close (s : Pool) (g x : Nat) : (s.close g).status x = s.status x :=
  status_update _ _ _ _ fun _ => rfl

theorem closed_close (s : Pool) (g x : Nat) :
    (s.close g).closed x = if x = g ∧ x < s.engines.length then true else s.closed x := by
  show ((s.update g _).generation x).closed = _
  rw [generation_update]
  split <;> rfl

theorem lt_of_status {s : Pool} {g : Nat} (h : s.status g ≠ .starting) :
    g < s.engines.length := by
  by_contra hge
  refine h ?_
  unfold status generation
  rw [List.getElem?_eq_none (by omega)]
  rfl

theorem closed_close_self {s : Pool} {g : Nat} (h : g < s.engines.length) :
    (s.close g).closed g = true := by
  rw [closed_close, if_pos ⟨rfl, h⟩]

theorem generation_spawned (s : Pool) (handle : Server) (fingerprint : String) (x : Nat) :
    (s.spawned handle fingerprint).generation x
      = if x = s.engines.length then { handle := handle, fingerprint := fingerprint }
        else s.generation x := by
  unfold generation spawned
  rw [List.getElem?_append]
  by_cases hlt : x < s.engines.length
  · have hne : x ≠ s.engines.length := by omega
    simp [hlt, hne]
  · by_cases heq : x = s.engines.length
    · simp [heq]
    · have hpos : x - s.engines.length ≠ 0 := by omega
      simp [hlt, heq, hpos]

@[simp] theorem status_spawned (s : Pool) (handle : Server) (fingerprint : String) (x : Nat) :
    (s.spawned handle fingerprint).status x = s.status x := by
  unfold status
  rw [generation_spawned]
  split
  · next h =>
      subst h
      unfold generation
      rw [List.getElem?_eq_none (Nat.le_refl _)]
      rfl
  · rfl

@[simp] theorem closed_spawned (s : Pool) (handle : Server) (fingerprint : String) (x : Nat) :
    (s.spawned handle fingerprint).closed x = s.closed x := by
  unfold closed
  rw [generation_spawned]
  split
  · next h =>
      subst h
      unfold generation
      rw [List.getElem?_eq_none (Nat.le_refl _)]
      rfl
  · rfl

theorem status_new (s : Pool) : s.status s.engines.length = .starting := by
  by_contra h
  exact absurd (lt_of_status h) (Nat.lt_irrefl _)

theorem closed_new (s : Pool) : s.closed s.engines.length = false := by
  unfold closed generation
  rw [List.getElem?_eq_none (Nat.le_refl _)]
  rfl

theorem primary_status {s : Pool} {g : Nat} (h : s.primary = some g) : s.status g = .primary := by
  have hfound := List.find?_some (p := fun g => decide (s.status g = .primary)) h
  exact of_decide_eq_true hfound

/-! ## Moves -/

/-- One way moves of the engines. Those of `own` may also be closed or dropped while they
start. -/
structure Moves (own : Nat → Prop) (s t : Pool) : Prop where
  length : s.engines.length ≤ t.engines.length
  status : ∀ x, t.status x = s.status x ∨
    (t.status x = .dead ∧ t.closed x = true ∧ (own x ∨ s.status x ≠ .starting))
  closed : ∀ x, t.closed x = s.closed x ∨
    (t.closed x = true ∧ (own x ∨ s.status x ≠ .starting))
  added : ∀ x ∈ t.generations, x ∈ s.generations ∨ own x
  kept : ∀ x ∈ s.generations, x ∈ t.generations ∨
    (t.closed x = true ∧ (own x ∨ s.status x ≠ .starting))

theorem Moves.of_same {own : Nat → Prop} {s t : Pool} (h : t.engines = s.engines)
    (hlist : t.generations = s.generations) : Moves own s t := by
  have hgeneration : ∀ x, t.generation x = s.generation x := by
    intro x
    unfold generation
    rw [h]
  refine ⟨Nat.le_of_eq (by rw [h]), fun x => .inl ?_, fun x => .inl ?_, fun x hx => .inl (hlist ▸ hx),
    fun x hx => .inl (hlist ▸ hx)⟩
  · unfold Pool.status
    rw [hgeneration]
  · unfold Pool.closed
    rw [hgeneration]

theorem Moves.closed_mono {own : Nat → Prop} {s t : Pool} (h : Moves own s t) {x : Nat}
    (hx : s.closed x = true) : t.closed x = true := by
  rcases h.closed x with heq | ⟨hclosed, -⟩
  · rw [heq, hx]
  · exact hclosed

theorem Moves.settled {own : Nat → Prop} {s t : Pool} (h : Moves own s t) {x : Nat}
    (hx : s.status x ≠ .starting) : t.status x ≠ .starting := by
  rcases h.status x with heq | ⟨hdead, -⟩
  · rw [heq]
    exact hx
  · rw [hdead]
    simp

/-- An engine that is past its start, or one's own, stays so along the moves. -/
theorem Moves.back {own : Nat → Prop} {s t : Pool} (h : Moves own s t) {x : Nat}
    (hx : own x ∨ t.status x ≠ .starting) : own x ∨ s.status x ≠ .starting := by
  rcases hx with hx | hx
  · exact .inl hx
  · rcases h.status x with heq | ⟨-, -, hcause⟩
    · rw [heq] at hx
      exact .inr hx
    · exact hcause

theorem Moves.trans {own : Nat → Prop} {s t u : Pool} (h : Moves own s t)
    (h' : Moves own t u) : Moves own s u where
  length := Nat.le_trans h.length h'.length
  status x := by
    rcases h'.status x with heq | ⟨hdead, hclosed, hcause⟩
    · rcases h.status x with heq' | ⟨hdead, hclosed, hcause⟩
      · exact .inl (heq.trans heq')
      · exact .inr ⟨heq.trans hdead, h'.closed_mono hclosed, hcause⟩
    · exact .inr ⟨hdead, hclosed, h.back hcause⟩
  closed x := by
    rcases h'.closed x with heq | ⟨hclosed, hcause⟩
    · rcases h.closed x with heq' | ⟨hclosed, hcause⟩
      · exact .inl (heq.trans heq')
      · exact .inr ⟨heq.trans hclosed, hcause⟩
    · exact .inr ⟨hclosed, h.back hcause⟩
  added x hx := by
    rcases h'.added x hx with hin | hown
    · exact h.added x hin
    · exact .inr hown
  kept x hx := by
    rcases h.kept x hx with hin | ⟨hclosed, hcause⟩
    · rcases h'.kept x hin with hin | ⟨hclosed, hcause⟩
      · exact .inl hin
      · exact .inr ⟨hclosed, h.back hcause⟩
    · exact .inr ⟨h'.closed_mono hclosed, hcause⟩

theorem Moves.mono {own own' : Nat → Prop} {s t : Pool} (h : Moves own s t)
    (hle : ∀ x, own x → own' x) : Moves own' s t where
  length := h.length
  status x := (h.status x).imp_right fun ⟨hdead, hclosed, hcause⟩ =>
    ⟨hdead, hclosed, hcause.imp_left (hle x)⟩
  closed x := (h.closed x).imp_right fun ⟨hclosed, hcause⟩ => ⟨hclosed, hcause.imp_left (hle x)⟩
  added x hx := (h.added x hx).imp_right (hle x)
  kept x hx := (h.kept x hx).imp_right fun ⟨hclosed, hcause⟩ =>
    ⟨hclosed, hcause.imp_left (hle x)⟩

theorem moves_update {own : Nat → Prop} (s : Pool) (g : Nat) (f : Generation → Generation)
    (hstatus : ∀ e, (f e).status = e.status) (hclosed : ∀ e, (f e).closed = e.closed) :
    Moves own s (s.update g f) where
  length := by simp
  status x := .inl (status_update s g x f hstatus)
  closed x := .inl (closed_update s g x f hclosed)
  added _ hx := .inl hx
  kept _ hx := .inl hx

theorem moves_close {own : Nat → Prop} (s : Pool) (g : Nat)
    (h : s.closed g = true ∨ own g ∨ s.status g ≠ .starting) : Moves own s (s.close g) where
  length := by simp [close]
  status x := .inl (status_close s g x)
  closed x := by
    rw [closed_close]
    split
    · next hx =>
        rw [hx.1]
        rcases h with h | h
        · exact .inl h.symm
        · exact .inr ⟨rfl, h⟩
    · exact .inl rfl
  added _ hx := .inl hx
  kept _ hx := .inl hx

theorem moves_dead {own : Nat → Prop} (s : Pool) (g : Nat) (hclosed : s.closed g = true)
    (h : own g ∨ s.status g ≠ .starting) : Moves own s (s.setStatus g .dead) where
  length := by simp [setStatus]
  status x := by
    rw [status_setStatus]
    split
    · next hx =>
        rw [closed_setStatus, hx.1]
        exact .inr ⟨rfl, hclosed, h⟩
    · exact .inl rfl
  closed x := .inl (closed_setStatus s g x .dead)
  added _ hx := .inl hx
  kept _ hx := .inl hx

theorem moves_drop {own : Nat → Prop} (s : Pool) (g : Nat) (hclosed : s.closed g = true)
    (h : own g ∨ s.status g ≠ .starting) : Moves own s (s.drop g) where
  length := Nat.le_refl _
  status _ := .inl rfl
  closed _ := .inl rfl
  added x hx := .inl (List.mem_filter.mp hx).1
  kept x hx := by
    by_cases heq : x = g
    · rw [heq]
      exact .inr ⟨hclosed, h⟩
    · exact .inl (List.mem_filter.mpr ⟨hx, by simp [heq]⟩)

theorem moves_push {own : Nat → Prop} (s : Pool) (g : Nat) (h : own g) : Moves own s (s.push g) where
  length := Nat.le_refl _
  status _ := .inl rfl
  closed _ := .inl rfl
  added x hx := by
    rcases List.mem_append.mp hx with hx | hx
    · exact .inl hx
    · rw [List.mem_singleton.mp hx]
      exact .inr h
  kept _ hx := .inl (List.mem_append_left _ hx)

theorem moves_spawned {own : Nat → Prop} (s : Pool) (handle : Server) (fingerprint : String) :
    Moves own s (s.spawned handle fingerprint) where
  length := by simp [spawned]
  status x := .inl (status_spawned s handle fingerprint x)
  closed x := .inl (closed_spawned s handle fingerprint x)
  added _ hx := .inl hx
  kept _ hx := .inl hx

end Pool

/-! ## What a process holds and names -/

def Retire.target : Retire → Nat
  | .closing g => g
  | .unregistering g => g

def Sweep.targets : Sweep → List Nat
  | .aborting g rest => g :: rest
  | .retiring r rest => r.target :: rest

/-- The engine that a sweep has closed. -/
def Sweep.shut : Sweep → List Nat
  | .aborting _ _ => []
  | .retiring r _ => [r.target]

namespace Process

/-- The engine that a rollover or a recovery spawned, until it flips or gives it up. -/
def held : Process → Option Nat
  | .rollover _ (.standby _ g _) => some g
  | .recovery (.health g) => some g
  | .recovery (.fingerprinting g) => some g
  | .recovery (.registering g) => some g
  | _ => none

/-- It has put the engine it holds into the list. -/
def listed : Process → Bool
  | .rollover _ (.standby _ _ _) => true
  | .recovery (.registering _) => true
  | _ => false

/-- The other engines that a process names. -/
def names : Process → List Nat
  | .rollover _ (.sweepFirst sw) => sw.targets
  | .rollover _ (.sweepLast sw) => sw.targets
  | .rollover _ (.askingBusy _ primary) => primary.toList
  | .rollover _ (.reloading _ primary) => primary.toList
  | .rollover _ (.spawning _ primary) => primary.toList
  | .rollover _ (.standby _ _ primary) => primary.toList
  | .recovery (.closingOrphan previous) => previous.toList
  | .recovery (.probing previous) => [previous]
  | .recovery (.closingPrevious previous) => [previous]
  | .recovery (.unregistering previous) => [previous]
  | .checking g => [g]
  | .retiring r => [r.target]
  | .sweep sw => sw.targets
  | _ => []

/-- The engines it has closed. -/
def shut : Process → List Nat
  | .rollover _ (.sweepFirst sw) => sw.shut
  | .rollover _ (.sweepLast sw) => sw.shut
  | .recovery (.closingPrevious previous) => [previous]
  | .recovery (.unregistering previous) => [previous]
  | .recovery (.closingReplacement g) => [g]
  | .retiring r => [r.target]
  | .sweep sw => sw.shut
  | _ => []

/-- A rollover that found no drain and has not flipped. -/
def passed : Process → Bool
  | .rollover _ (.spawning _ _) => true
  | .rollover _ (.standby _ _ _) => true
  | _ => false

def isRollover : Process → Bool
  | .rollover _ _ => true
  | _ => false

end Process

/-- What a process relies on. -/
structure Process.Relies (s : Pool) (p : Process) : Prop where
  names : ∀ g ∈ p.names, s.status g ≠ .starting
  shut : ∀ g ∈ p.shut, s.closed g = true
  held : ∀ g ∈ p.held, g < s.engines.length

theorem Process.Relies.moves {own : Nat → Prop} {s t : Pool} {p : Process} (h : p.Relies s)
    (hmoves : s.Moves own t) : p.Relies t where
  names g hg := hmoves.settled (h.names g hg)
  shut g hg := hmoves.closed_mono (h.shut g hg)
  held g hg := Nat.lt_of_lt_of_le (h.held g hg) hmoves.length

/-- A process that starts holds nothing. -/
structure Process.Starts (s : Pool) (p : Process) : Prop where
  relies : p.Relies s
  held : p.held = none
  passed : p.passed = false

theorem Process.Starts.moves {own : Nat → Prop} {s t : Pool} {p : Process} (h : p.Starts s)
    (hmoves : s.Moves own t) : p.Starts t where
  relies := h.relies.moves hmoves
  held := h.held
  passed := h.passed

def rollovers (ps : List Process) : Nat := ps.countP Process.isRollover

namespace Pool

/-- The processes that a step starts, and the flag of the rollover. -/
structure Started (s t : Pool) (ps : List Process) : Prop where
  moves : ∀ own, s.Moves own t
  starts : ∀ q ∈ ps, q.Starts t
  count : rollovers ps + s.inFlight.toNat ≤ t.inFlight.toNat
  length : t.engines.length = s.engines.length
  orphan : t.recoveryOrphan = s.recoveryOrphan
  config : t.config = s.config

theorem Started.refl (s : Pool) : Started s s [] where
  moves _ := .of_same rfl rfl
  starts := by simp
  count := by simp [rollovers]
  length := rfl
  orphan := rfl
  config := rfl

theorem mem_drainingThat {s : Pool} {shouldRetire : String → Bool} {g : Nat}
    (h : g ∈ s.drainingThat shouldRetire) : s.status g = .draining := by
  have hboth := (List.mem_filter.mp h).2
  rw [Bool.and_eq_true, decide_eq_true_eq] at hboth
  exact hboth.1

theorem targets_beginSweep {targets : List Nat} {sweep : Sweep}
    (h : beginSweep targets = some sweep) : sweep.targets = targets ∧ sweep.shut = [] := by
  cases targets with
  | nil => cases h
  | cons g rest =>
      cases h
      exact ⟨rfl, rfl⟩

theorem targets_sweepOf {s : Pool} {request : Request} {sweep : Sweep}
    (h : s.sweepOf request = some sweep) :
    (∀ g ∈ sweep.targets, s.status g ≠ .starting) ∧ sweep.shut = [] := by
  obtain ⟨shouldRetire, -, hbegin⟩ := Option.bind_eq_some_iff.mp h
  obtain ⟨htargets, hshut⟩ := targets_beginSweep hbegin
  refine ⟨fun g hg => ?_, hshut⟩
  rw [htargets] at hg
  rw [mem_drainingThat hg]
  simp

theorem beginRun_starts (s : Pool) (request : Request) : (s.beginRun request).Starts s := by
  unfold beginRun
  split
  · next sweep hsweep =>
      obtain ⟨htargets, hshut⟩ := targets_sweepOf hsweep
      refine ⟨⟨htargets, ?_, by simp [Process.held]⟩, rfl, rfl⟩
      show ∀ g ∈ sweep.shut, _
      simp [hshut]
  · exact ⟨⟨by simp [Process.names], by simp [Process.shut], by simp [Process.held]⟩, rfl, rfl⟩

theorem beginRun_isRollover (s : Pool) (request : Request) :
    (s.beginRun request).isRollover = true := by
  unfold beginRun
  split <;> rfl

theorem requestRollover_started (s : Pool) (request : Request) :
    Started s (s.requestRollover request).1 (s.requestRollover request).2 := by
  unfold requestRollover
  split
  · exact .refl s
  · split
    · exact ⟨fun _ => .of_same rfl rfl, by simp, by simp [rollovers], rfl, rfl, rfl⟩
    · next hidle =>
        refine ⟨fun _ => .of_same rfl rfl, ?_, ?_, rfl, rfl, rfl⟩
        · intro q hq
          rw [List.mem_singleton.mp hq]
          have hquiet : s.Moves (fun _ => False) { s with inFlight := true } := .of_same rfl rfl
          exact (beginRun_starts s request).moves hquiet
        · simp [rollovers, beginRun_isRollover, hidle]

theorem Started.after {s t u : Pool} {ps : List Process} (h : Started t u ps)
    (hmoves : ∀ own, s.Moves own t) (hcount : s.inFlight.toNat ≤ t.inFlight.toNat)
    (hlength : t.engines.length = s.engines.length)
    (horphan : t.recoveryOrphan = s.recoveryOrphan) (hconfig : t.config = s.config) :
    Started s u ps where
  moves own := (hmoves own).trans (h.moves own)
  starts := h.starts
  count := by
    have hlater := h.count
    omega
  length := h.length.trans hlength
  orphan := h.orphan.trans horphan
  config := h.config.trans hconfig

theorem requestPending_started (s : Pool) :
    Started s s.requestPending.1 s.requestPending.2 := by
  unfold requestPending
  split
  · exact .refl s
  · exact (requestRollover_started _ _).after (fun _ => .of_same rfl rfl) (Nat.le_refl _) rfl rfl rfl

theorem endRollover_started (s : Pool) :
    Started { s with inFlight := false } s.endRollover.1 s.endRollover.2 :=
  (requestPending_started _).after (fun _ => .of_same rfl rfl) (Nat.le_refl _) rfl rfl rfl

/-! ## Retiring -/

theorem beginRetire_moves {own : Nat → Prop} (s : Pool) (g : Nat)
    (h : own g ∨ s.status g ≠ .starting) : s.Moves own (s.beginRetire g).1 := by
  unfold beginRetire
  split
  · exact .of_same rfl rfl
  · have hgeneration := fun x => generation_update s g x fun e =>
      { e with status := .dead, monitored := false, closed := true }
    refine ⟨by simp, fun x => ?_, fun x => ?_, fun x hx => .inl hx, fun x hx => .inl hx⟩
    · unfold status closed
      rw [hgeneration]
      split
      · next hx =>
          rw [hx.1]
          exact .inr ⟨rfl, rfl, h⟩
      · exact .inl rfl
    · unfold closed
      rw [hgeneration]
      split
      · next hx =>
          rw [hx.1]
          exact .inr ⟨rfl, h⟩
      · exact .inl rfl

theorem beginRetire_closed {s : Pool} {g : Nat} (hlt : g < s.engines.length)
    (hdead : s.status g = .dead → s.closed g = true) :
    (s.beginRetire g).1.closed g = true ∧ ∀ r ∈ (s.beginRetire g).2, r.target = g := by
  unfold beginRetire
  split
  · next h => exact ⟨hdead h, by simp⟩
  · refine ⟨?_, fun r hr => ?_⟩
    · unfold closed
      rw [generation_update, if_pos ⟨rfl, hlt⟩]
    · cases hr
      rfl

theorem beginRetire_fields (s : Pool) (g : Nat) :
    (s.beginRetire g).1.engines.length = s.engines.length ∧
      (s.beginRetire g).1.inFlight = s.inFlight ∧
      (s.beginRetire g).1.recoveryOrphan = s.recoveryOrphan ∧
      (s.beginRetire g).1.config = s.config ∧ (s.beginRetire g).1.generations = s.generations := by
  unfold beginRetire
  split
  · exact ⟨rfl, rfl, rfl, rfl, rfl⟩
  · exact ⟨by simp, rfl, rfl, rfl, rfl⟩

/-- What the end of a retirement does, but for the moves of its engine. -/
structure Ended (own : Nat → Prop) (s t : Pool) (ps : List Process) : Prop where
  moves : s.Moves own t
  starts : ∀ q ∈ ps, q.Starts t
  count : rollovers ps + s.inFlight.toNat ≤ t.inFlight.toNat
  length : t.engines.length = s.engines.length
  orphan : t.recoveryOrphan = s.recoveryOrphan
  config : t.config = s.config

theorem Started.ended {own : Nat → Prop} {s t u : Pool} {ps : List Process} (h : Started t u ps)
    (hmoves : s.Moves own t) (hcount : s.inFlight.toNat ≤ t.inFlight.toNat)
    (hlength : t.engines.length = s.engines.length)
    (horphan : t.recoveryOrphan = s.recoveryOrphan) (hconfig : t.config = s.config) :
    Ended own s u ps where
  moves := hmoves.trans (h.moves own)
  starts := h.starts
  count := by
    have hlater := h.count
    omega
  length := h.length.trans hlength
  orphan := h.orphan.trans horphan
  config := h.config.trans hconfig

theorem endRetire_ended {own : Nat → Prop} (s : Pool) (shutdown : Bool) (g : Nat)
    (hclosed : s.closed g = true) (h : own g ∨ s.status g ≠ .starting) :
    Ended own s (s.endRetire shutdown g).1 (s.endRetire shutdown g).2 := by
  have hdrop : s.Moves own { s.drop g with drainWaiting := false } :=
    (moves_drop s g hclosed h).trans (.of_same rfl rfl)
  unfold endRetire
  dsimp only
  split
  · exact (Started.refl _).ended hdrop (Nat.le_refl _) rfl rfl rfl
  · exact (requestPending_started _).ended hdrop (Nat.le_refl _) rfl rfl rfl

theorem stepRetire_ended {own : Nat → Prop} (s : Pool) (shutdown : Bool) (r : Retire)
    (hclosed : s.closed r.target = true) (h : own r.target ∨ s.status r.target ≠ .starting) :
    Ended own s (s.stepRetire shutdown r).1 (s.stepRetire shutdown r).2.2 ∧
      ∀ r' ∈ (s.stepRetire shutdown r).2.1, r'.target = r.target := by
  cases r with
  | closing g =>
      rw [stepRetire]
      split
      · refine ⟨(Started.refl _).ended (.of_same rfl rfl) (Nat.le_refl _) rfl rfl rfl, fun r hr => ?_⟩
        cases hr
        rfl
      · exact ⟨endRetire_ended s shutdown g hclosed h, by simp⟩
  | unregistering g =>
      have hregistry : s.Moves own (s.update g fun e => { e with registered := false }) :=
        moves_update s g _ (fun _ => rfl) fun _ => rfl
      have hend := @endRetire_ended own (s.update g fun e => { e with registered := false })
        shutdown g (hregistry.closed_mono hclosed)
        (h.imp_right hregistry.settled)
      exact ⟨⟨hregistry.trans hend.moves, hend.starts, hend.count,
        hend.length.trans (by simp), hend.orphan, hend.config⟩,
        by simp [stepRetire]⟩

theorem stepSweep_ended {own : Nat → Prop} (s : Pool) (sweep : Sweep)
    (hdead : ∀ g, s.status g = .dead → s.closed g = true)
    (htargets : ∀ g ∈ sweep.targets, s.status g ≠ .starting)
    (hshut : ∀ g ∈ sweep.shut, s.closed g = true) :
    Ended own s (s.stepSweep sweep).1 (s.stepSweep sweep).2.2 ∧
      ∀ sweep' ∈ (s.stepSweep sweep).2.1,
        (∀ g ∈ sweep'.targets, (s.stepSweep sweep).1.status g ≠ .starting) ∧
        ∀ g ∈ sweep'.shut, (s.stepSweep sweep).1.closed g = true := by
  cases sweep with
  | aborting g rest =>
      have hg : s.status g ≠ .starting := htargets g (List.mem_cons_self ..)
      have hmoves := @beginRetire_moves own s g (.inr hg)
      obtain ⟨hclosed, htarget⟩ := beginRetire_closed (lt_of_status hg) (hdead g)
      obtain ⟨hlength, hflight, horphan, hconfig, -⟩ := beginRetire_fields s g
      have hended : Ended own s (s.beginRetire g).1 [] :=
        (Started.refl _).ended hmoves (Nat.le_of_eq (by rw [hflight])) hlength horphan hconfig
      have hrest : ∀ x ∈ rest, (s.beginRetire g).1.status x ≠ .starting := fun x hx =>
        hmoves.settled (htargets x (List.mem_cons_of_mem _ hx))
      have hfirst := hmoves.settled hg
      rw [stepSweep]
      generalize s.beginRetire g = after at *
      obtain ⟨t, result⟩ := after
      cases result with
      | some r =>
          refine ⟨hended, fun sweep' hsweep' => ?_⟩
          cases hsweep'
          have hr := htarget r rfl
          refine ⟨fun x hx => ?_, fun x hx => ?_⟩
          · rcases List.mem_cons.mp hx with rfl | hx
            · rw [hr]
              exact hfirst
            · exact hrest x hx
          · rw [List.mem_singleton.mp hx, hr]
            exact hclosed
      | none =>
          refine ⟨hended, fun sweep' hsweep' => ?_⟩
          obtain ⟨htargets', hshut'⟩ := targets_beginSweep hsweep'
          rw [htargets', hshut']
          exact ⟨hrest, by simp⟩
  | retiring r rest =>
      have hg : s.status r.target ≠ .starting := htargets _ (List.mem_cons_self ..)
      obtain ⟨hended, htarget⟩ := @stepRetire_ended own s false r
        (hshut _ (List.mem_singleton.mpr rfl)) (.inr hg)
      have hrest : ∀ x ∈ rest, (s.stepRetire false r).1.status x ≠ .starting := fun x hx =>
        hended.moves.settled (htargets x (List.mem_cons_of_mem _ hx))
      have hfirst := hended.moves.settled hg
      have hclosed := hended.moves.closed_mono (hshut _ (List.mem_singleton.mpr rfl))
      rw [stepSweep]
      generalize s.stepRetire false r = after at *
      obtain ⟨t, result, started⟩ := after
      cases result with
      | some r' =>
          refine ⟨hended, fun sweep' hsweep' => ?_⟩
          cases hsweep'
          have hr := htarget r' rfl
          refine ⟨fun x hx => ?_, fun x hx => ?_⟩
          · rcases List.mem_cons.mp hx with rfl | hx
            · rw [hr]
              exact hfirst
            · exact hrest x hx
          · rw [List.mem_singleton.mp hx, hr]
            exact hclosed
      | none =>
          refine ⟨hended, fun sweep' hsweep' => ?_⟩
          obtain ⟨htargets', hshut'⟩ := targets_beginSweep hsweep'
          rw [htargets', hshut']
          exact ⟨hrest, by simp⟩

end Pool

end OmniRush.Engine
