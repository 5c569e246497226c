import Mathlib.Data.List.Perm.Basic
import OmniRush.Proofs.PoolSteps

/-!
# Runs of the pool

What a step of the pool is (`step_cases`), and what holds in every state of every run
(`Kept`): each process finds what it relies on, no two hold one engine, there is one
rollover at most, and what `disposeAll` still has to close are engines.
-/

namespace OmniRush.Engine

open Process Pool

/-- The flip that an event brings about. -/
def World.flip (w : World) : Event → Option (Nat × Option Nat)
  | .resume i answer => w.processes[i]?.bind fun process => flips w.pool process answer
  | _ => none

/-- A process that is resumed: it and the others. An event that resumes none counts as the
one of a process that holds nothing. -/
inductive World.Picks (w : World) : Process → List Process → Prop
  | resumed {p : Process} {rest : List Process} (h : w.processes.Perm (p :: rest)) :
      Picks w p rest
  | event : Picks w (.recovery .spawning) w.processes

/-- The kinds of steps. -/
inductive World.Steps (w : World) (e : Event) (w' : World) : Prop
  | runs {p : Process} {rest ps : List Process} (hpick : w.Picks p rest)
      (hprocesses : w'.processes = rest ++ ps) (hdisposal : w'.disposal = w.disposal)
      (hflip : w.flip e = none) (h : Outcome w.pool p w'.pool ps)
  | flips {p : Process} {rest ps : List Process} {next : Nat} {previous : Option Nat}
      (hpick : w.Picks p rest) (hprocesses : w'.processes = rest ++ ps)
      (hdisposal : w'.disposal = w.disposal) (hflip : w.flip e = some (next, previous))
      (h : Flipped w.pool p next previous w'.pool ps)
  | disposes {disposal : Disposal} (he : e = .disposeAll) (hnone : w.disposal = none)
      (hprocesses : w'.processes = w.processes) (hdisposal : w'.disposal = some disposal)
      (h : w.pool.disposeAll = (w'.pool, disposal))
  | goesOn {before after : Disposal} (he : e = .resumeDisposal) (hbefore : w.disposal = some before)
      (hprocesses : w'.processes = w.processes) (hdisposal : w'.disposal = some after)
      (h : w.pool.resumeDisposal before = some (w'.pool, after))

theorem started_outcome {s t : Pool} {ps : List Process} (h : Started s t ps) :
    Outcome s (.recovery .spawning) t ps :=
  .quiet [] rfl (h.ended (.of_same rfl rfl) (Nat.le_refl _) rfl rfl rfl) (.of_same rfl rfl) rfl
    (by simp) (by simp [rollovers]) (keptOrphan rfl) rfl

theorem event_outcome {s t : Pool} {ps : List Process} (hengines : t.engines = s.engines)
    (hlist : t.generations = s.generations) (hflight : t.inFlight = s.inFlight)
    (horphan : t.recoveryOrphan = s.recoveryOrphan) (hconfig : t.config = s.config)
    (hps : ∀ q ∈ ps, q.Relies t ∧ q.held = none ∧ q.passed = false ∧ q.isRollover = false) :
    Outcome s (.recovery .spawning) t ps := by
  have hended : Ended (fun _ => False) t t [] :=
    (Started.refl t).ended (.of_same rfl rfl) (Nat.le_refl _) rfl rfl rfl
  have hnone : rollovers ps = 0 := by
    unfold rollovers
    rw [List.countP_eq_zero]
    intro q hq
    simp [(hps q hq).2.2.2]
  have houtcome := Outcome.quiet ps (p := .recovery .spawning) rfl hended
    (.of_same hengines hlist) (by rw [hengines])
    (fun q hq => ⟨(hps q hq).1, (hps q hq).2.1, by simp [(hps q hq).2.2.1]⟩)
    (by rw [hnone, hflight]; omega) (keptOrphan horphan) hconfig
  rwa [List.append_nil] at houtcome

theorem reportRequestFailure_outcome {s : Pool} (hs : s.Sound) (toPrimary recent : Bool) :
    Outcome s (.recovery .spawning) (s.reportRequestFailure toPrimary recent).1
      (s.reportRequestFailure toPrimary recent).2 := by
  unfold reportRequestFailure
  split
  · exact event_outcome rfl rfl rfl rfl rfl (by simp)
  · dsimp only
    split
    · exact event_outcome rfl rfl rfl rfl rfl (by simp)
    · exact recoverDeadPrimary_outcome hs rfl rfl rfl rfl rfl rfl

theorem beginTick_relies {s : Pool} (g : Nat) : ∀ q ∈ s.beginTick g,
    q.Relies s ∧ q.held = none ∧ q.passed = false ∧ q.isRollover = false := by
  intro q hq
  unfold beginTick at hq
  split at hq
  · next hdraining =>
      rw [List.mem_singleton.mp hq]
      refine ⟨⟨fun x hx => ?_, by simp [shut], by simp [held]⟩, rfl, rfl, rfl⟩
      rw [List.mem_singleton.mp hx, hdraining]
      simp
  · cases hq

theorem retireDraining_relies {s : Pool} (shouldRetire : String → Bool) :
    ∀ q ∈ (beginSweep (s.drainingThat shouldRetire)).toList.map Process.sweep,
      q.Relies s ∧ q.held = none ∧ q.passed = false ∧ q.isRollover = false := by
  intro q hq
  obtain ⟨sweep, hsweep, rfl⟩ := List.mem_map.mp hq
  obtain ⟨htargets, hshut⟩ := targets_beginSweep (Option.mem_toList.mp hsweep)
  refine ⟨⟨fun x hx => ?_, fun x hx => ?_, by simp [held]⟩, rfl, rfl, rfl⟩
  · have hx : x ∈ sweep.targets := hx
    rw [htargets] at hx
    rw [mem_drainingThat hx]
    simp
  · have hx : x ∈ sweep.shut := hx
    rw [hshut] at hx
    cases hx

theorem step_cases {w w' : World} {e : Event} (h : w.step e = some w') (hs : w.pool.Sound)
    (hrelies : ∀ p ∈ w.processes, p.Relies w.pool) : w.Steps e w' := by
  cases e with
  | requestRollover request =>
      cases h
      exact .runs .event rfl rfl rfl (started_outcome (requestRollover_started w.pool request))
  | retireDraining shouldRetire =>
      cases h
      exact .runs .event rfl rfl rfl
        (event_outcome rfl rfl rfl rfl rfl (retireDraining_relies shouldRetire))
  | reportRequestFailure toPrimary recent =>
      cases h
      exact .runs .event rfl rfl rfl (reportRequestFailure_outcome hs toPrimary recent)
  | reportRequestSuccess toPrimary =>
      simp only [World.step] at h
      split at h
      · cases h
        exact .runs .event rfl rfl rfl (event_outcome rfl rfl rfl rfl rfl (by simp))
      · cases h
        exact .runs .event (List.append_nil _).symm rfl rfl
          (event_outcome rfl rfl rfl rfl rfl (by simp))
  | recoveryTimer =>
      simp only [World.step] at h
      split at h
      · cases h
        exact .runs .event rfl rfl rfl (recoverDeadPrimary_outcome hs rfl rfl rfl rfl rfl rfl)
      · cases h
  | drainCheck g =>
      simp only [World.step] at h
      split at h
      · cases h
        exact .runs .event rfl rfl rfl (event_outcome rfl rfl rfl rfl rfl (beginTick_relies g))
      · cases h
  | disposeAll =>
      simp only [World.step] at h
      split at h
      · cases h
      · next hnone =>
          cases h
          exact .disposes rfl (by simpa using hnone) rfl rfl rfl
  | resume i answer =>
      obtain ⟨process, hget, hafter⟩ := Option.bind_eq_some_iff.mp h
      obtain ⟨⟨t, ps⟩, hresume, rfl⟩ := Option.map_eq_some_iff.mp hafter
      obtain ⟨hi, rfl⟩ := List.getElem?_eq_some_iff.mp hget
      have hperm : w.processes.Perm (w.processes[i] :: w.processes.eraseIdx i) :=
        (List.getElem_cons_eraseIdx_perm hi).symm
      have hflip : w.flip (.resume i answer) = flips w.pool w.processes[i] answer := by
        simp only [World.flip, hget, Option.bind_some]
      cases heq : flips w.pool w.processes[i] answer with
      | none =>
          exact .runs (.resumed hperm) rfl rfl (hflip.trans heq)
            (resume_outcome hs (hrelies _ (List.getElem_mem hi)) hresume heq)
      | some roles =>
          obtain ⟨next, previous⟩ := roles
          exact .flips (.resumed hperm) rfl rfl (hflip.trans heq) (resume_flipped hresume heq)
  | resumeDisposal =>
      obtain ⟨before, hbefore, hafter⟩ := Option.bind_eq_some_iff.mp h
      obtain ⟨⟨t, after⟩, hresume, rfl⟩ := Option.map_eq_some_iff.mp hafter
      exact .goesOn rfl hbefore rfl rfl hresume

/-! ## What every run keeps -/

/-- The engines that `disposeAll` still has to close. -/
def Disposal.left : Disposal → List Nat
  | .closingOrphan => []
  | .next rest => rest
  | .retiring _ rest => rest
  | .resolved => []

/-- The engine it is closing. -/
def Disposal.target : Disposal → Option Nat
  | .retiring r _ => some r.target
  | _ => none

structure World.Kept (w : World) : Prop where
  sound : w.pool.Sound
  inRange : ∀ g ∈ w.pool.generations, g < w.pool.engines.length
  relies : ∀ p ∈ w.processes, p.Relies w.pool
  distinct : (holds w.processes).Nodup
  one : rollovers w.processes ≤ w.pool.inFlight.toNat
  left : ∀ d ∈ w.disposal, (∀ g ∈ d.left, g < w.pool.engines.length) ∧
    ∀ g ∈ d.target, w.pool.closed g = true

theorem relies_idle (s : Pool) : (Process.recovery .spawning).Relies s :=
  ⟨by simp [names], by simp [shut], by simp [held]⟩

theorem World.Kept.picks {w : World} (h : w.Kept) {p : Process} {rest : List Process}
    (hpick : w.Picks p rest) : p.Relies w.pool ∧ (∀ q ∈ rest, q.Relies w.pool ∧ q ∈ w.processes) ∧
      (holds (p :: rest)).Nodup ∧ rollovers (p :: rest) ≤ w.pool.inFlight.toNat := by
  cases hpick with
  | resumed hperm =>
      have hmem : ∀ q ∈ p :: rest, q ∈ w.processes := fun q hq => hperm.mem_iff.mpr hq
      refine ⟨h.relies p (hmem p (List.mem_cons_self ..)), fun q hq => ?_, ?_, ?_⟩
      · have hq := hmem q (List.mem_cons_of_mem _ hq)
        exact ⟨h.relies q hq, hq⟩
      · exact (hperm.filterMap held).nodup_iff.mp h.distinct
      · have hcount : rollovers w.processes = rollovers (p :: rest) := hperm.countP_eq _
        rw [← hcount]
        exact h.one
  | event =>
      refine ⟨relies_idle _, fun q hq => ⟨h.relies q hq, hq⟩, ?_, ?_⟩
      · exact h.distinct
      · exact h.one

theorem holds_cons (p : Process) (ps : List Process) :
    holds (p :: ps) = p.held.toList ++ holds ps := by
  unfold holds
  cases hp : p.held <;> simp [hp]

theorem holds_append (ps qs : List Process) : holds (ps ++ qs) = holds ps ++ holds qs :=
  List.filterMap_append

theorem rollovers_cons (p : Process) (ps : List Process) :
    rollovers (p :: ps) = rollovers ps + p.isRollover.toNat := by
  unfold rollovers
  rw [List.countP_cons]
  cases p.isRollover <;> rfl

theorem mem_holds {ps : List Process} {g : Nat} : g ∈ holds ps ↔ ∃ q ∈ ps, q.held = some g :=
  List.mem_filterMap

theorem Sound.moves {own : Nat → Prop} {s t : Pool} (hs : s.Sound) (h : s.Moves own t)
    (horphan : ∀ g ∈ t.recoveryOrphan, s.recoveryOrphan = some g ∨ t.closed g = true) : t.Sound where
  orphan g hg := by
    rcases horphan g hg with hg | hclosed
    · exact h.closed_mono (hs.orphan g hg)
    · exact hclosed
  dead g hg := by
    rcases h.status g with heq | ⟨-, hclosed, -⟩
    · exact h.closed_mono (hs.dead g (heq ▸ hg))
    · exact hclosed

/-! ### A run -/

theorem Kept.runs {w w' : World} (h : w.Kept) {p : Process} {rest ps : List Process}
    (hpick : w.Picks p rest) (hprocesses : w'.processes = rest ++ ps)
    (hdisposal : w'.disposal = w.disposal) (ho : Outcome w.pool p w'.pool ps) : w'.Kept := by
  obtain ⟨hp, hrest, hdistinct, hone⟩ := h.picks hpick
  have hheld : ∀ q ∈ ps, q.Relies w'.pool := ho.relies
  refine ⟨Sound.moves h.sound ho.moves ho.orphan, fun g hg => ?_, fun q hq => ?_, ?_, ?_,
    fun d hd => ?_⟩
  · rcases ho.added g hg with hg | hg
    · exact Nat.lt_of_lt_of_le (h.inRange g hg) ho.moves.length
    · obtain ⟨q, hq, hg⟩ := mem_holds.mp hg
      exact (hheld q hq).held g hg
  · rw [hprocesses] at hq
    rcases List.mem_append.mp hq with hq | hq
    · exact (hrest q hq).1.moves ho.moves
    · exact hheld q hq
  · rw [hprocesses, holds_append]
    rw [holds_cons] at hdistinct
    have hps : (holds ps).Nodup := by
      have hshort := ho.one
      cases heq : holds ps with
      | nil => exact List.nodup_nil
      | cons g gs =>
          rw [heq, List.length_cons] at hshort
          have hnil : gs = [] := List.eq_nil_of_length_eq_zero (by omega)
          rw [hnil]
          simp
    refine List.nodup_append.mpr ⟨(List.nodup_append.mp hdistinct).2.1, hps, ?_⟩
    rintro g hg _ hg' rfl
    obtain ⟨q, hq, hqg⟩ := mem_holds.mp hg'
    rcases (ho.keeps q hq g hqg).1 with hpg | hnew
    · exact (List.nodup_append.mp hdistinct).2.2 g (by simp [hpg]) g hg rfl
    · obtain ⟨r, hr, hrg⟩ := mem_holds.mp hg
      have hlt := (hrest r hr).1.held g hrg
      omega
  · rw [hprocesses]
    have hcount := ho.count
    rw [rollovers_cons] at hone
    have happend : rollovers (rest ++ ps) = rollovers rest + rollovers ps := List.countP_append ..
    omega
  · rw [hdisposal] at hd
    obtain ⟨hleft, htarget⟩ := h.left d hd
    exact ⟨fun g hg => Nat.lt_of_lt_of_le (hleft g hg) ho.moves.length,
      fun g hg => ho.moves.closed_mono (htarget g hg)⟩

/-! ### A flip -/

theorem Flipped.settled {s t : Pool} {p : Process} {next : Nat} {previous : Option Nat}
    {ps : List Process} (h : Flipped s p next previous t ps) {x : Nat}
    (hx : s.status x ≠ .starting) : t.status x ≠ .starting := by
  rw [h.status x (lt_of_status hx)]
  split
  · simp
  · split
    · simp
    · exact hx

theorem Flipped.relies_other {s t : Pool} {p q : Process} {next : Nat} {previous : Option Nat}
    {ps : List Process} (h : Flipped s p next previous t ps) (hq : q.Relies s) : q.Relies t where
  names g hg := h.settled (hq.names g hg)
  shut g hg := (h.closed g).trans (hq.shut g hg)
  held g hg := h.length ▸ hq.held g hg

theorem Flipped.sound {s t : Pool} {p : Process} {next : Nat} {previous : Option Nat}
    {ps : List Process} (h : Flipped s p next previous t ps) (hs : s.Sound) : t.Sound where
  orphan g hg := (h.closed g).trans (hs.orphan g (h.orphan ▸ hg))
  dead g hg := by
    have hlt : g < s.engines.length := by
      rw [← h.length]
      exact lt_of_status (by rw [hg]; simp)
    rw [h.status g hlt] at hg
    rw [h.closed]
    split at hg
    · cases hg
    · split at hg
      · cases hg
      · exact hs.dead g hg

theorem Kept.flips {w w' : World} (h : w.Kept) {p : Process} {rest ps : List Process}
    {next : Nat} {previous : Option Nat} (hpick : w.Picks p rest)
    (hprocesses : w'.processes = rest ++ ps) (hdisposal : w'.disposal = w.disposal)
    (hflipped : Flipped w.pool p next previous w'.pool ps) : w'.Kept := by
  obtain ⟨hp, hrest, hdistinct, hone⟩ := h.picks hpick
  have hholds : holds ps = [] := by
    unfold holds
    rw [List.filterMap_eq_nil_iff]
    exact fun q hq => (hflipped.relies q hq).2.1
  refine ⟨hflipped.sound h.sound, fun g hg => ?_, fun q hq => ?_, ?_, ?_, fun d hd => ?_⟩
  · rw [hflipped.length]
    rcases hflipped.added g hg with hg | rfl
    · exact h.inRange g hg
    · exact hp.held g hflipped.holder
  · rw [hprocesses] at hq
    rcases List.mem_append.mp hq with hq | hq
    · exact hflipped.relies_other (hrest q hq).1
    · exact (hflipped.relies q hq).1
  · rw [hprocesses, holds_append, hholds, List.append_nil]
    rw [holds_cons] at hdistinct
    exact (List.nodup_append.mp hdistinct).2.1
  · rw [hprocesses]
    have hcount := hflipped.count
    rw [rollovers_cons] at hone
    have happend : rollovers (rest ++ ps) = rollovers rest + rollovers ps := List.countP_append ..
    omega
  · rw [hdisposal] at hd
    obtain ⟨hleft, htarget⟩ := h.left d hd
    exact ⟨fun g hg => hflipped.length ▸ hleft g hg,
      fun g hg => (hflipped.closed g).trans (htarget g hg)⟩

/-! ### The end of the pool -/

/-- What `disposeAll` does at once: its moves, the list but for its last step, and where it
is then. -/
structure Disposed (s : Pool) (list : List Nat) (t : Pool) (d : Disposal) : Prop where
  length : t.engines.length = s.engines.length
  settled : ∀ x, s.status x ≠ .starting → t.status x ≠ .starting
  closed : ∀ x, s.closed x = true → t.closed x = true
  sound : t.Sound
  inFlight : s.inFlight.toNat ≤ t.inFlight.toNat
  kept : ∀ x ∈ t.generations, x ∈ s.generations
  target : ∀ g ∈ d.target, t.closed g = true
  left : ∀ x ∈ d.left, x ∈ list
  gone : ∀ x ∈ list, x ∈ d.left ∨ t.closed x = true
  dropped : ∀ x ∈ s.generations, x ∈ t.generations ∨ t.closed x = true ∨ d = .resolved
  resolved : d = .resolved → t.generations = []

theorem Disposed.of_moves {s t : Pool} {list : List Nat} {d : Disposal}
    (hs : s.Sound) (h : s.Moves (fun _ => True) t)
    (hlength : t.engines.length = s.engines.length) (horphan : t.recoveryOrphan = s.recoveryOrphan)
    (hflight : s.inFlight.toNat ≤ t.inFlight.toNat)
    (hkept : ∀ x ∈ t.generations, x ∈ s.generations) (htarget : ∀ g ∈ d.target, t.closed g = true) (hleft : ∀ x ∈ d.left, x ∈ list)
    (hgone : ∀ x ∈ list, x ∈ d.left ∨ t.closed x = true) (hnot : d ≠ .resolved) :
    Disposed s list t d where
  length := hlength
  settled _ hx := h.settled hx
  closed _ hx := h.closed_mono hx
  sound := Sound.moves hs h (keptOrphan horphan)
  inFlight := hflight
  kept := hkept
  target := htarget
  left := hleft
  gone := hgone
  dropped x hx := (h.kept x hx).imp_right fun hclosed => .inl hclosed.1
  resolved heq := absurd heq hnot

theorem disposeRest_disposed {s : Pool} (hs : s.Sound) {list : List Nat}
    (hlist : ∀ g ∈ list, g < s.engines.length) :
    Disposed s list (s.disposeRest list).1 (s.disposeRest list).2 := by
  cases list with
  | nil =>
      exact ⟨rfl, fun _ hx => hx, fun _ hx => hx, ⟨hs.orphan, hs.dead⟩,
        Nat.le_refl _, by simp [disposeRest], by simp [disposeRest, Disposal.target],
        by simp [disposeRest, Disposal.left], by simp, by simp [disposeRest], by simp [disposeRest]⟩
  | cons g rest =>
      have hmoves := @beginRetire_moves (fun _ => True) s g (.inl trivial)
      obtain ⟨hclosed, htarget⟩ := beginRetire_closed (hlist g (List.mem_cons_self ..)) (hs.dead g)
      obtain ⟨hlength, hflight, horphan, -, hgenerations⟩ := beginRetire_fields s g
      have hgone : ∀ x ∈ g :: rest, x ∈ rest ∨ (s.beginRetire g).1.closed x = true := by
        intro x hx
        rcases List.mem_cons.mp hx with rfl | hx
        · exact .inr hclosed
        · exact .inl hx
      rw [disposeRest]
      generalize s.beginRetire g = after at *
      obtain ⟨t, result⟩ := after
      cases result with
      | some r =>
          refine .of_moves hs hmoves hlength horphan (Nat.le_of_eq (by rw [hflight])) (fun x hx => hgenerations ▸ hx)
            (fun x hx => ?_) (fun x hx => List.mem_cons_of_mem _ hx) hgone (by simp)
          cases hx
          rw [htarget r rfl]
          exact hclosed
      | none =>
          exact .of_moves hs hmoves hlength horphan (Nat.le_of_eq (by rw [hflight])) (fun x hx => hgenerations ▸ hx)
            (by simp [Disposal.target]) (fun x hx => List.mem_cons_of_mem _ hx) hgone (by simp)

theorem mem_ordered {s : Pool} {g : Nat} : g ∈ s.ordered ↔ g ∈ s.generations := by
  unfold ordered
  rw [List.mem_append, List.mem_filter, List.mem_filter]
  by_cases hdraining : s.status g = .draining <;> simp [hdraining]

theorem Disposed.after {s t u : Pool} {list : List Nat} {d : Disposal} (h : Disposed t list u d)
    (hmoves : s.Moves (fun _ => True) t) (hlength : t.engines.length = s.engines.length)
    (hflight : s.inFlight.toNat ≤ t.inFlight.toNat)
    (hkept : ∀ x ∈ t.generations, x ∈ s.generations) : Disposed s list u d where
  length := h.length.trans hlength
  settled x hx := h.settled x (hmoves.settled hx)
  closed x hx := h.closed x (hmoves.closed_mono hx)
  sound := h.sound
  inFlight := Nat.le_trans hflight h.inFlight
  kept x hx := hkept x (h.kept x hx)
  target := h.target
  left := h.left
  gone := h.gone
  dropped x hx := by
    rcases hmoves.kept x hx with hin | ⟨hclosed, -⟩
    · exact h.dropped x hin
    · exact .inr (.inl (h.closed x hclosed))
  resolved := h.resolved

theorem disposeRest_ne (s : Pool) (list : List Nat) :
    (s.disposeRest list).2 ≠ .closingOrphan := by
  cases list with
  | nil => simp [disposeRest]
  | cons g rest =>
      rw [disposeRest]
      generalize s.beginRetire g = after
      obtain ⟨t, result⟩ := after
      cases result <;> simp

theorem disposeAll_disposed {s t : Pool} {d : Disposal} (hs : s.Sound)
    (hrange : ∀ g ∈ s.generations, g < s.engines.length) (h : s.disposeAll = (t, d)) :
    (d = .closingOrphan ∧ Disposed s [] t d ∧ t.generations = s.generations) ∨
      (d ≠ .closingOrphan ∧ Disposed s s.generations t d) := by
  have hflags : ∀ list, s.Moves (fun _ => True)
      { s with disposed := true, pendingRollover := none, recoveryTimer := false,
               recoveryOrphan := list } := fun _ => .of_same rfl rfl
  unfold disposeAll at h
  dsimp only at h
  split at h
  · next orphan heq =>
      cases h
      have hclosed : s.closed orphan = true := hs.orphan orphan heq
      have hclose := (hflags none).trans (moves_close _ orphan (.inl hclosed))
      refine .inl ⟨rfl, ⟨length_update _ _ _, fun _ hx => hclose.settled hx,
        fun _ hx => hclose.closed_mono hx, Sound.moves hs hclose (fun _ hg => by cases hg), Nat.le_refl _,
        fun _ hx => hx, by simp [Disposal.target], by simp [Disposal.left], by simp,
        fun _ hx => .inl hx, by simp⟩, rfl⟩
  · next hnone =>
      have hsound : Sound { s with disposed := true, pendingRollover := none, recoveryTimer := false } :=
        ⟨hs.orphan, hs.dead⟩
      have hordered := @disposeRest_disposed
        { s with disposed := true, pendingRollover := none, recoveryTimer := false } hsound
        (Pool.ordered { s with disposed := true, pendingRollover := none, recoveryTimer := false })
        fun g hg => hrange g (mem_ordered.mp hg)
      have hne := disposeRest_ne
        { s with disposed := true, pendingRollover := none, recoveryTimer := false }
        (Pool.ordered { s with disposed := true, pendingRollover := none, recoveryTimer := false })
      rw [h] at hordered hne
      have hafter := hordered.after (hflags s.recoveryOrphan) rfl (Nat.le_refl _) fun _ hx => hx
      refine .inr ⟨hne, { hafter with left := fun x hx => ?_, gone := fun x hx => ?_ }⟩
      · exact mem_ordered.mp (hafter.left x hx)
      · exact hafter.gone x (mem_ordered.mpr hx)

/-- What `disposeAll` goes on with. -/
def Disposal.upcoming (s : Pool) : Disposal → List Nat
  | .closingOrphan => s.generations
  | d => d.left

theorem stepRetire_generations (s : Pool) (r : Retire) :
    ∀ x ∈ (s.stepRetire true r).1.generations, x ∈ s.generations := by
  intro x hx
  cases r with
  | closing g =>
      rw [stepRetire] at hx
      split at hx
      · exact hx
      · exact (List.mem_filter.mp hx).1
  | unregistering g => exact (List.mem_filter.mp hx).1

theorem resumeDisposal_disposed {s t : Pool} {before after : Disposal} (hs : s.Sound)
    (hrange : ∀ g ∈ s.generations, g < s.engines.length)
    (hleft : ∀ g ∈ before.left, g < s.engines.length)
    (htarget : ∀ g ∈ before.target, s.closed g = true)
    (h : s.resumeDisposal before = some (t, after)) :
    after ≠ .closingOrphan ∧ Disposed s (before.upcoming s) t after := by
  cases before with
  | closingOrphan =>
      have hordered := disposeRest_disposed hs fun g hg => hrange g (mem_ordered.mp hg)
      have hne := disposeRest_ne s s.ordered
      unfold resumeDisposal at h
      rw [Option.some.inj h] at hordered hne
      refine ⟨hne, { hordered with left := fun x hx => ?_, gone := fun x hx => ?_ }⟩
      · exact mem_ordered.mp (hordered.left x hx)
      · exact hordered.gone x (mem_ordered.mpr hx)
  | next rest =>
      have hrest := @disposeRest_disposed s hs rest hleft
      have hne := disposeRest_ne s rest
      unfold resumeDisposal at h
      rw [Option.some.inj h] at hrest hne
      exact ⟨hne, hrest⟩
  | retiring r rest =>
      obtain ⟨hended, hsame⟩ := @stepRetire_ended (fun _ => True) s true r (htarget _ rfl)
        (.inl trivial)
      have hkept := stepRetire_generations s r
      have hflight : s.inFlight.toNat ≤ (s.stepRetire true r).1.inFlight.toNat := by
        have hcount := hended.count
        omega
      rw [resumeDisposal] at h
      generalize s.stepRetire true r = step at *
      obtain ⟨u, result, started⟩ := step
      have hsound : u.Sound := Sound.moves hs hended.moves (keptOrphan hended.orphan)
      have hclosed := hended.moves.closed_mono (htarget _ rfl)
      cases result with
      | some r' =>
          cases h
          refine ⟨by simp, .of_moves hs hended.moves hended.length hended.orphan hflight hkept
            (fun g hg => ?_) (fun _ hx => hx) (fun _ hx => .inl hx) (by simp)⟩
          cases hg
          rw [hsame r' rfl]
          exact hclosed
      | none =>
          have hlength : u.engines.length = s.engines.length := hended.length
          have hrest := @disposeRest_disposed u hsound rest fun g hg => by
            rw [hlength]
            exact hleft g hg
          have hne := disposeRest_ne u rest
          rw [Option.some.inj h] at hrest hne
          exact ⟨hne, hrest.after hended.moves hlength hflight hkept⟩
  | resolved => cases h

theorem Kept.disposed {w w' : World} (h : w.Kept) {list : List Nat} {d : Disposal}
    (hlist : ∀ g ∈ list, g < w.pool.engines.length)
    (hprocesses : w'.processes = w.processes) (hdisposal : w'.disposal = some d)
    (hd : Disposed w.pool list w'.pool d) : w'.Kept := by
  refine ⟨hd.sound, fun g hg => ?_, fun q hq => ?_, hprocesses ▸ h.distinct, ?_, fun d' hd' => ?_⟩
  · rw [hd.length]
    exact h.inRange g (hd.kept g hg)
  · rw [hprocesses] at hq
    have hrelies := h.relies q hq
    exact ⟨fun g hg => hd.settled g (hrelies.names g hg), fun g hg => hd.closed g (hrelies.shut g hg),
      fun g hg => hd.length ▸ hrelies.held g hg⟩
  · rw [hprocesses]
    exact Nat.le_trans h.one hd.inFlight
  · rw [hdisposal] at hd'
    cases hd'
    exact ⟨fun g hg => hd.length ▸ hlist g (hd.left g hg), hd.target⟩

/-- **One step keeps it, whatever the event.** -/
theorem Kept.step {w w' : World} {e : Event} (h : w.Kept) (hstep : w.step e = some w') :
    w'.Kept := by
  cases step_cases hstep h.sound h.relies with
  | runs hpick hprocesses hdisposal _ ho => exact Kept.runs h hpick hprocesses hdisposal ho
  | flips hpick hprocesses hdisposal _ hflipped =>
      exact Kept.flips h hpick hprocesses hdisposal hflipped
  | disposes _ _ hprocesses hdisposal hdispose =>
      rcases disposeAll_disposed h.sound h.inRange hdispose with ⟨-, hd, -⟩ | ⟨-, hd⟩
      · exact Kept.disposed h (by simp) hprocesses hdisposal hd
      · exact Kept.disposed h h.inRange hprocesses hdisposal hd
  | goesOn _ hbefore hprocesses hdisposal hresume =>
      obtain ⟨hleft, htarget⟩ := h.left _ hbefore
      obtain ⟨-, hd⟩ := resumeDisposal_disposed h.sound h.inRange hleft htarget hresume
      refine Kept.disposed h (fun g hg => ?_) hprocesses hdisposal hd
      unfold Disposal.upcoming at hg
      split at hg
      · exact h.inRange g hg
      · exact hleft g hg

theorem kept_adopted (config : ServerConfig) (prepares : Bool) (handle : Server)
    (fingerprint : String) (registered : Bool) :
    (World.adopted config prepares handle fingerprint registered).Kept := by
  refine ⟨⟨by simp [World.adopted], fun g hg => ?_⟩, by simp [World.adopted],
    by simp [World.adopted], by simp [World.adopted, holds], by simp [World.adopted, rollovers],
    by simp [World.adopted]⟩
  have hlt : g < 1 := by
    have hrange : g < (World.adopted config prepares handle fingerprint
        registered).pool.engines.length := lt_of_status (by rw [hg]; simp)
    simpa [World.adopted] using hrange
  have hzero : g = 0 := by omega
  subst hzero
  cases hg

end OmniRush.Engine
