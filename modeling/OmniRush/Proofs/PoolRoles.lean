import OmniRush.Proofs.PoolLeaks

/-!
# The roles in the pool

A rollover reads the primary before it spawns, and a recovery before it probes, closes and
spawns. Neither looks again before it flips. A rollover that finds that the primary it read
is dead makes it drain, and one that finds another primary leaves it beside the new one, as
does a recovery.

The condition is that the primary of the pool is the one the flip demotes, none for a
recovery, and that it is open (`flipsCurrent`). Over a run of such steps there is one
primary and one drain at most, no closed generation gets a role, and after a flip the
configuration names the primary (`roles_kept`).
-/

namespace OmniRush.Engine

open Process Pool

/-- The primary of the pool is the generation that a flip demotes, and it is open. -/
def flipsCurrent (w : World) (e : Event) : Bool :=
  match w.flip e with
  | some (_, previous) => w.pool.primary = previous && previous.all fun g => !w.pool.closed g
  | none => true

def Event.isDisposal : Event → Bool
  | .disposeAll => true
  | _ => false

/-- No two generations of the pool have the status. -/
def Pool.AtMostOne (s : Pool) (status : GenerationStatus) : Prop :=
  ∀ g ∈ s.generations, ∀ g' ∈ s.generations, s.status g = status → s.status g' = status → g = g'

/-- The configuration and every local workspace name the engine. -/
structure ServerConfig.Names (config : ServerConfig) (handle : Server) : Prop where
  baseUrl : config.opencodeBaseUrl = handle.url
  workspaces : ∀ entry ∈ config.workspaces, entry.isRemote = false → entry.baseUrl = handle.url

theorem names_pointTo (config : ServerConfig) (handle : Server) :
    (config.pointTo handle).Names handle := by
  refine ⟨rfl, fun entry hentry hlocal => ?_⟩
  obtain ⟨old, -, rfl⟩ := List.mem_map.mp hentry
  split at hlocal
  · next hremote =>
      rw [hremote] at hlocal
      cases hlocal
  · next hremote =>
      rw [if_neg hremote]

/-- What a run keeps that is not disposed of. -/
structure World.Roles (w : World) : Prop where
  primary : w.pool.AtMostOne .primary
  draining : w.pool.AtMostOne .draining
  standby : ∀ p ∈ w.processes, ∀ g ∈ p.held, w.pool.status g = .starting ∧
    w.pool.closed g = false ∧ (p.listed = true → g ∈ w.pool.generations)
  passed : ∀ p ∈ w.processes, p.passed = true → w.pool.draining = none
  running : w.disposal = none

theorem draining_none {s : Pool} :
    s.draining = none ↔ ∀ g ∈ s.generations, s.status g ≠ .draining := by
  unfold Pool.draining
  rw [List.find?_eq_none]
  simp

theorem passed_isRollover {p : Process} (h : p.passed = true) : p.isRollover = true := by
  unfold passed at h
  split at h <;> first | rfl | cases h

theorem World.Roles.standby_picked {w : World} (h : w.Roles) {p : Process} {rest : List Process}
    (hpick : w.Picks p rest) : ∀ g ∈ p.held, w.pool.status g = .starting ∧
      w.pool.closed g = false ∧ (p.listed = true → g ∈ w.pool.generations) := by
  cases hpick with
  | resumed hperm => exact h.standby p (hperm.mem_iff.mpr (List.mem_cons_self ..))
  | event => simp [held]

theorem World.Roles.passed_picked {w : World} (h : w.Roles) {p : Process} {rest : List Process}
    (hpick : w.Picks p rest) (hpassed : p.passed = true) : w.pool.draining = none := by
  cases hpick with
  | resumed hperm => exact h.passed p (hperm.mem_iff.mpr (List.mem_cons_self ..)) hpassed
  | event => cases hpassed

theorem held_ne {p q : Process} {rest : List Process} {g : Nat}
    (hdistinct : (holds (p :: rest)).Nodup) (hq : q ∈ rest) (hg : q.held = some g) :
    p.held ≠ some g := by
  intro hp
  rw [holds_cons, hp] at hdistinct
  exact (List.nodup_append.mp hdistinct).2.2 g (by simp) g (mem_holds.mpr ⟨q, hq, hg⟩) rfl

/-! ## A run that does not flip -/

theorem Outcome.role {s t : Pool} {p : Process} {ps : List Process} (ho : Outcome s p t ps)
    (hstandby : ∀ g ∈ p.held, s.status g = .starting) {g : Nat} {status : GenerationStatus}
    (hg : g ∈ t.generations) (hstatus : t.status g = status) (hlive : status ≠ .dead)
    (hrole : status ≠ .starting) : s.status g = status ∧ g ∈ s.generations := by
  have hsame : s.status g = status := by
    rcases ho.moves.status g with heq | ⟨hdead, -⟩
    · exact heq.symm.trans hstatus
    · exact absurd (hstatus.symm.trans hdead) hlive
  refine ⟨hsame, (ho.added g hg).resolve_right fun hheld => ?_⟩
  obtain ⟨q, hq, hheld⟩ := mem_holds.mp hheld
  rcases (ho.keeps q hq g hheld).1 with hp | rfl
  · exact hrole (hsame.symm.trans (hstandby g hp))
  · exact hrole (hsame.symm.trans (status_new s))

theorem Roles.runs {w w' : World} (h : w.Roles) (hkept : w.Kept) {p : Process}
    {rest ps : List Process} (hpick : w.Picks p rest) (hprocesses : w'.processes = rest ++ ps)
    (hdisposal : w'.disposal = w.disposal) (ho : Outcome w.pool p w'.pool ps) : w'.Roles := by
  obtain ⟨-, hrest, hdistinct, -⟩ := hkept.picks hpick
  have hstandby := h.standby_picked hpick
  have hrole := @Outcome.role _ _ _ _ ho fun g hg => (hstandby g hg).1
  refine ⟨fun g hg g' hg' hstatus hstatus' => ?_, fun g hg g' hg' hstatus hstatus' => ?_,
    fun q hq g hg => ?_, fun q hq hpassed => ?_, hdisposal.trans h.running⟩
  · obtain ⟨hs, hin⟩ := hrole hg hstatus (by simp) (by simp)
    obtain ⟨hs', hin'⟩ := hrole hg' hstatus' (by simp) (by simp)
    exact h.primary g hin g' hin' hs hs'
  · obtain ⟨hs, hin⟩ := hrole hg hstatus (by simp) (by simp)
    obtain ⟨hs', hin'⟩ := hrole hg' hstatus' (by simp) (by simp)
    exact h.draining g hin g' hin' hs hs'
  · rw [hprocesses] at hq
    rcases List.mem_append.mp hq with hq | hq
    · obtain ⟨hstarting, hopen, hlisted⟩ := h.standby q (hrest q hq).2 g hg
      have hother : ¬ ((p.held = some g ∨ w.pool.engines.length ≤ g) ∨
          w.pool.status g ≠ .starting) := by
        have hne := held_ne hdistinct hq hg
        have hlt := (hrest q hq).1.held g hg
        rintro ((hp | hge) | hstatus)
        · exact hne hp
        · omega
        · exact hstatus hstarting
      refine ⟨?_, ?_, fun hq => ?_⟩
      · rcases ho.moves.status g with heq | ⟨-, -, hcause⟩
        · exact heq.trans hstarting
        · exact absurd hcause hother
      · rcases ho.moves.closed g with heq | ⟨-, hcause⟩
        · exact heq.trans hopen
        · exact absurd hcause hother
      · rcases ho.moves.kept g (hlisted hq) with hin | ⟨-, hcause⟩
        · exact hin
        · exact absurd hcause hother
    · obtain ⟨hfrom, hstatus, hclosed, hlisted⟩ := ho.keeps q hq g hg
      rw [hstatus, hclosed]
      rcases hfrom with hp | rfl
      · obtain ⟨hstarting, hopen, hin⟩ := hstandby g hp
        refine ⟨hstarting, hopen, fun hq => ?_⟩
        rcases hlisted hq with hin | ⟨-, hplisted, hsame⟩
        · exact hin
        · rw [hsame]
          exact hin hplisted
      · refine ⟨status_new _, closed_new _, fun hq => ?_⟩
        rcases hlisted hq with hin | ⟨hp, -, -⟩
        · exact hin
        · have hlt := (hkept.picks hpick).1.held _ hp
          omega
  · have hnone : w.pool.draining = none → w'.pool.draining = none := by
      intro hnone
      rw [draining_none] at hnone ⊢
      intro g hg hdraining
      obtain ⟨hs, hin⟩ := hrole hg hdraining (by simp) (by simp)
      exact hnone g hin hs
    rw [hprocesses] at hq
    rcases List.mem_append.mp hq with hq | hq
    · exact hnone (h.passed q (hrest q hq).2 hpassed)
    · rcases ho.passed q hq hpassed with hp | hdone
      · exact hnone (h.passed_picked hpick hp)
      · exact hdone

/-! ## A flip that demotes the primary -/

theorem flipsCurrent_iff {w : World} {e : Event} {next : Nat} {previous : Option Nat}
    (hflip : w.flip e = some (next, previous)) : flipsCurrent w e = true ↔
      w.pool.primary = previous ∧ ∀ g ∈ previous, w.pool.closed g = false := by
  unfold flipsCurrent
  rw [hflip]
  cases previous <;> simp

theorem primary_unique {s : Pool} (h : s.AtMostOne .primary) {g : Nat}
    (hg : g ∈ s.generations) (hstatus : s.status g = .primary) : s.primary = some g := by
  unfold Pool.primary
  cases hfound : s.generations.find? fun g => s.status g = .primary with
  | none =>
      rw [List.find?_eq_none] at hfound
      exact absurd (decide_eq_true hstatus) (hfound g hg)
  | some g' =>
      have hstatus' := List.find?_some (p := fun g => decide (s.status g = .primary)) hfound
      rw [h g' (List.mem_of_find?_eq_some hfound) g hg (of_decide_eq_true hstatus') hstatus]

/-- The roles after a flip. -/
structure Taken (s : Pool) (next : Nat) (previous : Option Nat) (t : Pool) : Prop where
  listed : next ∈ t.generations
  promoted : t.status next = .primary
  primary : ∀ g ∈ t.generations, t.status g = .primary → g = next
  draining : ∀ g ∈ t.generations, t.status g = .draining → previous = some g ∨
    (previous = none ∧ g ∈ s.generations ∧ s.status g = .draining)
  others : ∀ g, g ≠ next → previous ≠ some g → t.status g = s.status g

theorem Flipped.taken {w w' : World} (h : w.Roles) {p : Process} {rest ps : List Process}
    {next : Nat} {previous : Option Nat} (hpick : w.Picks p rest)
    (hlt : next < w.pool.engines.length) (hprimary : w.pool.primary = previous)
    (hf : Flipped w.pool p next previous w'.pool ps) : Taken w.pool next previous w'.pool := by
  obtain ⟨hstarting, hopen, hlisted⟩ := h.standby_picked hpick next hf.holder
  have hnext : previous ≠ some next := by
    intro heq
    rw [heq] at hprimary
    rw [primary_status hprimary] at hstarting
    cases hstarting
  have hin : next ∈ w'.pool.generations := by
    rcases hf.listed with hin | ⟨hp, hsame⟩
    · exact hin
    · rw [hsame]
      exact hlisted hp
  have hothers : ∀ g, g ≠ next → previous ≠ some g → w'.pool.status g = w.pool.status g := by
    intro g hne hprevious
    by_cases hg : g < w.pool.engines.length
    · rw [hf.status g hg, if_neg hprevious, if_neg hne]
    · have hstart : ∀ s : Pool, s.engines.length ≤ g → s.status g = .starting := by
        intro s hge
        by_contra hstatus
        have hlt := lt_of_status hstatus
        omega
      rw [hstart w'.pool (by rw [hf.length]; omega), hstart w.pool (by omega)]
  have hdemoted : ∀ g, previous = some g → w'.pool.status g = .draining := by
    intro g hg
    have hrange : g < w.pool.engines.length :=
      lt_of_status (by rw [primary_status (hprimary.trans hg)]; simp)
    rw [hf.status g hrange, if_pos hg]
  refine ⟨hin, ?_, fun g hg hstatus => ?_, fun g hg hstatus => ?_, hothers⟩
  · rw [hf.status next hlt, if_neg hnext, if_pos rfl]
  · by_contra hne
    by_cases hprevious : previous = some g
    · rw [hdemoted g hprevious] at hstatus
      cases hstatus
    · rw [hothers g hne hprevious] at hstatus
      exact hprevious (hprimary.symm.trans
        (primary_unique h.primary ((hf.added g hg).resolve_right hne) hstatus))
  · by_cases hprevious : previous = some g
    · exact .inl hprevious
    · have hne : g ≠ next := by
        rintro rfl
        rw [hf.status g hlt, if_neg hprevious, if_pos rfl] at hstatus
        cases hstatus
      rw [hothers g hne hprevious] at hstatus
      have hold := (hf.added g hg).resolve_right hne
      rcases hf.demotes with hnone | hpassed
      · exact .inr ⟨hnone, hold, hstatus⟩
      · exact absurd hstatus (draining_none.mp (h.passed_picked hpick hpassed) g hold)

theorem Roles.flips {w w' : World} {e : Event} (h : w.Roles) (hkept : w.Kept) {p : Process}
    {rest ps : List Process} {next : Nat} {previous : Option Nat} (hpick : w.Picks p rest)
    (hprocesses : w'.processes = rest ++ ps) (hdisposal : w'.disposal = w.disposal)
    (hflip : w.flip e = some (next, previous)) (hguard : flipsCurrent w e = true)
    (hf : Flipped w.pool p next previous w'.pool ps) : w'.Roles := by
  obtain ⟨hp, hrest, hdistinct, hone⟩ := hkept.picks hpick
  obtain ⟨hprimary, -⟩ := (flipsCurrent_iff hflip).mp hguard
  have htaken := hf.taken h hpick (hp.held next hf.holder) hprimary
  refine ⟨fun g hg g' hg' hstatus hstatus' => ?_, fun g hg g' hg' hstatus hstatus' => ?_,
    fun q hq g hg => ?_, fun q hq hpassed => ?_, hdisposal.trans h.running⟩
  · rw [htaken.primary g hg hstatus, htaken.primary g' hg' hstatus']
  · rcases htaken.draining g hg hstatus with hd | ⟨hnone, hin, hs⟩
    · rcases htaken.draining g' hg' hstatus' with hd' | ⟨hnone, -, -⟩
      · exact Option.some.inj (hd.symm.trans hd')
      · rw [hnone] at hd
        cases hd
    · rcases htaken.draining g' hg' hstatus' with hd' | ⟨-, hin', hs'⟩
      · rw [hnone] at hd'
        cases hd'
      · exact h.draining g hin g' hin' hs hs'
  · rw [hprocesses] at hq
    rcases List.mem_append.mp hq with hq | hq
    · obtain ⟨hstarting, hopen, hlisted⟩ := h.standby q (hrest q hq).2 g hg
      have hne : g ≠ next := by
        rintro rfl
        exact held_ne hdistinct hq hg hf.holder
      have hprevious : previous ≠ some g := by
        intro heq
        rw [primary_status (hprimary.trans heq)] at hstarting
        cases hstarting
      exact ⟨(htaken.others g hne hprevious).trans hstarting, (hf.closed g).trans hopen,
        fun hq => hf.kept g (hlisted hq)⟩
    · rw [(hf.relies q hq).2.1] at hg
      cases hg
  · rw [hprocesses] at hq
    rcases List.mem_append.mp hq with hq | hq
    · -- a rollover that has passed is the only rollover
      have hother : p.isRollover = false := by
        by_contra hroll
        rw [Bool.not_eq_false] at hroll
        have hpos : 0 < rollovers rest :=
          List.countP_pos_iff.mpr ⟨q, hq, passed_isRollover hpassed⟩
        rw [rollovers_cons, hroll] at hone
        have hle := Bool.toNat_le w.pool.inFlight
        have htrue : true.toNat = 1 := rfl
        omega
      have hnone : previous = none := by
        rcases hf.demotes with hnone | hp
        · exact hnone
        · rw [passed_isRollover hp] at hother
          cases hother
      rw [draining_none]
      intro g hg hstatus
      rcases htaken.draining g hg hstatus with hd | ⟨-, hin, hs⟩
      · rw [hnone] at hd
        cases hd
      · exact draining_none.mp (h.passed q (hrest q hq).2 hpassed) g hin hs
    · rw [(hf.relies q hq).2.2] at hpassed
      cases hpassed

theorem Roles.step {w w' : World} {e : Event} (h : w.Roles) (hkept : w.Kept)
    (hguard : flipsCurrent w e = true) (he : e.isDisposal = false) (hstep : w.step e = some w') :
    w'.Roles := by
  cases step_cases hstep hkept.sound hkept.relies with
  | runs hpick hprocesses hdisposal _ ho => exact Roles.runs h hkept hpick hprocesses hdisposal ho
  | flips hpick hprocesses hdisposal hflip hf =>
      exact Roles.flips h hkept hpick hprocesses hdisposal hflip hguard hf
  | disposes hevent =>
      rw [hevent] at he
      cases he
  | goesOn _ hbefore =>
      rw [h.running] at hbefore
      cases hbefore

theorem roles_adopted (config : ServerConfig) (prepares : Bool) (handle : Server)
    (fingerprint : String) (registered : Bool) :
    (World.adopted config prepares handle fingerprint registered).Roles := by
  refine ⟨?_, ?_, by simp [World.adopted], by simp [World.adopted], rfl⟩
  · intro g hg g' hg' _ _
    have hg : g ∈ [0] := hg
    have hg' : g' ∈ [0] := hg'
    rw [List.mem_singleton.mp hg, List.mem_singleton.mp hg']
  · intro g hg g' hg' _ _
    have hg : g ∈ [0] := hg
    have hg' : g' ∈ [0] := hg'
    rw [List.mem_singleton.mp hg, List.mem_singleton.mp hg']

/-- What a step does to the roles: a closed generation gets none, and a flip leaves the
configuration at the primary. -/
structure World.KeepsRoles (w : World) (e : Event) (w' : World) : Prop where
  closed : ∀ g, w.pool.closed g = true ∨ w.pool.status g = .dead →
    w'.pool.status g = .primary ∨ w'.pool.status g = .draining →
    w'.pool.status g = w.pool.status g
  config : ∀ next previous, w.flip e = some (next, previous) →
    w'.pool.primary = some next ∧ w'.pool.config.Names (w.pool.generation next).handle

theorem Roles.keepsRoles {w w' : World} {e : Event} (h : w.Roles) (hkept : w.Kept)
    (hguard : flipsCurrent w e = true) (he : e.isDisposal = false) (hstep : w.step e = some w') :
    w.KeepsRoles e w' := by
  cases step_cases hstep hkept.sound hkept.relies with
  | runs hpick _ _ hflip ho =>
      refine ⟨fun g _ hrole => ?_, fun next previous heq => ?_⟩
      · rcases ho.moves.status g with heq | ⟨hdead, -, -⟩
        · exact heq
        · rw [hdead] at hrole
          rcases hrole with hrole | hrole <;> cases hrole
      · rw [hflip] at heq
        cases heq
  | @flips p rest ps next previous hpick _ _ hflip hf =>
      obtain ⟨hprimary, hopen⟩ := (flipsCurrent_iff hflip).mp hguard
      obtain ⟨hp, -, -, -⟩ := hkept.picks hpick
      obtain ⟨hstarting, hstandby, -⟩ := h.standby_picked hpick next hf.holder
      have htaken := hf.taken h hpick (hp.held next hf.holder) hprimary
      refine ⟨fun g hshut _ => ?_, fun next' previous' heq => ?_⟩
      · refine htaken.others g ?_ ?_
        · rintro rfl
          rcases hshut with hclosed | hdead
          · rw [hstandby] at hclosed
            cases hclosed
          · rw [hstarting] at hdead
            cases hdead
        · intro heq
          rcases hshut with hclosed | hdead
          · rw [hopen g heq] at hclosed
            cases hclosed
          · rw [primary_status (hprimary.trans heq)] at hdead
            cases hdead
      · rw [hflip] at heq
        cases heq
        refine ⟨primary_unique ?_ htaken.listed htaken.promoted, ?_⟩
        · intro g hg g' hg' hstatus hstatus'
          rw [htaken.primary g hg hstatus, htaken.primary g' hg' hstatus']
        · rw [hf.config]
          exact names_pointTo _ _
  | disposes hevent =>
      rw [hevent] at he
      cases he
  | goesOn _ hbefore =>
      rw [h.running] at hbefore
      cases hbefore

/-- **The roles are kept.** In a run of steps whose flips demote the current primary, each
state has one primary and one drain at most, no step gives a closed generation a role, and
every flip leaves the configuration and the local workspaces at the one primary. -/
theorem roles_kept (config : ServerConfig) (prepares : Bool) (handle : Server)
    (fingerprint : String) (registered : Bool) (w : World)
    (h : Reach World.step (fun w e => flipsCurrent w e = true ∧ e.isDisposal = false)
      (World.adopted config prepares handle fingerprint registered) w) :
    w.pool.AtMostOne .primary ∧ w.pool.AtMostOne .draining ∧
      ∀ e w', w.step e = some w' → flipsCurrent w e = true → e.isDisposal = false →
        w.KeepsRoles e w' := by
  have hboth : w.Kept ∧ w.Roles :=
    h.invariant (I := fun w => w.Kept ∧ w.Roles)
      (fun w e w' hw hguard hstep =>
        ⟨Kept.step hw.1 hstep, Roles.step hw.2 hw.1 hguard.1 hguard.2 hstep⟩)
      ⟨kept_adopted .., roles_adopted ..⟩
  exact ⟨hboth.2.primary, hboth.2.draining, fun e w' hstep hguard he =>
    Roles.keepsRoles hboth.2 hboth.1 hguard he hstep⟩

/-- A rollover up to its end, while the engine before drains. -/
theorem roles_kept_rollover : ∃ w : World, w.pool.primary = some 1 ∧ w.pool.draining = some 0 ∧
    w.pool.AtMostOne .primary ∧ w.pool.AtMostOne .draining := by
  obtain ⟨w, hrun, hw⟩ := exists_of_any (p := fun w : World =>
      decide (w.pool.primary = some 1) && decide (w.pool.draining = some 0)) (show (runActions
      (fun w e => if flipsCurrent w e = true ∧ e.isDisposal = false then World.step w e else none)
      (spawnEvents ++ flipEvents) firstWorld).any _ = true by decide +kernel)
  rw [Bool.and_eq_true, decide_eq_true_eq, decide_eq_true_eq] at hw
  obtain ⟨hreach, -⟩ := reach_of_checked hrun
  obtain ⟨hprimary, hdraining, -⟩ := roles_kept _ _ _ _ _ w hreach
  exact ⟨w, hw.1, hw.2, hprimary, hdraining⟩

/-- Three failures, and the recovery up to its flip, beside one other process. -/
def recoveryEvents : List Event :=
  [.reportRequestFailure true false, .reportRequestFailure true false,
    .reportRequestFailure true false, .resume 1 (.verdict true), .resume 1 (.closed false),
    .resume 1 (.spawned ⟨"http://c", "u", "p", none⟩), .resume 1 .done,
    .resume 1 (.fingerprint "next")]

/-- A recovery replaces the primary while a rollover spawns, and both flip. -/
theorem two_primaries : ¬ ∀ (actions : List Event) (w : World),
    (∀ e ∈ actions, e.isDisposal = false) → runActions World.step actions firstWorld = some w →
      w.pool.AtMostOne .primary := by
  intro h
  obtain ⟨w, hrun, hw⟩ := exists_of_any (p := fun w : World =>
      w.pool.generations.contains 1 && w.pool.generations.contains 2 &&
        decide (w.pool.status 1 = .primary) && decide (w.pool.status 2 = .primary))
    (show (runActions World.step (spawnEvents ++ recoveryEvents ++ flipEvents) firstWorld).any _
      = true by decide +kernel)
  simp only [Bool.and_eq_true, decide_eq_true_eq, List.contains_iff_mem] at hw
  obtain ⟨⟨⟨hfirst, hsecond⟩, hprimary⟩, hprimary'⟩ := hw
  have hsame := h _ w (by decide +kernel) hrun 1 hfirst 2 hsecond hprimary hprimary'
  cases hsame

end OmniRush.Engine
