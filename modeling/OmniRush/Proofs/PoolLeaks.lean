import OmniRush.Proofs.PoolRuns

/-!
# No engine is left over

An engine that the pool spawned belongs to the rollover or the recovery that spawned it,
until it is in the list or closed, and what leaves the list is closed. `disposeAll` closes
the list as it was when it began with it. A standby that starts later is put into a list
that nobody goes through again, and its flip makes it the primary of a pool that is gone.

The condition is that a flip after that is to an engine of the list `disposeAll` has
(`flipsListed`). Over a run of such steps every engine is accounted for, and when
`disposeAll` has resolved and the rollovers and recoveries have settled, `close` has been
called on every one (`engines_accounted`).
-/

namespace OmniRush.Engine

open Process Pool

/-- What is left of the list that `disposeAll` goes through, once it has it. -/
def World.taken (w : World) : Option (List Nat) :=
  match w.disposal with
  | none => none
  | some .closingOrphan => none
  | some d => some d.left

/-- If `disposeAll` has its list, the engine of a flip is closed or on what is left of it. -/
def flipsListed (w : World) (e : Event) : Bool :=
  match w.flip e, w.taken with
  | some (next, _), some rest => w.pool.closed next || rest.contains next
  | _, _ => true

/-- The rollovers and the recoveries have settled. -/
def World.isSettled (w : World) : Bool :=
  w.processes.all fun
    | .rollover _ _ => false
    | .recovery _ => false
    | _ => true

structure World.Accounted (w : World) : Prop where
  engines : ∀ g, g < w.pool.engines.length → w.pool.closed g = true ∨
    (g ∈ w.pool.generations ∧ ∀ rest ∈ w.taken, g ∈ rest) ∨ g ∈ holds w.processes
  left : ∀ rest ∈ w.taken, ∀ g ∈ rest, w.pool.closed g = true ∨ g ∈ w.pool.generations
  listed : ∀ p ∈ w.processes, p.listed = true → ∀ g ∈ p.held,
    w.pool.closed g = true ∨ g ∈ w.pool.generations ∨ w.taken.isSome = true

theorem taken_congr {w w' : World} (h : w'.disposal = w.disposal) : w'.taken = w.taken := by
  unfold World.taken
  rw [h]

theorem taken_some {w : World} {d : Disposal} (h : w.disposal = some d) (hne : d ≠ .closingOrphan) :
    w.taken = some d.left := by
  unfold World.taken
  rw [h]
  cases d with
  | closingOrphan => exact absurd rfl hne
  | _ => rfl

theorem World.Picks.mem_holds {w : World} {p : Process} {rest : List Process}
    (h : w.Picks p rest) {g : Nat} (hg : g ∈ holds w.processes) :
    p.held = some g ∨ g ∈ holds rest := by
  cases h with
  | resumed hperm =>
      obtain ⟨q, hq, hheld⟩ := Engine.mem_holds.mp hg
      rcases List.mem_cons.mp (hperm.mem_iff.mp hq) with rfl | hq
      · exact .inl hheld
      · exact .inr (Engine.mem_holds.mpr ⟨q, hq, hheld⟩)
  | event => exact .inr hg

theorem World.Picks.mem {w : World} {p : Process} {rest : List Process} (h : w.Picks p rest)
    (hlisted : p.listed = true) : p ∈ w.processes := by
  cases h with
  | resumed hperm => exact hperm.mem_iff.mpr (List.mem_cons_self ..)
  | event => cases hlisted

theorem World.Picks.subset {w : World} {p : Process} {rest : List Process} (h : w.Picks p rest) :
    ∀ q ∈ rest, q ∈ w.processes := by
  cases h with
  | resumed hperm => exact fun q hq => hperm.mem_iff.mpr (List.mem_cons_of_mem _ hq)
  | event => exact fun q hq => hq

theorem holds_append_left {g : Nat} {rest ps : List Process} (h : g ∈ holds rest) :
    g ∈ holds (rest ++ ps) := by
  rw [holds_append]
  exact List.mem_append_left _ h

theorem holds_append_right {g : Nat} {rest ps : List Process} (h : g ∈ holds ps) :
    g ∈ holds (rest ++ ps) := by
  rw [holds_append]
  exact List.mem_append_right _ h

theorem Accounted.runs {w w' : World} (h : w.Accounted) {p : Process} {rest ps : List Process}
    (hpick : w.Picks p rest) (hprocesses : w'.processes = rest ++ ps)
    (hdisposal : w'.disposal = w.disposal) (ho : Outcome w.pool p w'.pool ps) : w'.Accounted := by
  have htaken : w'.taken = w.taken := taken_congr hdisposal
  have hlist : ∀ g, w.pool.closed g = true ∨ g ∈ w.pool.generations →
      w'.pool.closed g = true ∨ g ∈ w'.pool.generations := by
    rintro g (hclosed | hg)
    · exact .inl (ho.moves.closed_mono hclosed)
    · rcases ho.moves.kept g hg with hin | ⟨hclosed, -⟩
      · exact .inr hin
      · exact .inl hclosed
  refine ⟨fun g hg => ?_, fun rest' hrest g hg => ?_, fun q hq hlisted g hg => ?_⟩
  · rw [hprocesses, htaken]
    by_cases hlt : g < w.pool.engines.length
    · rcases h.engines g hlt with hclosed | ⟨hin, hdue⟩ | hheld
      · exact .inl (ho.moves.closed_mono hclosed)
      · rcases hlist g (.inr hin) with hclosed | hin
        · exact .inl hclosed
        · exact .inr (.inl ⟨hin, hdue⟩)
      · rcases hpick.mem_holds hheld with hp | hrest
        · rcases ho.gives g hp with hps | hclosed
          · exact .inr (.inr (holds_append_right hps))
          · exact .inl hclosed
        · exact .inr (.inr (holds_append_left hrest))
    · exact .inr (.inr (holds_append_right (ho.fresh g (by omega) hg)))
  · rw [htaken] at hrest
    exact hlist g (h.left rest' hrest g hg)
  · rw [htaken]
    have hold : ∀ r ∈ w.processes, r.listed = true → r.held = some g →
        w'.pool.closed g = true ∨ g ∈ w'.pool.generations ∨ w.taken.isSome = true := by
      intro r hr hlisted hheld
      rcases h.listed r hr hlisted g hheld with hclosed | hin | htaken
      · exact .inl (ho.moves.closed_mono hclosed)
      · exact (hlist g (.inr hin)).imp_right .inl
      · exact .inr (.inr htaken)
    rw [hprocesses] at hq
    rcases List.mem_append.mp hq with hq | hq
    · exact hold q (hpick.subset q hq) hlisted hg
    · rcases (ho.keeps q hq g hg).2.2.2 hlisted with hin | ⟨hheld, hplisted, -⟩
      · exact .inr (.inl hin)
      · exact hold p (hpick.mem hplisted) hplisted hheld

theorem Accounted.flips {w w' : World} {e : Event} (h : w.Accounted) {p : Process}
    {rest ps : List Process} {next : Nat} {previous : Option Nat} (hpick : w.Picks p rest)
    (hprocesses : w'.processes = rest ++ ps) (hdisposal : w'.disposal = w.disposal)
    (hflip : w.flip e = some (next, previous)) (hguard : flipsListed w e = true)
    (hf : Flipped w.pool p next previous w'.pool ps) : w'.Accounted := by
  have htaken : w'.taken = w.taken := taken_congr hdisposal
  have hlist : ∀ g, w.pool.closed g = true ∨ g ∈ w.pool.generations →
      w'.pool.closed g = true ∨ g ∈ w'.pool.generations := by
    rintro g (hclosed | hg)
    · exact .inl ((hf.closed g).trans hclosed)
    · exact .inr (hf.kept g hg)
  -- the engine that the process gives away
  have hnext : w'.pool.closed next = true ∨
      (next ∈ w'.pool.generations ∧ ∀ rest ∈ w.taken, next ∈ rest) := by
    rw [flipsListed, hflip] at hguard
    cases htook : w.taken with
    | none =>
        rcases hf.listed with hin | ⟨hplisted, -⟩
        · exact .inr ⟨hin, by simp⟩
        · rcases h.listed p (hpick.mem hplisted) hplisted next hf.holder with hclosed | hin | hsome
          · exact .inl ((hf.closed next).trans hclosed)
          · exact .inr ⟨hf.kept next hin, by simp⟩
          · rw [htook] at hsome
            cases hsome
    | some left =>
        rw [htook] at hguard
        rcases Bool.or_eq_true _ _ ▸ hguard with hclosed | hin
        · exact .inl ((hf.closed next).trans hclosed)
        · have hin : next ∈ left := List.contains_iff_mem.mp hin
          rcases hlist next (h.left left htook next hin) with hclosed | hlisted
          · exact .inl hclosed
          · refine .inr ⟨hlisted, fun rest' hrest => ?_⟩
            cases hrest
            exact hin
  refine ⟨fun g hg => ?_, fun rest' hrest g hg => ?_, fun q hq hlisted g hg => ?_⟩
  · rw [hprocesses, htaken]
    rcases h.engines g (hf.length ▸ hg) with hclosed | ⟨hin, hdue⟩ | hheld
    · exact .inl ((hf.closed g).trans hclosed)
    · exact .inr (.inl ⟨hf.kept g hin, hdue⟩)
    · rcases hpick.mem_holds hheld with hp | hrest
      · rw [hf.holder] at hp
        cases hp
        exact hnext.imp_right .inl
      · exact .inr (.inr (holds_append_left hrest))
  · rw [htaken] at hrest
    exact hlist g (h.left rest' hrest g hg)
  · rw [htaken]
    rw [hprocesses] at hq
    rcases List.mem_append.mp hq with hq | hq
    · rcases h.listed q (hpick.subset q hq) hlisted g hg with hclosed | hin | htaken
      · exact .inl ((hf.closed g).trans hclosed)
      · exact .inr (.inl (hf.kept g hin))
      · exact .inr (.inr htaken)
    · rw [(hf.relies q hq).2.1] at hg
      cases hg

theorem Accounted.takes {w w' : World} (h : w.Accounted) {list : List Nat} {d : Disposal}
    (hlist : ∀ g ∈ w.pool.generations, (∀ rest ∈ w.taken, g ∈ rest) → g ∈ list)
    (hlisted : ∀ g ∈ list, w.pool.closed g = true ∨ g ∈ w.pool.generations)
    (hprocesses : w'.processes = w.processes) (hdisposal : w'.disposal = some d)
    (hne : d ≠ .closingOrphan) (hd : Disposed w.pool list w'.pool d) : w'.Accounted := by
  have htaken : w'.taken = some d.left := taken_some hdisposal hne
  have hkept : ∀ g ∈ d.left, w.pool.closed g = true ∨ g ∈ w.pool.generations →
      w'.pool.closed g = true ∨ g ∈ w'.pool.generations := by
    rintro g hleft (hclosed | hg)
    · exact .inl (hd.closed g hclosed)
    · rcases hd.dropped g hg with hin | hclosed | rfl
      · exact .inr hin
      · exact .inl hclosed
      · cases hleft
  refine ⟨fun g hg => ?_, fun rest hrest g hg => ?_, fun q hq _ g hg => .inr (.inr (by rw [htaken]; rfl))⟩
  · rw [hprocesses]
    rcases h.engines g (hd.length ▸ hg) with hclosed | ⟨hin, hdue⟩ | hheld
    · exact .inl (hd.closed g hclosed)
    · rcases hd.gone g (hlist g hin hdue) with hleft | hclosed
      · rcases hkept g hleft (.inr hin) with hclosed | hin
        · exact .inl hclosed
        · refine .inr (.inl ⟨hin, fun rest hrest => ?_⟩)
          rw [htaken] at hrest
          cases hrest
          exact hleft
      · exact .inl hclosed
    · exact .inr (.inr hheld)
  · rw [htaken] at hrest
    cases hrest
    exact hkept g hg (hlisted g (hd.left g hg))

theorem Accounted.step {w w' : World} {e : Event} (h : w.Accounted) (hkept : w.Kept)
    (hguard : flipsListed w e = true) (hstep : w.step e = some w') : w'.Accounted := by
  cases step_cases hstep hkept.sound hkept.relies with
  | runs hpick hprocesses hdisposal _ ho => exact Accounted.runs h hpick hprocesses hdisposal ho
  | flips hpick hprocesses hdisposal hflip hf =>
      exact Accounted.flips h hpick hprocesses hdisposal hflip hguard hf
  | disposes _ hnone hprocesses hdisposal hdispose =>
      have htook : w.taken = none := by
        unfold World.taken
        rw [hnone]
      rcases disposeAll_disposed hkept.sound hkept.inRange hdispose with
        ⟨rfl, hd, hsame⟩ | ⟨hne, hd⟩
      · have htaken : w'.taken = none := by
          unfold World.taken
          rw [hdisposal]
        refine ⟨fun g hg => ?_, by simp [htaken], fun q hq hlisted g hg => ?_⟩
        · rw [hprocesses, htaken, hsame]
          rcases h.engines g (hd.length ▸ hg) with hclosed | ⟨hin, -⟩ | hheld
          · exact .inl (hd.closed g hclosed)
          · exact .inr (.inl ⟨hin, by simp⟩)
          · exact .inr (.inr hheld)
        · rw [htaken, hsame]
          rw [hprocesses] at hq
          rcases h.listed q hq hlisted g hg with hclosed | hin | hsome
          · exact .inl (hd.closed g hclosed)
          · exact .inr (.inl hin)
          · rw [htook] at hsome
            cases hsome
      · exact Accounted.takes h (fun g hg _ => hg) (fun g hg => .inr hg) hprocesses hdisposal hne hd
  | @goesOn before after _ hbefore hprocesses hdisposal hresume =>
      obtain ⟨hleft, htarget⟩ := hkept.left _ hbefore
      obtain ⟨hne, hd⟩ :=
        resumeDisposal_disposed hkept.sound hkept.inRange hleft htarget hresume
      by_cases hfirst : before = .closingOrphan
      · subst hfirst
        exact Accounted.takes h (fun g hg _ => hg) (fun g hg => .inr hg) hprocesses hdisposal hne hd
      · have htook := taken_some hbefore hfirst
        have hlist : before.upcoming w.pool = before.left := by
          cases before with
          | closingOrphan => exact absurd rfl hfirst
          | _ => rfl
        refine Accounted.takes h (fun g _ hdue => ?_) (fun g hg => ?_) hprocesses hdisposal hne hd
        · rw [hlist]
          exact hdue _ htook
        · rw [hlist] at hg
          exact h.left _ htook g hg

theorem accounted_adopted (config : ServerConfig) (prepares : Bool) (handle : Server)
    (fingerprint : String) (registered : Bool) :
    (World.adopted config prepares handle fingerprint registered).Accounted := by
  refine ⟨fun g hg => .inr (.inl ⟨?_, ?_⟩), ?_, by simp [World.adopted]⟩
  · have hzero : g < 1 := by simpa [World.adopted] using hg
    simpa [World.adopted] using hzero
  · simp [World.taken, World.adopted]
  · simp [World.taken, World.adopted]

theorem isSettled_holds {w : World} (h : w.isSettled = true) : holds w.processes = [] := by
  unfold holds
  rw [List.filterMap_eq_nil_iff]
  intro p hp
  have hp := List.all_eq_true.mp h p hp
  cases p with
  | rollover request stage => cases hp
  | recovery stage => cases hp
  | _ => rfl

/-- **No engine is left over.** Every engine is in the list, the orphan of a recovery, held
by the rollover or the recovery that spawned it, or `close` has been called on it. Once
`disposeAll` has resolved and no rollover or recovery is left, it has been called on all. -/
theorem engines_accounted (config : ServerConfig) (prepares : Bool) (handle : Server)
    (fingerprint : String) (registered : Bool) (w : World)
    (h : Reach World.step (fun w e => flipsListed w e = true)
      (World.adopted config prepares handle fingerprint registered) w) :
    (∀ g, g < w.pool.engines.length → g ∈ w.pool.generations ∨ w.pool.recoveryOrphan = some g ∨
      g ∈ holds w.processes ∨ w.pool.closed g = true) ∧
    (w.disposal = some .resolved → w.isSettled = true →
      ∀ g, g < w.pool.engines.length → w.pool.closed g = true) := by
  have hboth : w.Kept ∧ w.Accounted :=
    h.invariant (I := fun w => w.Kept ∧ w.Accounted)
      (fun w e w' hw hguard hstep => ⟨Kept.step hw.1 hstep, Accounted.step hw.2 hw.1 hguard hstep⟩)
      ⟨kept_adopted .., accounted_adopted ..⟩
  have haccounted := hboth.2.engines
  refine ⟨fun g hg => ?_, fun hresolved hsettled g hg => ?_⟩
  · rcases haccounted g hg with hclosed | ⟨hin, -⟩ | hheld
    · exact .inr (.inr (.inr hclosed))
    · exact .inl hin
    · exact .inr (.inr (.inl hheld))
  · rcases haccounted g hg with hclosed | ⟨-, hdue⟩ | hheld
    · exact hclosed
    · have htaken : w.taken = some [] := by
        unfold World.taken
        rw [hresolved]
        rfl
      have hnone := hdue [] htaken
      cases hnone
    · rw [isSettled_holds hsettled] at hheld
      cases hheld

/-! ### Two runs -/

def firstWorld : World :=
  World.adopted ⟨"", "", "", []⟩ false ⟨"http://a", "u", "p", none⟩ "" false

/-- A rollover up to its spawn. -/
def spawnEvents : List Event :=
  [.requestRollover { manual := true, forceStandby := true }, .resume 0 .done,
    .resume 0 (.fingerprint "next")]

/-- The spawn resolves, and the rollover goes on to its end. -/
def flipEvents : List Event :=
  [.resume 0 (.spawned ⟨"http://b", "u", "p", none⟩), .resume 0 .done, .resume 0 .done,
    .resume 0 .done, .resume 0 .done]

/-- `disposeAll` of a pool with one engine in its list. -/
def disposeEvents : List Event := [.disposeAll, .resumeDisposal]

/-- `disposeAll` has resolved, and nothing is left to run that spawned an engine. -/
def World.isOver (w : World) : Bool :=
  w.isSettled && match w.disposal with
    | some .resolved => true
    | _ => false

theorem World.isOver_disposal {w : World} (h : w.isOver = true) :
    w.disposal = some .resolved ∧ w.isSettled = true := by
  unfold World.isOver at h
  rw [Bool.and_eq_true] at h
  refine ⟨?_, h.1⟩
  have hresolved := h.2
  split at hresolved
  · next heq => exact heq
  · cases hresolved

/-- A rollover, the end of its drain, and `disposeAll`. -/
theorem engines_accounted_rollover : ∃ w : World, w.isOver = true ∧ w.pool.engines.length = 2 ∧
    ∀ g, g < w.pool.engines.length → w.pool.closed g = true := by
  obtain ⟨w, hrun, hw⟩ := exists_of_any (p := fun w : World => w.isOver &&
      decide (w.pool.engines.length = 2)) (show (runActions
      (fun w e => if flipsListed w e = true then World.step w e else none)
      (spawnEvents ++ flipEvents ++ [.resume 0 (.verdict true), .resume 0 .done] ++ disposeEvents)
      firstWorld).any _ = true by decide +kernel)
  rw [Bool.and_eq_true, decide_eq_true_eq] at hw
  obtain ⟨hresolved, hsettled⟩ := World.isOver_disposal hw.1
  obtain ⟨hreach, -⟩ := reach_of_checked hrun
  exact ⟨w, hw.1, hw.2, (engines_accounted _ _ _ _ _ w hreach).2 hresolved hsettled⟩

/-- The spawn of a rollover resolves after `disposeAll`, and its engine is never closed. -/
theorem late_standby_left : ¬ ∀ (actions : List Event) (w : World),
    runActions World.step actions firstWorld = some w → w.isOver = true →
      ∀ g, g < w.pool.engines.length → w.pool.closed g = true := by
  intro h
  obtain ⟨w, hrun, hw⟩ := exists_of_any (p := fun w : World => w.isOver &&
      decide (1 < w.pool.engines.length) && !w.pool.closed 1) (show (runActions World.step
      (spawnEvents ++ disposeEvents ++ flipEvents) firstWorld).any _ = true by decide +kernel)
  simp only [Bool.and_eq_true, decide_eq_true_eq, Bool.not_eq_true'] at hw
  have hclosed := h _ w hrun hw.1.1 1 hw.1.2
  rw [hw.2] at hclosed
  cases hclosed

end OmniRush.Engine
