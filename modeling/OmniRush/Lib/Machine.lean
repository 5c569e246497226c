/-!
# Machines, their runs, and programs of fallible steps

A machine is a partial step function: an action may be impossible in a state. A
state is reached under a guard when every action on the way met the guard in the
state it was taken in, and what one guarded step keeps, every guarded run keeps.

A program is a list of steps, each with the operations its handler does when it
fails. A failed step has no effect of its own and nothing after it runs. A program
that is one of many is looked at point by point (`Along`): what holds between any
two of its steps holds wherever the others, or a crash, come in.
-/

namespace OmniRush

/-! ## Runs -/

section Runs

variable {σ α : Type} (step : σ → α → Option σ)

/-- The state after some actions, if each is possible in turn. -/
def runActions : List α → σ → Option σ
  | [], s => some s
  | a :: actions, s => (step s a).bind (runActions actions)

theorem runActions_append {actions rest : List α} {s t : σ}
    (h : runActions step actions s = some t) :
    runActions step (actions ++ rest) s = runActions step rest t := by
  induction actions generalizing s with
  | nil =>
      cases h
      rfl
  | cons a actions ih =>
      obtain ⟨u, hstep, hrun⟩ := Option.bind_eq_some_iff.mp h
      rw [List.cons_append, runActions, hstep, Option.bind_some]
      exact ih hrun

theorem exists_of_any {α : Type} {o : Option α} {p : α → Bool} (h : o.any p = true) :
    ∃ a, o = some a ∧ p a = true := by
  cases o with
  | none => cases h
  | some a => exact ⟨a, rfl, h⟩

/-- Reached from `s` by actions that all met the guard. -/
inductive Reach (guard : σ → α → Prop) (s : σ) : σ → Prop where
  | refl : Reach guard s s
  | snoc {t u : σ} {a : α} (h : Reach guard s t) (hguard : guard t a)
      (hstep : step t a = some u) : Reach guard s u

variable {step}

theorem Reach.invariant {guard : σ → α → Prop} {I : σ → Prop}
    (hkeep : ∀ s a t, I s → guard s a → step s a = some t → I t) {s t : σ}
    (h : Reach step guard s t) (hs : I s) : I t := by
  induction h with
  | refl => exact hs
  | snoc _ hguard hstep ih => exact hkeep _ _ _ ih hguard hstep

theorem Reach.mono {guard guard' : σ → α → Prop} (hle : ∀ s a, guard s a → guard' s a)
    {s t : σ} (h : Reach step guard s t) : Reach step guard' s t := by
  induction h with
  | refl => exact .refl
  | snoc _ hguard hstep ih => exact .snoc ih (hle _ _ hguard) hstep

theorem Reach.mono_of_invariant {guard guard' : σ → α → Prop} {I : σ → Prop}
    (hkeep : ∀ s a t, I s → guard s a → step s a = some t → I t)
    (hle : ∀ s a, I s → guard s a → guard' s a) {s t : σ} (h : Reach step guard s t) (hs : I s) :
    Reach step guard' s t ∧ I t := by
  induction h with
  | refl => exact ⟨.refl, hs⟩
  | snoc _ hguard hstep ih =>
      exact ⟨.snoc ih.1 (hle _ _ ih.2 hguard) hstep, hkeep _ _ _ ih.2 hguard hstep⟩

theorem Reach.head {guard : σ → α → Prop} {s t u : σ} {a : α} (hguard : guard s a)
    (hstep : step s a = some t) (h : Reach step guard t u) : Reach step guard s u := by
  induction h with
  | refl => exact .snoc .refl hguard hstep
  | snoc _ hguard' hstep' ih => exact .snoc ih hguard' hstep'

theorem reach_of_run {guard : σ → α → Prop} {s t : σ} {actions : List α}
    (hguard : ∀ a ∈ actions, ∀ s, guard s a) (h : runActions step actions s = some t) :
    Reach step guard s t := by
  induction actions generalizing s with
  | nil =>
      cases h
      exact .refl
  | cons a actions ih =>
      obtain ⟨u, hstep, hrest⟩ := Option.bind_eq_some_iff.mp h
      exact .head (hguard a (List.mem_cons_self ..) s) hstep
        (ih (fun b hb => hguard b (List.mem_cons_of_mem _ hb)) hrest)

theorem reach_of_checked {guard : σ → α → Prop} [∀ s a, Decidable (guard s a)] {s t : σ}
    {actions : List α}
    (h : runActions (fun s a => if guard s a then step s a else none) actions s = some t) :
    Reach step guard s t ∧ runActions step actions s = some t := by
  induction actions generalizing s with
  | nil =>
      cases h
      exact ⟨.refl, rfl⟩
  | cons a actions ih =>
      obtain ⟨u, hstep, hrest⟩ := Option.bind_eq_some_iff.mp h
      obtain ⟨hreach, hrun⟩ := ih hrest
      dsimp only at hstep
      split at hstep
      · next hguard => exact ⟨.head hguard hstep hreach, Option.bind_eq_some_iff.mpr ⟨u, hstep, hrun⟩⟩
      · cases hstep

end Runs

/-! ## Programs -/

/-- One operation, and what is done instead of the rest when it fails. -/
structure Step (Op : Type) where
  op : Op
  onError : List Op := []
  deriving DecidableEq, Repr

section Programs

variable {σ Op : Type} (apply : Op → σ → σ)

def applyAll (ops : List Op) (s : σ) : σ := ops.foldl (fun s op => apply op s) s

/-- Whether a program came to its end, and the state it left. -/
def runSteps (fails : Op → Bool) : List (Step Op) → σ → Bool × σ
  | [], s => (true, s)
  | step :: steps, s =>
      if fails step.op then (false, applyAll apply step.onError s)
      else runSteps fails steps (apply step.op s)

variable {apply}

theorem runSteps_append (fails : Op → Bool) {steps : List (Step Op)} (steps' : List (Step Op))
    {s : σ} (h : ∀ step ∈ steps, fails step.op = false) :
    runSteps apply fails (steps ++ steps') s
      = runSteps apply fails steps' (applyAll apply (steps.map (·.op)) s) := by
  induction steps generalizing s with
  | nil => rfl
  | cons step steps ih =>
      rw [List.cons_append, runSteps, h step (by simp)]
      exact ih fun step' hstep' => h step' (List.mem_cons_of_mem _ hstep')

/-- What every operation of a program and of its handlers keeps, the program
keeps, wherever it fails. -/
theorem runSteps_invariant {I : σ → Prop} (fails : Op → Bool) {steps : List (Step Op)}
    (hop : ∀ step ∈ steps, ∀ op ∈ step.op :: step.onError, ∀ s, I s → I (apply op s))
    {s : σ} (hs : I s) : I (runSteps apply fails steps s).2 := by
  have hall : ∀ (ops : List Op) (s : σ), (∀ op ∈ ops, ∀ s, I s → I (apply op s)) → I s →
      I (applyAll apply ops s) := by
    intro ops
    induction ops with
    | nil => intro s _ hs; exact hs
    | cons op ops ih =>
        intro s hops hs
        exact ih _ (fun op' hop' => hops op' (List.mem_cons_of_mem _ hop'))
          (hops op (by simp) s hs)
  induction steps generalizing s with
  | nil => exact hs
  | cons step steps ih =>
      rw [runSteps]
      split
      · exact hall _ _ (fun op hmem => hop step (by simp) op (List.mem_cons_of_mem _ hmem)) hs
      · exact ih (fun step' hstep' => hop step' (List.mem_cons_of_mem _ hstep'))
          (hop step (by simp) step.op (by simp) s hs)

end Programs

/-! ## Points of a program -/

section Points

variable {σ Op : Type} (apply : Op → σ → σ) (P : σ → List Op → List (Step Op) → Prop)

/-- `P` holds before the first step, between any two, and after the last: of the
state there, the operations done and the steps left. -/
def Along : List (Step Op) → List Op → σ → Prop
  | [], done, s => P s done []
  | step :: steps, done, s =>
      P s done (step :: steps) ∧ Along steps (done ++ [step.op]) (apply step.op s)

variable {apply P}

theorem Along.here {steps : List (Step Op)} {done : List Op} {s : σ}
    (h : Along apply P steps done s) : P s done steps := by
  cases steps with
  | nil => exact h
  | cons step steps => exact h.1

theorem Along.next {step : Step Op} {steps : List (Step Op)} {done : List Op} {s : σ}
    (h : Along apply P (step :: steps) done s) :
    Along apply P steps (done ++ [step.op]) (apply step.op s) := h.2

theorem Along.congr {R : σ → σ → Prop} (happly : ∀ op s t, R s t → R (apply op s) (apply op t))
    (hpoint : ∀ s t done steps, R s t → P s done steps → P t done steps)
    {steps : List (Step Op)} {done : List Op} {s t : σ} (hrel : R s t)
    (h : Along apply P steps done s) : Along apply P steps done t := by
  induction steps generalizing done s t with
  | nil => exact hpoint _ _ _ _ hrel h
  | cons step steps ih =>
      exact ⟨hpoint _ _ _ _ hrel h.1, ih (happly _ _ _ hrel) h.2⟩

/-- An invariant of the steps of a program holds along it, and what is left after a
first part may be looked at on its own. -/
theorem Along.of_invariant {I : σ → Prop} (hpoint : ∀ s done steps, I s → P s done steps)
    {first : List (Step Op)} (hstep : ∀ step ∈ first, ∀ s, I s → I (apply step.op s))
    (rest : List (Step Op)) {done : List Op} {s : σ} (hs : I s)
    (hrest : ∀ t, I t → Along apply P rest (done ++ first.map (·.op)) t) :
    Along apply P (first ++ rest) done s := by
  induction first generalizing done s with
  | nil =>
      rw [List.map_nil, List.append_nil] at hrest
      exact hrest s hs
  | cons step first ih =>
      refine ⟨hpoint _ _ _ hs, ih (fun t ht => hstep t (List.mem_cons_of_mem _ ht))
        (hstep step (List.mem_cons_self ..) s hs) fun t ht => ?_⟩
      rw [List.append_assoc]
      exact hrest t ht

end Points

end OmniRush

/-!
## Histories

A log keeps what happened, in order. A property of what may happen after what is one of each
entry and the log before it, and holds throughout a log that grows when it holds of what is
added.
-/

namespace OmniRush

variable {α : Type} {P : List α → α → Prop} {log rest : List α} {e : α}

/-- Each entry has the property, with the log before it. -/
def Throughout (P : List α → α → Prop) (log : List α) : Prop :=
  ∀ before e, before ++ [e] <+: log → P before e

theorem Throughout.nil : Throughout P [] := by
  intro before e hprefix
  have hlength := hprefix.length_le
  rw [List.length_append] at hlength
  exact absurd hlength (by simp)

theorem Throughout.snoc (h : Throughout P log) (he : P log e) : Throughout P (log ++ [e]) := by
  intro before e' hprefix
  rcases List.prefix_concat_iff.mp hprefix with heq | hprefix
  · obtain ⟨rfl, hsingle⟩ := List.append_inj' heq rfl
    rw [List.singleton_inj.mp hsingle]
    exact he
  · exact h before e' hprefix

/-- What is added may be looked at after any log that goes on from the one before. -/
theorem Throughout.append (h : Throughout P log)
    (hrest : ∀ e ∈ rest, ∀ before, log <+: before → P before e) : Throughout P (log ++ rest) := by
  induction rest generalizing log with
  | nil => rwa [List.append_nil]
  | cons e rest ih =>
      have hstep : Throughout P (log ++ [e]) :=
        h.snoc (hrest e (List.mem_cons_self ..) log (List.prefix_refl log))
      have hgo := ih hstep fun e' he' before hprefix =>
        hrest e' (List.mem_cons_of_mem _ he') before ((List.prefix_append log [e]).trans hprefix)
      rwa [List.append_assoc, List.singleton_append] at hgo

end OmniRush
