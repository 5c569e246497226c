import OmniRush.Archive.Lifecycle

/-!
# Slots of the archived sessions' steps

The counting semaphore never loses or doubles a slot: `running` counts the steps that hold
one, and as long as a step waits every slot is taken (`Slotted`). A step that ends passes
its slot on, so between the two the count is one more than its holders. The steps of a
session are a chain by `previous`, and one that has left its place has every earlier one
behind it done (`Ordered`).
-/

namespace OmniRush.Archive.Lifecycle

variable {s t : Lifecycle} {i j extra : Nat} {d e : Entry} {lane : Lane}

/-! ## The queues -/

def queue (s : Lifecycle) : Lane → List Nat
  | .high => s.waitingHigh
  | .normal => s.waiting
  | .low => s.waitingLow

def withQueue (s : Lifecycle) (lane : Lane) (q : List Nat) : Lifecycle :=
  match lane with
  | .high => { s with waitingHigh := q }
  | .normal => { s with waiting := q }
  | .low => { s with waitingLow := q }

@[simp] theorem steps_withQueue (s : Lifecycle) (lane : Lane) (q : List Nat) :
    (s.withQueue lane q).steps = s.steps := by cases lane <;> rfl

@[simp] theorem running_withQueue (s : Lifecycle) (lane : Lane) (q : List Nat) :
    (s.withQueue lane q).running = s.running := by cases lane <;> rfl

@[simp] theorem concurrency_withQueue (s : Lifecycle) (lane : Lane) (q : List Nat) :
    (s.withQueue lane q).concurrency = s.concurrency := by cases lane <;> rfl

@[simp] theorem tails_withQueue (s : Lifecycle) (lane : Lane) (q : List Nat) :
    (s.withQueue lane q).tails = s.tails := by cases lane <;> rfl

@[simp] theorem queue_withQueue (s : Lifecycle) (lane lane' : Lane) (q : List Nat) :
    (s.withQueue lane q).queue lane' = if lane' = lane then q else s.queue lane' := by
  cases lane <;> cases lane' <;> rfl

@[simp] theorem steps_put (s : Lifecycle) (i : Nat) (e : Entry) :
    (s.put i e).steps = s.steps.set i e := rfl

@[simp] theorem running_put (s : Lifecycle) (i : Nat) (e : Entry) :
    (s.put i e).running = s.running := rfl

@[simp] theorem concurrency_put (s : Lifecycle) (i : Nat) (e : Entry) :
    (s.put i e).concurrency = s.concurrency := rfl

@[simp] theorem tails_put (s : Lifecycle) (i : Nat) (e : Entry) : (s.put i e).tails = s.tails := rfl

@[simp] theorem queue_put (s : Lifecycle) (i : Nat) (e : Entry) (lane : Lane) :
    (s.put i e).queue lane = s.queue lane := by cases lane <;> rfl

theorem bounded_eq (s : Lifecycle) (i : Nat) (e : Entry) :
    s.bounded i e =
      if s.running < s.concurrency then
        { s with running := s.running + 1 }.put i
          { e with stage := .running, slots := e.slots + 1, called := s.active }
      else (s.put i { e with stage := .waiting }).withQueue e.lane (s.queue e.lane ++ [i]) := by
  unfold bounded
  split
  · rfl
  · cases e.lane <;> rfl

/-- A slot that comes free goes to the first of the queues in their order, or is given back
when they are empty. -/
theorem release_cases (s : Lifecycle) :
    (∃ lane i rest, s.queue lane = i :: rest ∧ s.release = (s.withQueue lane rest).grant i ∧
      ∀ lane', s.queue lane' ≠ [] → lane = .low → lane' = .low) ∨
    (∀ lane, s.queue lane = []) ∧ s.release = { s with running := s.running - 1 } := by
  unfold release
  split
  · next i rest hhigh => exact .inl ⟨.high, i, rest, hhigh, rfl, fun _ _ h => nomatch h⟩
  · next i rest hhigh hnormal =>
      exact .inl ⟨.normal, i, rest, hnormal, rfl, fun _ _ h => nomatch h⟩
  · next i rest hhigh hnormal hlow =>
      refine .inl ⟨.low, i, rest, hlow, rfl, fun lane' hne _ => ?_⟩
      cases lane' with
      | high => exact absurd hhigh hne
      | normal => exact absurd hnormal hne
      | low => rfl
  · next hhigh hnormal hlow =>
      refine .inr ⟨fun lane => ?_, rfl⟩
      cases lane with
      | high => exact hhigh
      | normal => exact hnormal
      | low => exact hlow

/-! ## The slots -/

/-- The semaphore when `extra` of the slots in use are held by no step. -/
structure Slotted (extra : Nat) (s : Lifecycle) : Prop where
  positive : 0 < s.concurrency
  held : s.running = s.steps.countP Entry.holds + extra
  bound : s.running ≤ s.concurrency
  full : ∀ lane, s.queue lane ≠ [] → s.running = s.concurrency
  nodup : ∀ lane, (s.queue lane).Nodup
  waits : ∀ lane i, i ∈ s.queue lane ↔
    ∃ e, s.steps[i]? = some e ∧ e.stage = .waiting ∧ e.lane = lane
  slots : ∀ e ∈ s.steps, e.slots = if e.stage.served then 1 else 0

theorem countP_put (hi : s.steps[i]? = some d) :
    (s.steps.set i e).countP Entry.holds + d.holds.toNat =
      s.steps.countP Entry.holds + e.holds.toNat := by
  obtain ⟨hlt, rfl⟩ := List.getElem?_eq_some_iff.mp hi
  have hpos : s.steps[i].holds = true → 0 < s.steps.countP Entry.holds := fun h =>
    List.countP_pos_iff.mpr ⟨_, List.getElem_mem hlt, h⟩
  rw [List.countP_set hlt]
  cases hd : s.steps[i].holds
  · simp
    cases e.holds <;> rfl
  · have := hpos hd
    simp
    cases e.holds <;> simp <;> omega

theorem getElem?_put (hi : s.steps[i]? = some d) :
    (s.steps.set i e)[j]? = if j = i then some e else s.steps[j]? := by
  obtain ⟨hlt, -⟩ := List.getElem?_eq_some_iff.mp hi
  rw [List.getElem?_set]
  by_cases hj : i = j
  · rw [if_pos hj, if_pos hlt, if_pos hj.symm]
  · rw [if_neg hj, if_neg fun h => hj h.symm]

/-- A step that does not wait goes on without waiting; its slot comes from, or stays with,
`extra`. -/
theorem Slotted.put (h : Slotted extra s) {extra' : Nat} (hi : s.steps[i]? = some d)
    (hd : d.stage ≠ .waiting) (he : e.stage ≠ .waiting)
    (hheld : d.holds.toNat + extra = e.holds.toNat + extra')
    (hslots : e.slots = if e.stage.served then 1 else 0) : Slotted extra' (s.put i e) where
  positive := h.positive
  held := by
    have hcount := countP_put (e := e) hi
    have hrun := h.held
    rw [running_put, steps_put]
    omega
  bound := h.bound
  full := fun lane => by
    rw [queue_put]
    exact h.full lane
  nodup := fun lane => by
    rw [queue_put]
    exact h.nodup lane
  waits := fun lane j => by
    rw [queue_put, h.waits, steps_put, getElem?_put hi]
    by_cases hj : j = i
    · subst hj
      rw [if_pos rfl, hi]
      simp [hd, he]
    · rw [if_neg hj]
  slots := fun x hx => by
    rcases List.mem_or_eq_of_mem_set hx with hx | rfl
    · exact h.slots x hx
    · exact hslots

theorem Slotted.ofQueue (h : Slotted extra s) (hi : s.steps[i]? = some e)
    (hstage : e.stage = .waiting) : i ∈ s.queue e.lane :=
  (h.waits _ _).mpr ⟨e, hi, hstage, rfl⟩

theorem Slotted.wait (h : Slotted 0 s) (hi : s.steps[i]? = some e) (hstage : e.stage = .asking)
    (hfull : ¬ s.running < s.concurrency) :
    Slotted 0 ((s.put i { e with stage := .waiting }).withQueue e.lane (s.queue e.lane ++ [i])) where
  positive := by
    rw [concurrency_withQueue]
    exact h.positive
  held := by
    have hcount := countP_put (e := { e with stage := .waiting }) hi
    have hrun := h.held
    simp only [Entry.holds, hstage, Stage.holds, Bool.toNat_false] at hcount
    simp only [running_withQueue, running_put, steps_withQueue, steps_put]
    omega
  bound := by
    rw [running_withQueue, concurrency_withQueue]
    exact h.bound
  full := fun lane _ => by
    have hle := h.bound
    rw [running_withQueue, concurrency_withQueue, running_put, concurrency_put]
    omega
  nodup := fun lane => by
    rw [queue_withQueue, queue_put]
    split
    · refine List.nodup_append.mpr ⟨h.nodup _, List.pairwise_singleton .., fun j hj k hk heq => ?_⟩
      obtain rfl : k = i := List.mem_singleton.mp hk
      subst heq
      obtain ⟨x, hx, hwaits, -⟩ := (h.waits _ _).mp hj
      rw [hi] at hx
      obtain rfl := Option.some.inj hx
      rw [hstage] at hwaits
      cases hwaits
    · exact h.nodup lane
  waits := fun lane j => by
    rw [queue_withQueue, queue_put, steps_withQueue, steps_put, getElem?_put hi]
    by_cases hj : j = i
    · subst hj
      rw [if_pos rfl]
      constructor
      · intro hmem
        refine ⟨_, rfl, rfl, ?_⟩
        split at hmem
        · next heq => exact heq.symm
        · obtain ⟨x, hx, hwaits, -⟩ := (h.waits _ _).mp hmem
          rw [hi] at hx
          obtain rfl := Option.some.inj hx
          rw [hstage] at hwaits
          cases hwaits
      · rintro ⟨x, hx, -, hlane⟩
        obtain rfl := Option.some.inj hx
        rw [if_pos (show lane = e.lane from hlane.symm)]
        exact List.mem_append_right _ (List.mem_singleton.mpr rfl)
    · rw [if_neg hj, ← h.waits]
      split
      · next heq =>
          subst heq
          rw [List.mem_append, List.mem_singleton]
          exact or_iff_left hj
      · rfl
  slots := fun x hx => by
    rw [steps_withQueue] at hx
    rcases List.mem_or_eq_of_mem_set hx with hx | rfl
    · exact h.slots x hx
    · have := h.slots e (List.mem_of_getElem? hi)
      simpa [hstage, Stage.served] using this

theorem Slotted.grant (h : Slotted 1 s) {rest : List Nat} (hqueue : s.queue lane = i :: rest) :
    ∃ e, s.steps[i]? = some e ∧ e.stage = .waiting ∧ e.lane = lane ∧
      (s.withQueue lane rest).grant i =
        (s.withQueue lane rest).put i { e with stage := .granted, slots := e.slots + 1 } ∧
      Slotted 0 ((s.withQueue lane rest).grant i) := by
  obtain ⟨e, hi, hstage, hlane⟩ := (h.waits lane i).mp (by
    rw [hqueue]
    exact List.mem_cons_self ..)
  have hgrant : (s.withQueue lane rest).grant i =
      (s.withQueue lane rest).put i { e with stage := .granted, slots := e.slots + 1 } := by
    unfold Lifecycle.grant
    rw [steps_withQueue, hi]
  have hnodup := h.nodup lane
  rw [hqueue, List.nodup_cons] at hnodup
  refine ⟨e, hi, hstage, hlane, hgrant, ?_⟩
  rw [hgrant]
  exact
    { positive := by
        rw [concurrency_put, concurrency_withQueue]
        exact h.positive
      held := by
        have hcount := countP_put (e := { e with stage := .granted, slots := e.slots + 1 }) hi
        have hrun := h.held
        simp only [Entry.holds, hstage, Stage.holds] at hcount
        simp only [running_put, running_withQueue, steps_put, steps_withQueue]
        simp only [Bool.toNat_true, Bool.toNat_false] at hcount
        omega
      bound := by
        rw [running_put, running_withQueue, concurrency_put, concurrency_withQueue]
        exact h.bound
      full := fun lane' hne => by
        rw [running_put, running_withQueue, concurrency_put, concurrency_withQueue]
        exact h.full lane (by rw [hqueue]; exact List.cons_ne_nil _ _)
      nodup := fun lane' => by
        rw [queue_put, queue_withQueue]
        split
        · exact hnodup.2
        · exact h.nodup lane'
      waits := fun lane' j => by
        rw [queue_put, queue_withQueue, steps_put, steps_withQueue, getElem?_put hi]
        by_cases hj : j = i
        · subst hj
          rw [if_pos rfl]
          constructor
          · intro hmem
            split at hmem
            · exact absurd hmem hnodup.1
            · next hne =>
                obtain ⟨x, hx, -, hlane'⟩ := (h.waits _ _).mp hmem
                rw [hi] at hx
                obtain rfl := Option.some.inj hx
                exact absurd (hlane'.symm.trans hlane) hne
          · rintro ⟨x, hx, hwaits, -⟩
            obtain rfl := Option.some.inj hx
            cases hwaits
        · rw [if_neg hj, ← h.waits]
          split
          · next heq =>
              subst heq
              rw [hqueue, List.mem_cons]
              exact (or_iff_right hj).symm
          · rfl
      slots := fun x hx => by
        rw [steps_put, steps_withQueue] at hx
        rcases List.mem_or_eq_of_mem_set hx with hx | rfl
        · exact h.slots x hx
        · have := h.slots e (List.mem_of_getElem? hi)
          simpa [hstage, Stage.served] using this }

theorem Slotted.release (h : Slotted 1 s) : Slotted 0 s.release := by
  rcases release_cases s with ⟨lane, i, rest, hqueue, heq, -⟩ | ⟨hempty, heq⟩
  · obtain ⟨-, -, -, -, -, hslotted⟩ := h.grant hqueue
    rw [heq]
    exact hslotted
  · have hrun := h.held
    rw [heq]
    exact
      { positive := h.positive
        held := by
          dsimp only
          omega
        bound := Nat.le_trans (Nat.sub_le ..) h.bound
        full := fun lane hne => absurd (hempty lane) hne
        nodup := h.nodup
        waits := h.waits
        slots := h.slots }

theorem Slotted.bounded (h : Slotted 0 s) (hi : s.steps[i]? = some e) (hstage : e.stage = .asking) :
    Slotted 0 (s.bounded i e) := by
  rw [bounded_eq]
  have hzero := h.slots e (List.mem_of_getElem? hi)
  rw [hstage] at hzero
  split
  · next hfree =>
      have hone : Slotted 1 { s with running := s.running + 1 } :=
        { h with
          held := congrArg (· + 1) h.held
          bound := hfree
          full := fun lane hne => absurd (h.full lane hne) (Nat.ne_of_lt hfree) }
      refine hone.put hi (by rw [hstage]; exact nofun) nofun ?_ ?_
      · simp [Entry.holds, hstage, Stage.holds]
      · simpa [Stage.served] using hzero
  · next hfull => exact h.wait hi hstage hfull

theorem Slotted.same (h : Slotted extra s) (hconcurrency : t.concurrency = s.concurrency)
    (hrunning : t.running = s.running) (hqueue : t.queue = s.queue) (hsteps : t.steps = s.steps) :
    Slotted extra t where
  positive := hconcurrency ▸ h.positive
  held := by rw [hrunning, hsteps, h.held]
  bound := by rw [hrunning, hconcurrency]; exact h.bound
  full := by rw [hqueue, hrunning, hconcurrency]; exact h.full
  nodup := hqueue ▸ h.nodup
  waits := by rw [hqueue, hsteps]; exact h.waits
  slots := hsteps ▸ h.slots

theorem Slotted.schedule (h : Slotted 0 s) (sessionId : String) (promptedAt : Option Int)
    (low high : Bool) : Slotted 0 (s.schedule sessionId promptedAt low high) where
  positive := h.positive
  held := by
    have hrun := h.held
    simp [Lifecycle.schedule, hrun, Entry.holds, Stage.holds]
  bound := h.bound
  full := h.full
  nodup := h.nodup
  waits := fun lane i => by
    refine (h.waits lane i).trans ?_
    simp only [Lifecycle.schedule]
    constructor
    · rintro ⟨e, hi, hrest⟩
      have hlt := (List.getElem?_eq_some_iff.mp hi).choose
      exact ⟨e, by rw [List.getElem?_append_left hlt]; exact hi, hrest⟩
    · rintro ⟨e, hi, hwaits, hlane⟩
      by_cases hlt : i < s.steps.length
      · rw [List.getElem?_append_left hlt] at hi
        exact ⟨e, hi, hwaits, hlane⟩
      · rw [List.getElem?_append_right (Nat.le_of_not_lt hlt)] at hi
        obtain rfl := List.mem_singleton.mp (List.mem_of_getElem? hi)
        cases hwaits
  slots := fun e he => by
    rcases List.mem_append.mp he with he | he
    · exact h.slots e he
    · obtain rfl := List.mem_singleton.mp he
      rfl

theorem Slotted.resume (h : Slotted 0 s) (hi : s.steps[i]? = some e) {now : Int}
    (hstep : s.resume i e now = some t) : Slotted 0 t := by
  have hslots := h.slots e (List.mem_of_getElem? hi)
  unfold Lifecycle.resume at hstep
  split at hstep
  · next hstage =>
      split at hstep
      · cases hstep
        refine h.put hi (by rw [hstage]; exact nofun) ?_ ?_ ?_
        · dsimp only
          split <;> exact nofun
        · simp only [Entry.holds, hstage]
          split <;> rfl
        · have hzero : e.slots = 0 := by simpa [hstage, Stage.served] using hslots
          dsimp only
          rw [hzero]
          cases e.promptedAt.all (s.quiet · now) <;> rfl
      · cases hstep
  · next hstage =>
      split at hstep
      · cases hstep
        refine h.put hi (by rw [hstage]; exact nofun) nofun ?_ ?_
        · simp [Entry.holds, hstage, Stage.holds]
        · simpa [hstage, Stage.served] using hslots
      · cases hstep
        exact h
  · next hstage =>
      cases hstep
      exact h.bounded hi hstage
  · next hstage =>
      cases hstep
      refine h.put hi (by rw [hstage]; exact nofun) nofun ?_ ?_
      · simp [Entry.holds, hstage, Stage.holds]
      · simpa [hstage, Stage.served] using hslots
  all_goals cases hstep

theorem Slotted.finish (h : Slotted 0 s) (hi : s.steps[i]? = some e) (hstage : e.stage = .running) :
    Slotted 1 (s.put i { e with stage := .done }) := by
  have hslots := h.slots e (List.mem_of_getElem? hi)
  refine h.put hi (by rw [hstage]; exact nofun) nofun ?_ ?_
  · simp [Entry.holds, hstage, Stage.holds]
  · simpa [hstage, Stage.served] using hslots

theorem Slotted.step (h : Slotted 0 s) {a : Event} (hstep : s.step a = some t) : Slotted 0 t := by
  cases a with
  | schedule sessionId promptedAt low high =>
      cases hstep
      exact h.schedule sessionId promptedAt low high
  | resume i now =>
      obtain ⟨e, hi, hstep⟩ := Option.bind_eq_some_iff.mp hstep
      exact h.resume hi hstep
  | finish i =>
      obtain ⟨e, hi, hstep⟩ := Option.bind_eq_some_iff.mp hstep
      split at hstep
      · next hstage =>
          cases hstep
          exact (h.finish hi hstage).release
      · cases hstep
  | forget i =>
      obtain ⟨e, hi, hstep⟩ := Option.bind_eq_some_iff.mp hstep
      split at hstep
      · cases hstep
        exact h.same rfl rfl rfl rfl
      · cases hstep
  | prompted now =>
      cases hstep
      exact h.same rfl rfl rfl rfl
  | hurry =>
      cases hstep
      exact h.same rfl rfl rfl rfl
  | signOut =>
      cases hstep
      exact h.same rfl rfl rfl rfl
  | stop =>
      cases hstep
      exact h.same rfl rfl rfl rfl

end OmniRush.Archive.Lifecycle
