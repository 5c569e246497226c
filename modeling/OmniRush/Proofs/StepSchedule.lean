import OmniRush.Proofs.StepSlots

/-!
# Every scheduled step runs in its turn

The steps of a session are a chain: the tail is the last of them, or all are done
(`Ordered`). Together with the slots this rules out a deadlock: the first step that is not
done can go on, or runs, or waits while another step holds a slot. Each time one goes on
there is less left to do (`left`).

A slot goes to a low step only when no other step waits for one. The low step runs a
moment later, and a step that asks in that moment waits behind it.
-/

namespace OmniRush.Archive.Lifecycle

variable {s t : Lifecycle} {i j : Nat} {d e : Entry} {steps : List Entry}
  {tails : String → Option Nat}

/-! ## The order of a session's steps -/

structure Ordered (steps : List Entry) (tails : String → Option Nat) : Prop where
  previous : ∀ (i : Nat) (e : Entry), steps[i]? = some e → ∀ p ∈ e.previous,
    p < i ∧ ∃ d : Entry, steps[p]? = some d ∧ d.sessionId = e.sessionId
  behind : ∀ (i j : Nat) (d e : Entry), i < j → steps[i]? = some d → steps[j]? = some e →
    d.sessionId = e.sessionId → d.stage = .done ∨ ∃ p ∈ e.previous, i ≤ p
  begun : ∀ (i j : Nat) (d e : Entry), i < j → steps[i]? = some d → steps[j]? = some e →
    d.sessionId = e.sessionId → e.stage ≠ .queued → d.stage = .done
  tail : ∀ (i : Nat) (d : Entry), steps[i]? = some d → d.stage = .done ∨ ∃ p ∈ tails d.sessionId, i ≤ p
  last : ∀ sessionId, ∀ p ∈ tails sessionId, ∃ d : Entry, steps[p]? = some d ∧ d.sessionId = sessionId

/-- A step goes on: it stays the step it is, what is done stays done, and it leaves its
place only when the step before it is done. -/
structure Advances (s : Lifecycle) (d e : Entry) : Prop where
  sessionId : e.sessionId = d.sessionId
  previous : e.previous = d.previous
  done : d.stage = .done → e.stage = .done
  begun : e.stage ≠ .queued → d.stage ≠ .queued ∨ s.ready d = true

theorem Ordered.ready (h : Ordered s.steps s.tails) (hj : s.steps[j]? = some e)
    (hready : s.ready e = true) (hlt : i < j) (hi : s.steps[i]? = some d)
    (hsession : d.sessionId = e.sessionId) : d.stage = .done := by
  rcases h.behind i j d e hlt hi hj hsession with hdone | ⟨p, hp, hle⟩
  · exact hdone
  · obtain ⟨-, c, hc, hsame⟩ := h.previous j e hj p hp
    have hdone : c.stage = .done := by
      have hprevious : e.previous = some p := hp
      simpa [Lifecycle.ready, hprevious, hc] using hready
    rcases Nat.lt_or_eq_of_le hle with hlt' | rfl
    · exact h.begun i p d c hlt' hi hc (hsession.trans hsame.symm) (by rw [hdone]; exact nofun)
    · rw [hi] at hc
      obtain rfl := Option.some.inj hc
      exact hdone

theorem Ordered.put (h : Ordered s.steps s.tails) (hi : s.steps[i]? = some d)
    (hgo : Advances s d e) : Ordered (s.put i e).steps (s.put i e).tails := by
  -- a step of the new list is one of the old list that did not lose what it had
  have hold : ∀ (j : Nat) (x : Entry), (s.steps.set i e)[j]? = some x → ∃ y : Entry, s.steps[j]? = some y ∧
      x.sessionId = y.sessionId ∧ x.previous = y.previous ∧ (y.stage = .done → x.stage = .done) ∧
      (x.stage ≠ .queued → y.stage ≠ .queued ∨ s.ready y = true) := by
    intro j x hx
    rw [getElem?_put hi] at hx
    split at hx
    · next hj =>
        subst hj
        obtain rfl := Option.some.inj hx
        exact ⟨d, hi, hgo.sessionId, hgo.previous, hgo.done, hgo.begun⟩
    · exact ⟨x, hx, rfl, rfl, id, .inl⟩
  have hnew : ∀ (j : Nat) (y : Entry), s.steps[j]? = some y → ∃ x : Entry, (s.steps.set i e)[j]? = some x ∧
      x.sessionId = y.sessionId := by
    intro j y hy
    rw [getElem?_put hi]
    split
    · next hj =>
        subst hj
        rw [hi] at hy
        obtain rfl := Option.some.inj hy
        exact ⟨e, rfl, hgo.sessionId⟩
    · exact ⟨y, hy, rfl⟩
  constructor
  · intro j x hx p hp
    obtain ⟨y, hy, hsession, hprevious, -⟩ := hold j x hx
    obtain ⟨hlt, c, hc, hsame⟩ := h.previous j y hy p (hprevious ▸ hp)
    obtain ⟨c', hc', hsame'⟩ := hnew p c hc
    exact ⟨hlt, c', hc', hsame'.trans (hsame.trans hsession.symm)⟩
  · intro j k x x' hlt hx hx' hsession
    obtain ⟨y, hy, hsame, -, hdone, -⟩ := hold j x hx
    obtain ⟨y', hy', hsame', hprevious, -⟩ := hold k x' hx'
    rw [hprevious]
    exact (h.behind j k y y' hlt hy hy' (hsame.symm.trans (hsession.trans hsame'))).imp_left hdone
  · intro j k x x' hlt hx hx' hsession hbegun
    obtain ⟨y, hy, hsame, -, hdone, -⟩ := hold j x hx
    obtain ⟨y', hy', hsame', -, -, hgone⟩ := hold k x' hx'
    have hsession' : y.sessionId = y'.sessionId := hsame.symm.trans (hsession.trans hsame')
    refine hdone ?_
    rcases hgone hbegun with hbegun' | hready
    · exact h.begun j k y y' hlt hy hy' hsession' hbegun'
    · exact h.ready hy' hready hlt hy hsession'
  · intro j x hx
    obtain ⟨y, hy, hsame, -, hdone, -⟩ := hold j x hx
    rw [hsame]
    exact (h.tail j y hy).imp_left hdone
  · intro sessionId p hp
    obtain ⟨y, hy, hsame⟩ := h.last sessionId p hp
    obtain ⟨x, hx, hsame'⟩ := hnew p y hy
    exact ⟨x, hx, hsame'.trans hsame⟩

theorem Ordered.schedule (h : Ordered s.steps s.tails) (sessionId : String)
    (promptedAt : Option Int) (low high : Bool) :
    Ordered (s.schedule sessionId promptedAt low high).steps
      (s.schedule sessionId promptedAt low high).tails := by
  have hnew : ∀ (j : Nat) (x : Entry), (s.schedule sessionId promptedAt low high).steps[j]? = some x →
      s.steps[j]? = some x ∨ j = s.steps.length ∧ x.sessionId = sessionId ∧
        x.previous = s.tails sessionId ∧ x.stage = .queued := by
    intro j x hx
    simp only [Lifecycle.schedule] at hx
    rcases Nat.lt_or_ge j s.steps.length with hlt | hge
    · rw [List.getElem?_append_left hlt] at hx
      exact .inl hx
    · rw [List.getElem?_append_right hge] at hx
      obtain ⟨hlt, rfl⟩ := List.getElem?_eq_some_iff.mp hx
      rw [List.length_singleton] at hlt
      refine .inr ⟨by omega, ?_⟩
      rw [List.getElem_singleton]
      exact ⟨rfl, rfl, rfl⟩
  have hold : ∀ (j : Nat) (x : Entry), s.steps[j]? = some x →
      (s.schedule sessionId promptedAt low high).steps[j]? = some x := by
    intro j x hx
    simp only [Lifecycle.schedule]
    rw [List.getElem?_append_left (List.getElem?_eq_some_iff.mp hx).choose]
    exact hx
  have hlength : ∀ {j : Nat} {x : Entry}, s.steps[j]? = some x → j < s.steps.length := fun hx =>
    (List.getElem?_eq_some_iff.mp hx).choose
  constructor
  · intro j x hx p hp
    rcases hnew j x hx with hx | ⟨rfl, hsession, hprevious, -⟩
    · obtain ⟨hlt, d, hd, hsame⟩ := h.previous j x hx p hp
      exact ⟨hlt, d, hold p d hd, hsame⟩
    · obtain ⟨d, hd, hsame⟩ := h.last sessionId p (hprevious ▸ hp)
      exact ⟨hlength hd, d, hold p d hd, hsame.trans hsession.symm⟩
  · intro j k x x' hlt hx hx' hsession
    rcases hnew k x' hx' with hx' | ⟨rfl, hsession', hprevious, -⟩
    · rcases hnew j x hx with hx | ⟨rfl, -⟩
      · exact h.behind j k x x' hlt hx hx' hsession
      · exact absurd (hlength hx') (by omega)
    · rcases hnew j x hx with hx | ⟨rfl, -⟩
      · rw [hprevious, ← hsession', ← hsession]
        exact h.tail j x hx
      · exact absurd hlt (Nat.lt_irrefl _)
  · intro j k x x' hlt hx hx' hsession hbegun
    rcases hnew k x' hx' with hx' | ⟨-, -, -, hqueued⟩
    · rcases hnew j x hx with hx | ⟨rfl, -⟩
      · exact h.begun j k x x' hlt hx hx' hsession hbegun
      · exact absurd (hlength hx') (by omega)
    · exact absurd hqueued hbegun
  · intro j x hx
    simp only [Lifecycle.schedule]
    rcases hnew j x hx with hx | ⟨rfl, hsession, -⟩
    · split
      · exact .inr ⟨_, rfl, Nat.le_of_lt (hlength hx)⟩
      · exact h.tail j x hx
    · rw [if_pos hsession]
      exact .inr ⟨_, rfl, Nat.le_refl _⟩
  · intro id p hp
    simp only [Lifecycle.schedule] at hp
    split at hp
    · next hid =>
        obtain rfl : s.steps.length = p := Option.some.inj hp
        exact ⟨_, List.getElem?_concat_length, hid.symm⟩
    · obtain ⟨d, hd, hsame⟩ := h.last id p hp
      exact ⟨d, hold p d hd, hsame⟩

theorem Ordered.forget (h : Ordered steps tails) (hi : steps[i]? = some e)
    (hdone : e.stage = .done) (htail : tails e.sessionId = some i) :
    Ordered steps fun id => if id = e.sessionId then none else tails id where
  previous := h.previous
  behind := h.behind
  begun := h.begun
  tail := fun j d hj => by
    by_cases hsession : d.sessionId = e.sessionId
    · -- the tail was the last step of the session and is done, so all of them are
      rcases h.tail j d hj with hdone' | ⟨p, hp, hle⟩
      · exact .inl hdone'
      · rw [hsession, htail] at hp
        obtain rfl : i = p := Option.some.inj hp
        rcases Nat.lt_or_eq_of_le hle with hlt | rfl
        · exact .inl (h.begun j i d e hlt hj hi hsession (by rw [hdone]; exact nofun))
        · rw [hi] at hj
          obtain rfl := Option.some.inj hj
          exact .inl hdone
    · rw [if_neg hsession]
      exact h.tail j d hj
  last := fun sessionId p hp => by
    split at hp
    · cases hp
    · exact h.last sessionId p hp

theorem Ordered.release (h : Ordered s.steps s.tails) (hslotted : Slotted 1 s) :
    Ordered s.release.steps s.release.tails := by
  rcases release_cases s with ⟨lane, i, rest, hqueue, heq, -⟩ | ⟨-, heq⟩
  · obtain ⟨e, hi, hstage, -, hgrant, -⟩ := hslotted.grant hqueue
    have hput := h.put (e := { e with stage := .granted, slots := e.slots + 1 }) hi
      { sessionId := rfl
        previous := rfl
        done := fun hdone => by rw [hstage] at hdone; cases hdone
        begun := fun _ => .inl (by rw [hstage]; exact nofun) }
    rw [heq, hgrant]
    simpa using hput
  · rw [heq]
    exact h

theorem Ordered.bounded (h : Ordered s.steps s.tails) (hi : s.steps[i]? = some e)
    (hstage : e.stage = .asking) : Ordered (s.bounded i e).steps (s.bounded i e).tails := by
  have hput : ∀ e' : Entry, e'.sessionId = e.sessionId → e'.previous = e.previous →
      Ordered (s.put i e').steps (s.put i e').tails := fun e' hsession hprevious =>
    h.put hi
      { sessionId := hsession
        previous := hprevious
        done := fun hdone => by rw [hstage] at hdone; cases hdone
        begun := fun _ => .inl (by rw [hstage]; exact nofun) }
  rw [bounded_eq]
  split
  · exact hput { e with stage := .running, slots := e.slots + 1, called := s.active } rfl rfl
  · simpa using hput { e with stage := .waiting } rfl rfl

theorem Ordered.resume (h : Ordered s.steps s.tails) (hi : s.steps[i]? = some e) {now : Int}
    (hstep : s.resume i e now = some t) : Ordered t.steps t.tails := by
  unfold Lifecycle.resume at hstep
  split at hstep
  · next hstage =>
      split at hstep
      · next hready =>
          cases hstep
          exact h.put hi
            { sessionId := rfl
              previous := rfl
              done := fun hdone => by rw [hstage] at hdone; cases hdone
              begun := fun _ => .inr hready }
      · cases hstep
  · next hstage =>
      split at hstep
      · cases hstep
        exact h.put hi
          { sessionId := rfl
            previous := rfl
            done := fun hdone => by rw [hstage] at hdone; cases hdone
            begun := fun _ => .inl (by rw [hstage]; exact nofun) }
      · cases hstep
        exact h
  · next hstage =>
      cases hstep
      exact h.bounded hi hstage
  · next hstage =>
      cases hstep
      exact h.put hi
        { sessionId := rfl
          previous := rfl
          done := fun hdone => by rw [hstage] at hdone; cases hdone
          begun := fun _ => .inl (by rw [hstage]; exact nofun) }
  all_goals cases hstep

theorem Ordered.step (h : Ordered s.steps s.tails) (hslotted : Slotted 0 s) {a : Event}
    (hstep : s.step a = some t) : Ordered t.steps t.tails := by
  cases a with
  | schedule sessionId promptedAt low high =>
      cases hstep
      exact h.schedule sessionId promptedAt low high
  | resume i now =>
      obtain ⟨e, hi, hstep⟩ := Option.bind_eq_some_iff.mp hstep
      exact h.resume hi hstep
  | finish i =>
      obtain ⟨e, hi, hstep⟩ := Option.bind_eq_some_iff.mp hstep
      split at hstep
      · next hstage =>
          cases hstep
          refine Ordered.release (h.put hi ?_) (hslotted.finish hi hstage)
          exact
            { sessionId := rfl
              previous := rfl
              done := fun _ => rfl
              begun := fun _ => .inl (by rw [hstage]; exact nofun) }
      · cases hstep
  | forget i =>
      obtain ⟨e, hi, hstep⟩ := Option.bind_eq_some_iff.mp hstep
      split at hstep
      · next hforget =>
          cases hstep
          exact h.forget hi hforget.1 hforget.2
      · cases hstep
  | prompted now =>
      cases hstep
      exact h
  | hurry =>
      cases hstep
      exact h
  | signOut =>
      cases hstep
      exact h
  | stop =>
      cases hstep
      exact h

/-! ## Nothing is left waiting -/

/-- A step that is not done can go on, or runs, or waits behind a step that can. -/
theorem stuck_done (hslotted : Slotted 0 s) (hordered : Ordered s.steps s.tails) (now : Int)
    (hresume : ∀ i, s.step (.resume i now) = none) (hfinish : ∀ i, s.step (.finish i) = none)
    (i : Nat) (e : Entry) (hi : s.steps[i]? = some e) : e.stage = .done := by
  have hstage : ∀ (i : Nat) (e : Entry), s.steps[i]? = some e → s.resume i e now = none ∧ e.stage ≠ .running := by
    intro i e hi
    have hresume : s.steps[i]?.bind (fun e => s.resume i e now) = none := hresume i
    have hfinish : s.steps[i]?.bind (fun e =>
      if e.stage = .running then some (s.put i { e with stage := .done }).release else none) = none :=
      hfinish i
    rw [hi, Option.bind_some] at hresume hfinish
    refine ⟨hresume, fun hrunning => ?_⟩
    rw [if_pos hrunning] at hfinish
    cases hfinish
  induction i using Nat.strongRecOn generalizing e with
  | ind i ih =>
      obtain ⟨hnone, hrunning⟩ := hstage i e hi
      unfold resume at hnone
      split at hnone
      · split at hnone
        · cases hnone
        · next hready =>
            refine absurd ?_ hready
            unfold ready
            cases hprevious : e.previous with
            | none => rfl
            | some p =>
                obtain ⟨hlt, d, hd, -⟩ := hordered.previous i e hi p hprevious
                simp [hd, ih p hlt d hd]
      · split at hnone <;> cases hnone
      · cases hnone
      · cases hnone
      · next hwaiting =>
          -- every slot is taken, and whoever holds one can go on
          have hmem := hslotted.ofQueue hi hwaiting
          have hall := hslotted.full e.lane (List.ne_nil_of_mem hmem)
          have hheld := hslotted.held
          have hpositive := hslotted.positive
          obtain ⟨d, hd, hholds⟩ := List.countP_pos_iff.mp
            (show 0 < s.steps.countP Entry.holds by omega)
          obtain ⟨j, hj⟩ := List.getElem?_of_mem hd
          obtain ⟨hnone', hrunning'⟩ := hstage j d hj
          unfold Entry.holds at hholds
          cases hd' : d.stage with
          | granted =>
              rw [resume, hd'] at hnone'
              cases hnone'
          | running => exact absurd hd' hrunning'
          | queued | resting | asking | waiting | done =>
              rw [hd'] at hholds
              cases hholds
      · next hrunning' => exact absurd hrunning' hrunning
      · next hdone => exact hdone

theorem left_put (hi : s.steps[i]? = some d) :
    (s.put i e).left + d.stage.left = s.left + e.stage.left := by
  obtain ⟨hlt, rfl⟩ := List.getElem?_eq_some_iff.mp hi
  unfold left
  rw [steps_put]
  have hsum : ∀ (l : List Entry) (i : Nat) (hlt : i < l.length),
      ((l.set i e).map fun e => e.stage.left).sum + l[i].stage.left =
        (l.map fun e => e.stage.left).sum + e.stage.left := by
    intro l
    induction l with
    | nil => exact fun i hlt => absurd hlt (Nat.not_lt_zero i)
    | cons x l ih =>
        intro i hlt
        cases i with
        | zero =>
            simp only [List.set_cons_zero, List.map_cons, List.sum_cons, List.getElem_cons_zero]
            omega
        | succ i =>
            have := ih i (Nat.lt_of_succ_lt_succ hlt)
            simp only [List.set_cons_succ, List.map_cons, List.sum_cons, List.getElem_cons_succ]
            omega
  exact hsum s.steps i hlt

theorem left_release (hslotted : Slotted 1 s) : s.release.left ≤ s.left := by
  rcases release_cases s with ⟨lane, i, rest, hqueue, heq, -⟩ | ⟨-, heq⟩
  · obtain ⟨e, hi, hstage, -, hgrant, -⟩ := hslotted.grant hqueue
    have hleft := left_put (e := { e with stage := .granted, slots := e.slots + 1 }) hi
    have hsame : ((s.withQueue lane rest).put i { e with stage := .granted, slots := e.slots + 1 }).left
        = (s.put i { e with stage := .granted, slots := e.slots + 1 }).left := by
      simp [left]
    rw [heq, hgrant, hsame]
    simp only [hstage, Stage.left] at hleft
    omega
  · rw [heq]
    exact Nat.le_refl _

/-- A step that goes on has less left to do; a quiet period that is not over changes
nothing. -/
theorem left_resume (hi : s.steps[i]? = some e) {now : Int} (hstep : s.resume i e now = some t) :
    t = s ∨ t.left < s.left := by
  have hless : ∀ e' : Entry, e'.stage.left < e.stage.left → (s.put i e').left < s.left := by
    intro e' hlt
    have := left_put (e := e') hi
    omega
  unfold resume at hstep
  split at hstep
  · next hstage =>
      split at hstep
      · cases hstep
        refine .inr (hless _ ?_)
        rw [hstage]
        cases e.promptedAt.all (s.quiet · now) <;> simp [Stage.left]
      · cases hstep
  · next hstage =>
      split at hstep
      · cases hstep
        exact .inr (hless _ (by simp [hstage, Stage.left]))
      · cases hstep
        exact .inl rfl
  · next hstage =>
      cases hstep
      rw [bounded_eq]
      split
      · exact .inr (hless { e with stage := .running, slots := e.slots + 1, called := s.active }
          (by simp [hstage, Stage.left]))
      · have := hless { e with stage := .waiting } (by simp [hstage, Stage.left])
        refine .inr ?_
        unfold left at this ⊢
        rw [steps_withQueue]
        exact this
  · next hstage =>
      cases hstep
      exact .inr (hless _ (by simp [hstage, Stage.left]))
  all_goals cases hstep

theorem left_finish (hslotted : Slotted 0 s) (hstep : s.step (.finish i) = some t) :
    t.left < s.left := by
  obtain ⟨e, hi, hstep⟩ := Option.bind_eq_some_iff.mp hstep
  split at hstep
  · next hstage =>
      cases hstep
      have hrelease := left_release (hslotted.finish hi hstage)
      have hleft := left_put (e := { e with stage := .done }) hi
      simp only [hstage, Stage.left] at hleft
      omega
  · cases hstep

/-! ## Who is served first -/

/-- Whoever is given a slot in a step, and is low, is given it when no other step waits. -/
def LowLast (s t : Lifecycle) : Prop :=
  ∀ (i : Nat) (d e : Entry), s.steps[i]? = some d → t.steps[i]? = some e → e.slots ≠ d.slots → e.lane = .low →
    ∀ w ∈ s.steps, w.stage = .waiting → w.lane = .low

theorem LowLast.of_put (hi : s.steps[i]? = some d) (hslots : e.slots = d.slots) :
    LowLast s (s.put i e) := by
  intro j x y hx hy hne
  rw [steps_put, getElem?_put hi] at hy
  split at hy
  · next hj =>
      subst hj
      rw [hi] at hx
      obtain rfl := Option.some.inj hx
      obtain rfl := Option.some.inj hy
      exact absurd hslots hne
  · rw [hx] at hy
    obtain rfl := Option.some.inj hy
    exact absurd rfl hne

theorem LowLast.of_steps (h : t.steps = s.steps) : LowLast s t := by
  intro j x y hx hy hne
  rw [h, hx] at hy
  obtain rfl := Option.some.inj hy
  exact absurd rfl hne

theorem lowLast_bounded (hslotted : Slotted 0 s) (hi : s.steps[i]? = some e) :
    LowLast s (s.bounded i e) := by
  rw [bounded_eq]
  split
  · next hfree =>
      -- a free slot means that no step waits at all
      intro j x y _ _ _ _ w hw hwaiting
      obtain ⟨k, hk⟩ := List.getElem?_of_mem hw
      have hfull := hslotted.full w.lane (List.ne_nil_of_mem (hslotted.ofQueue hk hwaiting))
      exact absurd hfull (Nat.ne_of_lt hfree)
  · have hput : LowLast s (s.put i { e with stage := .waiting }) := .of_put hi rfl
    unfold LowLast at hput ⊢
    rw [steps_withQueue]
    exact hput

theorem lowLast_release (hslotted : Slotted 1 s) : LowLast s s.release := by
  rcases release_cases s with ⟨lane, i, rest, hqueue, heq, hfirst⟩ | ⟨-, heq⟩
  · obtain ⟨e, hi, -, hlane, hgrant, -⟩ := hslotted.grant hqueue
    rw [heq, hgrant]
    intro j x y hx hy hne hlow w hw hwaiting
    rw [steps_put, steps_withQueue, getElem?_put hi] at hy
    split at hy
    · obtain rfl := Option.some.inj hy
      obtain ⟨k, hk⟩ := List.getElem?_of_mem hw
      exact hfirst w.lane (List.ne_nil_of_mem (hslotted.ofQueue hk hwaiting))
        (hlane.symm.trans hlow)
    · rw [hx] at hy
      obtain rfl := Option.some.inj hy
      exact absurd rfl hne
  · rw [heq]
    exact .of_steps rfl

theorem lowLast_finish (hslotted : Slotted 0 s) (hi : s.steps[i]? = some e)
    (hstage : e.stage = .running) : LowLast s (s.put i { e with stage := .done }).release := by
  intro j x y hx hy hne hlow w hw hwaiting
  have hput : ∀ {k : Nat} {z : Entry}, s.steps[k]? = some z → ∃ z' : Entry,
      (s.put i { e with stage := .done }).steps[k]? = some z' ∧ z'.slots = z.slots ∧
        (z.stage = .waiting → z' = z) := by
    intro k z hz
    rw [steps_put, getElem?_put hi]
    split
    · next hk =>
        subst hk
        rw [hi] at hz
        obtain rfl := Option.some.inj hz
        refine ⟨_, rfl, rfl, fun hwaits => ?_⟩
        rw [hstage] at hwaits
        cases hwaits
    · exact ⟨z, hz, rfl, fun _ => rfl⟩
  obtain ⟨x', hx', hslots, -⟩ := hput hx
  obtain ⟨k, hk⟩ := List.getElem?_of_mem hw
  obtain ⟨w', hw', -, hsame⟩ := hput hk
  rw [hsame hwaiting] at hw'
  exact lowLast_release (hslotted.finish hi hstage) j x' y hx' hy (by rw [hslots]; exact hne) hlow
    w (List.mem_of_getElem? hw') hwaiting

theorem lowLast_step (hslotted : Slotted 0 s) {a : Event} (hstep : s.step a = some t) :
    LowLast s t := by
  cases a with
  | schedule sessionId promptedAt low high =>
      cases hstep
      intro j x y hx hy hne
      simp only [Lifecycle.schedule] at hy
      rw [List.getElem?_append_left (List.getElem?_eq_some_iff.mp hx).choose, hx] at hy
      obtain rfl := Option.some.inj hy
      exact absurd rfl hne
  | resume i now =>
      obtain ⟨e, hi, hstep⟩ := Option.bind_eq_some_iff.mp hstep
      unfold resume at hstep
      split at hstep
      · split at hstep
        · cases hstep
          exact .of_put hi rfl
        · cases hstep
      · split at hstep
        · cases hstep
          exact .of_put hi rfl
        · cases hstep
          exact .of_steps rfl
      · cases hstep
        exact lowLast_bounded hslotted hi
      · cases hstep
        exact .of_put hi rfl
      all_goals cases hstep
  | finish i =>
      obtain ⟨e, hi, hstep⟩ := Option.bind_eq_some_iff.mp hstep
      split at hstep
      · next hstage =>
          cases hstep
          exact lowLast_finish hslotted hi hstage
      · cases hstep
  | forget i =>
      obtain ⟨e, hi, hstep⟩ := Option.bind_eq_some_iff.mp hstep
      split at hstep
      · cases hstep
        exact .of_steps rfl
      · cases hstep
  | prompted now =>
      cases hstep
      exact .of_steps rfl
  | hurry =>
      cases hstep
      exact .of_steps rfl
  | signOut =>
      cases hstep
      exact .of_steps rfl
  | stop =>
      cases hstep
      exact .of_steps rfl

/-! ## The schedule -/

/-- What holds of the steps at any time, and of the step the host takes from there. -/
structure Scheduled (s : Lifecycle) : Prop where
  /-- At most `concurrency` steps run, or were handed a slot. -/
  bounded : s.steps.countP Entry.holds ≤ s.concurrency
  /-- A step of a session that is past its place has every earlier one behind it done. -/
  inOrder : ∀ (i j : Nat) (d e : Entry), i < j → s.steps[i]? = some d → s.steps[j]? = some e →
    d.sessionId = e.sessionId → e.stage ≠ .queued → d.stage = .done
  /-- A step was given one slot if it holds one or is done, and none before. -/
  once : ∀ e ∈ s.steps, e.slots = if e.stage.served then 1 else 0
  /-- Where no continuation is due, no wait is on and no task runs, every step is done. -/
  served : ∀ now, (∀ i, s.step (.resume i now) = none) → (∀ i, s.step (.finish i) = none) →
    ∀ e ∈ s.steps, e.stage = .done
  /-- There are only so many of those to come for the steps there are. -/
  shrinks : ∀ i now t, s.step (.resume i now) = some t ∨ s.step (.finish i) = some t →
    t = s ∨ t.left < s.left
  /-- A low step is given a slot only when no other step waits for one. -/
  lowLast : ∀ a t, s.step a = some t → LowLast s t

theorem Slotted.scheduled (hslotted : Slotted 0 s) (hordered : Ordered s.steps s.tails) :
    Scheduled s where
  bounded := by
    have hheld := hslotted.held
    have hbound := hslotted.bound
    omega
  inOrder := hordered.begun
  once := hslotted.slots
  served := fun now hresume hfinish e he => by
    obtain ⟨i, hi⟩ := List.getElem?_of_mem he
    exact stuck_done hslotted hordered now hresume hfinish i e hi
  shrinks := fun i now t hstep => by
    rcases hstep with hstep | hstep
    · obtain ⟨e, hi, hstep⟩ := Option.bind_eq_some_iff.mp hstep
      exact left_resume hi hstep
    · exact .inr (left_finish hslotted hstep)
  lowLast := fun a t hstep => lowLast_step hslotted hstep

theorem slotted_new (enabled : Bool) (concurrency : Option Nat) (idle defer : Option Int) :
    Slotted 0 (new enabled concurrency idle defer) where
  positive := Nat.lt_of_lt_of_le Nat.zero_lt_one (Nat.le_max_left ..)
  held := rfl
  bound := Nat.zero_le _
  full := fun lane hne => by cases lane <;> exact absurd rfl hne
  nodup := fun lane => by cases lane <;> exact List.nodup_nil
  waits := fun lane i => by
    constructor
    · intro h
      cases lane <;> cases h
    · rintro ⟨e, he, -⟩
      cases he
  slots := nofun

theorem ordered_nil : Ordered [] fun _ => none where
  previous := fun _ _ h => by cases h
  behind := fun _ _ _ _ _ h => by cases h
  begun := fun _ _ _ _ _ h => by cases h
  tail := fun _ _ h => by cases h
  last := fun _ _ h => by cases h

/-- Whatever is scheduled and however long it takes, the steps run at most `concurrency` at
a time, in order within a session, each with one slot, and low ones are served last. -/
theorem steps_scheduled (enabled : Bool) (concurrency : Option Nat) (idle defer : Option Int) :
    ∀ s, Reach step (fun _ _ => True) (new enabled concurrency idle defer) s → Scheduled s := by
  intro s h
  have hinv : Slotted 0 s ∧ Ordered s.steps s.tails :=
    h.invariant (I := fun s => Slotted 0 s ∧ Ordered s.steps s.tails)
      (fun _ _ _ hs _ hstep => ⟨hs.1.step hstep, hs.2.step hs.1 hstep⟩)
      ⟨slotted_new .., ordered_nil⟩
  exact hinv.1.scheduled hinv.2

/-- A step that asks right after a low one was handed the slot waits while that one
starts. -/
def overtaken : List Event :=
  [.schedule "a" none false false, .schedule "b" none true false, .schedule "c" none false true,
    .resume 0 0, .resume 0 0, .resume 1 0, .resume 1 0, .resume 2 0, .finish 0, .resume 2 0]

theorem overtaken_scheduled :
    ∃ s, runActions step overtaken (new true none none none) = some s ∧ Scheduled s := by
  obtain ⟨s, hrun, -⟩ := exists_of_any (o := runActions step overtaken (new true none none none))
    (p := fun _ => true) (by decide)
  exact ⟨s, hrun, steps_scheduled true none none none s (reach_of_run (fun _ _ _ => trivial) hrun)⟩

/-- The low step starts while the high one waits for a slot. -/
theorem low_starts_before_high :
    ∃ s t low high, Reach step (fun _ _ => True) (new true none none none) s ∧
      s.step (.resume 1 0) = some t ∧
      s.steps[1]? = some low ∧ low.lane = .low ∧ low.stage ≠ .running ∧
      (t.steps[1]?.map (·.stage)) = some .running ∧
      high ∈ s.steps ∧ high.lane = .high ∧ high.stage = .waiting ∧ high ∈ t.steps := by
  obtain ⟨s, hrun, hs⟩ := exists_of_any (o := runActions step overtaken (new true none none none))
    (p := fun s => (s.step (.resume 1 0)).any fun t =>
      s.steps[1]?.any (fun low => low.lane = .low && low.stage != .running) &&
      t.steps[1]?.map (·.stage) == some .running &&
      s.steps.any fun high => high.lane = .high && high.stage = .waiting && t.steps.contains high)
    (by decide)
  obtain ⟨t, hstep, ht⟩ := exists_of_any hs
  simp only [Bool.and_eq_true, List.any_eq_true, List.contains_iff_mem, beq_iff_eq,
    decide_eq_true_eq] at ht
  obtain ⟨⟨hlow, hstarts⟩, high, hmem, ⟨hlane, hwaits⟩, hstays⟩ := ht
  obtain ⟨low, hi, hlow⟩ := exists_of_any hlow
  simp only [Bool.and_eq_true, decide_eq_true_eq, bne_iff_ne] at hlow
  exact ⟨s, t, low, high, reach_of_run (fun _ _ _ => trivial) hrun, hstep, hi, hlow.1, hlow.2,
    hstarts, hmem, hlane, hwaits, hstays⟩

end OmniRush.Archive.Lifecycle
