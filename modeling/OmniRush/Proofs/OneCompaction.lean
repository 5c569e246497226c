import OmniRush.Archive.AutoCompact

/-!
# One compaction per chat

`beforePrompt` looks for a running compaction first and starts one after several awaits, so
two prompts of a chat that is due may both start one (`two_compactions`). The second takes
the place of the first in `running` and `stops`, and whichever ends first removes it.

Where no call starts a compaction of a chat that has one (`Alone`), `running` and `stops`
name exactly the compactions that have not ended (`Tracked`).
-/

namespace OmniRush.Archive.AutoCompactor

variable {s t : AutoCompactor} {i r : Nat} {id : String}

/-- The call starts a compaction with this answer. -/
def Stage.starts : Stage → Answer → Bool
  | .busy current _ (some reading), .busy (some false) => due current reading
  | .messages current _, .messages reading => due current reading
  | _, _ => false

/-- No call starts a compaction of a chat that is being compacted. -/
def Alone (s : AutoCompactor) : Event → Prop
  | .answer i a => ∀ call ∈ s.calls[i]?, call.stage.starts a = true →
      s.running call.sessionId = none
  | _ => True

instance : ∀ a, Decidable (Alone s a)
  | .answer i a => inferInstanceAs (Decidable (∀ call ∈ s.calls[i]?, call.stage.starts a = true →
      s.running call.sessionId = none))
  | .prompt _ | .seeded _ _ _ | .summarized _ _ | .finished _ _ _ | .stopped _ | .noteCompacted _
  | .forget _ => .isTrue trivial

/-- A compaction that has not ended. -/
def Going (s : AutoCompactor) (id : String) (r : Nat) : Prop :=
  ∃ run, s.runs[r]? = some run ∧ run.sessionId = id ∧ ∀ compacted, run.stage ≠ .done compacted

structure Tracked (s : AutoCompactor) : Prop where
  stops : s.stops = s.running
  running : ∀ id r, s.running id = some r ↔ s.Going id r

/-! ## What a step leaves of the compactions -/

/-- The compactions are as they were. -/
structure SameRuns (s t : AutoCompactor) : Prop where
  runs : t.runs = s.runs
  running : t.running = s.running
  stops : t.stops = s.stops

theorem SameRuns.tracked (h : SameRuns s t) (hs : Tracked s) : Tracked t where
  stops := by rw [h.stops, h.running, hs.stops]
  running := fun id r => by
    unfold Going
    rw [h.running, h.runs]
    exact hs.running id r

theorem sameRuns_prompt : SameRuns s (s.prompt id) := by
  unfold prompt
  split <;> exact ⟨rfl, rfl, rfl⟩

theorem sameRuns_seed {policy : Policy} : SameRuns s (s.seed i id policy) := by
  unfold seed
  split <;> exact ⟨rfl, rfl, rfl⟩

theorem sameRuns_counted {policy : Option Policy} {read : Option Reading} :
    SameRuns s (s.counted i id policy read) := by
  unfold counted
  split
  · exact ⟨rfl, rfl, rfl⟩
  · dsimp only
    split
    · split
      · exact ⟨rfl, rfl, rfl⟩
      · split <;> exact ⟨rfl, rfl, rfl⟩
    · exact ⟨rfl, rfl, rfl⟩

theorem judge_cases (s : AutoCompactor) (i : Nat) (id : String) (current : Policy) (counted : Nat)
    (reading : Reading) :
    due current reading = true ∧
        s.judge i id current counted reading = s.start i id current reading.turns ∨
      due current reading = false ∧ SameRuns s (s.judge i id current counted reading) := by
  unfold judge
  cases hdue : due current reading
  · rw [if_neg Bool.false_ne_true]
    refine .inr ⟨rfl, ?_⟩
    split
    · exact ⟨rfl, rfl, rfl⟩
    · split
      · exact ⟨rfl, rfl, rfl⟩
      · split <;> exact ⟨rfl, rfl, rfl⟩
  · exact .inl ⟨rfl, if_pos rfl⟩

theorem answer_cases {stage : Stage} {a : Answer} (h : s.answer i id stage a = some t) :
    stage.starts a = true ∧ (∃ current turns, t = s.start i id current turns) ∨
      SameRuns s t := by
  unfold answer at h
  split at h
  · split at h
    · cases h
      exact .inr sameRuns_counted
    · split at h <;> cases h
      · exact .inr sameRuns_seed
      · exact .inr ⟨rfl, rfl, rfl⟩
  · next k =>
      obtain ⟨seed, -, h⟩ := Option.bind_eq_some_iff.mp h
      obtain ⟨reading, -, h⟩ := Option.bind_eq_some_iff.mp h
      cases h
      exact .inr sameRuns_counted
  · cases h
    exact .inr ⟨rfl, rfl, rfl⟩
  · dsimp only at h
    split at h
    · cases h
      exact .inr ⟨rfl, rfl, rfl⟩
    · split at h <;> cases h <;> exact .inr ⟨rfl, rfl, rfl⟩
  · next current counted read busy =>
      split at h
      · cases h
        exact .inr ⟨rfl, rfl, rfl⟩
      · cases h
        exact .inr ⟨rfl, rfl, rfl⟩
      · split at h
        · next reading =>
            cases h
            rcases judge_cases s i id current counted reading with ⟨hdue, heq⟩ | ⟨-, hsame⟩
            · exact .inl ⟨hdue, current, reading.turns, heq⟩
            · exact .inr hsame
        · cases h
          exact .inr ⟨rfl, rfl, rfl⟩
  · next current counted reading =>
      cases h
      rcases judge_cases s i id current counted reading with ⟨hdue, heq⟩ | ⟨-, hsame⟩
      · exact .inl ⟨hdue, current, reading.turns, heq⟩
      · exact .inr hsame
  · obtain ⟨run, -, h⟩ := Option.bind_eq_some_iff.mp h
    split at h <;> cases h
    exact .inr ⟨rfl, rfl, rfl⟩
  · split at h <;> cases h
    exact .inr ⟨rfl, rfl, rfl⟩
  · cases h

/-! ## The entries -/

theorem Tracked.start (h : Tracked s) (hnone : s.running id = none) (current : Policy)
    (turns : Option Nat) : Tracked (s.start i id current turns) where
  stops := by
    have := h.stops
    simp only [AutoCompactor.start, goTo, this]
  running := fun id' r => by
    have hold := h.running id' r
    have hlength : s.running id' ≠ some s.runs.length := by
      intro hrun
      obtain ⟨run, hget, -⟩ := (h.running id' _).mp hrun
      rw [List.getElem?_eq_none (Nat.le_refl _)] at hget
      cases hget
    simp only [AutoCompactor.start, goTo, setAt, Going] at hold ⊢
    rcases Nat.lt_trichotomy r s.runs.length with hlt | rfl | hgt
    · rw [List.getElem?_append_left hlt]
      split
      · next hid =>
          subst hid
          rw [← hold, hnone]
          simp only [Option.some.injEq, reduceCtorEq, iff_false]
          omega
      · exact hold
    · rw [List.getElem?_concat_length]
      split
      · next hid =>
          subst hid
          simp
      · next hid =>
          simp only [hlength, false_iff]
          rintro ⟨run, hrun, hsession, -⟩
          obtain rfl := Option.some.inj hrun
          exact hid hsession.symm
    · rw [List.getElem?_eq_none (by rw [List.length_append, List.length_singleton]; omega)]
      split
      · simp only [Option.some.injEq, reduceCtorEq, false_and, exists_false, iff_false]
        omega
      · rw [hold, List.getElem?_eq_none (Nat.le_of_lt hgt)]

theorem getElem?_putRun {run x : Run} (hr : s.runs[r]? = some run) (k : Nat) :
    (s.putRun r x).runs[k]? = if k = r then some x else s.runs[k]? := by
  obtain ⟨hlt, -⟩ := List.getElem?_eq_some_iff.mp hr
  rw [putRun, List.getElem?_set]
  by_cases hk : r = k
  · rw [if_pos hk, if_pos hlt, if_pos hk.symm]
  · rw [if_neg hk, if_neg fun h => hk h.symm]

theorem Tracked.putRun (h : Tracked s) {run x : Run} (hr : s.runs[r]? = some run)
    (hsession : x.sessionId = run.sessionId)
    (hgoing : (∀ c, x.stage ≠ .done c) ↔ ∀ c, run.stage ≠ .done c) : Tracked (s.putRun r x) where
  stops := h.stops
  running := fun id k => by
    rw [show (s.putRun r x).running = s.running from rfl, h.running]
    unfold Going
    rw [getElem?_putRun hr]
    split
    · next hk =>
        subst hk
        rw [hr]
        constructor
        · rintro ⟨y, hy, hid, hgoes⟩
          obtain rfl := Option.some.inj hy
          exact ⟨x, rfl, hsession.trans hid, hgoing.mpr hgoes⟩
        · rintro ⟨y, hy, hid, hgoes⟩
          obtain rfl := Option.some.inj hy
          exact ⟨run, rfl, hsession.symm.trans hid, hgoing.mp hgoes⟩
    · rfl

theorem Tracked.finished (h : Tracked s) {run : Run} (hr : s.runs[r]? = some run)
    (hgoing : ∀ c, run.stage ≠ .done c) (failed broken aborted : Bool) :
    Tracked (s.finished r run failed broken aborted) := by
  have hentry : s.running run.sessionId = some r := (h.running _ _).mpr ⟨run, hr, rfl, hgoing⟩
  have hsame : ∀ s', SameRuns s s' → ∀ compacted,
      Tracked { s'.putRun r { run with stage := .done compacted } with
        stops := setAt s'.stops run.sessionId none
        running := setAt s'.running run.sessionId none } := by
    intro s' hruns compacted
    have hs' := hruns.tracked h
    exact
      { stops := by
          dsimp only
          rw [hs'.stops]
        running := fun id k => by
          have hr' : s'.runs[r]? = some run := by rw [hruns.runs]; exact hr
          have hentry' : s'.running run.sessionId = some r := by rw [hruns.running]; exact hentry
          unfold Going
          dsimp only
          rw [getElem?_putRun hr', setAt]
          by_cases hk : k = r
          · subst hk
            rw [if_pos rfl]
            split
            · simp
            · next hid =>
                rw [hs'.running]
                constructor
                · rintro ⟨x, hx, hsession, -⟩
                  rw [hr'] at hx
                  obtain rfl := Option.some.inj hx
                  exact absurd hsession.symm hid
                · rintro ⟨x, hx, -, hgoing'⟩
                  obtain rfl := Option.some.inj hx
                  exact absurd rfl (hgoing' compacted)
          · rw [if_neg hk]
            split
            · next hid =>
                subst hid
                simp only [reduceCtorEq, false_iff]
                rintro ⟨x, hx, hsession, hgoing'⟩
                have hother := (hs'.running _ _).mpr ⟨x, hx, hsession, hgoing'⟩
                rw [hentry'] at hother
                exact hk (Option.some.inj hother).symm
            · exact hs'.running id k }
  unfold AutoCompactor.finished
  dsimp only
  split
  · exact hsame s ⟨rfl, rfl, rfl⟩ _
  · exact hsame (s.later run.sessionId run.policy) ⟨rfl, rfl, rfl⟩ _

theorem Tracked.step (h : Tracked s) {a : Event} (halone : Alone s a) (hstep : s.step a = some t) :
    Tracked t := by
  cases a with
  | prompt id =>
      cases hstep
      exact sameRuns_prompt.tracked h
  | answer i a =>
      obtain ⟨call, hcall, hstep⟩ := Option.bind_eq_some_iff.mp hstep
      rcases answer_cases hstep with ⟨hstarts, current, turns, rfl⟩ | hsame
      · exact h.start (halone call hcall hstarts) current turns
      · exact hsame.tracked h
  | seeded k child reading =>
      obtain ⟨seed, -, hstep⟩ := Option.bind_eq_some_iff.mp hstep
      split at hstep <;> cases hstep
      exact SameRuns.tracked (s := s) ⟨rfl, rfl, rfl⟩ h
  | summarized r failed =>
      obtain ⟨run, hr, hstep⟩ := Option.bind_eq_some_iff.mp hstep
      split at hstep
      · next hstage =>
          cases hstep
          refine h.putRun hr rfl ⟨fun _ c => ?_, fun _ c => nofun⟩
          rw [hstage]
          exact nofun
      · cases hstep
  | finished r broken aborted =>
      obtain ⟨run, hr, hstep⟩ := Option.bind_eq_some_iff.mp hstep
      split at hstep
      · next failed hstage =>
          cases hstep
          refine h.finished hr (fun c => ?_) failed broken aborted
          rw [hstage]
          exact nofun
      · cases hstep
  | stopped id =>
      rw [AutoCompactor.step] at hstep
      split at hstep
      · cases hstep
        exact h
      · obtain ⟨run, hr, rfl⟩ := Option.map_eq_some_iff.mp hstep
        exact h.putRun hr rfl Iff.rfl
  | noteCompacted id =>
      rw [AutoCompactor.step] at hstep
      split at hstep <;> cases hstep
      · exact h
      · exact SameRuns.tracked (s := s) ⟨rfl, rfl, rfl⟩ h
  | forget id =>
      cases hstep
      exact SameRuns.tracked (s := s) ⟨rfl, rfl, rfl⟩ h

theorem tracked_new (holds : Bool) : Tracked { holds } where
  stops := rfl
  running := fun id r => by
    constructor
    · intro h
      cases h
    · rintro ⟨run, hrun, -⟩
      cases hrun

/-! ## One at a time -/

/-- A chat has at most one compaction in flight, which its entries name and its prompts
wait for. -/
structure OnlyOne (s : AutoCompactor) : Prop where
  inFlight : ∀ (r r' : Nat) (run run' : Run), s.runs[r]? = some run → s.runs[r']? = some run' →
    run.stage = .summarizing → run'.stage = .summarizing → run.sessionId = run'.sessionId → r = r'
  entries : ∀ (r : Nat) (run : Run), s.runs[r]? = some run → run.stage = .summarizing →
    s.running run.sessionId = some r ∧ s.stops run.sessionId = some r
  /-- A prompt that arrives holds on to it and starts none. -/
  waits : ∀ (r : Nat) (run : Run) t, s.runs[r]? = some run → run.stage = .summarizing →
    s.step (.prompt run.sessionId) = some t → t.runs = s.runs ∧
      ∃ reason turns, t.calls = s.calls ++
        [{ sessionId := run.sessionId, stage := .holding r reason turns }]
  /-- It holds on until the compaction has ended, or `holdMs` has passed. -/
  held : ∀ i id r reason turns a t,
    s.calls[i]? = some { sessionId := id, stage := .holding r reason turns } →
      s.step (.answer i a) = some t → t.runs = s.runs ∧
        ((∃ (run : Run) (compacted : Bool), s.runs[r]? = some run ∧ run.stage = .done compacted) ∨
          a = .timeout ∧ s.holds = true)

theorem Tracked.onlyOne (h : Tracked s) : OnlyOne s := by
  have hentry : ∀ r run, s.runs[r]? = some run → run.stage = .summarizing →
      s.running run.sessionId = some r := by
    intro r run hr hstage
    refine (h.running _ _).mpr ⟨run, hr, rfl, fun c => ?_⟩
    rw [hstage]
    exact nofun
  constructor
  · intro r r' run run' hr hr' hstage hstage' hsession
    have hfirst := hentry r run hr hstage
    rw [hsession, hentry r' run' hr' hstage'] at hfirst
    exact (Option.some.inj hfirst).symm
  · intro r run hr hstage
    refine ⟨hentry r run hr hstage, ?_⟩
    rw [h.stops]
    exact hentry r run hr hstage
  · intro r run t hr hstage hstep
    obtain rfl := Option.some.inj hstep
    refine ⟨sameRuns_prompt.runs, some "already_compacting", none, ?_⟩
    rw [prompt, hentry r run hr hstage]
  · intro i id r reason turns a t hcall hstep
    rw [AutoCompactor.step, hcall, Option.bind_some] at hstep
    cases a with
    | settled =>
        obtain ⟨run, hr, hstep⟩ := Option.bind_eq_some_iff.mp hstep
        split at hstep
        · next compacted hstage =>
            cases hstep
            exact ⟨rfl, .inl ⟨run, compacted, hr, hstage⟩⟩
        · cases hstep
    | timeout =>
        simp only [answer] at hstep
        split at hstep
        · next hholds =>
            cases hstep
            exact ⟨rfl, .inr ⟨rfl, hholds⟩⟩
        · cases hstep
    | policy _ | busy _ | messages _ => cases hstep

/-- As long as no call starts a compaction of a chat that has one, a chat has one at most. -/
theorem one_compaction (holds : Bool) :
    ∀ s, Reach step Alone { holds } s → OnlyOne s := by
  intro s h
  exact (h.invariant (I := Tracked) (fun _ _ _ hs halone hstep => hs.step halone hstep)
    (tracked_new holds)).onlyOne

def dueNow : Policy := { enabled := true, afterTurns := 2, minContextTokens := 0 }

/-- Two prompts of a chat with five turns, answered in turn. -/
def twoPrompts : List Event :=
  [.prompt "a", .prompt "a", .answer 0 (.policy (some dueNow)), .answer 1 (.policy (some dueNow)),
    .seeded 0 false { turns := some 5, context := none, model := true },
    .answer 0 .settled, .answer 1 .settled,
    .answer 0 (.policy none), .answer 1 (.policy none), .answer 0 (.busy (some false))]

/-- Up to the first compaction. -/
theorem one_compaction_first :
    ∃ s, runActions step twoPrompts {} = some s ∧ s.running "a" = some 0 ∧ OnlyOne s := by
  obtain ⟨s, hrun, hs⟩ := exists_of_any
    (o := runActions (fun s a => if Alone s a then step s a else none) twoPrompts {})
    (p := fun s => s.running "a" = some 0) (by decide)
  obtain ⟨hreach, hrun⟩ := reach_of_checked hrun
  exact ⟨s, hrun, of_decide_eq_true hs, one_compaction false s hreach⟩

/-- Both calls found the chat due, and both start. -/
theorem two_compactions :
    ∃ (s : AutoCompactor) (run run' : Run), Reach step (fun _ _ => True) {} s ∧
      s.runs = [run, run'] ∧ run.stage = .summarizing ∧ run'.stage = .summarizing ∧
      run.sessionId = run'.sessionId ∧ s.running run.sessionId = some 1 := by
  obtain ⟨s, hrun, hs⟩ := exists_of_any
    (o := runActions step (twoPrompts ++ [.answer 1 (.busy (some false))]) {})
    (p := fun s => s.runs = [{ sessionId := "a", policy := dueNow },
      { sessionId := "a", policy := dueNow }] ∧ s.running "a" = some 1) (by decide)
  obtain ⟨hruns, hentry⟩ := of_decide_eq_true hs
  exact ⟨s, _, _, reach_of_run (fun _ _ _ => trivial) hrun, hruns, rfl, rfl, rfl, hentry⟩

end OmniRush.Archive.AutoCompactor
