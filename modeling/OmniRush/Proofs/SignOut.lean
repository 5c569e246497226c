import OmniRush.Proofs.Process

/-!
# Captures and the generation

`signOut`, `discardAll` and `stop` bump the generation, and a capture compares its
own with it before it commits. The comparison is made once: the file operations of
the commit are awaited after it, one by one, and a bump between two of them stops
none. Two more paths write a session record without asking: a delta whose baseline
cannot be read, and a base whose chain the server has ended, stop the session.

A run is settled when no bump comes while a capture still has such a write to do,
and no capture takes one of the two paths in a later generation. In every settled
run a capture of an older generation writes nothing (`no_late_write`).
-/

namespace OmniRush.Archive

open OmniRush

/-- A queue record, a baseline or a session record written. -/
def FileOp.commits : FileOp → Bool
  | .writeQueue _ | .writeBaseline _ | .saveSession _ => true
  | _ => false

/-- A capture of an older generation is about to write a queue record, a baseline or
a session record. -/
def LateWrite (w : World) : Action → Prop
  | .write sessionId => ∃ t step steps, w.tasks sessionId = some t ∧ t.capturing = true ∧
      t.generation < w.generation ∧ t.steps = step :: steps ∧ step.op.commits = true
  | _ => False

/-- The stages that stop a session whatever the generation is. -/
def Stage.endsChain (sessionId : String) (d : Disk) : Stage → Bool
  | .askServer r answer => (startState r sessionId d).any fun s =>
      s.stopped.isNone && s.nextSequence = 0 &&
        match continueServerChain s answer true with
        | .stop _ => true
        | _ => false
  | .capture r _ => (startState r sessionId d).any fun s =>
      s.stopped.isNone && s.nextSequence ≠ 0 && !d.readsBaseline s
  | _ => false

/-- The captures under way have nothing left to write when the generation moves, and
none ends its chain in a later one. -/
def Settled (w : World) : Action → Prop
  | .bump => ∀ sessionId t, w.tasks sessionId = some t → t.capturing = true →
      ∀ step ∈ t.steps, step.op.commits = false
  | .enter sessionId _ _ => ∀ t stage rest, w.tasks sessionId = some t → t.packed = none →
      t.stages = stage :: rest → t.generation ≠ w.generation →
      stage.endsChain sessionId w.disk = false
  | _ => True

section

variable {k : StateKey}

theorem continueServerChain_signedOut (s : SessionState) (answer : ServerChain)
    (found : SessionState) : continueServerChain s answer true ≠ .continue found := by
  intro h
  unfold continueServerChain at h
  split at h
  · cases h
  · cases h
  · cases h
  · split at h
    · cases h
    · split at h
      · cases h
      · split at h
        · cases h
        · split at h
          · cases h
          · cases h

theorem expand_later {sessionId : String} {d : Disk} {rest : List Stage} {stage : Stage}
    (hends : stage.endsChain sessionId d = false) :
    ∀ step ∈ (stage.expand false sessionId d rest).steps, step.op.commits = false := by
  have hnil : ∀ step ∈ ([] : List (Step FileOp)), step.op.commits = false :=
    fun _ h => nomatch h
  cases stage with
  | askServer r answer =>
      simp only [Stage.expand, expandAskServer]
      cases hstart : startState r sessionId d with
      | none => exact hnil
      | some s =>
          dsimp only
          split
          · exact hnil
          · next hgoes =>
              obtain ⟨hstopped, hzero⟩ := not_or.mp hgoes
              rw [not_not] at hzero
              simp only [Stage.endsChain] at hends
              rw [hstart, Option.any_some, hzero] at hends
              have hnone : s.stopped.isNone = true := by simpa using hstopped
              rw [hnone] at hends
              simp only [Bool.not_false] at hends ⊢
              cases hanswer : continueServerChain s answer true with
              | «continue» found =>
                  exact absurd hanswer (continueServerChain_signedOut s answer found)
              | stop code =>
                  rw [hanswer] at hends
                  cases hends
              | fresh => exact hnil
              | wait reason => exact hnil
  | capture r scan =>
      simp only [Stage.expand, expandCapture]
      cases hstart : startState r sessionId d with
      | none => exact hnil
      | some s =>
          dsimp only
          split
          · exact hnil
          · next hgoes =>
              split
              · next hunreadable =>
                  simp only [Stage.endsChain] at hends
                  rw [hstart, Option.any_some, hunreadable.2] at hends
                  have hnone : s.stopped.isNone = true := by simpa using hgoes
                  rw [hnone] at hends
                  simp [hunreadable.1] at hends
              · cases scan with
                | unchanged turn options => exact hnil
                | changed p =>
                    intro step hstep
                    rw [List.mem_singleton.mp hstep]
                    rfl
  | noteTurn _ => exact hnil
  | register _ => exact hnil
  | rescue _ => exact hnil
  | retryConflict _ => exact hnil
  | skipFinal _ => exact hnil
  | stop _ => exact hnil
  | acceptFinal _ => exact hnil
  | rewind _ _ => exact hnil
  | continueChain _ _ => exact hnil
  | reset => exact hnil

/-! ## Runs -/

/-- No capture of another generation has anything left to write. -/
def Silent (w : World) : Prop :=
  ∀ sessionId t, w.tasks sessionId = some t → t.capturing = true →
    t.generation ≠ w.generation → ∀ step ∈ t.steps, step.op.commits = false

theorem Silent.step {w w' : World} {a : Action} (h : Silent w) (hkept : Kept k w)
    (hguard : Settled w a) (hstep : w.step k a = some w') : Silent w' := by
  cases step_moves hstep with
  | @take _ sessionId t waiting _ hfree hnew _ =>
      intro id u hu hcapturing hother
      rcases setTask_cases (t := some t) hu with ⟨rfl, heq⟩ | ⟨-, hold⟩
      · cases heq
        rw [hnew.1]
        exact fun _ hs => nomatch hs
      · exact h id u hold hcapturing hother
  | @enter sessionId cancelled flags t t' htask henter =>
      intro id u hu hcapturing hother
      rcases setTask_cases (t := some t') hu with ⟨rfl, heq⟩ | ⟨-, hold⟩
      · cases heq
        obtain ⟨-, -, hgeneration, hcases⟩ := enter_cases henter
        have hlater : t.generation ≠ w.generation := by
          rw [← hgeneration]
          exact hother
        rw [decide_eq_false hlater] at hcases
        rcases hcases with
          ⟨c, -, -, -, hsteps⟩ | ⟨stage, rest, hnone, hstages, -, hsteps, -⟩
        · intro step hs
          rw [hsteps, Bool.false_and] at hs
          have hs : step ∈ [(⟨.rmPartial c.archiveId, []⟩ : Step FileOp)] := hs
          rw [List.mem_singleton.mp hs]
          rfl
        · rw [hsteps]
          exact expand_later (hguard t stage rest htask hnone hstages hlater)
      · exact h id u hold hcapturing hother
  | @write sessionId t step steps htask hsteps =>
      intro id u hu hcapturing hother
      rcases setTask_cases (t := some { t with steps := steps, done := t.done ++ [step.op] }) hu
        with ⟨rfl, heq⟩ | ⟨-, hold⟩
      · cases heq
        have hbefore := h id t htask hcapturing hother
        rw [hsteps] at hbefore
        exact fun s hs => hbefore s (List.mem_cons_of_mem _ hs)
      · exact h id u hold hcapturing hother
  | @fail sessionId paused t t' step steps htask hsteps hfail =>
      intro id u hu hcapturing hother
      rcases setTask_cases (t := some t') hu with ⟨rfl, heq⟩ | ⟨-, hold⟩
      · cases heq
        have hhandlers := (hkept.tasks id t htask).handlers
        rw [hsteps] at hhandlers
        rw [hfail.1]
        intro s hs
        obtain ⟨op, hop, rfl⟩ := List.mem_map.mp hs
        have hclean := hhandlers step (List.mem_cons_self ..) op hop
        cases op <;> first | rfl | cases hclean
      · exact h id u hold hcapturing hother
  | @finish sessionId t htask _ =>
      intro id u hu hcapturing hother
      rcases setTask_cases (t := none) hu with ⟨-, heq⟩ | ⟨-, hold⟩
      · cases heq
      · exact h id u hold hcapturing hother
  | drain _ _ _ => exact h
  | drainWrite _ => exact h
  | bump => exact fun id u hu hcapturing _ => hguard id u hu hcapturing
  | recover _ => exact fun _ _ hu => nomatch hu

/-- In every settled run no capture of an older generation writes a queue record, a
baseline or a session record. -/
theorem no_late_write {w : World} (hrun : Reach (World.step k) Settled {} w) (a : Action) :
    ¬ LateWrite w a := by
  have hinv := hrun.invariant (I := fun w => Kept k w ∧ Silent w)
    (fun _ _ _ hinv hguard hstep => ⟨hinv.1.step hstep, hinv.2.step hinv.1 hguard hstep⟩)
    ⟨kept_start, fun _ _ hu => nomatch hu⟩
  intro hlate
  cases a with
  | write sessionId =>
      obtain ⟨t, step, steps, htask, hcapturing, holder, hsteps, hcommits⟩ := hlate
      have hsilent := hinv.2 sessionId t htask hcapturing (Nat.ne_of_lt holder) step
        (by rw [hsteps]; exact List.mem_cons_self ..)
      rw [hsilent] at hcommits
      cases hcommits
  | _ => exact hlate

end

/-- The guard, checked for a run that works on one session. -/
def SettledOne (sessionId : String) (w : World) : Action → Bool
  | .bump => (w.tasks sessionId).all fun t => !t.capturing || t.steps.all fun s => !s.op.commits
  | .enter _ _ _ => (w.tasks sessionId).all fun t => t.packed.isSome ||
      t.generation = w.generation || t.stages.head?.all fun s => !s.endsChain sessionId w.disk
  | a => a.takes = none || a.takes = some sessionId

theorem settled_of_one {sessionId : String} {w : World} {a : Action}
    (hidle : ∀ id, id ≠ sessionId → w.tasks id = none) (h : SettledOne sessionId w a = true) :
    Settled w a := by
  cases a with
  | bump =>
      intro id t ht hcapturing step hstep
      by_cases hid : id = sessionId
      · subst hid
        simp only [SettledOne] at h
        rw [ht, Option.all_some, hcapturing, Bool.not_true, Bool.false_or] at h
        simpa using List.all_eq_true.mp h step hstep
      · rw [hidle id hid] at ht
        cases ht
  | enter id cancelled flags =>
      intro t stage rest ht hpacked hstages hlater
      by_cases hid : id = sessionId
      · subst hid
        simp only [SettledOne] at h
        rw [ht, Option.all_some, hpacked, hstages, decide_eq_false hlater] at h
        simpa using h
      · rw [hidle id hid] at ht
        cases ht
  | _ => trivial

theorem reach_settled {sessionId : String} {actions : List Action} {w : World}
    (h : runActions (fun w a => if SettledOne sessionId w a then w.step k a else none) actions {}
      = some w) :
    Reach (World.step k) Settled {} w ∧ runActions (World.step k) actions {} = some w := by
  obtain ⟨hreach, hrun⟩ := reach_of_checked h
  refine ⟨(hreach.mono_of_invariant (I := fun w => ∀ id, id ≠ sessionId → w.tasks id = none)
    (fun w a w' hidle hguard hstep id hid => step_idle hstep (fun htakes => ?_) (hidle id hid))
    (fun _ _ => settled_of_one) fun _ _ => rfl).1, hrun⟩
  cases a with
  | capture _ _ _ | begin _ =>
      simp only [SettledOne, htakes] at hguard
      simp [hid] at hguard
  | _ => cases htakes

/-- A capture that packed its archive, then the sign-out: its commit is refused. -/
theorem no_late_write_refused :
    ∃ w, runActions (World.step escapeKey)
        ((captureActions "a" 0 5).take 3 ++ [.bump, .enter "s" false {}]) {} = some w ∧
      (w.tasks "s").isSome ∧ w.generation = 1 ∧ ∀ a, ¬ LateWrite w a := by
  have hrun : (runActions (fun w a => if SettledOne "s" w a then w.step escapeKey a else none)
      ((captureActions "a" 0 5).take 3 ++ [.bump, .enter "s" false {}]) {}).any
      (fun w => (w.tasks "s").isSome && w.generation = 1) = true := by decide +kernel
  obtain ⟨w, hw, hcheck⟩ := exists_of_any hrun
  obtain ⟨hsome, hgeneration⟩ := Bool.and_eq_true_iff.mp hcheck
  obtain ⟨hreach, hplain⟩ := reach_settled hw
  exact ⟨w, hplain, hsome, of_decide_eq_true hgeneration, no_late_write hreach⟩

/-- The generation moves between the rename to `pending/` and the queue record. -/
theorem late_commit :
    ∃ w, runActions (World.step escapeKey) ((captureActions "a" 0 5).take 5 ++ [.bump]) {}
        = some w ∧ LateWrite w (.write "s") := by
  have hrun : (runActions (World.step escapeKey) ((captureActions "a" 0 5).take 5 ++ [.bump])
      {}).any (fun w => (w.tasks "s").any fun t => t.capturing && t.generation < w.generation &&
        t.steps.head?.any fun step => step.op.commits) = true := by decide +kernel
  obtain ⟨w, hw, hcheck⟩ := exists_of_any hrun
  obtain ⟨t, ht, hcheck⟩ := exists_of_any hcheck
  obtain ⟨hcheck, hhead⟩ := Bool.and_eq_true_iff.mp hcheck
  obtain ⟨hcapturing, holder⟩ := Bool.and_eq_true_iff.mp hcheck
  obtain ⟨step, hstep, hcommits⟩ := exists_of_any hhead
  obtain ⟨steps, hsteps⟩ := List.head?_eq_some_iff.mp hstep
  exact ⟨w, hw, t, step, steps, ht, hcapturing, of_decide_eq_true holder, hsteps, hcommits⟩

end OmniRush.Archive
