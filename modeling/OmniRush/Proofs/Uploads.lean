import OmniRush.Proofs.Process

/-!
# What the server may hold of a session

A session's record on disk says which sequence its next archive gets. As long as
captures only raise it, an archive the server accepted below it can never have its
number used again. The drain uploads what it reads from the queue, and it takes no
lock: a record it reads between a commit's second and fourth step belongs to no
session record yet, and so does one whose commit failed there.

In every run of captures, drains and crashes in which the drain reads no such
record, everything the server accepted stays below the session's record
(`accepted_below_next`). Rewinds, resets and continuations move a record back on
purpose and are other runs.
-/

namespace OmniRush.Archive

open OmniRush

/-- The stages that may move a session's record back. -/
def Stage.movesBack : Stage → Bool
  | .rewind _ _ | .continueChain _ _ | .reset | .retryConflict _ => true
  | _ => false

/-- No chain is moved back, and the drain reads no record whose commit has not saved
its session record. -/
def ReadsCommitted (w : World) : Action → Bool
  | .read => w.reads.all fun r => r ∉ w.opened
  | .enter sessionId _ _ => (w.tasks sessionId).all fun t =>
      t.packed.isSome || t.stages.head?.all fun stage => !stage.movesBack
  | _ => true

/-- Below the next sequence its session's record gives out. -/
def Disk.Below (d : Disk) (r : QueueRecord) : Prop :=
  r.request.sequence < d.nextSequence r.request.sessionId

/-! ## Records only rise -/

/-- A save that comes next does not lower the session's sequence. -/
def RisePoint (sessionId : String) (d : Disk) (_done : List FileOp)
    (steps : List (Step FileOp)) : Prop :=
  ∀ s onError rest, steps = ⟨.saveSession s, onError⟩ :: rest →
    d.nextSequence sessionId ≤ s.nextSequence

abbrev Rises (sessionId : String) (steps : List (Step FileOp)) (done : List FileOp)
    (d : Disk) : Prop :=
  Along FileOp.apply (RisePoint sessionId) steps done d

section

variable {k : StateKey} {sessionId : String} {d d' : Disk}

theorem nextSequence_congr (h : d.loadSession sessionId = d'.loadSession sessionId) :
    d.nextSequence sessionId = d'.nextSequence sessionId := by
  unfold Disk.nextSequence
  rw [h]

theorem nextSequence_load {s : SessionState} (h : d.loadSession sessionId = some s) :
    d.nextSequence sessionId = s.nextSequence := by
  unfold Disk.nextSequence
  rw [h]
  rfl

theorem nextSequence_apply {op : FileOp} (h : op.saves = false) (d : Disk) (sessionId : String) :
    (op.apply d).nextSequence sessionId = d.nextSequence sessionId := by
  refine nextSequence_congr (loadSession_apply (fun s heq => ?_) d sessionId)
  rw [heq] at h
  cases h

theorem Rises.congr (h : Agree k sessionId d d') {steps : List (Step FileOp)}
    {done : List FileOp} (hrises : Rises sessionId steps done d) :
    Rises sessionId steps done d' := by
  refine Along.congr (R := Agree k sessionId) (fun op _ _ hrel => hrel.apply op)
    (fun d d' _ steps hrel hpoint s onError rest heq => ?_) h hrises
  rw [← nextSequence_congr hrel.record]
  exact hpoint s onError rest heq

theorem rises_nothing_saved {steps : List (Step FileOp)}
    (h : ∀ step ∈ steps, step.op.saves = false) {done : List FileOp} :
    Rises sessionId steps done d := by
  induction steps generalizing d done with
  | nil => exact fun _ _ _ heq => nomatch heq
  | cons step steps ih =>
      refine ⟨fun s onError rest heq => ?_, ih fun t ht => h t (List.mem_cons_of_mem _ ht)⟩
      have hstep := h step (List.mem_cons_self ..)
      rw [(List.cons.inj heq).1] at hstep
      cases hstep

theorem rises_then {first : List (Step FileOp)} (h : ∀ step ∈ first, step.op.saves = false)
    {s : SessionState} {onError : List FileOp} {rest : List (Step FileOp)}
    (hrest : ∀ step ∈ rest, step.op.saves = false) {done : List FileOp}
    (hrise : d.nextSequence sessionId ≤ s.nextSequence) :
    Rises sessionId (first ++ ⟨.saveSession s, onError⟩ :: rest) done d := by
  induction first generalizing d done with
  | nil =>
      refine ⟨fun t onError' rest' heq => ?_, rises_nothing_saved hrest⟩
      cases heq
      exact hrise
  | cons step first ih =>
      have hstep := h step (List.mem_cons_self ..)
      refine ⟨fun t onError' rest' heq => ?_,
        ih (fun t ht => h t (List.mem_cons_of_mem _ ht)) ?_⟩
      · rw [(List.cons.inj heq).1] at hstep
        cases hstep
      · rw [nextSequence_apply hstep]
        exact hrise

theorem asSteps_saves {ops : List FileOp} (h : ∀ op ∈ ops, op.saves = false) :
    ∀ step ∈ asSteps ops, step.op.saves = false := by
  intro step hstep
  obtain ⟨op, hop, rfl⟩ := List.mem_map.mp hstep
  exact h op hop

theorem rises_save {ops : List FileOp} (h : ∀ op ∈ ops, op.saves = false) {s : SessionState}
    {done : List FileOp} (hrise : d.nextSequence sessionId ≤ s.nextSequence) :
    Rises sessionId (asSteps (ops ++ [.saveSession s])) done d := by
  have heq : asSteps (ops ++ [.saveSession s]) = asSteps ops ++ [⟨.saveSession s, []⟩] :=
    List.map_append
  have hnone : ∀ step ∈ ([] : List (Step FileOp)), step.op.saves = false :=
    fun _ hstep => nomatch hstep
  rw [heq]
  exact rises_then (asSteps_saves h) hnone hrise

theorem rises_only_save {s : SessionState} {done : List FileOp}
    (hrise : d.nextSequence sessionId ≤ s.nextSequence) :
    Rises sessionId (asSteps [.saveSession s]) done d := by
  refine ⟨fun t onError rest heq => ?_, fun _ _ _ heq => nomatch heq⟩
  cases heq
  exact hrise

theorem dropJobs_saves {sequence : Nat} {op : FileOp}
    (h : op ∈ d.dropJobs sessionId sequence) : op.saves = false := by
  rcases dropJobs_quiet h with ⟨_, rfl⟩ | ⟨_, rfl⟩ <;> rfl

/-! ## Stages -/

theorem startState_rises {r : Option Registration} {s : SessionState}
    (h : startState r sessionId d = some s) : d.nextSequence sessionId ≤ s.nextSequence := by
  rcases startState_cases h with hload | ⟨hzero, -⟩
  · exact Nat.le_of_eq (nextSequence_load hload)
  · exact hzero ▸ Nat.zero_le _

theorem markStopped_rises (code : String) :
    Rises sessionId (asSteps (markStopped d sessionId code)) [] d := by
  have hdrop := fun op (h : op ∈ d.dropJobs sessionId 0) => dropJobs_saves h
  unfold markStopped
  split
  · next s hload =>
      split
      · rw [List.append_nil]
        exact rises_nothing_saved (asSteps_saves hdrop)
      · exact rises_save hdrop (s := { s with stopped := some code })
          (Nat.le_of_eq (nextSequence_load (s := s) hload))
  · rw [List.append_nil]
    exact rises_nothing_saved (asSteps_saves hdrop)

theorem saveChanged_rises {change : SessionState → SessionState}
    (hchange : ∀ s : SessionState, (change s).nextSequence = s.nextSequence) :
    Rises sessionId (asSteps (saveChanged sessionId d change)) [] d := by
  have hnone : Rises sessionId (asSteps []) [] d := fun _ _ _ heq => nomatch heq
  unfold saveChanged
  split
  · exact hnone
  · next s hload =>
      split
      · exact hnone
      · refine rises_only_save ?_
        rw [hchange, nextSequence_load hload]

theorem expandAcceptFinal_rises (sequence : Nat) :
    Rises sessionId (asSteps (expandAcceptFinal sessionId d sequence)) [] d := by
  have hnone : Rises sessionId (asSteps []) [] d := fun _ _ _ heq => nomatch heq
  unfold expandAcceptFinal
  split
  · exact hnone
  · next s hload =>
      split
      · exact hnone
      · split
        · exact hnone
        · refine rises_save (s := { s with rewind := none }) (fun op hop => ?_)
            (Nat.le_of_eq (nextSequence_load (s := s) hload))
          obtain ⟨b, -, rfl⟩ := mem_removeBaseline hop
          rfl

theorem expandAskServer_rises (current : Bool) (rest : List Stage) (r : Option Registration)
    (answer : ServerChain) :
    Rises sessionId (expandAskServer current sessionId d rest r answer).steps [] d := by
  have hnone : Rises sessionId [] [] d := fun _ _ _ heq => nomatch heq
  unfold expandAskServer
  split
  · exact hnone
  · next s hstart =>
      split
      · exact hnone
      · next hbase =>
          split
          · have hzero : s.nextSequence = 0 := by
              by_contra hne
              exact hbase (.inr hne)
            refine rises_only_save ?_
            have hrises := startState_rises hstart
            omega
          · exact markStopped_rises _
          · exact hnone
          · exact hnone

theorem expandCapture_rises (current : Bool) (rest : List Stage) (r : Option Registration)
    (scan : Scan) :
    Rises sessionId (expandCapture current sessionId d rest r scan).steps [] d ∧
      ∀ c ∈ (expandCapture current sessionId d rest r scan).packed,
        d.nextSequence sessionId ≤ c.state.nextSequence ∧
        ∀ step ∈ (expandCapture current sessionId d rest r scan).steps,
          step.op.saves = false := by
  have hnone : Rises sessionId [] [] d := fun _ _ _ heq => nomatch heq
  unfold expandCapture
  split
  · exact ⟨hnone, fun _ hc => nomatch hc⟩
  · next s hstart =>
      split
      · exact ⟨hnone, fun _ hc => nomatch hc⟩
      · split
        · exact ⟨markStopped_rises _, fun _ hc => nomatch hc⟩
        · cases scan with
          | unchanged turn options =>
              refine ⟨?_, fun _ hc => nomatch hc⟩
              dsimp only
              split
              · unfold saveUnchanged
                split
                · exact hnone
                · refine rises_only_save ?_
                  rw [(noteUnchanged_same s (nextKind s) turn options).1]
                  exact startState_rises hstart
              · exact hnone
          | changed p =>
              have hpartial : ∀ step ∈ [(⟨.writePartial p.archiveId, [.rmPartial p.archiveId]⟩ :
                  Step FileOp)], step.op.saves = false := by
                intro step hstep
                rw [List.mem_singleton.mp hstep]
                rfl
              refine ⟨rises_nothing_saved hpartial, fun c hc => ?_⟩
              obtain rfl := Option.some.inj hc
              exact ⟨startState_rises hstart, hpartial⟩

theorem Stage.expand_rises (current : Bool) (rest : List Stage) {stage : Stage}
    (hback : stage.movesBack = false) :
    Rises sessionId (stage.expand current sessionId d rest).steps [] d ∧
      ∀ c ∈ (stage.expand current sessionId d rest).packed,
        d.nextSequence sessionId ≤ c.state.nextSequence ∧
        ∀ step ∈ (stage.expand current sessionId d rest).steps, step.op.saves = false := by
  have hif : ∀ {p : Prop} [Decidable p] {steps : List (Step FileOp)},
      (p → Rises sessionId steps [] d) → Rises sessionId (if p then steps else []) [] d := by
    intro p _ steps hsteps
    split
    · next hp => exact hsteps hp
    · intro _ _ _ heq
      cases heq
  cases stage with
  | noteTurn turnSeen =>
      exact ⟨hif fun _ => saveChanged_rises fun _ => rfl, packs_nothing⟩
  | register r =>
      refine ⟨hif fun hfree => rises_only_save ?_, packs_nothing⟩
      exact hfree.2.1 ▸ Nat.zero_le _
  | rescue r =>
      refine ⟨hif fun hfree => rises_only_save ?_, packs_nothing⟩
      unfold Disk.nextSequence
      rw [hfree.2]
      exact Nat.zero_le _
  | askServer r answer =>
      have hpacked : ((Stage.askServer r answer).expand current sessionId d rest).packed = none :=
        expandAskServer_packed current sessionId d rest r answer
      rw [hpacked]
      exact ⟨expandAskServer_rises current rest r answer, packs_nothing⟩
  | capture r scan => exact expandCapture_rises current rest r scan
  | skipFinal ended =>
      exact ⟨hif fun _ => saveChanged_rises fun _ => rfl, packs_nothing⟩
  | stop code => exact ⟨hif fun _ => markStopped_rises code, packs_nothing⟩
  | acceptFinal sequence =>
      exact ⟨hif fun _ => expandAcceptFinal_rises sequence, packs_nothing⟩
  | retryConflict _ => cases hback
  | rewind _ _ => cases hback
  | continueChain _ _ => cases hback
  | reset => cases hback

theorem commitSteps_rises {flags : CommitFlags} {c : Captured} {done : List FileOp}
    (hrise : d.nextSequence sessionId ≤ c.state.nextSequence) :
    Rises sessionId (commitSteps k flags c) done d := by
  have heq : commitSteps k flags c =
      [⟨.renamePending c.archiveId, [.rmPartial c.archiveId]⟩,
        ⟨.writeQueue (commitRecord k flags c),
          [.rmPending (sealedFileName c.archiveId), .rmPartial c.archiveId]⟩,
        ⟨.writeBaseline (commitBaseline k c), [.rmPartial c.archiveId]⟩]
      ++ ⟨.saveSession (commitNext k flags c), [.rmPartial c.archiveId]⟩ ::
        (((previousBaseline c.state (commitNext k flags c)).map fun name =>
          (⟨.rmBaseline name, [.rmPartial c.archiveId]⟩ : Step FileOp)).toList
        ++ [⟨.saveHashCache, [.rmPartial c.archiveId]⟩]) := by
    unfold commitSteps
    simp only [List.cons_append, List.nil_append]
  rw [heq]
  refine rises_then (fun step hstep => ?_) (fun step hstep => ?_)
    (Nat.le_trans hrise (Nat.le_succ _))
  · simp only [List.mem_cons, List.not_mem_nil, or_false] at hstep
    rcases hstep with rfl | rfl | rfl <;> rfl
  · simp only [List.mem_append, List.mem_cons, List.not_mem_nil, or_false, Option.mem_toList,
      Option.map_eq_some_iff] at hstep
    rcases hstep with ⟨name, -, rfl⟩ | rfl <;> rfl

end

/-! ## Runs -/

section

variable {k : StateKey}

/-- A task that only raises its session's sequence. -/
structure TaskRises (sessionId : String) (d : Disk) (t : Task) : Prop where
  steps : Rises sessionId t.steps t.done d
  packed : ∀ c ∈ t.packed, d.nextSequence sessionId ≤ c.state.nextSequence ∧
    ∀ step ∈ t.steps, step.op.saves = false

structure Counted (w : World) : Prop where
  queue : ∀ r ∈ w.disk.queue, w.disk.Below r ∨ r ∈ w.opened
  drain : ∀ r, w.drain.Holds r → w.disk.Below r
  accepted : ∀ r ∈ w.accepted, w.disk.Below r
  tasks : ∀ sessionId t, w.tasks sessionId = some t → TaskRises sessionId w.disk t

theorem TaskRises.congr {sessionId : String} {d d' : Disk} {t : Task}
    (h : Agree k sessionId d d') (hrises : TaskRises sessionId d t) :
    TaskRises sessionId d' t := by
  refine ⟨hrises.steps.congr h, fun c hc => ?_⟩
  rw [← nextSequence_congr h.record]
  exact hrises.packed c hc

theorem TaskRises.enter {sessionId : String} {flags : CommitFlags} {current cancelled : Bool}
    {d : Disk} {t t' : Task} (hrises : TaskRises sessionId d t)
    (hback : t.packed = none → ∀ stage rest, t.stages = stage :: rest →
      stage.movesBack = false)
    (henter : t.enter k flags current cancelled sessionId d = some t') :
    TaskRises sessionId d t' := by
  obtain ⟨-, hnew, -, hcases⟩ := enter_cases henter
  rcases hcases with
    ⟨c, hpacked, hnone, -, hsteps⟩ | ⟨stage, rest, hnone, hstages, -, hsteps, hpacked⟩
  · refine ⟨?_, fun c' hc' => ?_⟩
    · rw [hsteps]
      split
      · exact commitSteps_rises (hrises.packed c hpacked).1
      · refine rises_nothing_saved fun step hstep => ?_
        rw [List.mem_singleton.mp hstep]
        rfl
    · rw [hnone] at hc'
      exact nomatch hc'
  · obtain ⟨hstage, hready⟩ :=
      @Stage.expand_rises sessionId d current rest stage (hback hnone stage rest hstages)
    refine ⟨?_, ?_⟩
    · rw [hsteps, hnew]
      exact hstage
    · rw [hpacked, hsteps]
      exact hready

theorem nextSequence_rises {sessionId : String} {d : Disk} {step : Step FileOp}
    {steps : List (Step FileOp)} {done : List FileOp} (hown : step.op.OwnedBy k sessionId)
    (hrises : Rises sessionId (step :: steps) done d) (id : String) :
    d.nextSequence id ≤ (step.op.apply d).nextSequence id := by
  cases hop : step.op with
  | saveSession s =>
      rw [hop] at hown
      have hrise : d.nextSequence sessionId ≤ s.nextSequence :=
        hrises.here s step.onError steps (by rw [← hop])
      unfold Disk.nextSequence
      rw [loadSession_save]
      split
      · next hid =>
          rw [← hid.symm.trans hown.1] at hrise
          exact hrise
      · exact Nat.le_refl _
  | _ => exact Nat.le_of_eq (nextSequence_apply rfl d id).symm

theorem Disk.Below.rise {d d' : Disk} {r : QueueRecord} (h : d.Below r)
    (hrise : ∀ id, d.nextSequence id ≤ d'.nextSequence id) : d'.Below r :=
  Nat.lt_of_lt_of_le h (hrise _)

/-- What a task's operation puts into the queue is noted, and what leaves the note is
below its session's record. -/
theorem perform_queue {w : World} {op : FileOp}
    (h : ∀ r ∈ w.disk.queue, w.disk.Below r ∨ r ∈ w.opened)
    (hrise : ∀ id, w.disk.nextSequence id ≤ (op.apply w.disk).nextSequence id) :
    ∀ r ∈ (w.perform op).disk.queue, (w.perform op).disk.Below r ∨ r ∈ (w.perform op).opened := by
  have hold : ∀ r ∈ w.disk.queue, (w.perform op).disk.Below r ∨ r ∈ w.opened := fun r hr =>
    (h r hr).imp (fun hbelow => hbelow.rise hrise) id
  intro r hr
  cases op with
  | writeQueue s =>
      rcases mem_putRecord.mp hr with ⟨hr, -⟩ | rfl
      · exact (hold r hr).imp_right fun hopened => List.mem_cons_of_mem _ hopened
      · exact .inr (List.mem_cons_self ..)
  | saveSession s =>
      rcases hold r hr with hbelow | hopened
      · exact .inl hbelow
      · by_cases hpast : r.request.sessionId = s.sessionId ∧ r.request.sequence < s.nextSequence
        · refine .inl ?_
          show r.request.sequence < Disk.nextSequence _ _
          rw [hpast.1]
          exact lt_of_lt_of_eq hpast.2 (nextSequence_load (loadSession_saveSession _ s)).symm
        · exact .inr (List.mem_filter.mpr ⟨hopened, decide_eq_true hpast⟩)
  | rmQueue archiveId => exact hold r (List.mem_of_mem_filter hr)
  | _ => exact hold r hr

theorem recover_nextSequence (expired : QueueRecord → Bool) (order : List QueueRecord) (d : Disk)
    (sessionId : String) :
    (recover k expired order d).nextSequence sessionId = d.nextSequence sessionId := by
  have hsame := recoverQueue_unstopped k d.pending expired order ⟨{ d with tmp := [] }, []⟩
    sessionId
  have hnext : ∀ o : Option SessionState, o.elim 0 (·.nextSequence)
      = (o.map SessionState.unstopped).elim 0 (·.nextSequence) := by
    intro o
    cases o <;> rfl
  unfold Disk.nextSequence
  rw [hnext, hnext (d.loadSession sessionId)]
  exact congrArg (fun o => Option.elim o 0 (·.nextSequence)) hsame

theorem recover_below {expired : QueueRecord → Bool} {order : List QueueRecord} {d : Disk}
    (hkept : d.Kept k) (horder : order.Perm d.queue) {r : QueueRecord}
    (hr : r ∈ (recover k expired order d).queue) : d.Below r := by
  obtain ⟨_, _, s, -, hs, -, hlive, -⟩ := recover_kept hkept.one
    ⟨hkept.ids, fun r hr => (hkept.queue r hr).sealedFile⟩ horder hr
  obtain ⟨hkey, hpast⟩ := Bool.and_eq_true_iff.mp hlive
  have hmem : r ∈ d.queue :=
    (recoverQueue_sublist k d.pending expired order ⟨{ d with tmp := [] }, []⟩).mem hr
  have hid : s.sessionId = r.request.sessionId :=
    k.key_inj _ _ ((of_decide_eq_true hkey).trans (hkept.queue r hmem).sessionKey)
  show r.request.sequence < d.nextSequence r.request.sessionId
  rw [← hid, nextSequence_load (hkept.one.mem_iff.mp hs)]
  exact of_decide_eq_true hpast

theorem Counted.step {w w' : World} {a : Action} (h : Counted w) (hkept : Kept k w)
    (hguard : ReadsCommitted w a = true) (hstep : w.step k a = some w') : Counted w' := by
  cases step_moves hstep with
  | @take _ sessionId t waiting _ hfree hnew _ =>
      obtain ⟨hsteps, hdone, hpacked⟩ := hnew
      refine ⟨h.queue, h.drain, h.accepted, fun id u hu => ?_⟩
      rcases setTask_cases (t := some t) hu with ⟨rfl, heq⟩ | ⟨-, hold⟩
      · cases heq
        refine ⟨?_, ?_⟩
        · rw [hsteps]
          exact fun _ _ _ heq => nomatch heq
        · rw [hpacked]
          exact fun _ hc => nomatch hc
      · exact h.tasks id u hold
  | @enter sessionId cancelled flags t t' htask henter =>
      refine ⟨h.queue, h.drain, h.accepted, fun id u hu => ?_⟩
      rcases setTask_cases (t := some t') hu with ⟨rfl, heq⟩ | ⟨-, hold⟩
      · cases heq
        refine (h.tasks id t htask).enter (fun hnone stage rest hstages => ?_) henter
        simp only [ReadsCommitted] at hguard
        rw [htask, Option.all_some, hnone, hstages] at hguard
        simpa using hguard
      · exact h.tasks id u hold
  | @write sessionId t step steps htask hsteps =>
      have hown := (hkept.tasks sessionId t htask).steps
      have hrises := (h.tasks sessionId t htask).steps
      rw [hsteps] at hown hrises
      have hop := hown step (List.mem_cons_self ..) step.op (List.mem_cons_self ..)
      have hrise := nextSequence_rises hop hrises
      refine ⟨perform_queue h.queue hrise, fun r hr => (h.drain r hr).rise hrise,
        fun r hr => (h.accepted r hr).rise hrise, fun id u hu => ?_⟩
      rcases setTask_cases (t := some { t with steps := steps, done := t.done ++ [step.op] }) hu
        with ⟨rfl, heq⟩ | ⟨hne, hold⟩
      · cases heq
        refine ⟨hrises.next, fun c hc => ?_⟩
        obtain ⟨hle, hsaves⟩ := (h.tasks id t htask).packed c hc
        rw [hsteps] at hsaves
        refine ⟨?_, fun s hs => hsaves s (List.mem_cons_of_mem _ hs)⟩
        show (step.op.apply w.disk).nextSequence id ≤ _
        rw [nextSequence_apply (hsaves step (List.mem_cons_self ..))]
        exact hle
      · exact (h.tasks id u hold).congr (agree_other hop (Ne.symm hne) w.disk)
  | @fail sessionId paused t t' step steps htask hsteps hfail =>
      obtain ⟨hnew, -, hpacked, -⟩ := hfail
      have hhandlers := (hkept.tasks sessionId t htask).handlers
      rw [hsteps] at hhandlers
      refine ⟨h.queue, h.drain, h.accepted, fun id u hu => ?_⟩
      rcases setTask_cases (t := some t') hu with ⟨rfl, heq⟩ | ⟨-, hold⟩
      · cases heq
        refine ⟨?_, ?_⟩
        · rw [hnew]
          refine rises_nothing_saved (asSteps_saves fun op hop => ?_)
          have hclean := hhandlers step (List.mem_cons_self ..) op hop
          cases op <;> first | rfl | cases hclean
        · rw [hpacked]
          exact fun _ hc => nomatch hc
      · exact h.tasks id u hold
  | @finish sessionId t htask _ =>
      refine ⟨h.queue, h.drain, h.accepted, fun id u hu => ?_⟩
      rcases setTask_cases (t := none) hu with ⟨-, heq⟩ | ⟨-, hold⟩
      · cases heq
      · exact h.tasks id u hold
  | @drain _ drain accepted waiting hholds _ haccepted =>
      refine ⟨h.queue, fun r hr => ?_, fun r hr => ?_, h.tasks⟩
      · rcases hholds r hr with ⟨r', hr', hsame⟩ | ⟨rfl, hreads⟩
        · have hbelow := h.drain r' hr'
          unfold Disk.Below at hbelow ⊢
          rwa [hsame.request]
        · have hqueued : r ∈ w.disk.queue := by
            unfold World.reads at hreads
            split at hreads
            · exact List.mem_of_find?_eq_some hreads
            · cases hreads
          unfold ReadsCommitted at hguard
          rw [hreads, Option.all_some] at hguard
          exact (h.queue r hqueued).resolve_right (of_decide_eq_true hguard)
      · rcases haccepted r hr with hold | hheld
        · exact h.accepted r hold
        · exact h.drain r hheld
  | @drainWrite records op ops asks hdrain =>
      have hop : op ∈ w.drain.ops := by
        rw [hdrain]
        exact List.mem_cons_self ..
      have hquiet := hkept.quiet op hop
      have hagree : ∀ id, Agree k id w.disk (op.apply w.disk) := fun id => agree_quiet hquiet _
      have hrise : ∀ id, w.disk.nextSequence id ≤ (op.apply w.disk).nextSequence id := fun id =>
        Nat.le_of_eq (nextSequence_congr (hagree id).record)
      refine ⟨fun r hr => ?_, fun r hr => (h.drain r ?_).rise hrise,
        fun r hr => (h.accepted r hr).rise hrise, fun id u hu => (h.tasks id u hu).congr (hagree id)⟩
      · cases op with
        | writeQueue s =>
            rcases mem_putRecord.mp hr with ⟨hr, -⟩ | rfl
            · exact (h.queue r hr).imp_left fun hbelow => hbelow.rise hrise
            · exact .inl ((h.drain r (Drain.holds_write hop)).rise hrise)
        | rmQueue archiveId =>
            exact (h.queue r (List.mem_of_mem_filter hr)).imp_left fun hbelow => hbelow.rise hrise
        | _ => exact (h.queue r hr).imp_left fun hbelow => hbelow.rise hrise
      · rw [hdrain]
        exact Drain.holds_tail hr
  | bump => exact ⟨h.queue, h.drain, h.accepted, h.tasks⟩
  | @recover expired order horder =>
      have hsame := recover_nextSequence (k := k) expired order w.disk
      have hrise : ∀ id, w.disk.nextSequence id
          ≤ (recover k expired order w.disk).nextSequence id := fun id =>
        Nat.le_of_eq (hsame id).symm
      exact ⟨fun r hr => .inl ((recover_below hkept.disk horder hr).rise hrise),
        fun _ hr => (nomatch hr), fun r hr => (h.accepted r hr).rise hrise,
        fun _ _ hu => nomatch hu⟩

theorem counted_start : Counted {} :=
  ⟨fun _ hr => (nomatch hr), fun _ hr => (nomatch hr), fun _ hr => (nomatch hr),
    fun _ _ hu => nomatch hu⟩

/-- In every run of captures, drains and crashes whose listings read only records
past their commit, what the server accepted stays below its session's next
sequence. -/
theorem accepted_below_next {w : World}
    (hrun : Reach (World.step k) (fun w a => ReadsCommitted w a = true) {} w) :
    ∀ r ∈ w.accepted,
      r.request.sequence < w.disk.nextSequence r.request.sessionId := by
  have hinv := hrun.invariant (I := fun w => Kept k w ∧ Counted w)
    (fun _ _ _ hinv hguard hstep => ⟨hinv.1.step hstep, hinv.2.step hinv.1 hguard hstep⟩)
    ⟨kept_start, counted_start⟩
  exact hinv.2.accepted

end

/-- A base uploaded from a queue that held its record alone, while the next delta packs. -/
theorem accepted_below_next_base :
    ∃ w, runActions (World.step escapeKey)
        (captureActions "a" 0 5 ++ (captureActions "b" 1 6).take 3 ++
          [.list, .read, .pass, .answer .uploaded]) {} = some w ∧
      w.accepted ≠ [] ∧
      ∀ r ∈ w.accepted, r.request.sequence < w.disk.nextSequence r.request.sessionId := by
  have hrun : (runActions (fun w a => if ReadsCommitted w a then w.step escapeKey a else none)
      (captureActions "a" 0 5 ++ (captureActions "b" 1 6).take 3 ++
        [.list, .read, .pass, .answer .uploaded]) {}).any (fun w => w.accepted ≠ []) = true := by
    decide +kernel
  obtain ⟨w, hw, hsome⟩ := exists_of_any hrun
  obtain ⟨hreach, hplain⟩ := reach_of_checked hw
  exact ⟨w, hplain, of_decide_eq_true hsome, accepted_below_next hreach⟩

/-- The drain lists, reads and uploads a base whose queue record is written and whose
session record is not; a crash there leaves the session at sequence zero. -/
theorem accepted_uncommitted :
    ∃ w w', runActions (World.step escapeKey) ((captureActions "a" 0 5).take 6 ++
        [.list, .read, .pass, .accept]) {} = some w ∧
      w.step escapeKey (.recover (fun _ => false) w.disk.queue) = some w' ∧
      (∃ r ∈ w.accepted, w.disk.nextSequence r.request.sessionId ≤ r.request.sequence) ∧
      ∃ r ∈ w'.accepted, w'.disk.nextSequence r.request.sessionId ≤ r.request.sequence := by
  have hrun : (runActions (World.step escapeKey) ((captureActions "a" 0 5).take 6 ++
      [.list, .read, .pass, .accept]) {}).any (fun w =>
      (w.step escapeKey (.recover (fun _ => false) w.disk.queue)).any fun w' =>
        w.accepted.any (fun r => w.disk.nextSequence r.request.sessionId ≤ r.request.sequence) &&
          w'.accepted.any fun r =>
            w'.disk.nextSequence r.request.sessionId ≤ r.request.sequence) = true := by
    decide +kernel
  obtain ⟨w, hw, hcheck⟩ := exists_of_any hrun
  obtain ⟨w', hw', hcheck⟩ := exists_of_any hcheck
  obtain ⟨hbefore, hafter⟩ := Bool.and_eq_true_iff.mp hcheck
  obtain ⟨r, hr, hle⟩ := List.any_eq_true.mp hbefore
  obtain ⟨r', hr', hle'⟩ := List.any_eq_true.mp hafter
  exact ⟨w, w', hw, hw', ⟨r, hr, of_decide_eq_true hle⟩, r', hr', of_decide_eq_true hle'⟩

end OmniRush.Archive
