import OmniRush.Archive.Capture
import OmniRush.Archive.Commit

/-!
# What a commit leaves on disk

Three outcomes, by the step that throws (`runCommit_outcome`). Before the queue
record is there the handlers undo everything. From the session's record on the
archive is committed. In between the queue record and the sealed file stay and
the session's record does not know of them: the next capture takes the same
sequence again.

So a capture is all or nothing exactly when it does not fail at the baseline or
the session's record, and a run of captures that never does keeps the session's
jobs apart (`captures_in_order`).
-/

namespace OmniRush.Archive

open OmniRush

/-! ## The three outcomes -/

/-- Nothing was done, or it was undone. -/
structure Early (c : Captured) (d d' : Disk) : Prop where
  queue : d'.queue = d.queue
  sessions : d'.sessions = d.sessions
  pending : ∀ name ∈ d'.pending, name ∈ d.pending

/-- The archive is queued and the session's record does not know of it. -/
structure Torn (k : StateKey) (flags : CommitFlags) (c : Captured) (d d' : Disk) : Prop where
  queue : d'.queue = putRecord d.queue (commitRecord k flags c)
  sessions : d'.sessions = d.sessions
  pending : d'.pending = addName d.pending (sealedFileName c.archiveId)

/-- The commit got past the session's record. -/
structure Past (k : StateKey) (flags : CommitFlags) (c : Captured) (d d' : Disk) : Prop where
  queue : d'.queue = putRecord d.queue (commitRecord k flags c)
  sessions : d'.sessions = putSession d.sessions (commitNext k flags c)
  pending : d'.pending = addName d.pending (sealedFileName c.archiveId)
  baseline : commitBaseline k c ∈ d'.baselines

def Fault.isEarly (f : Fault) : Prop := f.step = .rename ∨ f.step = .queueRecord

def Fault.isTorn (f : Fault) : Prop := f.step = .baseline ∨ f.step = .session

def Fault.isLate (f : Fault) : Prop := f.step = .previous ∨ f.step = .hashCache

section

variable (k : StateKey) (flags : CommitFlags) (c : Captured)

theorem runCommit_disk (fault : Option Fault) (d : Disk) :
    (runCommit k flags c fault d).2
      = (runSteps FileOp.apply (Fault.hits fault) (commitSteps k flags c) d).2 := by
  unfold runCommit
  split
  all_goals
    next heq => rw [heq]

theorem runCommit_early {f : Fault} (h : f.isEarly) (d : Disk) :
    Early c d (runCommit k flags c (some f) d).2 := by
  rw [runCommit_disk]
  obtain ⟨step, error⟩ := f
  rcases h with h | h
  · cases h
    exact ⟨rfl, rfl, fun name hname => hname⟩
  · cases h
    refine ⟨rfl, rfl, fun name hname => ?_⟩
    have hkept := List.mem_filter.mp hname
    have hne : name ≠ sealedFileName c.archiveId := by simpa using hkept.2
    exact (mem_addName.mp hkept.1).resolve_right hne

theorem runCommit_torn {f : Fault} (h : f.isTorn) (d : Disk) :
    Torn k flags c d (runCommit k flags c (some f) d).2 := by
  rw [runCommit_disk]
  obtain ⟨step, error⟩ := f
  rcases h with h | h
  · cases h
    exact ⟨rfl, rfl, rfl⟩
  · cases h
    exact ⟨rfl, rfl, rfl⟩

theorem previousBaseline_ne {state next : SessionState} {name b : String}
    (h : previousBaseline state next = some name) (hb : next.baseline = some b) : b ≠ name := by
  have hkept := (Option.filter_eq_some_iff.mp h).2
  rw [Bool.and_eq_true] at hkept
  have hne := of_decide_eq_true hkept.1
  rw [hb] at hne
  exact fun heq => hne (congrArg some heq)

variable {k flags c} in
theorem Past.rest {d d' : Disk} (h : Past k flags c d d') {op : FileOp}
    (hop : op = .rmPartial c.archiveId ∨ op = .saveHashCache ∨
      ∃ name, previousBaseline c.state (commitNext k flags c) = some name ∧
        op = .rmBaseline name) : Past k flags c d (op.apply d') := by
  rcases hop with rfl | rfl | ⟨name, hprevious, rfl⟩
  · exact ⟨h.queue, h.sessions, h.pending, h.baseline⟩
  · exact h
  · refine ⟨h.queue, h.sessions, h.pending, List.mem_filter.mpr ⟨h.baseline, ?_⟩⟩
    have hne : commitBaseline k c ≠ name := previousBaseline_ne hprevious rfl
    simpa using hne

theorem runCommit_past {fault : Option Fault} (h : ∀ f ∈ fault, f.isLate) (d : Disk) :
    Past k flags c d (runCommit k flags c fault d).2 := by
  have hmiss : ∀ step : CommitStep, step ≠ .previous → step ≠ .hashCache →
      some step ≠ fault.map (·.step) := by
    intro step hprevious hcache heq
    obtain ⟨f, hf, hstep⟩ := Option.map_eq_some_iff.mp heq.symm
    rcases h f hf with hp | hc
    · exact hprevious (hstep ▸ hp)
    · exact hcache (hstep ▸ hc)
  rw [runCommit_disk]
  unfold commitSteps
  rw [List.append_assoc, runSteps_append]
  · refine runSteps_invariant (Fault.hits fault) ?_ ⟨rfl, rfl, rfl, mem_addName.mpr (.inr rfl)⟩
    intro step hstep op hop d' hd'
    refine hd'.rest ?_
    rcases List.mem_append.mp hstep with hprevious | hcache
    · obtain ⟨name, hname, rfl⟩ := Option.map_eq_some_iff.mp (Option.mem_toList.mp hprevious)
      rcases List.mem_cons.mp hop with rfl | hhandler
      · exact .inr (.inr ⟨name, hname, rfl⟩)
      · exact .inl (List.mem_singleton.mp hhandler)
    · rw [List.mem_singleton.mp hcache] at hop
      rcases List.mem_cons.mp hop with rfl | hhandler
      · exact .inr (.inl rfl)
      · exact .inl (List.mem_singleton.mp hhandler)
  · intro step hstep
    simp only [List.mem_cons, List.not_mem_nil, or_false] at hstep
    rcases hstep with rfl | rfl | rfl | rfl
    all_goals
      show (true && decide _) = false
      rw [Bool.true_and, decide_eq_false_iff_not]
      exact hmiss _ (by decide) (by decide)

theorem runCommit_outcome (fault : Option Fault) (d : Disk) :
    (∃ f, fault = some f ∧ f.isEarly ∧ Early c d (runCommit k flags c fault d).2) ∨
      (∃ f, fault = some f ∧ f.isTorn ∧ Torn k flags c d (runCommit k flags c fault d).2) ∨
      (∀ f ∈ fault, f.isLate) ∧ Past k flags c d (runCommit k flags c fault d).2 := by
  rcases fault with _ | f
  · have hlate : ∀ g ∈ (none : Option Fault), g.isLate := fun g hg => nomatch hg
    exact .inr (.inr ⟨hlate, runCommit_past k flags c hlate d⟩)
  · have hstep : f.isEarly ∨ f.isTorn ∨ f.isLate := by
      unfold Fault.isEarly Fault.isTorn Fault.isLate
      cases f.step <;> decide
    rcases hstep with h | h | h
    · exact .inl ⟨f, rfl, h, runCommit_early k flags c h d⟩
    · exact .inr (.inl ⟨f, rfl, h, runCommit_torn k flags c h d⟩)
    · have hlate : ∀ g ∈ some f, g.isLate := fun g hg => Option.some.inj hg ▸ h
      exact .inr (.inr ⟨hlate, runCommit_past k flags c hlate d⟩)

end

theorem cleanedUp_iff (fault : Option Fault) :
    Fault.cleanedUp fault ↔ ∀ f ∈ fault, ¬ f.isTorn := by
  refine forall_congr' fun f => imp_congr_right fun _ => ?_
  exact not_or.symm

/-! ## All or nothing -/

section

variable {k : StateKey} {flags : CommitFlags} {c : Captured}

theorem Past.committed {d d' : Disk} (h : Past k flags c d d') : Committed k flags c d' := by
  have hload : d'.loadSession c.state.sessionId = some (commitNext k flags c) := by
    unfold Disk.loadSession
    rw [h.sessions]
    exact loadSession_saveSession d (commitNext k flags c)
  refine ⟨⟨_, hload, rfl⟩, ?_, ?_, h.baseline⟩
  · rw [h.queue]
    exact mem_putRecord.mpr (.inr rfl)
  · rw [h.pending]
    exact mem_addName.mpr (.inr rfl)

/-- A disk on which nothing is named after an archive yet. -/
def FreshId (archiveId : String) (d : Disk) : Prop :=
  (∀ r ∈ d.queue, r.archiveId ≠ archiveId) ∧ sealedFileName archiveId ∉ d.pending

theorem Early.untouched {d d' : Disk} (h : Early c d d') (hfresh : FreshId c.archiveId d) :
    Untouched c d d' := by
  refine ⟨?_, h.queue ▸ hfresh.1, fun hmem => hfresh.2 (h.pending _ hmem)⟩
  unfold Disk.loadSession
  rw [h.sessions]

theorem Torn.neither {d d' : Disk} (h : Torn k flags c d d')
    (hcurrent : ∀ s ∈ d.loadSession c.state.sessionId, s.nextSequence = c.state.nextSequence) :
    ¬ (Committed k flags c d' ∨ Untouched c d d') := by
  rintro (⟨⟨s, hs, hnext⟩, -⟩ | ⟨-, hgone, -⟩)
  · unfold Disk.loadSession at hs
    rw [h.sessions] at hs
    have hsame := hcurrent s hs
    omega
  · have hmem : commitRecord k flags c ∈ d'.queue := by
      rw [h.queue]
      exact mem_putRecord.mpr (.inr rfl)
    exact hgone _ hmem rfl

/-- A commit leaves the whole archive or nothing of it exactly when it does not
fail at the baseline or at the session's record. -/
theorem runCommit_all_or_nothing (fault : Option Fault) {d : Disk} (hfresh : FreshId c.archiveId d)
    (hcurrent : ∀ s ∈ d.loadSession c.state.sessionId, s.nextSequence = c.state.nextSequence) :
    (Committed k flags c (runCommit k flags c fault d).2 ∨
      Untouched c d (runCommit k flags c fault d).2) ↔ Fault.cleanedUp fault := by
  rw [cleanedUp_iff]
  rcases runCommit_outcome k flags c fault d with
    ⟨f, rfl, hearly, h⟩ | ⟨f, rfl, htorn, h⟩ | ⟨hlate, h⟩
  · refine ⟨fun _ g hg ht => ?_, fun _ => .inr (h.untouched hfresh)⟩
    cases hg
    rcases hearly with he | he <;> rcases ht with ht | ht <;> rw [he] at ht <;> cases ht
  · exact ⟨fun hall => absurd hall (h.neither hcurrent), fun hclean => absurd htorn (hclean f rfl)⟩
  · refine ⟨fun _ g hg ht => ?_, fun _ => .inl h.committed⟩
    rcases hlate g hg with hl | hl <;> rcases ht with ht | ht <;> rw [hl] at ht <;> cases ht

end

/-! ## Runs of captures -/

section

variable {k : StateKey} {flags : CommitFlags} {fresh : SessionState}

theorem currentState_sessionId (fresh : SessionState) (d : Disk) :
    (currentState fresh d).sessionId = fresh.sessionId := by
  unfold currentState
  cases hload : d.loadSession fresh.sessionId with
  | none => rfl
  | some s => exact loadSession_sessionId hload

theorem currentState_nextSequence (hfresh : fresh.nextSequence = 0) (d : Disk) :
    (currentState fresh d).nextSequence = d.nextSequence fresh.sessionId := by
  unfold currentState Disk.nextSequence
  cases d.loadSession fresh.sessionId with
  | none => exact hfresh
  | some s => rfl

theorem currentState_current (fresh : SessionState) (d : Disk) :
    ∀ s ∈ d.loadSession (currentState fresh d).sessionId,
      s.nextSequence = (currentState fresh d).nextSequence := by
  rw [currentState_sessionId]
  intro s hs
  unfold currentState
  rw [hs]
  rfl

theorem FreshId.add {archiveId : String} {d : Disk} (h : FreshId archiveId d) {r : QueueRecord}
    (hne : r.archiveId ≠ archiveId) {d' : Disk} (hqueue : d'.queue = putRecord d.queue r)
    (hpending : d'.pending = addName d.pending (sealedFileName r.archiveId)) :
    FreshId archiveId d' := by
  refine ⟨fun s hs => ?_, fun hmem => ?_⟩
  · rw [hqueue] at hs
    rcases mem_putRecord.mp hs with ⟨hold, -⟩ | rfl
    · exact h.1 s hold
    · exact hne
  · rw [hpending] at hmem
    rcases mem_addName.mp hmem with hold | hnew
    · exact h.2 hold
    · exact hne (sealedFileName_inj hnew).symm

theorem Attempt.run_freshId {a : Attempt} {archiveId : String} (hne : a.archiveId ≠ archiveId)
    {d : Disk} (h : FreshId archiveId d) : FreshId archiveId (a.run k flags fresh d).2 := by
  unfold Attempt.run
  rcases runCommit_outcome k flags (a.captured (currentState fresh d)) a.fault
      ((FileOp.writePartial a.archiveId).apply d) with
    ⟨f, hf, hearly, hout⟩ | ⟨f, hf, htorn, hout⟩ | ⟨hlate, hout⟩
  · exact ⟨hout.queue ▸ h.1, fun hmem => h.2 (hout.pending _ hmem)⟩
  · exact h.add hne hout.queue hout.pending
  · exact h.add hne hout.queue hout.pending

theorem runAttempts_freshId {attempts : List Attempt} {archiveId : String}
    (hne : ∀ a ∈ attempts, a.archiveId ≠ archiveId) {d : Disk} (h : FreshId archiveId d) :
    FreshId archiveId (runAttempts k flags fresh attempts d) := by
  induction attempts generalizing d with
  | nil => exact h
  | cons a attempts ih =>
      exact ih (fun b hb => hne b (List.mem_cons_of_mem _ hb))
        (Attempt.run_freshId (hne a (by simp)) h)

theorem InOrder.same {sessionId : String} {d d' : Disk} (h : InOrder sessionId d)
    (hqueue : d'.queue = d.queue) (hsessions : d'.sessions = d.sessions) :
    InOrder sessionId d' := by
  have hjobs : d'.jobs sessionId = d.jobs sessionId := by rw [Disk.jobs, hqueue, Disk.jobs]
  have hnext : d'.nextSequence sessionId = d.nextSequence sessionId := by
    rw [Disk.nextSequence, Disk.loadSession, hsessions, Disk.nextSequence, Disk.loadSession]
  exact ⟨hjobs ▸ h.distinct, fun r hr => hnext ▸ h.below r (hjobs ▸ hr)⟩

/-- The next archive queued with the next sequence, the session's record past it. -/
theorem InOrder.commit {sessionId : String} {d d' : Disk} (h : InOrder sessionId d)
    {r : QueueRecord} (hsession : r.request.sessionId = sessionId)
    (hsequence : r.request.sequence = d.nextSequence sessionId)
    (hqueue : d'.queue = putRecord d.queue r)
    (hnext : d'.nextSequence sessionId = d.nextSequence sessionId + 1) :
    InOrder sessionId d' := by
  have hjobs : d'.jobs sessionId
      = (d.jobs sessionId).filter (fun s => s.archiveId ≠ r.archiveId) ++ [r] := by
    rw [Disk.jobs, hqueue, putRecord, List.filter_append, List.filter_filter, Disk.jobs,
      List.filter_filter]
    congr 1
    · refine List.filter_congr fun s _ => ?_
      exact Bool.and_comm ..
    · exact List.filter_eq_self.mpr (by simp [hsession])
  refine ⟨?_, ?_⟩
  · rw [hjobs, List.map_append, List.map_singleton]
    refine List.nodup_append.mpr ⟨?_, List.nodup_singleton _, ?_⟩
    · exact h.distinct.sublist (List.filter_sublist.map _)
    · intro n hn m hm
      obtain ⟨s, hs, rfl⟩ := List.mem_map.mp hn
      have hbelow := h.below s (List.mem_of_mem_filter hs)
      rw [List.mem_singleton.mp hm, hsequence]
      exact Nat.ne_of_lt hbelow
  · intro s hs
    rw [hjobs] at hs
    rcases List.mem_append.mp hs with hold | hnew
    · have hbelow := h.below s (List.mem_of_mem_filter hold)
      omega
    · rw [List.mem_singleton.mp hnew]
      omega

/-- A capture whose fault is cleaned up after keeps the session's jobs in order. -/
theorem Attempt.run_inOrder (hfresh : fresh.nextSequence = 0) {a : Attempt}
    (hclean : Fault.cleanedUp a.fault) {d : Disk} (h : InOrder fresh.sessionId d) :
    InOrder fresh.sessionId (a.run k flags fresh d).2 := by
  unfold Attempt.run
  rcases runCommit_outcome k flags (a.captured (currentState fresh d)) a.fault
      ((FileOp.writePartial a.archiveId).apply d) with
    ⟨f, hf, hearly, hout⟩ | ⟨f, hf, htorn, hout⟩ | ⟨hlate, hout⟩
  · exact h.same hout.queue hout.sessions
  · exact absurd htorn ((cleanedUp_iff _).mp hclean f hf)
  · have hstate := currentState_nextSequence hfresh d
    have hid := currentState_sessionId fresh d
    refine h.commit hid hstate hout.queue ?_
    have hload := loadSession_saveSession d
      (commitNext k flags (a.captured (currentState fresh d)))
    have hname : (commitNext k flags (a.captured (currentState fresh d))).sessionId
        = fresh.sessionId := hid
    rw [hname] at hload
    have hafter : (runCommit k flags (a.captured (currentState fresh d)) a.fault
        ((FileOp.writePartial a.archiveId).apply d)).2.loadSession fresh.sessionId
        = some (commitNext k flags (a.captured (currentState fresh d))) := by
      rw [Disk.loadSession, hout.sessions]
      exact hload
    rw [Disk.nextSequence, hafter, ← hstate]
    rfl

theorem runAttempts_inOrder (hfresh : fresh.nextSequence = 0) {attempts : List Attempt}
    (hclean : ∀ a ∈ attempts, Fault.cleanedUp a.fault) {d : Disk}
    (h : InOrder fresh.sessionId d) :
    InOrder fresh.sessionId (runAttempts k flags fresh attempts d) := by
  induction attempts generalizing d with
  | nil => exact h
  | cons a attempts ih =>
      exact ih (fun b hb => hclean b (List.mem_cons_of_mem _ hb))
        (Attempt.run_inOrder hfresh (hclean a (by simp)) h)

end

/-- In every run of captures of a session, each capture is all or nothing exactly
when its fault is cleaned up after; and when every one is, the session's jobs
carry distinct sequences below its next one. -/
theorem captures_in_order (k : StateKey) (flags : CommitFlags) (sessionId marker : String)
    (v2 filesUsed : Bool) (attempts : List Attempt)
    (hids : (attempts.map (·.archiveId)).Nodup) (d : Disk)
    (hfresh : ∀ a ∈ attempts, FreshId a.archiveId d) (hd : InOrder sessionId d) :
    let fresh := SessionState.fresh sessionId marker v2 filesUsed
    (∀ before a after, attempts = before ++ a :: after →
      let d' := runAttempts k flags fresh before d
      let c := a.captured (currentState fresh d')
      (Committed k flags c (a.run k flags fresh d').2 ∨
        Untouched c d' (a.run k flags fresh d').2) ↔ Fault.cleanedUp a.fault) ∧
    ((∀ a ∈ attempts, Fault.cleanedUp a.fault) →
      InOrder sessionId (runAttempts k flags fresh attempts d)) := by
  intro fresh
  refine ⟨fun before a after heq => ?_, fun hclean =>
    @runAttempts_inOrder k flags fresh rfl attempts hclean d hd⟩
  intro d' c
  have hne : ∀ b ∈ before, b.archiveId ≠ a.archiveId := by
    intro b hb hsame
    rw [heq, List.map_append, List.map_cons] at hids
    exact (List.nodup_append.mp hids).2.2 b.archiveId (List.mem_map_of_mem hb) a.archiveId
      (List.mem_cons_self ..) hsame
  have hfreshId : FreshId a.archiveId d' :=
    runAttempts_freshId hne (hfresh a (heq ▸ List.mem_append_right _ (List.mem_cons_self ..)))
  exact runCommit_all_or_nothing a.fault hfreshId (currentState_current fresh d')

/-! ## A failing baseline -/

def packedAttempt (archiveId : String) (fault : Option Fault) : Attempt where
  turn := 0
  archiveId := archiveId
  size := 4096
  sha256 := "aa"
  kid := "bb"
  createdAt := "2026-01-01T00:00:00.000Z"
  fault := fault

/-- A capture that cannot write its queue record, then one that can. -/
theorem captures_in_order_queueRecord :
    InOrder "s1" (runAttempts escapeKey {} (SessionState.fresh "s1" "git" false false)
      [packedAttempt "a1" (some ⟨.queueRecord, .enospc⟩), packedAttempt "a2" none] {}) :=
  (captures_in_order escapeKey {} "s1" "git" false false
    [packedAttempt "a1" (some ⟨.queueRecord, .enospc⟩), packedAttempt "a2" none] (by decide) {}
    (by
      intro a _
      exact ⟨fun r hr => (nomatch hr), fun hmem => nomatch hmem⟩)
    ⟨List.nodup_nil, fun r hr => nomatch hr⟩).2
    (by
      intro a ha f hf
      simp only [List.mem_cons, List.not_mem_nil, or_false] at ha
      rcases ha with rfl | rfl
      · cases hf
        decide
      · cases hf)

/-- The first capture finds the disk full at its baseline and answers `paused`; the
second takes the same sequence, and both archives are queued. -/
theorem failed_baseline_repeats_sequence :
    let fresh := SessionState.fresh "s1" "git" false false
    let first := packedAttempt "a1" (some ⟨.baseline, .enospc⟩)
    let second := packedAttempt "a2" none
    let c := first.captured fresh
    (first.run escapeKey {} fresh {}).1 = .paused ∧
      ¬ (Committed escapeKey {} c (first.run escapeKey {} fresh {}).2 ∨
        Untouched c {} (first.run escapeKey {} fresh {}).2) ∧
      ((runAttempts escapeKey {} fresh [first, second] {}).jobs "s1").map
        (·.request.sequence) = [0, 0] ∧
      ¬ InOrder "s1" (runAttempts escapeKey {} fresh [first, second] {}) := by
  intro fresh first second c
  have hjobs : ((runAttempts escapeKey {} fresh [first, second] {}).jobs "s1").map
      (·.request.sequence) = [0, 0] := by decide
  refine ⟨by decide, ?_, hjobs, fun horder => ?_⟩
  · rintro (⟨⟨s, hs, -⟩, -⟩ | ⟨-, hgone, -⟩)
    · have hnone : (first.run escapeKey {} fresh {}).2.loadSession c.state.sessionId = none := by
        decide
      rw [hnone] at hs
      cases hs
    · have hmem : commitRecord escapeKey {} c ∈ (first.run escapeKey {} fresh {}).2.queue := by
        decide
      exact hgone _ hmem rfl
  · have hdistinct := horder.distinct
    rw [hjobs] at hdistinct
    exact absurd hdistinct (by decide)

end OmniRush.Archive
