import OmniRush.Proofs.DrainPass
import OmniRush.Proofs.Process

/-!
# The order of a drain

Beside the invariant of the pass there is one of all there is (`DrainOk`): an archive id
names its session, and a session with a task is being reset. A job that is dropped leaves
later ones behind only in a session that is on its way out (`OnItsWay`): nothing of it is
handed until they are gone.
-/

namespace OmniRush.Archive

namespace DrainState

/-! ## What there is -/

section

variable (sessionOf : String → String)

/-- An archive id was made for its session. -/
def Named (r : QueueRecord) : Prop := sessionOf r.archiveId = r.session

structure PassNamed (p : DrainPass) : Prop where
  todo : ∀ r ∈ p.todo, Named sessionOf r
  found : ∀ names found, p.stage = .listing names found → ∀ r ∈ found, Named sessionOf r
  record : ∀ listed record, p.stage = .uploading listed record → Named sessionOf record
  jobs : ∀ session jobs reason, p.stage = .dropping session (some jobs) reason →
    ∀ r ∈ jobs, Named sessionOf r ∧ r.session = session

structure DrainOk (d : DrainState) : Prop where
  queue : ∀ r ∈ d.queue, Named sessionOf r
  disabling : ∀ r ∈ d.disabling, Named sessionOf r
  pass : ∀ p, d.pass = some p → PassNamed sessionOf p
  resetting : ∀ session task, (session, task) ∈ d.tasks → session ∈ d.resettingSessions

end

section

variable {clock : DrainClock} {sessionOf : String → String} {d t : DrainState} {p p' : DrainPass}

theorem mem_writeRecord {record r : QueueRecord} (h : r ∈ (d.writeRecord record).queue) :
    r = record ∨ r ∈ d.queue := by
  simp only [writeRecord] at h
  split at h
  · obtain ⟨r', hr', rfl⟩ := List.mem_map.mp h
    split
    · exact .inl rfl
    · exact .inr hr'
  · rcases List.mem_append.mp h with hr | hr
    · exact .inr hr
    · exact .inl (List.mem_singleton.mp hr)

theorem ids_writeRecord {record r : QueueRecord} (h : r ∈ d.queue) :
    r.archiveId ∈ (d.writeRecord record).queue.map (·.archiveId) := by
  simp only [writeRecord]
  split
  · rw [List.map_map]
    refine List.mem_map.mpr ⟨r, h, ?_⟩
    show (if r.archiveId = record.archiveId then record else r).archiveId = r.archiveId
    split
    · next heq => exact heq.symm
    · rfl
  · rw [List.map_append]
    exact List.mem_append_left _ (List.mem_map_of_mem h)

theorem mem_removeJobs {gone : QueueRecord → Bool} {r : QueueRecord} :
    r ∈ (d.removeJobs gone).queue ↔ r ∈ d.queue ∧ gone r = false := by
  simp only [removeJobs, List.mem_filter, Bool.not_eq_true']

theorem mem_orderedQueue_dropWhile {record : QueueRecord} {todo : List QueueRecord}
    (hrest : p.todo.dropWhile (d.skips p) = record :: todo) :
    record ∈ p.todo ∧ ∀ r ∈ todo, r ∈ p.todo := by
  have hsub := List.dropWhile_sublist (d.skips p) (l := p.todo)
  rw [hrest] at hsub
  exact ⟨hsub.subset (List.mem_cons_self ..), fun r hr => hsub.subset (List.mem_cons_of_mem _ hr)⟩

theorem PassNamed.move (h : PassNamed sessionOf p) (htodo : ∀ r ∈ p'.todo, r ∈ p.todo)
    (hstage : p'.stage = .looking ∨ ∃ session reason, p'.stage = .dropping session none reason) :
    PassNamed sessionOf p' := by
  refine ⟨fun r hr => h.todo r (htodo r hr), fun names found heq => ?_, fun _ _ heq => ?_,
    fun _ _ _ heq => ?_⟩ <;> rcases hstage with hs | ⟨session, reason, hs⟩ <;>
    · rw [hs] at heq
      simp at heq

theorem look_drainOk (h : DrainOk sessionOf d) (hp : d.pass = some p)
    (hlook : Looked clock d p t) : DrainOk sessionOf t := by
  have hnamed := h.pass p hp
  cases hlook with
  | finished hrest =>
      refine { h with pass := fun q hq => ?_ }
      cases hq
      exact { hnamed with todo := fun r hr => nomatch hr }
  | dropped hrest hstopped =>
      obtain ⟨-, hsub⟩ := mem_orderedQueue_dropWhile hrest
      refine { h with
        queue := fun r hr => h.queue r (mem_removeJobs.mp hr).1
        pass := fun q hq => ?_ }
      cases hq
      exact { hnamed with todo := fun r hr => hnamed.todo r (hsub r hr) }
  | expired hrest =>
      obtain ⟨-, hsub⟩ := mem_orderedQueue_dropWhile hrest
      refine { h with pass := fun q hq => ?_ }
      cases hq
      exact hnamed.move hsub (.inr ⟨_, _, rfl⟩)
  | waiting hrest =>
      obtain ⟨-, hsub⟩ := mem_orderedQueue_dropWhile hrest
      refine { h with pass := fun q hq => ?_ }
      cases hq
      exact { hnamed with todo := fun r hr => hnamed.todo r (hsub r hr) }
  | handed hrest hstopped =>
      obtain ⟨hrecord, hsub⟩ := mem_orderedQueue_dropWhile hrest
      refine { h with pass := fun q hq => ?_ }
      cases hq
      refine ⟨fun r hr => hnamed.todo r (hsub r hr), fun _ _ heq => by simp at heq,
        fun _ _ heq => ?_, fun _ _ _ heq => by simp at heq⟩
      obtain ⟨-, rfl⟩ := PassStage.uploading.inj heq
      exact hnamed.todo _ hrecord

theorem addTask_resetting (h : DrainOk sessionOf d) (session : String) (task : ChainTask) :
    ∀ s u, (s, u) ∈ (d.addTask session task).tasks →
      s ∈ (d.addTask session task).resettingSessions := by
  intro s u hmem
  rcases List.mem_cons.mp hmem with heq | hmem
  · obtain ⟨rfl, -⟩ := Prod.mk.inj heq
    exact List.mem_cons_self ..
  · exact List.mem_cons_of_mem _ (h.resetting s u hmem)

theorem answer_drainOk (h : DrainOk sessionOf d) (hp : d.pass = some p)
    {listed record : QueueRecord} (hstage : p.stage = .uploading listed record)
    {log : List PassEntry} {outcome : UploadOutcome}
    (hanswer : Answered clock d { p with log := log } record outcome t) : DrainOk sessionOf t := by
  have hnamed := h.pass p hp
  have hrecord := hnamed.record _ _ hstage
  cases hanswer with
  | uploaded accepted =>
      refine { h with
        queue := fun r hr => h.queue r (mem_removeJobs.mp hr).1
        pass := fun q hq => ?_ }
      cases hq
      exact hnamed.move (fun _ hr => hr) (.inl rfl)
  | finished hnot disables => exact { h with pass := fun q hq => by cases hq }
  | rewound code =>
      refine { h with resetting := addTask_resetting h _ _, pass := fun q hq => ?_ }
      cases hq
      exact hnamed.move (fun _ hr => hr) (.inl rfl)
  | putOff hnot =>
      refine { h with queue := fun r hr => ?_, pass := fun q hq => ?_ }
      · rcases mem_writeRecord hr with rfl | hr
        · exact hrecord
        · exact h.queue r hr
      · cases hq
        exact hnamed.move (fun _ hr => hr) (.inl rfl)
  | dropping hnot reason =>
      refine { h with pass := fun q hq => ?_ }
      cases hq
      exact hnamed.move (fun _ hr => hr) (.inr ⟨_, _, rfl⟩)

theorem drop_drainOk (h : DrainOk sessionOf d) (hp : d.pass = some p) {session : String}
    {jobs : Option (List QueueRecord)} {reason : DropReason}
    (hstage : p.stage = .dropping session jobs reason) :
    DrainOk sessionOf (d.drop p session reason jobs) := by
  have hnamed := h.pass p hp
  match jobs with
  | none =>
      refine { h with pass := fun q hq => ?_ }
      cases hq
      refine ⟨hnamed.todo, fun _ _ heq => by simp at heq, fun _ _ heq => by simp at heq,
        fun _ _ _ heq r hr => ?_⟩
      obtain ⟨rfl, hjobs, rfl⟩ := PassStage.dropping.inj heq
      obtain rfl := Option.some.inj hjobs
      obtain ⟨hr, hsession⟩ := List.mem_filter.mp hr
      exact ⟨h.queue r hr, of_decide_eq_true hsession⟩
  | some (job :: jobs) =>
      refine { h with
        queue := fun r hr => h.queue r (mem_removeJobs.mp hr).1
        pass := fun q hq => ?_ }
      cases hq
      refine ⟨hnamed.todo, fun _ _ heq => by simp at heq, fun _ _ heq => by simp at heq,
        fun _ _ _ heq r hr => ?_⟩
      obtain ⟨rfl, hjobs, rfl⟩ := PassStage.dropping.inj heq
      obtain rfl := Option.some.inj hjobs
      exact hnamed.jobs _ _ _ hstage r (List.mem_cons_of_mem _ hr)
  | some [] =>
      have hpass : ∀ q, hold p session = some q → PassNamed sessionOf q := fun q hq => by
        cases hq
        exact hnamed.move (fun _ hr => hr) (.inl rfl)
      have htask : ∀ task, DrainOk sessionOf
          { d.addTask session task with pass := hold p session } := fun task =>
        { h with pass := hpass, resetting := addTask_resetting h _ _ }
      cases reason with
      | resetToNoBase => exact htask _
      | recoverSequenceConflict next => exact htask _
      | stopSession =>
          obtain ⟨-, htasks, hresetting, hqueue, hdisabling, -⟩ := requestStop_rest d session
          refine ⟨fun r hr => h.queue r (hqueue ▸ hr), fun r hr => h.disabling r (hdisabling ▸ hr),
            hpass, fun s t hmem => ?_⟩
          have hin := h.resetting s t (htasks ▸ hmem)
          exact hresetting.symm ▸ hin

theorem passStep_drainOk {act : DrainAct} (h : DrainOk sessionOf d) (hp : d.pass = some p)
    (hstep : d.passStep clock p act = some t) : DrainOk sessionOf t := by
  have hnamed := h.pass p hp
  cases act with
  | read =>
      simp only [passStep] at hstep
      split at hstep
      · next name names found hstage =>
          cases hstep
          refine { h with pass := fun q hq => ?_ }
          cases hq
          refine ⟨hnamed.todo, fun _ _ heq r hr => ?_, fun _ _ heq => by simp at heq,
            fun _ _ _ heq => by simp at heq⟩
          obtain ⟨rfl, rfl⟩ := PassStage.listing.inj heq
          rcases List.mem_append.mp hr with hr | hr
          · exact hnamed.found _ _ hstage r hr
          · exact h.queue r (List.mem_of_find?_eq_some (Option.mem_toList.mp hr))
      · cases hstep
  | order nowMs =>
      simp only [passStep] at hstep
      split at hstep
      · next found hstage =>
          cases hstep
          refine { h with pass := fun q hq => ?_ }
          cases hq
          exact ⟨fun r hr => hnamed.found _ _ hstage r (mem_orderedQueue hr),
            fun _ _ heq => by simp at heq, fun _ _ heq => by simp at heq,
            fun _ _ _ heq => by simp at heq⟩
      · cases hstep
  | look =>
      simp only [passStep] at hstep
      split at hstep
      · cases hstep
        exact look_drainOk h hp (looked clock d p)
      · cases hstep
  | persist upload recreates =>
      simp only [passStep] at hstep
      split at hstep
      · next listed record hstage =>
          cases hstep
          have hrecord := hnamed.record _ _ hstage
          refine { h with queue := fun r hr => ?_, pass := fun q hq => ?_ }
          · rcases mem_writeRecord hr with rfl | hr
            · exact hrecord
            · exact h.queue r hr
          · cases hq
            refine ⟨hnamed.todo, fun _ _ heq => by simp at heq, fun _ _ heq => ?_,
              fun _ _ _ heq => by simp at heq⟩
            obtain ⟨-, rfl⟩ := PassStage.uploading.inj heq
            exact hrecord
      · cases hstep
  | outcome outcome chain =>
      simp only [passStep] at hstep
      split at hstep
      · next listed record hstage =>
          cases hstep
          exact answer_drainOk h hp hstage (answered clock d _ record chain outcome)
      · cases hstep
  | drop =>
      simp only [passStep] at hstep
      split at hstep
      · next session jobs reason hstage =>
          cases hstep
          exact drop_drainOk h hp hstage
      · cases hstep
  | finish | abort =>
      simp only [passStep] at hstep
      split at hstep
      · cases hstep
        exact { h with pass := fun q hq => by cases hq }
      · cases hstep
  | begin | disableList | disableNext | commit | captureStop | captureContinue | captureDisable
  | runStop | runTask | release => cases hstep

theorem otherStep_drainOk {act : DrainAct} (h : DrainOk sessionOf d)
    (hstep : d.otherStep sessionOf act = some t) : DrainOk sessionOf t := by
  cases act with
  | begin names =>
      simp only [otherStep] at hstep
      split at hstep
      · cases hstep
        refine { h with pass := fun q hq => ?_ }
        cases hq
        refine ⟨fun r hr => (by cases hr), fun _ _ heq r hr => ?_, fun _ _ heq => (by cases heq),
          fun _ _ _ heq => by cases heq⟩
        cases heq
        cases hr
      · cases hstep
  | disableList =>
      simp only [otherStep] at hstep
      split at hstep
      · cases hstep
        exact { h with
          disabling := fun r hr => (List.mem_append.mp hr).elim (h.disabling r) (h.queue r) }
      · cases hstep
  | disableNext =>
      simp only [otherStep] at hstep
      split at hstep
      · next record rest hrest =>
          cases hstep
          obtain ⟨hpass, htasks, hresetting, hqueue, -, -⟩ :=
            requestStop_rest (d.deleteJob record) record.session
          refine ⟨fun r hr => ?_, fun r hr => ?_, fun q hq => h.pass q (hpass ▸ hq),
            fun s u hmem => ?_⟩
          · have hin : r ∈ (d.deleteJob record).queue := hqueue ▸ hr
            exact h.queue r (mem_removeJobs.mp hin).1
          · exact h.disabling r (hrest ▸ List.mem_cons_of_mem _ hr)
          · have hin := h.resetting s u (htasks ▸ hmem)
            exact hresetting.symm ▸ hin
      · cases hstep
  | commit record =>
      simp only [otherStep] at hstep
      split at hstep
      · next hguard =>
          cases hstep
          refine { h with queue := fun r hr => ?_ }
          rcases List.mem_append.mp hr with hr | hr
          · exact h.queue r hr
          · rw [List.mem_singleton.mp hr]
            exact hguard.2.2.2.2
      · cases hstep
  | captureStop session chain =>
      cases hstep
      cases chain with
      | false => exact { h with queue := fun r hr => h.queue r (mem_removeJobs.mp hr).1 }
      | true => exact { h with queue := fun r hr => h.queue r (mem_removeJobs.mp hr).1 }
  | captureContinue session next =>
      simp only [otherStep] at hstep
      split at hstep
      · cases hstep
      · cases hstep
        exact { h with }
  | captureDisable =>
      cases hstep
      exact { h with }
  | runStop session =>
      simp only [otherStep] at hstep
      split at hstep
      · cases hstep
        exact { h with queue := fun r hr => h.queue r (mem_removeJobs.mp hr).1 }
      · cases hstep
  | runTask session task rewindPoint =>
      simp only [otherStep] at hstep
      split at hstep
      · cases hstep
        obtain ⟨gone, hqueue, -⟩ := runTask_spec d session rewindPoint task
        obtain ⟨hpass, -, hresetting, hdisabling, -⟩ := runTask_rest d session rewindPoint task
        refine ⟨fun r hr => ?_, fun r hr => h.disabling r (hdisabling ▸ hr),
          fun q hq => h.pass q (hpass ▸ hq), fun s u hmem => ?_⟩
        · have hin : r ∈ (d.removeJobs gone).queue := hqueue ▸ hr
          exact h.queue r (mem_removeJobs.mp hin).1
        · have hin := h.resetting s u (List.mem_of_mem_erase hmem)
          exact hresetting.symm ▸ hin
      · cases hstep
  | release session =>
      simp only [otherStep] at hstep
      split at hstep
      · cases hstep
      · next hnone =>
          cases hstep
          refine { h with
            resetting := fun s u hmem => List.mem_filter.mpr ⟨h.resetting s u hmem, ?_⟩ }
          refine decide_eq_true fun heq => hnone ?_
          rw [← heq]
          exact List.mem_map_of_mem hmem
  | read | order | look | persist | outcome | drop | finish | abort => cases hstep

theorem step_drainOk {act : DrainAct} (h : DrainOk sessionOf d)
    (hstep : d.step clock sessionOf act = some t) : DrainOk sessionOf t := by
  unfold step at hstep
  split at hstep
  · next u hpassStep =>
      cases hstep
      obtain ⟨p, hp, hpassStep⟩ := Option.bind_eq_some_iff.mp hpassStep
      exact passStep_drainOk h hp hpassStep
  · exact otherStep_drainOk h hstep

end

/-! ## What a job leaves behind -/

/-- The session is stopped, its jobs are being removed, or a task that removes them waits. -/
def OnItsWay (d : DrainState) (session : String) : Prop :=
  session ∈ d.stoppedSessions ∨
    (∃ p jobs reason, d.pass = some p ∧ p.stage = .dropping session jobs reason) ∨
    (session ∈ d.resettingSessions ∧ ∃ next, (session, .restart next) ∈ d.tasks)

/-- The step hands a job to the uploader. -/
def Hands (d t : DrainState) (r : QueueRecord) : Prop :=
  ∃ p p', d.pass = some p ∧ t.pass = some p' ∧ p'.log = p.log ++ [.handed r]

/-- The step is the end of the upload of the job's archive. -/
def Uploads (d : DrainState) (act : DrainAct) (r : QueueRecord) : Prop :=
  ∃ p listed record answer, d.pass = some p ∧ p.stage = .uploading listed record ∧
    record.archiveId = r.archiveId ∧ act = .outcome .uploaded answer

section

variable {clock : DrainClock} {sessionOf : String → String} {d t : DrainState} {p p' : DrainPass}
  {act : DrainAct} {r : QueueRecord} {session : String}

theorem gone_of_leaves {gone : QueueRecord → Bool} (hr : r ∈ d.queue)
    (hleft : r.archiveId ∉ (d.removeJobs gone).queue.map (·.archiveId)) : gone r = true := by
  cases hgone : gone r with
  | true => rfl
  | false => exact absurd (List.mem_map_of_mem (mem_removeJobs.mpr ⟨hr, hgone⟩)) hleft

theorem session_of_deleted {record : QueueRecord} (hr : Named sessionOf r)
    (hrecord : Named sessionOf record) (hsame : r.archiveId = record.archiveId) :
    r.session = record.session := by
  unfold Named at hr hrecord
  rw [← hr, ← hrecord, hsame]

theorem look_leaves (h : DrainOk sessionOf d) (hp : d.pass = some p) (hlook : Looked clock d p t)
    (hr : r ∈ d.queue) (hleft : r.archiveId ∉ t.queue.map (·.archiveId)) :
    OnItsWay t r.session := by
  cases hlook with
  | dropped hrest hstopped =>
      have hrecord := (h.pass p hp).todo _ (mem_orderedQueue_dropWhile hrest).1
      have hsame := session_of_deleted (h.queue r hr) hrecord
        (of_decide_eq_true (gone_of_leaves hr hleft))
      have hin := hsame ▸ hstopped
      exact .inl hin
  | finished | expired | waiting | handed => exact absurd (List.mem_map_of_mem hr) hleft

theorem drop_leaves (h : DrainOk sessionOf d) (hp : d.pass = some p)
    {jobs : Option (List QueueRecord)} {reason : DropReason}
    (hstage : p.stage = .dropping session jobs reason) (hr : r ∈ d.queue)
    (hleft : r.archiveId ∉ (d.drop p session reason jobs).queue.map (·.archiveId)) :
    OnItsWay (d.drop p session reason jobs) r.session := by
  match jobs with
  | none => exact absurd (List.mem_map_of_mem hr) hleft
  | some (job :: jobs) =>
      obtain ⟨hjob, hsession⟩ := (h.pass p hp).jobs _ _ _ hstage job (List.mem_cons_self ..)
      have hsame := session_of_deleted (h.queue r hr) hjob
        (of_decide_eq_true (gone_of_leaves hr hleft))
      rw [hsame, hsession]
      exact .inr (.inl ⟨_, _, _, rfl, rfl⟩)
  | some [] =>
      have hqueue : (d.drop p session reason (some [])).queue = d.queue := by
        cases reason with
        | stopSession => exact (requestStop_rest d session).2.2.2.1
        | resetToNoBase | recoverSequenceConflict => rfl
      rw [hqueue] at hleft
      exact absurd (List.mem_map_of_mem hr) hleft

theorem passStep_leaves (h : DrainOk sessionOf d) (hp : d.pass = some p)
    (hstep : d.passStep clock p act = some t) (hr : r ∈ d.queue)
    (hleft : r.archiveId ∉ t.queue.map (·.archiveId)) :
    Uploads d act r ∨ OnItsWay t r.session := by
  have hstays : t.queue = d.queue → Uploads d act r ∨ OnItsWay t r.session := fun hqueue =>
    absurd (List.mem_map_of_mem hr) (hqueue ▸ hleft)
  cases act with
  | read | order =>
      simp only [passStep] at hstep
      split at hstep
      · cases hstep
        exact hstays rfl
      · cases hstep
  | look =>
      simp only [passStep] at hstep
      split at hstep
      · cases hstep
        exact .inr (look_leaves h hp (looked clock d p) hr hleft)
      · cases hstep
  | persist upload recreates =>
      simp only [passStep] at hstep
      split at hstep
      · cases hstep
        exact absurd (ids_writeRecord hr) hleft
      · cases hstep
  | outcome outcome answer =>
      simp only [passStep] at hstep
      split at hstep
      · next listed record hstage =>
          obtain rfl := Option.some.inj hstep
          generalize hout : d.answer clock _ record answer outcome = u at hleft hstays ⊢
          have hanswer := answered clock d { p with log := p.log ++ [.ended listed outcome] } record
            answer outcome
          rw [hout] at hanswer
          cases hanswer with
          | uploaded accepted =>
              have hsame := of_decide_eq_true (gone_of_leaves hr hleft)
              exact .inl ⟨p, listed, record, answer, hp, hstage, hsame.symm, rfl⟩
          | putOff hnot => exact absurd (ids_writeRecord hr) hleft
          | finished | rewound | dropping => exact hstays rfl
      · cases hstep
  | drop =>
      simp only [passStep] at hstep
      split at hstep
      · next session jobs reason hstage =>
          cases hstep
          exact .inr (drop_leaves h hp hstage hr hleft)
      · cases hstep
  | finish | abort =>
      simp only [passStep] at hstep
      split at hstep
      · cases hstep
        exact hstays rfl
      · cases hstep
  | begin | disableList | disableNext | commit | captureStop | captureContinue | captureDisable
  | runStop | runTask | release => cases hstep

/-- What is removed under a session's lock leaves no later job of the session. -/
theorem otherStep_leaves (h : DrainOk sessionOf d) (hstep : d.otherStep sessionOf act = some t)
    (hr : r ∈ d.queue) (hleft : r.archiveId ∉ t.queue.map (·.archiveId)) :
    OnItsWay t r.session ∨ ∀ r' ∈ t.queue, r'.session = r.session →
      ¬ r.request.sequence < r'.request.sequence := by
  have hstays : t.queue = d.queue → OnItsWay t r.session ∨ ∀ r' ∈ t.queue,
      r'.session = r.session → ¬ r.request.sequence < r'.request.sequence := fun hqueue =>
    absurd (List.mem_map_of_mem hr) (hqueue ▸ hleft)
  have hsession : ∀ own, t.queue = (d.deleteSession own).queue → ∀ r' ∈ t.queue,
      r'.session = r.session → ¬ r.request.sequence < r'.request.sequence := by
    intro own hqueue r' hr' hsame _
    rw [hqueue] at hleft hr'
    have hown := of_decide_eq_true (gone_of_leaves hr hleft)
    have hstay := of_decide_eq_false (mem_removeJobs.mp hr').2
    exact hstay (hsame.trans hown)
  cases act with
  | begin | disableList =>
      simp only [otherStep] at hstep
      split at hstep
      · cases hstep
        exact hstays rfl
      · cases hstep
  | disableNext =>
      simp only [otherStep] at hstep
      split at hstep
      · next record rest hrest =>
          cases hstep
          obtain ⟨-, -, -, hqueue, -, hstopped⟩ :=
            requestStop_rest (d.deleteJob record) record.session
          have hrecord := h.disabling record (hrest ▸ List.mem_cons_self ..)
          have hdeleted : r.archiveId ∉ (d.deleteJob record).queue.map (·.archiveId) :=
            hqueue ▸ hleft
          have hsame := session_of_deleted (h.queue r hr) hrecord
            (of_decide_eq_true (gone_of_leaves hr hdeleted))
          refine .inl (.inl ?_)
          rw [hsame]
          exact hstopped
      · cases hstep
  | commit record =>
      simp only [otherStep] at hstep
      split at hstep
      · cases hstep
        exact absurd (List.mem_map_of_mem (List.mem_append_left _ hr)) hleft
      · cases hstep
  | captureStop own chain =>
      cases hstep
      cases chain with
      | false => exact .inr (hsession own rfl)
      | true => exact .inr (hsession own rfl)
  | captureContinue own next =>
      simp only [otherStep] at hstep
      split at hstep
      · cases hstep
      · cases hstep
        exact hstays rfl
  | captureDisable =>
      cases hstep
      exact hstays rfl
  | runStop own =>
      simp only [otherStep] at hstep
      split at hstep
      · cases hstep
        exact .inr (hsession own rfl)
      · cases hstep
  | runTask own task rewindPoint =>
      simp only [otherStep] at hstep
      split at hstep
      · cases hstep
        obtain ⟨gone, hqueue, hlater, -⟩ := runTask_spec d own rewindPoint task
        have hleft' : r.archiveId ∉ (d.removeJobs gone).queue.map (·.archiveId) := hqueue ▸ hleft
        refine .inr fun r' hr' hsame hlt => ?_
        have hin : r' ∈ (d.removeJobs gone).queue := hqueue ▸ hr'
        have hgone := hlater r r' (gone_of_leaves hr hleft') hsame hlt
        rw [(mem_removeJobs.mp hin).2] at hgone
        cases hgone
      · cases hstep
  | release own =>
      simp only [otherStep] at hstep
      split at hstep
      · cases hstep
      · cases hstep
        exact hstays rfl
  | read | order | look | persist | outcome | drop | finish | abort => cases hstep

theorem OnItsWay.of_sub (h : OnItsWay d session)
    (hstopped : d.stoppedSessions ⊆ t.stoppedSessions)
    (hdropping : ∀ p jobs reason, d.pass = some p → p.stage = .dropping session jobs reason →
      OnItsWay t session)
    (hresetting : d.resettingSessions ⊆ t.resettingSessions) (htasks : d.tasks ⊆ t.tasks) :
    OnItsWay t session := by
  obtain hin | ⟨p, jobs, reason, hp, hstage⟩ | ⟨hin, next, htask⟩ := h
  · exact .inl (hstopped hin)
  · exact hdropping p jobs reason hp hstage
  · exact .inr (.inr ⟨hresetting hin, next, htasks htask⟩)

theorem drop_onItsWay {own : String} {jobs : Option (List QueueRecord)} {reason : DropReason}
    (hp : d.pass = some p) (hstage : p.stage = .dropping own jobs reason)
    (h : OnItsWay d session) : OnItsWay (d.drop p own reason jobs) session := by
  have hown : ∀ q jobs' reason', d.pass = some q → q.stage = .dropping session jobs' reason' →
      own = session := fun q jobs' reason' hq heq => by
    obtain rfl := Option.some.inj (hp.symm.trans hq)
    exact (PassStage.dropping.inj (hstage.symm.trans heq)).1
  match jobs with
  | none =>
      refine h.of_sub (List.Subset.refl _) (fun q jobs' reason' hq heq => ?_) (List.Subset.refl _)
        (List.Subset.refl _)
      obtain rfl := hown q jobs' reason' hq heq
      exact .inr (.inl ⟨_, _, _, rfl, rfl⟩)
  | some (job :: jobs) =>
      refine h.of_sub (List.Subset.refl _) (fun q jobs' reason' hq heq => ?_) (List.Subset.refl _)
        (List.Subset.refl _)
      obtain rfl := hown q jobs' reason' hq heq
      exact .inr (.inl ⟨_, _, _, rfl, rfl⟩)
  | some [] =>
      cases reason with
      | stopSession =>
          obtain ⟨-, htasks, hresetting, -, -, hin⟩ := requestStop_rest d own
          refine h.of_sub (subset_requestStop own) (fun q jobs' reason' hq heq => ?_)
            (fun s hs => ?_) (fun u hu => ?_)
          · obtain rfl := hown q jobs' reason' hq heq
            exact .inl hin
          · exact hresetting.symm ▸ hs
          · exact htasks.symm ▸ hu
      | resetToNoBase | recoverSequenceConflict =>
          refine h.of_sub (List.Subset.refl _) (fun q jobs' reason' hq heq => ?_)
            (List.subset_cons_self ..) (List.subset_cons_self ..)
          obtain rfl := hown q jobs' reason' hq heq
          exact .inr (.inr ⟨List.mem_cons_self .., _, List.mem_cons_self ..⟩)

theorem looked_sets (hlook : Looked clock d p t) : t.stoppedSessions = d.stoppedSessions ∧
    t.resettingSessions = d.resettingSessions ∧ t.tasks = d.tasks := by
  cases hlook with
  | finished | dropped | expired | waiting | handed => exact ⟨rfl, rfl, rfl⟩

theorem answered_sets {record : QueueRecord} {outcome : UploadOutcome}
    (hanswer : Answered clock d p record outcome t) : d.stoppedSessions ⊆ t.stoppedSessions ∧
    d.resettingSessions ⊆ t.resettingSessions ∧ d.tasks ⊆ t.tasks := by
  cases hanswer with
  | rewound code =>
      exact ⟨List.Subset.refl _, List.subset_cons_self .., List.subset_cons_self ..⟩
  | uploaded | finished | putOff | dropping =>
      exact ⟨List.Subset.refl _, List.Subset.refl _, List.Subset.refl _⟩

theorem passStep_onItsWay (hp : d.pass = some p) (hstep : d.passStep clock p act = some t)
    (h : OnItsWay d session) : OnItsWay t session := by
  -- a pass that is not removing jobs of the session
  have hother : ∀ u : DrainState, (∀ own jobs reason, p.stage ≠ .dropping own jobs reason) →
      d.stoppedSessions ⊆ u.stoppedSessions → d.resettingSessions ⊆ u.resettingSessions →
      d.tasks ⊆ u.tasks → OnItsWay u session := fun u hnot hstopped hresetting htasks =>
    h.of_sub hstopped (fun q _ _ hq heq => by
      obtain rfl := Option.some.inj (hp.symm.trans hq)
      exact absurd heq (hnot _ _ _)) hresetting htasks
  cases act with
  | read | order =>
      simp only [passStep] at hstep
      split at hstep
      · next hstage =>
          cases hstep
          exact hother _ (by simp [hstage]) (List.Subset.refl _) (List.Subset.refl _)
            (List.Subset.refl _)
      · cases hstep
  | look =>
      simp only [passStep] at hstep
      split at hstep
      · next hlook =>
          cases hstep
          obtain ⟨hstopped, hresetting, htasks⟩ := looked_sets (looked clock d p)
          exact hother _ (by simp [hlook.1]) (by rw [hstopped]; exact List.Subset.refl _)
            (by rw [hresetting]; exact List.Subset.refl _)
            (by rw [htasks]; exact List.Subset.refl _)
      · cases hstep
  | persist upload recreates =>
      simp only [passStep] at hstep
      split at hstep
      · next hstage =>
          cases hstep
          exact hother _ (by simp [hstage]) (List.Subset.refl _) (List.Subset.refl _)
            (List.Subset.refl _)
      · cases hstep
  | outcome outcome answer =>
      simp only [passStep] at hstep
      split at hstep
      · next listed record hstage =>
          cases hstep
          obtain ⟨hstopped, hresetting, htasks⟩ := answered_sets (answered clock d
            { p with log := p.log ++ [.ended listed outcome] } record answer outcome)
          exact hother _ (by simp [hstage]) hstopped hresetting htasks
      · cases hstep
  | drop =>
      simp only [passStep] at hstep
      split at hstep
      · next own jobs reason hstage =>
          cases hstep
          exact drop_onItsWay hp hstage h
      · cases hstep
  | finish | abort =>
      simp only [passStep] at hstep
      split at hstep
      · next hlook =>
          cases hstep
          exact hother _ (by simp [hlook]) (List.Subset.refl _) (List.Subset.refl _)
            (List.Subset.refl _)
      · cases hstep
  | begin | disableList | disableNext | commit | captureStop | captureContinue | captureDisable
  | runStop | runTask | release => cases hstep

theorem otherStep_onItsWay (hstep : d.otherStep sessionOf act = some t)
    (h : OnItsWay d session) : OnItsWay t session ∨ ∀ r ∈ t.queue, r.session ≠ session := by
  have hkeep : ∀ u : DrainState, u.pass = d.pass → d.stoppedSessions ⊆ u.stoppedSessions →
      d.resettingSessions ⊆ u.resettingSessions → d.tasks ⊆ u.tasks →
      OnItsWay u session := fun u hpass hstopped hresetting htasks =>
    h.of_sub hstopped (fun p jobs reason hp hstage =>
      .inr (.inl ⟨p, jobs, reason, hpass.trans hp, hstage⟩)) hresetting htasks
  cases act with
  | begin names =>
      simp only [otherStep] at hstep
      split at hstep
      · next hguard =>
          cases hstep
          refine .inl (h.of_sub (List.Subset.refl _) (fun p jobs reason hp _ => ?_)
            (List.Subset.refl _) (List.Subset.refl _))
          have hnone := Option.isNone_iff_eq_none.mp hguard.1
          rw [hnone] at hp
          cases hp
      · cases hstep
  | disableList | commit =>
      simp only [otherStep] at hstep
      split at hstep
      · cases hstep
        exact .inl (hkeep _ rfl (List.Subset.refl _) (List.Subset.refl _) (List.Subset.refl _))
      · cases hstep
  | disableNext =>
      simp only [otherStep] at hstep
      split at hstep
      · next record rest hrest =>
          cases hstep
          obtain ⟨hpass, htasks, hresetting, -⟩ :=
            requestStop_rest (d.deleteJob record) record.session
          exact .inl (hkeep _ hpass (subset_requestStop (d := d.deleteJob record) record.session)
            (fun s hs => hresetting.symm ▸ hs) (fun u hu => htasks.symm ▸ hu))
      · cases hstep
  | captureStop own chain =>
      cases hstep
      cases chain with
      | false =>
          exact .inl (hkeep _ rfl (List.Subset.refl _) (List.Subset.refl _) (List.Subset.refl _))
      | true =>
          exact .inl (hkeep _ rfl (List.subset_cons_self ..) (List.Subset.refl _)
            (List.Subset.refl _))
  | captureContinue own next =>
      simp only [otherStep] at hstep
      split at hstep
      · cases hstep
      · cases hstep
        exact .inl (hkeep _ rfl (List.Subset.refl _) (List.Subset.refl _) (List.Subset.refl _))
  | captureDisable =>
      cases hstep
      exact .inl (hkeep _ rfl (List.Subset.refl _) (List.Subset.refl _) (List.Subset.refl _))
  | runStop own =>
      simp only [otherStep] at hstep
      split at hstep
      · cases hstep
        exact .inl (hkeep _ rfl (List.Subset.refl _) (List.Subset.refl _) (List.Subset.refl _))
      · cases hstep
  | runTask own task rewindPoint =>
      simp only [otherStep] at hstep
      split at hstep
      · cases hstep
        obtain ⟨gone, hqueue, -, hall⟩ := runTask_spec d own rewindPoint task
        obtain ⟨hpass, -, hresetting, -, hstopped⟩ := runTask_rest d own rewindPoint task
        obtain hin | ⟨p, jobs, reason, hp, hstage⟩ | ⟨hin, next, htask⟩ := h
        · exact .inl (.inl (hstopped hin))
        · exact .inl (.inr (.inl ⟨p, jobs, reason, hpass.trans hp, hstage⟩))
        · by_cases hsame : (session, ChainTask.restart next) = (own, task)
          · -- the task runs, and removes what the session has
            obtain ⟨rfl, rfl⟩ := Prod.mk.inj hsame
            refine .inr fun r hr hsession => ?_
            have hstays : r ∈ (d.removeJobs gone).queue := hqueue ▸ hr
            have hgone := hall next rfl r hsession
            rw [(mem_removeJobs.mp hstays).2] at hgone
            cases hgone
          · refine .inl (.inr (.inr ⟨?_, next, (List.mem_erase_of_ne hsame).mpr htask⟩))
            exact hresetting.symm ▸ hin
      · cases hstep
  | release own =>
      simp only [otherStep] at hstep
      split at hstep
      · cases hstep
      · next hnone =>
          cases hstep
          obtain hin | ⟨p, jobs, reason, hp, hstage⟩ | ⟨hin, next, htask⟩ := h
          · exact .inl (.inl hin)
          · exact .inl (.inr (.inl ⟨p, jobs, reason, hp, hstage⟩))
          · refine .inl (.inr (.inr ⟨List.mem_filter.mpr ⟨hin, decide_eq_true fun heq => ?_⟩,
              next, htask⟩))
            rw [← heq] at hnone
            exact hnone (List.mem_map_of_mem htask)
  | read | order | look | persist | outcome | drop | finish | abort => cases hstep

theorem passStep_hands (hp : d.pass = some p) (hstep : d.passStep clock p act = some t)
    (hp' : t.pass = some p') (hlog : p'.log = p.log ++ [.handed r]) : ¬ OnItsWay d r.session := by
  have hsame : p'.log ≠ p.log := fun heq => by
    rw [heq] at hlog
    simp at hlog
  cases act with
  | look =>
      simp only [passStep] at hstep
      split at hstep
      · next hlook =>
          cases hstep
          generalize hu : d.look clock p = u at hp'
          have hlooked := looked clock d p
          rw [hu] at hlooked
          cases hlooked with
          | finished hrest =>
              cases hp'
              exact absurd rfl hsame
          | dropped | expired | waiting =>
              cases hp'
              simp at hlog
          | @handed record todo hrest hstopped =>
              cases hp'
              obtain rfl : record = r := by simpa using hlog
              have hskips : d.skips p record = false := by
                have hhead := List.head?_dropWhile_not (d.skips p) p.todo
                rw [hrest] at hhead
                exact hhead
              rintro (hin | ⟨q, jobs, reason, hq, hstage⟩ | ⟨hin, -⟩)
              · exact hstopped hin
              · obtain rfl := Option.some.inj (hp.symm.trans hq)
                exact absurd (hlook.1.symm.trans hstage) (by simp)
              · simp [skips, hin] at hskips
      · cases hstep
  | outcome outcome answer =>
      simp only [passStep] at hstep
      split at hstep
      · next listed record hstage =>
          cases hstep
          generalize hu : d.answer clock _ record answer outcome = u at hp'
          have hanswer := answered clock d { p with log := p.log ++ [.ended listed outcome] } record
            answer outcome
          rw [hu] at hanswer
          cases hanswer with
          | uploaded | rewound | putOff | dropping =>
              cases hp'
              simp at hlog
          | finished => cases hp'
      · cases hstep
  | drop =>
      simp only [passStep] at hstep
      split at hstep
      · next own jobs reason hstage =>
          cases hstep
          cases jobs with
          | none =>
              cases hp'
              exact absurd rfl hsame
          | some jobs =>
              cases jobs with
              | nil | cons =>
                  cases hp'
                  exact absurd rfl hsame
      · cases hstep
  | read | order | persist =>
      simp only [passStep] at hstep
      split at hstep
      · cases hstep
        cases hp'
        exact absurd rfl hsame
      · cases hstep
  | finish | abort =>
      simp only [passStep] at hstep
      split at hstep
      · cases hstep
        cases hp'
      · cases hstep
  | begin | disableList | disableNext | commit | captureStop | captureContinue | captureDisable
  | runStop | runTask | release => cases hstep

end

/-! ## Runs -/

section

variable {clock : DrainClock} {sessionOf : String → String}

theorem reach_ok {s d : DrainState} (hs : DrainOk sessionOf s)
    (hpass : s.pass = none) (h : Reach (step clock sessionOf) (fun _ _ => True) s d) :
    DrainOk sessionOf d ∧ ∀ p, d.pass = some p → PassOk d.stoppedSessions p :=
  h.invariant
    (I := fun d => DrainOk sessionOf d ∧ ∀ p, d.pass = some p → PassOk d.stoppedSessions p)
    (fun _ _ _ hok _ hstep => ⟨step_drainOk hok.1 hstep, step_passOk hok.2 hstep⟩)
    ⟨hs, fun p hp => by rw [hpass] at hp; cases hp⟩

/-- What a drain starts on: the queue as it is found, and the numbers the sessions are at. -/
def initial (queue : List QueueRecord) (next : String → Nat) : DrainState := { queue, next }

/-- In every state of a drain the jobs of a session that the pass handed are a first part of
those it listed, by their number, and each was handed when all that was noted of its session
were uploads. A job leaves the queue uploaded, or its session's later jobs leave with it or
are in a session on its way out; that one hands no job, until it has none. -/
theorem drain_in_order {queue : List QueueRecord} {next : String → Nat}
    (hqueue : ∀ r ∈ queue, Named sessionOf r) {d : DrainState}
    (h : Reach (step clock sessionOf) (fun _ _ => True) (initial queue next) d) :
    (∀ p, d.pass = some p →
      (∃ found, p.listed = orderedQueue found ∧ ∀ session,
        ofSession session (handedRecords p.log) <+: sessionJobs found session) ∧
      Steady p.log) ∧
    ∀ act t, d.step clock sessionOf act = some t →
      (∀ r ∈ d.queue, r.archiveId ∉ t.queue.map (·.archiveId) → Uploads d act r ∨
        ∀ r' ∈ t.queue, r'.session = r.session → r.request.sequence < r'.request.sequence →
          OnItsWay t r.session) ∧
      ∀ session, OnItsWay d session →
        (∀ r, Hands d t r → r.session ≠ session) ∧
        (OnItsWay t session ∨ ∀ r ∈ t.queue, r.session ≠ session) := by
  have hstart : DrainOk sessionOf (initial queue next) :=
    ⟨hqueue, fun r hr => (nomatch hr), fun p hp => (nomatch hp), fun _ _ hmem => nomatch hmem⟩
  obtain ⟨hok, hpass⟩ := reach_ok hstart rfl h
  refine ⟨fun p hp => ?_, fun act t hstep => ?_⟩
  · have hp := hpass p hp
    obtain ⟨found, hfound⟩ := hp.listed
    refine ⟨⟨found, hfound, fun session => ?_⟩, hp.steady⟩
    rw [← ofSession_orderedQueue, ← hfound]
    exact hp.handed session
  · unfold step at hstep
    split at hstep
    · next u hpassStep =>
        cases hstep
        obtain ⟨p, hp, hpassStep⟩ := Option.bind_eq_some_iff.mp hpassStep
        refine ⟨fun r hr hleft => ?_, fun session hway => ⟨?_, ?_⟩⟩
        · exact (passStep_leaves hok hp hpassStep hr hleft).imp_right fun hway _ _ _ _ => hway
        · rintro r ⟨q, q', hq, hq', hlog⟩ rfl
          obtain rfl := Option.some.inj (hp.symm.trans hq)
          exact passStep_hands hp hpassStep hq' hlog hway
        · exact .inl (passStep_onItsWay hp hpassStep hway)
    · refine ⟨fun r hr hleft => ?_, fun session hway => ⟨?_, otherStep_onItsWay hstep hway⟩⟩
      · rcases otherStep_leaves hok hstep hr hleft with hway | hnone
        · exact .inr fun _ _ _ _ => hway
        · exact .inr fun r' hr' hsame hlt => absurd hlt (hnone r' hr' hsame)
      · rintro r ⟨q, q', hq, hq', hlog⟩ -
        obtain ⟨-, hsame | ⟨names, hnew⟩⟩ := otherStep_pass hstep
        · obtain rfl := Option.some.inj ((hsame.trans hq).symm.trans hq')
          simp at hlog
        · obtain rfl := Option.some.inj (hnew.symm.trans hq')
          simp at hlog

end

/-! ## Two runs -/

/-- A clock that reads one time, long ago. -/
def oldClock : DrainClock where
  parse s := if s = "1970-01-01T00:00:00.000Z" then some 0 else none
  iso _ := ""

def job (session archiveId createdAt : String) (sequence : Nat) : QueueRecord where
  archiveId := archiveId
  sessionKey := session
  request :=
    { archiveId := archiveId
      sessionId := session
      kind := .delta
      sequence := sequence
      turn := sequence
      parentArchiveId := none
      size := 1
      sha256 := ""
      kid := ""
      marker := "" }
  sealedFile := archiveId
  trigger := none
  createdAt := createdAt
  attempts := 0
  nextAttemptAt := none
  recreates := 0
  upload := none

/-- Two jobs of one session, the second put off. -/
theorem drain_in_order_run : ∃ d : DrainState, ∃ p, d.pass = some p ∧
    p.log = [.handed (job "s" "a" "" 0), .ended (job "s" "a" "" 0) .uploaded,
      .handed (job "s" "b" "" 1), .ended (job "s" "b" "" 1) (.retryLater "")] ∧ Steady p.log := by
  have hrun : (runActions (step oldClock fun _ => "s")
      [.begin ["b", "a"], .read, .read, .order 0, .look, .outcome .uploaded .later, .look,
        .outcome (.retryLater "") .later]
      (initial [job "s" "b" "" 1, job "s" "a" "" 0] fun _ => 2)).any (fun d =>
        d.pass.any fun p => p.log = [.handed (job "s" "a" "" 0),
          .ended (job "s" "a" "" 0) .uploaded, .handed (job "s" "b" "" 1),
          .ended (job "s" "b" "" 1) (.retryLater "")]) = true := by decide +kernel
  obtain ⟨d, hd, hcheck⟩ := exists_of_any hrun
  obtain ⟨p, hp, hlog⟩ := exists_of_any hcheck
  have hqueue : ∀ r ∈ [job "s" "b" "" 1, job "s" "a" "" 0], Named (fun _ => "s") r := by
    intro r hr
    simp only [List.mem_cons, List.not_mem_nil, or_false] at hr
    rcases hr with rfl | rfl <;> rfl
  have horder := drain_in_order hqueue (reach_of_run (fun _ _ _ => trivial) hd)
  exact ⟨d, p, hp, of_decide_eq_true hlog, (horder.1 p hp).2⟩

/-- A session is stopped for its age while two captures queue jobs behind the expired one, and
the next pass is ended between the two: one of them is gone, and the later one is not. -/
theorem dropped_before_later : ∃ d t u : DrainState,
    Reach (step oldClock fun _ => "s") (fun _ _ => True)
      (initial [job "s" "a" "1970-01-01T00:00:00.000Z" 0] fun _ => 1) d ∧
    d.step oldClock (fun _ => "s") .look = some t ∧ t.step oldClock (fun _ => "s") .abort = some u ∧
    job "s" "b" "" 1 ∈ d.queue ∧ (job "s" "b" "" 1).archiveId ∉ t.queue.map (·.archiveId) ∧
    ¬ Uploads d .look (job "s" "b" "" 1) ∧
    (job "s" "b" "" 1).request.sequence < (job "s" "c" "" 2).request.sequence ∧
    job "s" "c" "" 2 ∈ u.queue ∧ u.pass = none := by
  have hrun : (runActions (step oldClock fun _ => "s")
      [.begin ["a"], .read, .order (maxJobAgeMs + 1), .look, .drop, .commit (job "s" "b" "" 1),
        .commit (job "s" "c" "" 2), .drop, .drop, .finish, .begin ["b", "c"], .read, .read,
        .order 0]
      (initial [job "s" "a" "1970-01-01T00:00:00.000Z" 0] fun _ => 1)).any (fun d =>
        (d.step oldClock (fun _ => "s") .look).any fun t =>
          (t.step oldClock (fun _ => "s") .abort).any fun u =>
            job "s" "b" "" 1 ∈ d.queue ∧ (job "s" "b" "" 1).archiveId ∉ t.queue.map (·.archiveId) ∧
            job "s" "c" "" 2 ∈ u.queue ∧ u.pass = none) = true := by decide +kernel
  obtain ⟨d, hd, hcheck⟩ := exists_of_any hrun
  obtain ⟨t, ht, hcheck⟩ := exists_of_any hcheck
  obtain ⟨u, hu, hcheck⟩ := exists_of_any hcheck
  obtain ⟨hbefore, hgone, hlater, hpass⟩ := of_decide_eq_true hcheck
  refine ⟨d, t, u, reach_of_run (fun _ _ _ => trivial) hd, ht, hu, hbefore, hgone, ?_, by decide,
    hlater, hpass⟩
  rintro ⟨p, listed, record, answer, -, -, -, heq⟩
  cases heq

end DrainState

end OmniRush.Archive
