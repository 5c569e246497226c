import OmniRush.Archive.Process
import OmniRush.Proofs.Recover
import OmniRush.Proofs.Task

/-!
# What one step of the archiver can do

`step_moves` says once what an action changes: a task takes a lock, reaches a stage,
does or fails a file operation, or ends; the drain moves on, or does a file
operation; the generation moves; or the archiver starts again on what the disk
holds. Every invariant below and in the files on crashes, uploads and sign-outs is
a case analysis over that.

The first of them holds in every run: each task keeps to its session's files, and
every queue record on the disk or in the drain's hands is named as commits name
them (`Kept`).
-/

namespace OmniRush.Archive

open OmniRush

/-! ## The drain's records -/

/-- The same archive's record with another upload progress. -/
structure QueueRecord.SameJob (r r' : QueueRecord) : Prop where
  archiveId : r.archiveId = r'.archiveId
  sessionKey : r.sessionKey = r'.sessionKey
  request : r.request = r'.request
  sealedFile : r.sealedFile = r'.sealedFile

theorem QueueRecord.SameJob.refl (r : QueueRecord) : r.SameJob r := ⟨rfl, rfl, rfl, rfl⟩

def Drain.ops : Drain → List FileOp
  | .passing _ ops _ => ops
  | _ => []

/-- The records the drain has read, or is about to write. -/
def Drain.Holds (drain : Drain) (r : QueueRecord) : Prop :=
  match drain with
  | .idle => False
  | .listing _ found => r ∈ found
  | .passing records ops _ => r ∈ records ∨ .writeQueue r ∈ ops

/-- What the drain reads next. -/
def World.reads (w : World) : Option QueueRecord :=
  match w.drain with
  | .listing (name :: _) _ => w.disk.queue.find? fun r => r.archiveId = name
  | _ => none

theorem mem_orderedQueue {records : List QueueRecord} {r : QueueRecord}
    (h : r ∈ orderedQueue records) : r ∈ records := by
  obtain ⟨jobs, hjobs, hr⟩ := List.mem_flatten.mp h
  obtain ⟨sessionId, -, rfl⟩ := List.mem_map.mp ((List.perm_insertionSort _ _).mem_iff.mp hjobs)
  exact (List.mem_filter.mp ((List.perm_insertionSort _ _).mem_iff.mp hr)).1

theorem deleteJob_quiet {r : QueueRecord} {op : FileOp} (h : op ∈ deleteJob r) :
    op.quiet = true ∧ ∀ r, op ≠ .writeQueue r := by
  rcases List.mem_cons.mp h with rfl | h
  · exact ⟨rfl, fun _ => by simp⟩
  · rw [List.mem_singleton.mp h]
    exact ⟨rfl, fun _ => by simp⟩

theorem deleteJobs_quiet {records : List QueueRecord} {op : FileOp}
    (h : op ∈ records.flatMap deleteJob) :
    op.quiet = true ∧ ∀ r, op ≠ .writeQueue r := by
  obtain ⟨r, -, hop⟩ := List.mem_flatMap.mp h
  exact deleteJob_quiet hop

/-- A drain that holds only what another held, or later versions of it, and does
nothing but quiet operations. -/
structure Drain.From (drain drain' : Drain) : Prop where
  holds : ∀ r, drain'.Holds r → ∃ r', drain.Holds r' ∧ r.SameJob r'
  quiet : ∀ op ∈ drain'.ops, op.quiet = true

section

variable {d : Disk} {r : QueueRecord} {rest : List QueueRecord}

theorem Drain.from_delete {records : List QueueRecord} {ops : List FileOp}
    {asks : List (String × Stage)} (hsub : ∀ s ∈ records, s ∈ r :: rest)
    (hops : ∀ op ∈ ops, op.quiet = true ∧ ∀ s, op ≠ .writeQueue s) :
    Drain.From (.passing (r :: rest) [] []) (.passing records ops asks) := by
  refine ⟨fun s hs => ⟨s, ?_, .refl s⟩, fun op hop => (hops op hop).1⟩
  rcases hs with hs | hs
  · exact .inl (hsub s hs)
  · exact absurd rfl ((hops _ hs).2 s)

theorem Drain.from_write {records : List QueueRecord} {r' : QueueRecord}
    {asks : List (String × Stage)}
    (hsub : ∀ s ∈ records, s = r' ∨ s ∈ r :: rest) (hsame : r'.SameJob r) :
    Drain.From (.passing (r :: rest) [] []) (.passing records [.writeQueue r'] asks) := by
  have hhead : (Drain.passing (r :: rest) [] []).Holds r := .inl (List.mem_cons_self ..)
  refine ⟨fun s hs => ?_, fun op hop => ?_⟩
  · rcases hs with hs | hs
    · rcases hsub s hs with rfl | hmem
      · exact ⟨r, hhead, hsame⟩
      · exact ⟨s, .inl hmem, .refl s⟩
    · obtain rfl := FileOp.writeQueue.inj (List.mem_singleton.mp hs)
      exact ⟨r, hhead, hsame⟩
  · rw [List.mem_singleton.mp hop]
    rfl

theorem mem_hold {sessionId : String} {s : QueueRecord} (h : s ∈ hold sessionId rest) :
    s ∈ r :: rest := List.mem_cons_of_mem _ (List.mem_of_mem_filter h)

theorem drainStop_from (code : String) :
    Drain.From (.passing (r :: rest) [] []) (drainStop d r rest code) := by
  refine Drain.from_delete (fun s hs => mem_hold hs) fun op hop => ?_
  rcases dropJobs_quiet hop with ⟨_, rfl⟩ | ⟨_, rfl⟩ <;> exact ⟨rfl, fun _ => by simp⟩

theorem drainDefer_from (nextAttemptAt : String) :
    Drain.From (.passing (r :: rest) [] []) (drainDefer r rest nextAttemptAt) :=
  Drain.from_write (fun _ hs => .inr (mem_hold hs)) ⟨rfl, rfl, rfl, rfl⟩

theorem drainAnswer_from (outcome : Outcome) :
    Drain.From (.passing (r :: rest) [] []) (drainAnswer d r rest outcome) := by
  have hdrop : ∀ sequence, ∀ op ∈ d.dropJobs r.request.sessionId sequence,
      op.quiet = true ∧ ∀ s, op ≠ .writeQueue s := by
    intro sequence op hop
    rcases dropJobs_quiet hop with ⟨_, rfl⟩ | ⟨_, rfl⟩ <;> exact ⟨rfl, fun _ => by simp⟩
  cases outcome with
  | uploaded =>
      exact Drain.from_delete (fun s hs => List.mem_cons_of_mem _ hs) fun op => deleteJob_quiet
  | deferred nextAttemptAt => exact drainDefer_from nextAttemptAt
  | stopSession code => exact drainStop_from code
  | disabled code =>
      exact Drain.from_delete (fun s hs => nomatch hs) fun op hop => deleteJobs_quiet hop
  | refusedFinal scan =>
      exact Drain.from_delete (fun s hs => mem_hold hs) fun op hop => nomatch hop
  | conflict answer nextAttemptAt scan =>
      show Drain.From _ (drainConflict d r rest answer nextAttemptAt scan)
      unfold drainConflict
      dsimp only
      split
      · exact drainStop_from _
      · split
        · exact drainStop_from _
        · split
          · exact drainDefer_from _
          · exact drainStop_from _
          · exact drainStop_from _
          · exact Drain.from_delete (fun s hs => mem_hold hs) (hdrop 0)
  | rekey code =>
      simp only [drainAnswer]
      split
      · exact Drain.from_delete (fun s hs => mem_hold hs) (hdrop 0)
      · exact drainStop_from code
  | ended => exact ⟨fun s hs => (nomatch hs), fun op hop => nomatch hop⟩

end

/-! ## What a step changes -/

/-- The session whose lock an action gives away. -/
def Action.takes : Action → Option String
  | .capture sessionId _ _ => some sessionId
  | .begin waiting => some waiting.sessionId
  | _ => none

section

variable (k : StateKey)

inductive World.Moves (w : World) : Action → World → Prop where
  | take {a : Action} {sessionId : String} {t : Task} {waiting : List Waiting}
      (htakes : a.takes = some sessionId)
      (hfree : w.tasks sessionId = none)
      (hnew : t.steps = [] ∧ t.done = [] ∧ t.packed = none)
      (hgeneration : t.capturing = true → t.generation = w.generation) :
      World.Moves w a ({ w with waiting := waiting }.setTask sessionId (some t))
  | enter {sessionId : String} {cancelled : Bool} {flags : CommitFlags} {t t' : Task}
      (htask : w.tasks sessionId = some t)
      (henter : t.enter k flags (t.generation = w.generation) cancelled sessionId w.disk
        = some t') :
      World.Moves w (.enter sessionId cancelled flags) (w.setTask sessionId (some t'))
  | write {sessionId : String} {t : Task} {step : Step FileOp} {steps : List (Step FileOp)}
      (htask : w.tasks sessionId = some t) (hsteps : t.steps = step :: steps) :
      World.Moves w (.write sessionId) ((w.perform step.op).setTask sessionId
        (some { t with steps := steps, done := t.done ++ [step.op] }))
  | fail {sessionId : String} {paused : Bool} {t t' : Task} {step : Step FileOp}
      {steps : List (Step FileOp)}
      (htask : w.tasks sessionId = some t) (hsteps : t.steps = step :: steps)
      (hfail : t'.steps = asSteps step.onError ∧ t'.done = [] ∧ t'.packed = none ∧
        t'.generation = t.generation) :
      World.Moves w (.fail sessionId paused) (w.setTask sessionId (some t'))
  | finish {sessionId : String} {t : Task} (htask : w.tasks sessionId = some t)
      (hsteps : t.steps = []) :
      World.Moves w (.finish sessionId) (w.setTask sessionId none)
  | drain {a : Action} {drain : Drain} {accepted : List QueueRecord} {waiting : List Waiting}
      (hholds : ∀ r, drain.Holds r → (∃ r', w.drain.Holds r' ∧ r.SameJob r') ∨
        (a = .read ∧ w.reads = some r))
      (hops : (∀ op ∈ w.drain.ops, op.quiet = true) → ∀ op ∈ drain.ops, op.quiet = true)
      (haccepted : ∀ r ∈ accepted, r ∈ w.accepted ∨ w.drain.Holds r) :
      World.Moves w a { w with drain := drain, accepted := accepted, waiting := waiting }
  | drainWrite {records : List QueueRecord} {op : FileOp} {ops : List FileOp}
      {asks : List (String × Stage)} (hdrain : w.drain = .passing records (op :: ops) asks) :
      World.Moves w .drainWrite
        { w with disk := op.apply w.disk, drain := .passing records ops asks }
  | bump : World.Moves w .bump { w with generation := w.generation + 1 }
  | recover {expired : QueueRecord → Bool} {order : List QueueRecord}
      (horder : order.Perm w.disk.queue) :
      World.Moves w (.recover expired order)
        { disk := recover k expired order w.disk, accepted := w.accepted }

variable {k}

theorem World.Moves.ofFrom {w : World} {a : Action} {drain : Drain}
    (h : w.drain.From drain) : World.Moves k w a { w with drain := drain } :=
  .drain (fun r hr => .inl (h.holds r hr)) (fun _ => h.quiet) fun _ hr => .inl hr

theorem stepRecord_eq {w w' : World} {f : QueueRecord → List QueueRecord → World}
    (h : stepRecord w f = some w') :
    ∃ r rest, w.drain = .passing (r :: rest) [] [] ∧ w' = f r rest := by
  unfold stepRecord at h
  split at h
  · next r rest hdrain => exact ⟨r, rest, hdrain, (Option.some.inj h).symm⟩
  · cases h

theorem stepTask_eq {w w' : World} {sessionId : String} {f : Task → Option World}
    (h : stepTask w sessionId f = some w') : ∃ t, w.tasks sessionId = some t ∧ f t = some w' :=
  Option.bind_eq_some_iff.mp h

theorem step_moves {w w' : World} {a : Action} (h : w.step k a = some w') :
    World.Moves k w a w' := by
  cases a with
  | capture sessionId stages rescue =>
      simp only [World.step] at h
      split at h
      · next hfree =>
          cases h
          exact .take rfl (by simpa using hfree.1) ⟨rfl, rfl, rfl⟩ fun _ => rfl
      · cases h
  | begin waiting =>
      simp only [World.step] at h
      split at h
      · next hfree =>
          cases h
          exact .take rfl (by simpa using hfree.2) ⟨rfl, rfl, rfl⟩ fun hcapturing => nomatch hcapturing
      · cases h
  | enter sessionId cancelled flags =>
      obtain ⟨t, htask, h⟩ := stepTask_eq h
      obtain ⟨t', henter, rfl⟩ := Option.map_eq_some_iff.mp h
      exact .enter htask henter
  | write sessionId =>
      obtain ⟨t, htask, h⟩ := stepTask_eq h
      obtain ⟨⟨op, t'⟩, hnext, rfl⟩ := Option.map_eq_some_iff.mp h
      unfold Task.next at hnext
      split at hnext
      · cases hnext
      · next step steps hsteps =>
          cases hnext
          exact .write htask hsteps
  | fail sessionId paused =>
      obtain ⟨t, htask, h⟩ := stepTask_eq h
      obtain ⟨t', hfail, rfl⟩ := Option.map_eq_some_iff.mp h
      unfold Task.fail at hfail
      split at hfail
      · cases hfail
      · next step steps hsteps =>
          cases hfail
          exact .fail htask hsteps ⟨rfl, rfl, rfl, rfl⟩
  | finish sessionId =>
      obtain ⟨t, htask, h⟩ := stepTask_eq h
      split at h
      · next hdone =>
          cases h
          exact .finish htask hdone.1
      · cases h
  | list =>
      simp only [World.step] at h
      split at h
      · cases h
        exact .drain (fun r hr => nomatch hr) (fun _ op hop => nomatch hop) fun _ hr => .inl hr
      · cases h
  | read =>
      simp only [World.step] at h
      split at h
      · next name names found hdrain =>
          cases h
          refine .drain (fun r hr => ?_) (fun _ op hop => nomatch hop) fun _ hr => .inl hr
          rcases List.mem_append.mp hr with hr | hr
          · exact .inl ⟨r, by rw [hdrain]; exact hr, .refl r⟩
          · refine .inr ⟨rfl, ?_⟩
            unfold World.reads
            rw [hdrain]
            exact Option.mem_toList.mp hr
      · cases h
  | pass =>
      simp only [World.step] at h
      split at h
      · next found hdrain =>
          cases h
          refine .drain (fun r hr => .inl ⟨r, ?_, .refl r⟩) (fun _ op hop => nomatch hop)
            fun _ hr => .inl hr
          rw [hdrain]
          rcases hr with hr | hr
          · exact mem_orderedQueue hr
          · exact nomatch hr
      · cases h
  | skip =>
      obtain ⟨r, rest, hdrain, rfl⟩ := stepRecord_eq h
      refine .ofFrom ?_
      rw [hdrain]
      exact Drain.from_delete (fun s hs => List.mem_cons_of_mem _ hs) fun op hop => nomatch hop
  | drop =>
      obtain ⟨r, rest, hdrain, rfl⟩ := stepRecord_eq h
      refine .ofFrom ?_
      rw [hdrain]
      exact Drain.from_delete (fun s hs => List.mem_cons_of_mem _ hs) fun op => deleteJob_quiet
  | persist upload recreates =>
      obtain ⟨r, rest, hdrain, rfl⟩ := stepRecord_eq h
      refine .ofFrom ?_
      rw [hdrain]
      refine Drain.from_write (fun s hs => ?_) ⟨rfl, rfl, rfl, rfl⟩
      rcases List.mem_cons.mp hs with rfl | hs
      · exact .inl rfl
      · exact .inr (List.mem_cons_of_mem _ hs)
  | accept =>
      obtain ⟨r, rest, hdrain, rfl⟩ := stepRecord_eq h
      refine .drain (fun s hs => .inl ⟨s, hs, .refl s⟩) (fun hquiet => hquiet) fun s hs => ?_
      rcases List.mem_cons.mp hs with rfl | hs
      · rw [hdrain]
        exact .inr (.inl (List.mem_cons_self ..))
      · exact .inl hs
  | answer outcome =>
      obtain ⟨r, rest, hdrain, rfl⟩ := stepRecord_eq h
      have hfrom := @drainAnswer_from w.disk r rest outcome
      refine .drain (fun s hs => .inl ?_) (fun _ => hfrom.quiet) fun s hs => ?_
      · rw [hdrain]
        exact hfrom.holds s hs
      · split at hs
        · rcases List.mem_cons.mp hs with rfl | hs
          · rw [hdrain]
            exact .inr (.inl (List.mem_cons_self ..))
          · exact .inl hs
        · exact .inl hs
  | drainWrite =>
      simp only [World.step] at h
      split at h
      · next hdrain =>
          cases h
          exact .drainWrite hdrain
      · cases h
  | ask =>
      simp only [World.step] at h
      split at h
      · next records sessionId stage asks hdrain =>
          cases h
          refine .drain (fun r hr => .inl ⟨r, ?_, .refl r⟩) (fun _ op hop => nomatch hop)
            fun _ hr => .inl hr
          rw [hdrain]
          exact hr
      · cases h
  | abort =>
      cases h
      exact .drain (fun r hr => nomatch hr) (fun _ op hop => nomatch hop) fun _ hr => .inl hr
  | bump =>
      cases h
      exact .bump
  | recover expired order =>
      simp only [World.step] at h
      split at h
      · next horder =>
          cases h
          exact .recover horder
      · cases h

theorem enter_cases {flags : CommitFlags} {current cancelled : Bool} {sessionId : String}
    {d : Disk} {t t' : Task}
    (h : t.enter k flags current cancelled sessionId d = some t') :
    t.steps = [] ∧ t'.done = [] ∧ t'.generation = t.generation ∧
      ((∃ c, t.packed = some c ∧ t'.packed = none ∧ t'.capturing = t.capturing ∧
          t'.steps = if current && !cancelled then commitSteps k flags c
            else [⟨.rmPartial c.archiveId, []⟩]) ∨
        (∃ stage rest, t.packed = none ∧ t.stages = stage :: rest ∧
          t'.capturing = (t.capturing || stage.ofCapture) ∧
          t'.steps = (stage.expand current sessionId d rest).steps ∧
          t'.packed = (stage.expand current sessionId d rest).packed)) := by
  unfold Task.enter at h
  split at h
  · cases h
  · next hsteps =>
      rw [not_not] at hsteps
      split at h
      · next c hpacked =>
          cases h
          exact ⟨hsteps, rfl, rfl, .inl ⟨c, hpacked, rfl, rfl, rfl⟩⟩
      · cases h
      · next stage rest hpacked hstages =>
          cases h
          exact ⟨hsteps, rfl, rfl, .inr ⟨stage, rest, hpacked, hstages, rfl, rfl, rfl⟩⟩

theorem setTask_self (w : World) (sessionId : String) (t : Option Task) :
    (w.setTask sessionId t).tasks sessionId = t := if_pos rfl

theorem setTask_other (w : World) {sessionId id : String} (h : id ≠ sessionId)
    (t : Option Task) : (w.setTask sessionId t).tasks id = w.tasks id := if_neg h

theorem setTask_cases {w : World} {sessionId id : String} {t : Option Task} {u : Task}
    (h : (w.setTask sessionId t).tasks id = some u) :
    (id = sessionId ∧ t = some u) ∨ (id ≠ sessionId ∧ w.tasks id = some u) := by
  by_cases hid : id = sessionId
  · subst hid
    exact .inl ⟨rfl, (setTask_self w id t).symm.trans h⟩
  · exact .inr ⟨hid, (setTask_other w hid t).symm.trans h⟩

theorem step_idle {w w' : World} {a : Action} (h : w.step k a = some w') {sessionId : String}
    (htakes : a.takes ≠ some sessionId) (hidle : w.tasks sessionId = none) :
    w'.tasks sessionId = none := by
  cases step_moves h with
  | @take _ id t waiting hid _ _ _ =>
      refine (if_neg fun heq => ?_).trans hidle
      rw [heq] at htakes
      exact htakes hid
  | @enter id cancelled flags t t' htask _ =>
      refine (if_neg fun heq => ?_).trans hidle
      rw [heq, htask] at hidle
      cases hidle
  | @write id t step steps htask _ =>
      refine (if_neg fun heq => ?_).trans hidle
      rw [heq, htask] at hidle
      cases hidle
  | @fail id paused t t' step steps htask _ _ =>
      refine (if_neg fun heq => ?_).trans hidle
      rw [heq, htask] at hidle
      cases hidle
  | @finish id t _ _ =>
      by_cases heq : sessionId = id
      · exact if_pos heq
      · exact (if_neg heq).trans hidle
  | drain _ _ _ => exact hidle
  | drainWrite _ => exact hidle
  | bump => exact hidle
  | recover _ => rfl

theorem run_idle {actions : List Action} {w w' : World}
    (h : runActions (World.step k) actions w = some w') {sessionId : String}
    (htakes : ∀ a ∈ actions, a.takes ≠ some sessionId) (hidle : w.tasks sessionId = none) :
    w'.tasks sessionId = none := by
  induction actions generalizing w with
  | nil =>
      cases h
      exact hidle
  | cons a actions ih =>
      obtain ⟨u, hstep, hrest⟩ := Option.bind_eq_some_iff.mp h
      exact ih hrest (fun b hb => htakes b (List.mem_cons_of_mem _ hb))
        (step_idle hstep (htakes a (List.mem_cons_self ..)) hidle)

/-! ## Ownership -/

/-- Records by session, jobs by archive, each named as its own. -/
structure Disk.Kept (k : StateKey) (d : Disk) : Prop where
  one : d.OneRecord
  ids : DistinctIds d.queue
  names : ∀ sessionId s, d.loadSession sessionId = some s → s.OwnNames k
  queue : ∀ r ∈ d.queue, r.Named k

theorem putRecord_distinct {queue : List QueueRecord} (h : DistinctIds queue) (r : QueueRecord) :
    DistinctIds (putRecord queue r) := by
  refine List.pairwise_append.mpr ⟨List.Pairwise.sublist List.filter_sublist h,
    List.pairwise_singleton _ _, fun s hs t ht => ?_⟩
  rw [List.mem_singleton.mp ht]
  simpa using (List.mem_filter.mp hs).2

theorem Disk.Kept.apply {d : Disk} (h : d.Kept k) {sessionId : String} {op : FileOp}
    (hop : op.OwnedBy k sessionId) : (op.apply d).Kept k := by
  cases op with
  | writeQueue r =>
      refine ⟨h.one, putRecord_distinct h.ids r, h.names, fun s hs => ?_⟩
      rcases mem_putRecord.mp hs with ⟨hs, -⟩ | rfl
      · exact h.queue s hs
      · exact hop
  | rmQueue archiveId =>
      exact ⟨h.one, List.Pairwise.sublist List.filter_sublist h.ids, h.names,
        fun s hs => h.queue s (List.mem_of_mem_filter hs)⟩
  | saveSession s =>
      refine ⟨h.one.save s, h.ids, fun id s' hs' => ?_, h.queue⟩
      rw [loadSession_save] at hs'
      split at hs'
      · cases hs'
        exact hop.2
      · exact h.names id s' hs'
  | _ => exact ⟨h.one, h.ids, h.names, h.queue⟩

theorem recover_record {expired : QueueRecord → Bool} {order : List QueueRecord} {d : Disk}
    {sessionId : String} {s : SessionState}
    (h : (recover k expired order d).loadSession sessionId = some s) :
    ∃ s', d.loadSession sessionId = some s' ∧ s'.unstopped = s.unstopped := by
  have hsame := recoverQueue_unstopped k d.pending expired order ⟨{ d with tmp := [] }, []⟩
    sessionId
  rw [show (recoverQueue k d.pending expired order ⟨{ d with tmp := [] }, []⟩).disk.loadSession
    sessionId = some s from h] at hsame
  obtain ⟨s', hload, heq⟩ := Option.map_eq_some_iff.mp hsame.symm
  exact ⟨s', hload, heq⟩

theorem unstopped_ownNames {s s' : SessionState} (h : s'.unstopped = s.unstopped)
    (hown : s'.OwnNames k) : s.OwnNames k := by
  have hid : s.sessionId = s'.sessionId := congrArg (·.sessionId) h.symm
  have hnames : s.namedBaselines = s'.namedBaselines := congrArg (·.namedBaselines) h.symm
  exact hown.of_subset hid fun b hb => hnames ▸ hb

theorem Disk.Kept.recover {d : Disk} (h : d.Kept k) (expired : QueueRecord → Bool)
    (order : List QueueRecord) : (recover k expired order d).Kept k := by
  have hsub := recoverQueue_sublist k d.pending expired order ⟨{ d with tmp := [] }, []⟩
  refine ⟨recoverQueue_oneRecord k d.pending expired order h.one,
    List.Pairwise.sublist hsub h.ids, fun id s hs => ?_, fun r hr => h.queue r (hsub.mem hr)⟩
  obtain ⟨s', hload, heq⟩ := recover_record hs
  exact unstopped_ownNames heq (h.names id s' hload)

/-! ## Handlers -/

/-- What the handlers of a failed operation do. -/
def FileOp.cleansUp : FileOp → Bool
  | .rmPartial _ | .rmPending _ => true
  | _ => false

theorem cleansUp_quiet {op : FileOp} (h : op.cleansUp = true) : op.quiet = true := by
  cases op <;> first | rfl | cases h

/-- Every handler of every step only cleans up. -/
def CleanHandlers (steps : List (Step FileOp)) : Prop :=
  ∀ step ∈ steps, ∀ op ∈ step.onError, op.cleansUp = true

theorem asSteps_handlers {ops : List FileOp} :
    CleanHandlers (asSteps ops) := by
  intro step hstep op hop
  obtain ⟨op', -, rfl⟩ := List.mem_map.mp hstep
  exact nomatch hop

theorem expand_handlers {current : Bool} {sessionId : String} {d : Disk} {rest : List Stage}
    (stage : Stage) : ∀ step ∈ (stage.expand current sessionId d rest).steps,
      ∀ op ∈ step.onError, op.cleansUp = true := by
  have hnil : ∀ step ∈ ([] : List (Step FileOp)), ∀ op ∈ step.onError, op.cleansUp = true :=
    fun _ h => nomatch h
  cases stage with
  | askServer r answer =>
      simp only [Stage.expand, expandAskServer]
      split
      · exact hnil
      · split
        · exact hnil
        · split
          · exact asSteps_handlers
          · exact asSteps_handlers
          · exact hnil
          · exact hnil
  | capture r scan =>
      simp only [Stage.expand, expandCapture]
      split
      · exact hnil
      · split
        · exact hnil
        · split
          · exact asSteps_handlers
          · cases scan with
            | unchanged turn options =>
                dsimp only
                split
                · exact asSteps_handlers
                · exact hnil
            | changed p =>
                intro step hstep op hop
                rw [List.mem_singleton.mp hstep] at hop
                rw [List.mem_singleton.mp hop]
                rfl
  | rewind sequence scan =>
      simp only [Stage.expand]
      split
      · unfold expandRewind
        split
        · exact asSteps_handlers
        · split
          · exact asSteps_handlers
          · split
            · exact asSteps_handlers
            · split <;> exact asSteps_handlers
      · exact hnil
  | continueChain found scan =>
      simp only [Stage.expand]
      split
      · unfold expandContinueChain
        split
        · exact asSteps_handlers
        · split <;> exact asSteps_handlers
      · exact hnil
  | _ =>
      simp only [Stage.expand]
      split
      · exact asSteps_handlers
      · exact hnil

theorem commitSteps_handlers (flags : CommitFlags) (c : Captured) :
    ∀ step ∈ commitSteps k flags c, ∀ op ∈ step.onError, op.cleansUp = true := by
  intro step hstep op hop
  simp only [commitSteps, List.mem_append, List.mem_cons, List.not_mem_nil, or_false,
    Option.mem_toList, Option.map_eq_some_iff] at hstep
  rcases hstep with ((rfl | rfl | rfl | rfl) | ⟨name, -, rfl⟩) | rfl
  all_goals simp only [List.mem_cons, List.not_mem_nil, or_false] at hop
  · rw [hop]
    rfl
  · rcases hop with rfl | rfl <;> rfl
  all_goals
    rw [hop]
    rfl

/-! ## The invariant of every run -/

/-- A task that keeps to its session. -/
structure TaskKept (k : StateKey) (sessionId : String) (t : Task) : Prop where
  steps : OwnSteps k sessionId t.steps
  packed : ∀ c ∈ t.packed, c.state.sessionId = sessionId ∧ c.state.OwnNames k
  handlers : CleanHandlers t.steps

structure Kept (k : StateKey) (w : World) : Prop where
  disk : w.disk.Kept k
  drain : ∀ r, w.drain.Holds r → r.Named k
  quiet : ∀ op ∈ w.drain.ops, op.quiet = true
  tasks : ∀ sessionId t, w.tasks sessionId = some t → TaskKept k sessionId t

theorem kept_start : Kept k {} where
  disk := ⟨List.nodup_nil, List.Pairwise.nil, fun _ _ h => (nomatch h), fun _ h => nomatch h⟩
  drain := fun _ h => nomatch h
  quiet := fun _ h => nomatch h
  tasks := fun _ _ h => nomatch h

theorem QueueRecord.SameJob.named {r r' : QueueRecord} (h : r.SameJob r') (h' : r'.Named k) :
    r.Named k :=
  ⟨by rw [h.sealedFile, h.archiveId, h'.sealedFile],
    by rw [h.sessionKey, h.request, h'.sessionKey]⟩

theorem Drain.holds_write {drain : Drain} {r : QueueRecord} (h : .writeQueue r ∈ drain.ops) :
    drain.Holds r := by
  cases drain with
  | idle => exact nomatch h
  | listing names found => exact nomatch h
  | passing records ops asks => exact .inr h

theorem Kept.drainOwned {w : World} (h : Kept k w) {op : FileOp} (hop : op ∈ w.drain.ops)
    (sessionId : String) : op.OwnedBy k sessionId := by
  have hquiet := h.quiet op hop
  cases op with
  | writeQueue r => exact h.drain r (Drain.holds_write hop)
  | saveSession _ => cases hquiet
  | writeBaseline _ => cases hquiet
  | rmBaseline _ => cases hquiet
  | _ => trivial

theorem Drain.holds_tail {records : List QueueRecord} {op : FileOp} {ops : List FileOp}
    {asks : List (String × Stage)} {r : QueueRecord}
    (h : (Drain.passing records ops asks).Holds r) :
    (Drain.passing records (op :: ops) asks).Holds r := by
  rcases h with h | h
  · exact .inl h
  · exact .inr (List.mem_cons_of_mem _ h)

theorem TaskKept.enter {sessionId : String} {flags : CommitFlags} {current cancelled : Bool}
    {d : Disk} {t t' : Task} (h : TaskKept k sessionId t) (hdisk : d.Kept k)
    (henter : t.enter k flags current cancelled sessionId d = some t') :
    TaskKept k sessionId t' := by
  obtain ⟨-, -, -, hcases⟩ := enter_cases henter
  rcases hcases with ⟨c, hpacked, hnone, -, hsteps⟩ | ⟨stage, rest, -, -, -, hsteps, hpacked⟩
  · obtain ⟨hid, hown⟩ := h.packed c hpacked
    refine ⟨?_, fun c' hc' => ?_, ?_⟩
    · rw [hsteps]
      split
      · exact hid ▸ commitSteps_owned flags hown
      · intro step hstep op hop
        rw [List.mem_singleton.mp hstep] at hop
        rw [List.mem_singleton.mp hop]
        trivial
    · rw [hnone] at hc'
      exact nomatch hc'
    · rw [hsteps]
      split
      · exact commitSteps_handlers flags c
      · intro step hstep op hop
        rw [List.mem_singleton.mp hstep] at hop
        exact nomatch hop
  · obtain ⟨hown, hready⟩ := Stage.expand_owned (hdisk.names sessionId) current rest stage
    refine ⟨?_, ?_, ?_⟩
    · rw [hsteps]
      exact hown
    · rw [hpacked]
      exact hready
    · rw [hsteps]
      exact expand_handlers stage

theorem Kept.step {w w' : World} {a : Action} (h : Kept k w) (hstep : w.step k a = some w') :
    Kept k w' := by
  cases step_moves hstep with
  | @take _ sessionId t waiting _ hfree hnew _ =>
      obtain ⟨hsteps, -, hpacked⟩ := hnew
      refine ⟨h.disk, h.drain, h.quiet, fun id u hu => ?_⟩
      rcases setTask_cases (t := some t) hu with ⟨rfl, heq⟩ | ⟨-, hold⟩
      · cases heq
        refine ⟨?_, ?_, ?_⟩
        · rw [hsteps]
          exact ownSteps_nil
        · rw [hpacked]
          exact fun _ hc => nomatch hc
        · rw [hsteps]
          exact fun _ hs => nomatch hs
      · exact h.tasks id u hold
  | @enter sessionId cancelled flags t t' htask henter =>
      refine ⟨h.disk, h.drain, h.quiet, fun id u hu => ?_⟩
      rcases setTask_cases (t := some t') hu with ⟨rfl, heq⟩ | ⟨-, hold⟩
      · cases heq
        exact (h.tasks id t htask).enter h.disk henter
      · exact h.tasks id u hold
  | @write sessionId t step steps htask hsteps =>
      obtain ⟨hown, hpacked, hhandlers⟩ := h.tasks sessionId t htask
      rw [hsteps] at hown hhandlers
      have hop := hown step (List.mem_cons_self ..) step.op (List.mem_cons_self ..)
      refine ⟨h.disk.apply hop, h.drain, h.quiet, fun id u hu => ?_⟩
      rcases setTask_cases (t := some { t with steps := steps, done := t.done ++ [step.op] }) hu
        with ⟨rfl, heq⟩ | ⟨-, hold⟩
      · cases heq
        exact ⟨fun s hs => hown s (List.mem_cons_of_mem _ hs), hpacked,
          fun s hs => hhandlers s (List.mem_cons_of_mem _ hs)⟩
      · exact h.tasks id u hold
  | @fail sessionId paused t t' step steps htask hsteps hfail =>
      obtain ⟨hnew, -, hpacked, -⟩ := hfail
      have hown := (h.tasks sessionId t htask).steps
      rw [hsteps] at hown
      refine ⟨h.disk, h.drain, h.quiet, fun id u hu => ?_⟩
      rcases setTask_cases (t := some t') hu with ⟨rfl, heq⟩ | ⟨-, hold⟩
      · cases heq
        refine ⟨?_, ?_, ?_⟩
        · rw [hnew]
          exact ownSteps_asSteps fun op hop =>
            hown step (List.mem_cons_self ..) op (List.mem_cons_of_mem _ hop)
        · rw [hpacked]
          exact fun _ hc => nomatch hc
        · rw [hnew]
          exact asSteps_handlers
      · exact h.tasks id u hold
  | @finish sessionId t htask _ =>
      refine ⟨h.disk, h.drain, h.quiet, fun id u hu => ?_⟩
      rcases setTask_cases (t := none) hu with ⟨-, heq⟩ | ⟨-, hold⟩
      · cases heq
      · exact h.tasks id u hold
  | @drain _ drain accepted waiting hholds hops _ =>
      refine ⟨h.disk, fun r hr => ?_, hops h.quiet, h.tasks⟩
      rcases hholds r hr with ⟨r', hr', hsame⟩ | ⟨-, hreads⟩
      · exact hsame.named (h.drain r' hr')
      · unfold World.reads at hreads
        split at hreads
        · exact h.disk.queue r (List.mem_of_find?_eq_some hreads)
        · cases hreads
  | @drainWrite records op ops asks hdrain =>
      have hop : op ∈ w.drain.ops := by
        rw [hdrain]
        exact List.mem_cons_self ..
      refine ⟨h.disk.apply (h.drainOwned hop ""), fun r hr => h.drain r ?_,
        fun o ho => h.quiet o ?_, h.tasks⟩
      · rw [hdrain]
        exact Drain.holds_tail hr
      · rw [hdrain]
        exact List.mem_cons_of_mem _ ho
  | bump => exact ⟨h.disk, h.drain, h.quiet, h.tasks⟩
  | @recover expired order horder =>
      exact ⟨h.disk.recover expired order, fun _ hr => (nomatch hr), fun _ hop => (nomatch hop),
        fun _ _ ht => nomatch ht⟩

end

/-! ## Runs of one session -/

def exampleRegistration : Registration := { marker := "git" }

def examplePacked (archiveId : String) (turn : Nat) : Packed where
  turn := turn
  archiveId := archiveId
  size := 10
  sha256 := "h"
  kid := "kid"
  createdAt := "t"

/-- A session's next capture, from its lock to the end of its commit. -/
def captureActions (archiveId : String) (turn writes : Nat) : List Action :=
  [.capture "s" [.capture (some exampleRegistration) (.changed (examplePacked archiveId turn))]
      none, .enter "s" false {}, .write "s", .enter "s" false {}]
    ++ List.replicate writes (.write "s") ++ [.finish "s"]

end OmniRush.Archive
