import OmniRush.Archive.DrainOnce
import OmniRush.Lib.Lists
import OmniRush.Lib.Machine

/-!
# What one pass over the queue hands

The list of a pass has each session's jobs together, so a session is left whole. Of a session
that is not left the jobs handed and the jobs to come make up what is listed of it
(`PassOk.ahead`), and each handed one has its upload behind it (`PassOk.settled`).
-/

namespace OmniRush.Archive

/-! ## The list of a pass -/

abbrev ofSession (session : String) (jobs : List QueueRecord) : List QueueRecord :=
  ofKey QueueRecord.session session jobs

/-- The jobs of one session in upload order. -/
def sessionJobs (queue : List QueueRecord) (session : String) : List QueueRecord :=
  (queue.filter fun r => r.request.sessionId = session).insertionSort
    fun r s => r.request.sequence ≤ s.request.sequence

section

variable {queue : List QueueRecord} {session : String}

theorem session_of_mem_sessionJobs (queue : List QueueRecord) (session : String) :
    ∀ r ∈ sessionJobs queue session, r.session = session := fun r hr => by
  have hmem := (List.perm_insertionSort _ _).mem_iff.mp hr
  exact of_decide_eq_true (List.mem_filter.mp hmem).2

theorem orderedQueue_eq_flatMap (queue : List QueueRecord) :
    ∃ sessions : List String, sessions.Nodup ∧ (∀ r ∈ queue, r.session ∈ sessions) ∧
      orderedQueue queue = sessions.flatMap (sessionJobs queue) := by
  refine ⟨((queue.map (·.request.sessionId)).eraseDups).insertionSort
    fun s t => created (sessionJobs queue s) ≤ created (sessionJobs queue t), ?_, ?_, ?_⟩
  · exact (List.perm_insertionSort _ _).nodup_iff.mpr (nodup_eraseDups _)
  · intro r hr
    exact (List.perm_insertionSort _ _).mem_iff.mpr
      (List.mem_eraseDups.mpr (List.mem_map_of_mem hr))
  · rw [List.flatMap_def, List.map_insertionSort _
      (fun a b : List QueueRecord => created a ≤ created b) _ _ fun _ _ _ _ => Iff.rfl]
    rfl

theorem orderedQueue_grouped (queue : List QueueRecord) :
    Grouped QueueRecord.session (orderedQueue queue) := by
  obtain ⟨sessions, hnodup, -, heq⟩ := orderedQueue_eq_flatMap queue
  rw [heq]
  exact grouped_flatMap hnodup fun session => session_of_mem_sessionJobs queue session

theorem ofSession_orderedQueue (queue : List QueueRecord) (session : String) :
    ofSession session (orderedQueue queue) = sessionJobs queue session := by
  obtain ⟨sessions, hnodup, hmem, heq⟩ := orderedQueue_eq_flatMap queue
  rw [heq, ofSession, ofKey_flatMap hnodup fun s => session_of_mem_sessionJobs queue s]
  split
  · rfl
  · next hnot =>
      refine (List.eq_nil_iff_forall_not_mem.mpr fun r hr => hnot ?_).symm
      have hin := (List.perm_insertionSort _ _).mem_iff.mp hr
      exact session_of_mem_sessionJobs queue session r hr ▸ hmem r (List.mem_of_mem_filter hin)

end

/-! ## What a pass has done -/

def handedRecords (log : List PassEntry) : List QueueRecord :=
  log.filterMap fun
    | .handed r => some r
    | _ => none

@[simp] theorem handedRecords_append (log log' : List PassEntry) :
    handedRecords (log ++ log') = handedRecords log ++ handedRecords log' :=
  List.filterMap_append ..

@[simp] theorem handedRecords_handed (r : QueueRecord) : handedRecords [.handed r] = [r] := rfl

theorem ofSession_handed (session : String) (log : List PassEntry) (r : QueueRecord) :
    ofSession session (handedRecords (log ++ [.handed r])) =
      ofSession session (handedRecords log) ++ if r.session = session then [r] else [] := by
  rw [handedRecords_append, handedRecords_handed, ofSession, ofKey_append, ofKey_cons]
  rfl

theorem handedRecords_other {e : PassEntry} (h : ∀ r, e ≠ .handed r) : handedRecords [e] = [] := by
  cases e with
  | handed r => exact absurd rfl (h r)
  | ended | dropped | expired | waiting => rfl

/-- All that is noted of a session are jobs handed and uploaded. -/
def AllUploaded (session : String) (log : List PassEntry) : Prop :=
  ∀ e ∈ log, e.record.session = session →
    ∃ r, (e = .handed r ∧ .ended r .uploaded ∈ log) ∨ e = .ended r .uploaded

/-- A job was handed when all that was noted of its session were uploads. -/
def Steady (log : List PassEntry) : Prop :=
  ∀ before r, before ++ [.handed r] <+: log → AllUploaded r.session before

section

variable {session : String} {log : List PassEntry} {e : PassEntry} {r : QueueRecord}

theorem AllUploaded.other (h : AllUploaded session log) (hne : e.record.session ≠ session) :
    AllUploaded session (log ++ [e]) := by
  intro e' he' hsession
  rcases List.mem_append.mp he' with he' | he'
  · obtain ⟨r, ⟨heq, hmem⟩ | heq⟩ := h e' he' hsession
    · exact ⟨r, .inl ⟨heq, List.mem_append_left _ hmem⟩⟩
    · exact ⟨r, .inr heq⟩
  · rw [List.mem_singleton.mp he'] at hsession
    exact absurd hsession hne

theorem AllUploaded.uploaded (h : AllUploaded session log) :
    AllUploaded session ((log ++ [.handed r]) ++ [.ended r .uploaded]) := by
  have hlast : (.ended r .uploaded : PassEntry) ∈ (log ++ [.handed r]) ++ [.ended r .uploaded] :=
    List.mem_append_right _ (List.mem_singleton_self _)
  intro e he hsession
  rcases List.mem_append.mp he with he | he
  · rcases List.mem_append.mp he with he | he
    · obtain ⟨r', ⟨heq, hmem⟩ | heq⟩ := h e he hsession
      · exact ⟨r', .inl ⟨heq, List.mem_append_left _ (List.mem_append_left _ hmem)⟩⟩
      · exact ⟨r', .inr heq⟩
    · exact ⟨r, .inl ⟨List.mem_singleton.mp he, hlast⟩⟩
  · exact ⟨r, .inr (List.mem_singleton.mp he)⟩

theorem Steady.snoc (h : Steady log) (hnew : ∀ r, e = .handed r → AllUploaded r.session log) :
    Steady (log ++ [e]) := by
  intro before r hprefix
  rcases List.prefix_concat_iff.mp hprefix with heq | hprefix
  · obtain ⟨rfl, he⟩ := List.append_inj' heq rfl
    exact hnew r (List.singleton_inj.mp he).symm
  · exact h before r hprefix

end

/-! ## One pass -/

/-- The pass hands no further job of the session. -/
def DrainPass.Left (stopped : List String) (p : DrainPass) (session : String) : Prop :=
  session ∈ stopped ∨ session ∈ p.held ∨ (∃ jobs reason, p.stage = .dropping session jobs reason) ∨
    ofSession session p.todo = []

structure PassOk (stopped : List String) (p : DrainPass) : Prop where
  listed : ∃ found, p.listed = orderedQueue found
  listing : ∀ names found, p.stage = .listing names found → p.log = [] ∧ p.todo = []
  grouped : Grouped QueueRecord.session p.todo
  handed : ∀ session, ofSession session (handedRecords p.log) <+: ofSession session p.listed
  ahead : ∀ session, ¬ p.Left stopped session → ofSession session p.listed =
    ofSession session (handedRecords p.log) ++ ofSession session p.todo
  settled : ∀ session, ¬ p.Left stopped session →
    (∀ listed record, p.stage = .uploading listed record → record.session ≠ session) →
    AllUploaded session p.log
  uploading : ∀ listed record, p.stage = .uploading listed record →
    record.session = listed.session ∧
      ∃ before, p.log = before ++ [.handed listed] ∧ AllUploaded listed.session before
  steady : Steady p.log

section

variable {stopped stopped' : List String} {p p' : DrainPass} {session : String} {e : PassEntry}

theorem DrainPass.Left.mono (hsub : stopped ⊆ stopped') (h : p.Left stopped session) :
    p.Left stopped' session := h.imp_left fun hmem => hsub hmem

theorem PassOk.mono (h : PassOk stopped p) (hsub : stopped ⊆ stopped') : PassOk stopped' p :=
  { h with
    ahead := fun session hleft => h.ahead session fun hl => hleft (hl.mono hsub)
    settled := fun session hleft => h.settled session fun hl => hleft (hl.mono hsub) }

theorem passOk_begin (names : List String) (found : List QueueRecord) :
    PassOk stopped { stage := .listing names found } where
  listed := ⟨[], rfl⟩
  listing := fun _ _ _ => ⟨rfl, rfl⟩
  grouped := .nil
  handed := fun _ => List.nil_prefix
  ahead := fun _ hleft => absurd (.inr (.inr (.inr rfl))) hleft
  settled := fun _ _ _ e he => nomatch he
  uploading := fun _ _ heq => nomatch heq
  steady := fun before r hprefix => by
    have hlen := hprefix.length_le
    simp at hlen

theorem PassOk.move (h : PassOk stopped p) (hlisted : p'.listed = p.listed)
    (hlog : p'.log = p.log) (htodo : p'.todo = p.todo)
    (hlisting : ∀ names found, p'.stage ≠ .listing names found)
    (huploading : ∀ listed record, p.stage ≠ .uploading listed record)
    (hstage : ∀ listed record, p'.stage ≠ .uploading listed record)
    (hleft : ∀ session, p.Left stopped session → p'.Left stopped session) :
    PassOk stopped p' := by
  refine ⟨hlisted ▸ h.listed, fun _ _ heq => absurd heq (hlisting _ _), htodo ▸ h.grouped,
    fun session => ?_, fun session hnot => ?_, fun session hnot _ => ?_,
    fun _ _ heq => absurd heq (hstage _ _), hlog ▸ h.steady⟩
  · rw [hlog, hlisted]
    exact h.handed session
  · rw [hlog, hlisted, htodo]
    exact h.ahead session fun hl => hnot (hleft session hl)
  · rw [hlog]
    exact h.settled session (fun hl => hnot (hleft session hl))
      fun _ _ heq => absurd heq (huploading _ _)

theorem PassOk.leave (h : PassOk stopped p) (hlisted : p'.listed = p.listed)
    (hlog : p'.log = p.log ++ [e]) (he : ∀ r, e ≠ .handed r)
    (hgrouped : Grouped QueueRecord.session p'.todo)
    (hlisting : ∀ names found, p'.stage ≠ .listing names found)
    (huploading : ∀ listed record, p'.stage ≠ .uploading listed record)
    (hentry : p'.Left stopped' e.record.session)
    (hleft : ∀ session, ¬ p'.Left stopped' session → e.record.session ≠ session →
      ¬ p.Left stopped session ∧ ofSession session p'.todo = ofSession session p.todo ∧
        ∀ listed record, p.stage = .uploading listed record → record.session ≠ session) :
    PassOk stopped' p' := by
  have hother : ∀ session, ¬ p'.Left stopped' session → e.record.session ≠ session := by
    rintro session hnot rfl
    exact hnot hentry
  have hhanded : handedRecords p'.log = handedRecords p.log := by
    rw [hlog, handedRecords_append, handedRecords_other he, List.append_nil]
  refine ⟨hlisted ▸ h.listed, fun _ _ heq => absurd heq (hlisting _ _), hgrouped,
    fun session => ?_, fun session hnot => ?_, fun session hnot _ => ?_,
    fun _ _ heq => absurd heq (huploading _ _), ?_⟩
  · rw [hhanded, hlisted]
    exact h.handed session
  · obtain ⟨hbefore, htodo, -⟩ := hleft session hnot (hother session hnot)
    rw [hhanded, hlisted, htodo]
    exact h.ahead session hbefore
  · obtain ⟨hbefore, -, hup⟩ := hleft session hnot (hother session hnot)
    rw [hlog]
    exact (h.settled session hbefore hup).other (hother session hnot)
  · rw [hlog]
    exact h.steady.snoc fun r heq => absurd heq (he r)

end

/-! ## Steps of a pass -/

namespace DrainState

section

variable {clock : DrainClock} {sessionOf : String → String} {d t : DrainState} {p p' : DrainPass}

theorem subset_requestStop (session : String) :
    d.stoppedSessions ⊆ (d.requestStop session).stoppedSessions := by
  unfold requestStop
  split
  · exact List.Subset.refl _
  · exact List.subset_cons_self ..

theorem subset_dropped (session : String) (reason : DropReason) :
    d.stoppedSessions ⊆ (d.dropped session reason).stoppedSessions := by
  cases reason with
  | stopSession => exact subset_requestStop session
  | resetToNoBase | recoverSequenceConflict => exact List.Subset.refl _

theorem ofSession_skipped (hgrouped : Grouped QueueRecord.session p.todo) :
    Grouped QueueRecord.session (p.todo.dropWhile (d.skips p)) ∧ ∀ session,
      ofSession session (p.todo.dropWhile (d.skips p)) = ofSession session p.todo ∨
        ofSession session (p.todo.dropWhile (d.skips p)) = [] :=
  hgrouped.dropWhile fun a b hsame => by unfold skips; rw [hsame]

/-- What a look at the next job comes to. -/
inductive Looked (clock : DrainClock) (d : DrainState) (p : DrainPass) : DrainState → Prop where
  | finished (hrest : p.todo.dropWhile (d.skips p) = []) :
      Looked clock d p { d with pass := some { p with todo := [] } }
  | dropped {record : QueueRecord} {todo : List QueueRecord}
      (hrest : p.todo.dropWhile (d.skips p) = record :: todo)
      (hstopped : record.session ∈ d.stoppedSessions) :
      Looked clock d p { d.deleteJob record with
        pass := some { p with todo := todo, log := p.log ++ [.dropped record] } }
  | expired {record : QueueRecord} {todo : List QueueRecord}
      (hrest : p.todo.dropWhile (d.skips p) = record :: todo) :
      Looked clock d p { d with
        pass := some { p with
          todo := todo
          stage := .dropping record.session none .stopSession
          log := p.log ++ [.expired record] } }
  | waiting {record : QueueRecord} {todo : List QueueRecord}
      (hrest : p.todo.dropWhile (d.skips p) = record :: todo) :
      Looked clock d p { d with
        pass := some { p with
          todo := todo
          held := record.session :: p.held
          log := p.log ++ [.waiting record] } }
  | handed {record : QueueRecord} {todo : List QueueRecord}
      (hrest : p.todo.dropWhile (d.skips p) = record :: todo)
      (hstopped : record.session ∉ d.stoppedSessions) :
      Looked clock d p { d with
        pass := some { p with
          todo := todo
          stage := .uploading record record
          log := p.log ++ [.handed record] } }

theorem looked (clock : DrainClock) (d : DrainState) (p : DrainPass) :
    Looked clock d p (d.look clock p) := by
  unfold look
  split
  · next hrest => exact .finished hrest
  · next record todo hrest =>
      split
      · next hstopped => exact .dropped hrest hstopped
      · next hstopped =>
          split
          · exact .expired hrest
          · split
            · exact .waiting hrest
            · exact .handed hrest hstopped

section

variable {record : QueueRecord} {todo : List QueueRecord}

theorem ofSession_rest (h : PassOk d.stoppedSessions p)
    (hrest : p.todo.dropWhile (d.skips p) = record :: todo) {session : String}
    (hne : record.session ≠ session) (hsome : ofSession session todo ≠ []) :
    ofSession session todo = ofSession session p.todo := by
  have hcons : ofSession session (record :: todo) = ofSession session todo := by
    rw [ofSession, ofKey_cons, if_neg hne]
  rcases hrest ▸ (ofSession_skipped h.grouped).2 session with heq | heq
  · exact hcons.symm.trans heq
  · exact absurd (hcons.symm.trans heq) hsome

theorem grouped_rest (h : PassOk d.stoppedSessions p)
    (hrest : p.todo.dropWhile (d.skips p) = record :: todo) :
    Grouped QueueRecord.session todo :=
  (hrest ▸ (ofSession_skipped h.grouped).1 : Grouped QueueRecord.session (record :: todo)).tail

theorem not_left_of_rest (h : PassOk d.stoppedSessions p) (hstage : p.stage = .looking)
    (hrest : p.todo.dropWhile (d.skips p) = record :: todo) {session : String}
    (hnot : ¬ p'.Left d.stoppedSessions session) (hsub : ∀ x ∈ p.held, x ∈ p'.held)
    (htodo : p'.todo = todo) (hne : record.session ≠ session) :
    ¬ p.Left d.stoppedSessions session ∧ ofSession session p'.todo = ofSession session p.todo := by
  have hsome : ofSession session todo ≠ [] := fun heq =>
    hnot (.inr (.inr (.inr (htodo ▸ heq))))
  have hsame := ofSession_rest h hrest hne hsome
  refine ⟨fun hl => ?_, htodo ▸ hsame⟩
  obtain hl | hl | ⟨jobs, reason, hl⟩ | hl := hl
  · exact hnot (.inl hl)
  · exact hnot (.inr (.inl (hsub _ hl)))
  · exact absurd (hstage.symm.trans hl) (by simp)
  · exact hsome (hsame.trans hl)

theorem passOk_left (h : PassOk d.stoppedSessions p) (hstage : p.stage = .looking)
    (hrest : p.todo.dropWhile (d.skips p) = record :: todo) {e : PassEntry}
    (htodo : p'.todo = todo) (hsub : ∀ x ∈ p.held, x ∈ p'.held) (hlisted : p'.listed = p.listed)
    (hlog : p'.log = p.log ++ [e]) (hrecord : e.record = record) (he : ∀ r, e ≠ .handed r)
    (hlisting : ∀ names found, p'.stage ≠ .listing names found)
    (huploading : ∀ listed record, p'.stage ≠ .uploading listed record)
    (hleft : p'.Left d.stoppedSessions record.session) : PassOk d.stoppedSessions p' := by
  refine h.leave hlisted hlog he (htodo ▸ grouped_rest h hrest) hlisting huploading
    (hrecord ▸ hleft) fun session hnot hne => ?_
  obtain ⟨hbefore, hsame⟩ :=
    not_left_of_rest h hstage hrest hnot hsub htodo (hrecord ▸ hne)
  exact ⟨hbefore, hsame, fun _ _ heq => absurd (hstage.symm.trans heq) (by simp)⟩

/-- The job the pass looks at is the first of its session that was not handed. -/
theorem passOk_handed (h : PassOk d.stoppedSessions p) (hstage : p.stage = .looking)
    (hrest : p.todo.dropWhile (d.skips p) = record :: todo)
    (hstopped : record.session ∉ d.stoppedSessions) :
    PassOk d.stoppedSessions { p with
      todo := todo
      stage := .uploading record record
      log := p.log ++ [.handed record] } := by
  have hfirst : ofSession record.session (record :: todo) =
      record :: ofSession record.session todo := by
    rw [ofSession, ofKey_cons, if_pos rfl]
  have hall : ofSession record.session p.todo = record :: ofSession record.session todo := by
    rcases hrest ▸ (ofSession_skipped h.grouped).2 record.session with heq | heq
    · exact heq.symm.trans hfirst
    · exact absurd (hfirst.symm.trans heq) (List.cons_ne_nil _ _)
  have hskips : d.skips p record = false := by
    have hhead := List.head?_dropWhile_not (d.skips p) p.todo
    rw [hrest] at hhead
    exact hhead
  have hopen : ¬ p.Left d.stoppedSessions record.session := by
    rintro (hl | hl | ⟨jobs, reason, hl⟩ | hl)
    · exact hstopped hl
    · simp [skips, hl] at hskips
    · exact absurd (hstage.symm.trans hl) (by simp)
    · exact absurd (hall.symm.trans hl) (List.cons_ne_nil _ _)
  have hsettled : AllUploaded record.session p.log :=
    h.settled _ hopen fun _ _ heq => absurd (hstage.symm.trans heq) (by simp)
  have hahead := h.ahead _ hopen
  rw [hall] at hahead
  refine ⟨h.listed, fun _ _ heq => by simp at heq, grouped_rest h hrest, fun session => ?_,
    fun session hnot => ?_, fun session hnot hup => ?_, fun listed record' heq => ?_, ?_⟩
  · show ofSession session (handedRecords (p.log ++ [.handed record])) <+: _
    rw [ofSession_handed]
    by_cases hsession : record.session = session
    · subst hsession
      rw [if_pos rfl, hahead]
      exact ⟨ofSession record.session todo, by rw [List.append_assoc, List.singleton_append]⟩
    · rw [if_neg hsession, List.append_nil]
      exact h.handed session
  · show ofSession session p.listed =
      ofSession session (handedRecords (p.log ++ [.handed record])) ++ ofSession session todo
    rw [ofSession_handed]
    by_cases hsession : record.session = session
    · subst hsession
      rw [if_pos rfl, List.append_assoc, List.singleton_append]
      exact hahead
    · obtain ⟨hbefore, hsame⟩ := not_left_of_rest h hstage hrest hnot (fun _ hx => hx) rfl hsession
      rw [if_neg hsession, List.append_nil]
      exact (h.ahead session hbefore).trans (congrArg _ hsame.symm)
  · have hsession : record.session ≠ session := hup record record rfl
    obtain ⟨hbefore, -⟩ := not_left_of_rest h hstage hrest hnot (fun _ hx => hx) rfl hsession
    exact (h.settled session hbefore fun _ _ heq =>
      absurd (hstage.symm.trans heq) (by simp)).other hsession
  · obtain ⟨rfl, rfl⟩ := PassStage.uploading.inj heq
    exact ⟨rfl, p.log, rfl, hsettled⟩
  · exact h.steady.snoc fun r heq => PassEntry.handed.inj heq ▸ hsettled

theorem look_passOk (h : PassOk d.stoppedSessions p) (hstage : p.stage = .looking)
    (hlook : Looked clock d p t) (hpass : t.pass = some p') : PassOk t.stoppedSessions p' := by
  cases hlook with
  | finished hrest =>
      cases hpass
      exact { h with
        grouped := .nil
        ahead := fun session hnot => absurd (.inr (.inr (.inr rfl))) hnot
        settled := fun session hnot => absurd (.inr (.inr (.inr rfl))) hnot
        listing := fun _ _ heq => absurd (hstage.symm.trans heq) (by simp) }
  | dropped hrest hstopped =>
      cases hpass
      exact passOk_left h hstage hrest rfl (fun _ hx => hx) rfl rfl rfl (by simp)
        (by simp [hstage]) (by simp [hstage]) (.inl hstopped)
  | expired hrest =>
      cases hpass
      exact passOk_left h hstage hrest rfl (fun _ hx => hx) rfl rfl rfl (by simp)
        (by simp) (by simp) (.inr (.inr (.inl ⟨_, _, rfl⟩)))
  | waiting hrest =>
      cases hpass
      exact passOk_left h hstage hrest rfl (fun _ hx => List.mem_cons_of_mem _ hx) rfl rfl rfl
        (by simp) (by simp [hstage]) (by simp [hstage]) (.inr (.inl (List.mem_cons_self ..)))
  | handed hrest hstopped =>
      cases hpass
      exact passOk_handed h hstage hrest hstopped

end

/-- What the pass does on an outcome. -/
inductive Answered (clock : DrainClock) (d : DrainState) (p : DrainPass) (record : QueueRecord) :
    UploadOutcome → DrainState → Prop where
  | uploaded (accepted : Bool) :
      Answered clock d p record .uploaded { d.deleteJob record with
        finalsAccepted := accepted
        pass := some { p with stage := .looking } }
  | finished {outcome : UploadOutcome} (hnot : outcome ≠ .uploaded) (disables : Nat) :
      Answered clock d p record outcome { d with disables := disables, pass := none }
  | rewound (code : String) :
      Answered clock d p record (.stopSession code)
        { d.addTask record.session (.rewind record.request.sequence) with
          pass := hold p record.session }
  | putOff {outcome : UploadOutcome} (hnot : outcome ≠ .uploaded) :
      Answered clock d p record outcome (d.putOff clock p record)
  | dropping {outcome : UploadOutcome} (hnot : outcome ≠ .uploaded) (reason : DropReason) :
      Answered clock d p record outcome (d.startDrop p record.session reason)

theorem answered (clock : DrainClock) (d : DrainState) (p : DrainPass) (record : QueueRecord)
    (chain : ChainAnswer) (outcome : UploadOutcome) :
    Answered clock d p record outcome (d.answer clock p record chain outcome) := by
  cases outcome with
  | uploaded => exact .uploaded _
  | disabled code => exact .finished (by simp) _
  | blocked reason => exact .finished (by simp) _
  | aborted => exact .finished (by simp) _
  | retryLater reason => exact .putOff (by simp)
  | rekey code => exact .dropping (by simp) _
  | stopSession code =>
      simp only [answer]
      split
      · exact .rewound code
      · split
        · cases chain with
          | later => exact .putOff (by simp)
          | stop => exact .dropping (by simp) _
          | goOn next => exact .dropping (by simp) _
        · exact .dropping (by simp) _

section

variable {listed record : QueueRecord} {outcome : UploadOutcome}

theorem passOk_uploaded (h : PassOk d.stoppedSessions p)
    (hstage : p.stage = .uploading listed record) :
    PassOk d.stoppedSessions { p with
      stage := .looking
      log := p.log ++ [.ended listed .uploaded] } := by
  obtain ⟨hsame, before, hlog, hbefore⟩ := h.uploading _ _ hstage
  have hhanded : handedRecords (p.log ++ [.ended listed .uploaded]) = handedRecords p.log := by
    rw [handedRecords_append, handedRecords_other (by simp), List.append_nil]
  have hopen : ∀ session, ¬ DrainPass.Left d.stoppedSessions { p with
      stage := .looking
      log := p.log ++ [.ended listed .uploaded] } session → ¬ p.Left d.stoppedSessions session := by
    rintro session hnot (hl | hl | ⟨jobs, reason, hl⟩ | hl)
    · exact hnot (.inl hl)
    · exact hnot (.inr (.inl hl))
    · exact absurd (hstage.symm.trans hl) (by simp)
    · exact hnot (.inr (.inr (.inr hl)))
  refine ⟨h.listed, fun _ _ heq => by simp at heq, h.grouped, fun session => ?_,
    fun session hnot => ?_, fun session hnot _ => ?_, fun _ _ heq => by simp at heq, ?_⟩
  · rw [hhanded]
    exact h.handed session
  · rw [hhanded]
    exact h.ahead session (hopen session hnot)
  · show AllUploaded session (p.log ++ [.ended listed .uploaded])
    by_cases hsession : listed.session = session
    · subst hsession
      rw [hlog]
      exact hbefore.uploaded
    · refine AllUploaded.other (h.settled session (hopen session hnot) fun _ _ heq => ?_) hsession
      obtain ⟨-, rfl⟩ := PassStage.uploading.inj (hstage.symm.trans heq)
      exact hsame ▸ hsession
  · exact h.steady.snoc fun r heq => by simp at heq

theorem passOk_ended (h : PassOk d.stoppedSessions p)
    (hstage : p.stage = .uploading listed record) (htodo : p'.todo = p.todo)
    (hsub : ∀ x ∈ p.held, x ∈ p'.held) (hlisted : p'.listed = p.listed)
    (hlog : p'.log = p.log ++ [.ended listed outcome])
    (hlisting : ∀ names found, p'.stage ≠ .listing names found)
    (huploading : ∀ listed record, p'.stage ≠ .uploading listed record)
    (hleft : p'.Left d.stoppedSessions record.session) : PassOk d.stoppedSessions p' := by
  obtain ⟨hsame, -⟩ := h.uploading _ _ hstage
  refine h.leave hlisted hlog (by simp) (htodo ▸ h.grouped) hlisting huploading
    (hsame ▸ hleft) fun session hnot hne => ⟨?_, by rw [htodo], fun _ _ heq => ?_⟩
  · rintro (hl | hl | ⟨jobs, reason, hl⟩ | hl)
    · exact hnot (.inl hl)
    · exact hnot (.inr (.inl (hsub _ hl)))
    · exact absurd (hstage.symm.trans hl) (by simp)
    · exact hnot (.inr (.inr (.inr (htodo ▸ hl))))
  · obtain ⟨-, rfl⟩ := PassStage.uploading.inj (hstage.symm.trans heq)
    exact hsame ▸ hne

theorem answer_passOk (h : PassOk d.stoppedSessions p)
    (hstage : p.stage = .uploading listed record)
    (hanswer : Answered clock d { p with log := p.log ++ [.ended listed outcome] } record outcome t)
    (hpass : t.pass = some p') : PassOk t.stoppedSessions p' := by
  cases hanswer with
  | uploaded accepted =>
      cases hpass
      exact passOk_uploaded h hstage
  | finished hnot disables => cases hpass
  | rewound code =>
      cases hpass
      exact passOk_ended h hstage rfl (fun _ hx => List.mem_cons_of_mem _ hx) rfl rfl (by simp)
        (by simp) (.inr (.inl (List.mem_cons_self ..)))
  | putOff hnot =>
      cases hpass
      exact passOk_ended h hstage rfl (fun _ hx => List.mem_cons_of_mem _ hx) rfl rfl (by simp)
        (by simp) (.inr (.inl (List.mem_cons_self ..)))
  | dropping hnot reason =>
      cases hpass
      exact passOk_ended h hstage rfl (fun _ hx => hx) rfl rfl (by simp) (by simp)
        (.inr (.inr (.inl ⟨_, _, rfl⟩)))

end

theorem drop_passOk (h : PassOk d.stoppedSessions p) {session : String}
    {jobs : Option (List QueueRecord)} {reason : DropReason}
    (hstage : p.stage = .dropping session jobs reason)
    (hpass : (d.drop p session reason jobs).pass = some p') :
    PassOk (d.drop p session reason jobs).stoppedSessions p' := by
  have hnotUp : ∀ listed record, p.stage ≠ .uploading listed record := by simp [hstage]
  have hown : ∀ {session' jobs' reason'}, p.stage = .dropping session' jobs' reason' →
      session' = session := fun heq => by
    rw [hstage] at heq
    exact (PassStage.dropping.inj heq).1.symm
  have hgoOn : ∀ jobs', PassOk d.stoppedSessions { p with
      stage := .dropping session jobs' reason } := fun jobs' =>
    h.move rfl rfl rfl (by simp) hnotUp (by simp) fun session' hl => by
      obtain hl | hl | ⟨_, _, hl⟩ | hl := hl
      · exact .inl hl
      · exact .inr (.inl hl)
      · obtain rfl := hown hl
        exact .inr (.inr (.inl ⟨_, _, rfl⟩))
      · exact .inr (.inr (.inr hl))
  match jobs with
  | none =>
      cases hpass
      exact hgoOn _
  | some (job :: jobs) =>
      cases hpass
      exact hgoOn _
  | some [] =>
      have hheld : PassOk d.stoppedSessions { p with
          stage := .looking, held := session :: p.held } :=
        h.move rfl rfl rfl (by simp) hnotUp (by simp) fun session' hl => by
          obtain hl | hl | ⟨_, _, hl⟩ | hl := hl
          · exact .inl hl
          · exact .inr (.inl (List.mem_cons_of_mem _ hl))
          · obtain rfl := hown hl
            exact .inr (.inl (List.mem_cons_self ..))
          · exact .inr (.inr (.inr hl))
      cases hpass
      exact hheld.mono (subset_dropped session reason)

theorem passStep_passOk {act : DrainAct} (h : PassOk d.stoppedSessions p)
    (hstep : d.passStep clock p act = some t) (hpass : t.pass = some p') :
    PassOk t.stoppedSessions p' := by
  cases act with
  | read =>
      simp only [passStep] at hstep
      split at hstep
      · next name names found hstage =>
          cases hstep
          cases hpass
          obtain ⟨hlog, htodo⟩ := h.listing _ _ hstage
          have hleft : ∀ session, ofSession session p.todo = [] := fun _ => by rw [htodo]; rfl
          exact { h with
            listing := fun _ _ _ => ⟨hlog, htodo⟩
            ahead := fun session hnot => absurd (.inr (.inr (.inr (hleft session)))) hnot
            settled := fun session hnot => absurd (.inr (.inr (.inr (hleft session)))) hnot
            uploading := fun _ _ heq => by simp at heq }
      · cases hstep
  | order nowMs =>
      simp only [passStep] at hstep
      split at hstep
      · next found hstage =>
          cases hstep
          cases hpass
          obtain ⟨hlog, -⟩ := h.listing _ _ hstage
          refine ⟨⟨found, rfl⟩, fun _ _ heq => by simp at heq, orderedQueue_grouped found,
            fun session => ?_, fun session _ => ?_, fun session _ _ e he => ?_,
            fun _ _ heq => by simp at heq, h.steady⟩
          · rw [hlog]
            exact List.nil_prefix
          · rw [hlog]
            rfl
          · rw [hlog] at he
            exact nomatch he
      · cases hstep
  | look =>
      simp only [passStep] at hstep
      split at hstep
      · next hlook =>
          cases hstep
          exact look_passOk h hlook.1 (looked clock d p) hpass
      · cases hstep
  | persist upload recreates =>
      simp only [passStep] at hstep
      split at hstep
      · next listed record hstage =>
          cases hstep
          cases hpass
          have hleft : ∀ session, p.Left d.stoppedSessions session →
              DrainPass.Left d.stoppedSessions { p with
                stage := .uploading listed { record with upload, recreates } } session := by
            rintro session (hl | hl | ⟨jobs, reason, hl⟩ | hl)
            · exact .inl hl
            · exact .inr (.inl hl)
            · exact absurd (hstage.symm.trans hl) (by simp)
            · exact .inr (.inr (.inr hl))
          refine { h with
            listing := fun _ _ heq => by simp at heq
            ahead := fun session hnot => h.ahead session fun hl => hnot (hleft session hl)
            settled := fun session hnot hup => h.settled session
              (fun hl => hnot (hleft session hl)) fun _ _ heq => ?_
            uploading := fun _ _ heq => ?_ }
          · obtain ⟨rfl, rfl⟩ := PassStage.uploading.inj (hstage.symm.trans heq)
            exact hup listed { record with upload, recreates } rfl
          · obtain ⟨rfl, rfl⟩ := PassStage.uploading.inj heq
            have hold := h.uploading listed record hstage
            exact hold
      · cases hstep
  | outcome outcome chain =>
      simp only [passStep] at hstep
      split at hstep
      · next listed record hstage =>
          cases hstep
          exact answer_passOk h hstage (answered clock d _ record chain outcome) hpass
      · cases hstep
  | drop =>
      simp only [passStep] at hstep
      split at hstep
      · next session jobs reason hstage =>
          cases hstep
          exact drop_passOk h hstage hpass
      · cases hstep
  | finish | abort =>
      simp only [passStep] at hstep
      split at hstep
      · cases hstep
        cases hpass
      · cases hstep
  | begin | disableList | disableNext | commit | captureStop | captureContinue | captureDisable
  | runStop | runTask | release => cases hstep

/-- A task removes jobs of its session, with each one all later ones, and a restart all. -/
theorem runTask_spec (d : DrainState) (session : String) (rewindPoint : Bool) (task : ChainTask) :
    ∃ gone : QueueRecord → Bool,
      (d.runTask session rewindPoint task).queue = (d.removeJobs gone).queue ∧
      (∀ r r', gone r = true → r'.session = r.session →
        r.request.sequence < r'.request.sequence → gone r' = true) ∧
      (∀ next, task = .restart next → ∀ r, r.session = session → gone r = true) := by
  cases task with
  | restart next =>
      refine ⟨fun r => r.session = session, ?_, fun r r' hr hsame _ => ?_, fun _ _ r hr => ?_⟩
      · simp only [runTask]
        split
        · rfl
        · rfl
      · exact decide_eq_true (hsame.trans (of_decide_eq_true hr))
      · exact decide_eq_true hr
  | rewind from_ =>
      by_cases hcase : session ∈ d.ended ∨ rewindPoint = true
      · refine ⟨fun r => r.session = session && from_ ≤ r.request.sequence, ?_,
          fun r r' hr hsame hlt => ?_, fun next heq => nomatch heq⟩
        · simp only [runTask, if_pos hcase]
          split
          · rfl
          · rfl
        · simp only [Bool.and_eq_true, decide_eq_true_eq] at hr ⊢
          exact ⟨hsame.trans hr.1, by omega⟩
      · refine ⟨fun r => r.session = session, ?_, fun r r' hr hsame _ => ?_,
          fun next heq => nomatch heq⟩
        · simp only [runTask, if_neg hcase]
          rfl
        · exact decide_eq_true (hsame.trans (of_decide_eq_true hr))

theorem runTask_rest (d : DrainState) (session : String) (rewindPoint : Bool) (task : ChainTask) :
    let t := d.runTask session rewindPoint task
    t.pass = d.pass ∧ t.tasks = d.tasks ∧ t.resettingSessions = d.resettingSessions ∧
      t.disabling = d.disabling ∧ d.stoppedSessions ⊆ t.stoppedSessions := by
  cases task with
  | restart next =>
      simp only [runTask]
      split
      · exact ⟨rfl, rfl, rfl, rfl, List.Subset.refl _⟩
      · exact ⟨rfl, rfl, rfl, rfl, List.Subset.refl _⟩
  | rewind from_ =>
      simp only [runTask]
      split
      · split
        · exact ⟨rfl, rfl, rfl, rfl, List.Subset.refl _⟩
        · exact ⟨rfl, rfl, rfl, rfl, List.Subset.refl _⟩
      · exact ⟨rfl, rfl, rfl, rfl, List.subset_cons_self ..⟩

theorem requestStop_rest (d : DrainState) (session : String) :
    let t := d.requestStop session
    t.pass = d.pass ∧ t.tasks = d.tasks ∧ t.resettingSessions = d.resettingSessions ∧
      t.queue = d.queue ∧ t.disabling = d.disabling ∧ session ∈ t.stoppedSessions := by
  unfold requestStop
  split
  · next hin => exact ⟨rfl, rfl, rfl, rfl, rfl, hin⟩
  · exact ⟨rfl, rfl, rfl, rfl, rfl, List.mem_cons_self ..⟩

theorem otherStep_pass {act : DrainAct} (h : d.otherStep sessionOf act = some t) :
    d.stoppedSessions ⊆ t.stoppedSessions ∧
      (t.pass = d.pass ∨ ∃ names, t.pass = some { stage := .listing names [] }) := by
  cases act with
  | begin names =>
      simp only [otherStep] at h
      split at h
      · cases h
        exact ⟨List.Subset.refl _, .inr ⟨names, rfl⟩⟩
      · cases h
  | disableList =>
      simp only [otherStep] at h
      split at h
      · cases h
        exact ⟨List.Subset.refl _, .inl rfl⟩
      · cases h
  | disableNext =>
      simp only [otherStep] at h
      split at h
      · next record rest hrest =>
          cases h
          have hsub := subset_requestStop (d := d.deleteJob record) record.session
          exact ⟨hsub, .inl (requestStop_rest (d.deleteJob record) record.session).1⟩
      · cases h
  | commit record =>
      simp only [otherStep] at h
      split at h
      · cases h
        exact ⟨List.Subset.refl _, .inl rfl⟩
      · cases h
  | captureStop session chain =>
      cases h
      cases chain with
      | false => exact ⟨List.Subset.refl _, .inl rfl⟩
      | true => exact ⟨List.subset_cons_self .., .inl rfl⟩
  | captureContinue session next =>
      simp only [otherStep] at h
      split at h
      · cases h
      · cases h
        exact ⟨List.Subset.refl _, .inl rfl⟩
  | captureDisable =>
      cases h
      exact ⟨List.Subset.refl _, .inl rfl⟩
  | runStop session =>
      simp only [otherStep] at h
      split at h
      · cases h
        exact ⟨List.Subset.refl _, .inl rfl⟩
      · cases h
  | runTask session task rewindPoint =>
      simp only [otherStep] at h
      split at h
      · cases h
        obtain ⟨hpass, -, -, -, hsub⟩ := runTask_rest d session rewindPoint task
        exact ⟨hsub, .inl hpass⟩
      · cases h
  | release session =>
      simp only [otherStep] at h
      split at h
      · cases h
      · cases h
        exact ⟨List.Subset.refl _, .inl rfl⟩
  | read | order | look | persist | outcome | drop | finish | abort => cases h

theorem step_passOk {act : DrainAct} (h : ∀ p, d.pass = some p → PassOk d.stoppedSessions p)
    (hstep : d.step clock sessionOf act = some t) :
    ∀ p, t.pass = some p → PassOk t.stoppedSessions p := by
  intro p' hpass'
  unfold step at hstep
  split at hstep
  · next u hpassStep =>
      cases hstep
      obtain ⟨p, hp, hpassStep⟩ := Option.bind_eq_some_iff.mp hpassStep
      exact passStep_passOk (h p hp) hpassStep hpass'
  · obtain ⟨hsub, hsame | ⟨names, hnew⟩⟩ := otherStep_pass hstep
    · exact (h p' (hsame ▸ hpass')).mono hsub
    · obtain rfl := Option.some.inj (hnew.symm.trans hpass')
      exact passOk_begin names []

end

end DrainState

end OmniRush.Archive
