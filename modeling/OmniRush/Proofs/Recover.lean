import OmniRush.Archive.Commit

/-!
# What recovery guarantees

The pass over the queue is followed from any disk and any order. A session comes
out unstopped exactly when no live record of it stops it (`recoverQueue_session`);
a record stays exactly when no live record before it, nor itself, stops its session
(`recoverQueue_kept`). The two agree on a session's last word only when the records
come in the right order, which is what `Orderly` says (`recover_restored_iff`).
-/

namespace OmniRush.Archive

open OmniRush

/-! ## Sessions by id and by key -/

theorem Disk.sessionOf_key (k : StateKey) (d : Disk) (sessionId : String) :
    d.sessionOf k (k.key sessionId) = d.loadSession sessionId := by
  unfold Disk.sessionOf Disk.loadSession
  congr 1
  funext s
  rw [decide_eq_decide]
  exact ⟨k.key_inj _ _, congrArg k.key⟩

theorem Disk.sessionOf_eq_some {k : StateKey} {d : Disk} {sessionKey : String} {s : SessionState}
    (h : d.sessionOf k sessionKey = some s) :
    sessionKey = k.key s.sessionId ∧ d.loadSession s.sessionId = some s := by
  have hkey : k.key s.sessionId = sessionKey := by simpa using List.find?_some h
  refine ⟨hkey.symm, ?_⟩
  rw [← Disk.sessionOf_key k, hkey]
  exact h

/-- One record a session id. -/
def Disk.OneRecord (d : Disk) : Prop := (d.sessions.map (·.sessionId)).Nodup

theorem Disk.OneRecord.mem_iff {d : Disk} (h : d.OneRecord) {s : SessionState} :
    s ∈ d.sessions ↔ d.loadSession s.sessionId = some s := by
  constructor
  · intro hmem
    unfold Disk.loadSession
    cases hfind : d.sessions.find? fun t => t.sessionId = s.sessionId with
    | none => exact absurd (decide_eq_true rfl) (List.find?_eq_none.mp hfind s hmem)
    | some t =>
        have hid : t.sessionId = s.sessionId := by simpa using List.find?_some hfind
        rw [List.inj_on_of_nodup_map h (List.mem_of_find?_eq_some hfind) hmem hid]
  · exact List.mem_of_find?_eq_some

theorem Disk.OneRecord.save {d : Disk} (h : d.OneRecord) (s : SessionState) :
    ((FileOp.saveSession s).apply d).OneRecord := by
  show ((putSession d.sessions s).map _).Nodup
  rw [putSession, List.map_append, List.map_singleton]
  refine List.nodup_append.mpr ⟨h.sublist (List.filter_sublist.map _), List.nodup_singleton _, ?_⟩
  intro id hid other hother
  obtain ⟨t, ht, rfl⟩ := List.mem_map.mp hid
  rw [List.mem_singleton.mp hother]
  simpa using (List.mem_filter.mp ht).2

/-- Records of different archives. -/
def DistinctIds (records : List QueueRecord) : Prop :=
  records.Pairwise fun r s => r.archiveId ≠ s.archiveId

/-! ## One record of the queue -/

section

variable (k : StateKey) (pendingFiles : List String) (expired : QueueRecord → Bool)

/-- The session a record finds at its turn, unstopped and past the record. -/
def FindsLive (d : Disk) (r : QueueRecord) (s : SessionState) : Prop :=
  d.sessionOf k r.sessionKey = some s ∧ s.stopped = none ∧ isLive k s r = true

theorem recoverRecord_cases (p : RecoverPass) (r : QueueRecord) :
    (∃ s, FindsLive k p.disk r s ∧ stopsSession pendingFiles expired r = false ∧
      recoverRecord k pendingFiles expired p r = { p with kept := p.kept ++ [r.sealedFile] }) ∨
    (∃ s code, FindsLive k p.disk r s ∧ stopsSession pendingFiles expired r = true ∧
      recoverRecord k pendingFiles expired p r = (p.delete r).stop s code) ∨
    ((∀ s, ¬ FindsLive k p.disk r s) ∧
      recoverRecord k pendingFiles expired p r = p.delete r) := by
  unfold recoverRecord
  cases hfind : p.disk.sessionOf k r.sessionKey with
  | none =>
      refine .inr (.inr ⟨fun s hs => ?_, rfl⟩)
      rw [FindsLive, hfind] at hs
      exact nomatch hs.1
  | some session =>
      dsimp only
      split
      · next hdead =>
          refine .inr (.inr ⟨fun s hs => ?_, rfl⟩)
          obtain ⟨hs, hstopped, hlive⟩ := hs
          rw [hfind] at hs
          cases hs
          have hpast := of_decide_eq_true (Bool.and_eq_true_iff.mp hlive).2
          rw [hstopped] at hdead
          rcases hdead with hdead | hdead
          · cases hdead
          · omega
      · next halive =>
          obtain ⟨hstopped, hpast⟩ := not_or.mp halive
          have hnone : session.stopped = none := by simpa using hstopped
          have hlive : FindsLive k p.disk r session := by
            refine ⟨hfind, hnone, Bool.and_eq_true_iff.mpr ⟨?_, ?_⟩⟩
            · exact decide_eq_true (Disk.sessionOf_eq_some hfind).1.symm
            · exact decide_eq_true (by omega)
          split
          · next hmissing =>
              exact .inr (.inl ⟨session, _, hlive, by simp [stopsSession, hmissing], rfl⟩)
          · next hthere =>
              split
              · next hold =>
                  exact .inr (.inl ⟨session, _, hlive, by simp [stopsSession, hold], rfl⟩)
              · next hyoung =>
                  refine .inl ⟨session, hlive, ?_, rfl⟩
                  simp [stopsSession, hthere, hyoung]

theorem recoverRecord_sublist (p : RecoverPass) (r : QueueRecord) :
    (recoverRecord k pendingFiles expired p r).disk.queue.Sublist p.disk.queue := by
  rcases recoverRecord_cases k pendingFiles expired p r with
    ⟨_, _, _, heq⟩ | ⟨_, _, _, _, heq⟩ | ⟨_, heq⟩
  · rw [heq]
  · rw [heq]
    exact List.filter_sublist
  · rw [heq]
    exact List.filter_sublist

/-- A record but for what stopped its session. -/
def SessionState.unstopped (s : SessionState) : SessionState := { s with stopped := none }

theorem recoverRecord_unstopped (p : RecoverPass) (r : QueueRecord) (sessionId : String) :
    ((recoverRecord k pendingFiles expired p r).disk.loadSession sessionId).map
        SessionState.unstopped
      = (p.disk.loadSession sessionId).map SessionState.unstopped := by
  rcases recoverRecord_cases k pendingFiles expired p r with
    ⟨_, _, _, heq⟩ | ⟨s, code, hlive, _, heq⟩ | ⟨_, heq⟩
  · rw [heq]
  · rw [heq]
    show (((FileOp.saveSession { s with stopped := some code }).apply
      (p.delete r).disk).loadSession sessionId).map _ = _
    rw [loadSession_save]
    split
    · next hid =>
        rw [← hid, show p.disk.loadSession s.sessionId = some s from
          (Disk.sessionOf_eq_some hlive.1).2]
        rfl
    · rfl
  · rw [heq]
    rfl

theorem notMem_delete (p : RecoverPass) (r : QueueRecord) : r ∉ (p.delete r).disk.queue := by
  intro h
  have hne := (List.mem_filter.mp h).2
  simp at hne

theorem loadSession_delete (p : RecoverPass) (r : QueueRecord) (sessionId : String) :
    (p.delete r).disk.loadSession sessionId = p.disk.loadSession sessionId := rfl

theorem loadSession_stop_ne (p : RecoverPass) {s : SessionState} {code sessionId : String}
    (h : s.sessionId ≠ sessionId) :
    (p.stop s code).disk.loadSession sessionId = p.disk.loadSession sessionId := by
  have hne : ({ s with stopped := some code } : SessionState).sessionId ≠ sessionId := h
  exact loadSession_saveSession_ne _ hne

theorem recoverRecord_session {p : RecoverPass} {s : SessionState}
    (hload : p.disk.loadSession s.sessionId = some s) (hs : s.stopped = none) (r : QueueRecord) :
    (isLive k s r = true ∧ stopsSession pendingFiles expired r = true ∧
      ∃ code, (recoverRecord k pendingFiles expired p r).disk.loadSession s.sessionId
        = some { s with stopped := some code }) ∨
    ((isLive k s r = true → stopsSession pendingFiles expired r = false) ∧
      (recoverRecord k pendingFiles expired p r).disk.loadSession s.sessionId = some s) := by
  have hfound : isLive k s r = true → FindsLive k p.disk r s := by
    intro hlive
    have hkey := of_decide_eq_true (Bool.and_eq_true_iff.mp hlive).1
    refine ⟨?_, hs, hlive⟩
    rw [← hkey, Disk.sessionOf_key]
    exact hload
  rcases recoverRecord_cases k pendingFiles expired p r with
    ⟨t, ht, hstops, heq⟩ | ⟨t, code, ht, hstops, heq⟩ | ⟨hno, heq⟩
  · rw [heq]
    exact .inr ⟨fun _ => hstops, hload⟩
  · rw [heq]
    obtain ⟨hkey, htload⟩ := Disk.sessionOf_eq_some ht.1
    by_cases hid : t.sessionId = s.sessionId
    · have hts : t = s := Option.some.inj (htload.symm.trans (hid ▸ hload))
      subst hts
      exact .inl ⟨ht.2.2, hstops, code, loadSession_saveSession _ { t with stopped := some code }⟩
    · refine .inr ⟨fun hlive => ?_, ?_⟩
      · have hsame := (hfound hlive).1
        rw [ht.1] at hsame
        exact absurd (congrArg (·.sessionId) (Option.some.inj hsame)) hid
      · rw [loadSession_stop_ne _ hid, loadSession_delete]
        exact hload
  · rw [heq]
    exact .inr ⟨fun hlive => absurd (hfound hlive) (hno s), hload⟩

theorem recoverRecord_other {p : RecoverPass} {sessionId : String}
    (h : ∀ s, p.disk.loadSession sessionId = some s → s.stopped.isSome) (r : QueueRecord) :
    (recoverRecord k pendingFiles expired p r).disk.loadSession sessionId
      = p.disk.loadSession sessionId := by
  rcases recoverRecord_cases k pendingFiles expired p r with
    ⟨t, ht, hstops, heq⟩ | ⟨t, code, ht, hstops, heq⟩ | ⟨hno, heq⟩
  · rw [heq]
  · rw [heq]
    have hne : t.sessionId ≠ sessionId := by
      intro hid
      have hsome := h t (hid ▸ (Disk.sessionOf_eq_some ht.1).2)
      rw [ht.2.1] at hsome
      cases hsome
    rw [loadSession_stop_ne _ hne, loadSession_delete]
  · rw [heq]
    rfl

/-- A session that is unstopped after a record was so before it, and the record did
not stop it. -/
theorem recoverRecord_session_back {p : RecoverPass} {sessionId : String} {s : SessionState}
    {r : QueueRecord}
    (h : (recoverRecord k pendingFiles expired p r).disk.loadSession sessionId = some s)
    (hs : s.stopped = none) :
    p.disk.loadSession sessionId = some s ∧
      (isLive k s r = true → stopsSession pendingFiles expired r = false) := by
  by_cases hother : ∀ t, p.disk.loadSession sessionId = some t → t.stopped.isSome
  · rw [recoverRecord_other k pendingFiles expired hother] at h
    have hsome := hother s h
    rw [hs] at hsome
    cases hsome
  · obtain ⟨t, ht⟩ := not_forall.mp hother
    obtain ⟨hload, hnone⟩ := Classical.not_imp.mp ht
    have hid := loadSession_sessionId hload
    have hunstopped : t.stopped = none := by simpa using hnone
    rw [← hid] at hload h
    rcases recoverRecord_session k pendingFiles expired
        hload hunstopped r with ⟨-, -, code, hafter⟩ | ⟨hkeeps, hafter⟩
    · rw [h] at hafter
      cases hafter
      cases hs
    · rw [h] at hafter
      cases hafter
      exact ⟨hid ▸ hload, hkeeps⟩

/-! ## The whole queue -/

theorem recoverQueue_cons (r : QueueRecord) (order : List QueueRecord) (p : RecoverPass) :
    recoverQueue k pendingFiles expired (r :: order) p
      = recoverQueue k pendingFiles expired order (recoverRecord k pendingFiles expired p r) := rfl

theorem recoverQueue_sublist (order : List QueueRecord) (p : RecoverPass) :
    (recoverQueue k pendingFiles expired order p).disk.queue.Sublist p.disk.queue := by
  induction order generalizing p with
  | nil => exact .refl _
  | cons r order ih => exact (ih _).trans (recoverRecord_sublist k pendingFiles expired p r)

theorem recoverQueue_unstopped (order : List QueueRecord) (p : RecoverPass) (sessionId : String) :
    ((recoverQueue k pendingFiles expired order p).disk.loadSession sessionId).map
        SessionState.unstopped
      = (p.disk.loadSession sessionId).map SessionState.unstopped := by
  induction order generalizing p with
  | nil => rfl
  | cons r order ih =>
      rw [recoverQueue_cons, ih, recoverRecord_unstopped]

theorem recoverQueue_stopped {order : List QueueRecord} {p : RecoverPass} {sessionId : String}
    (h : ∀ s, p.disk.loadSession sessionId = some s → s.stopped.isSome) :
    (recoverQueue k pendingFiles expired order p).disk.loadSession sessionId
      = p.disk.loadSession sessionId := by
  induction order generalizing p with
  | nil => rfl
  | cons r order ih =>
      have hsame := recoverRecord_other k pendingFiles expired h r
      rw [recoverQueue_cons, ih (fun s hs => h s (hsame ▸ hs)), hsame]

/-- A session comes out unstopped exactly when none of its live records stops it. -/
theorem recoverQueue_session {order : List QueueRecord} {p : RecoverPass} {s : SessionState}
    (hload : p.disk.loadSession s.sessionId = some s) (hs : s.stopped = none) :
    ∃ s', (recoverQueue k pendingFiles expired order p).disk.loadSession s.sessionId = some s' ∧
      (s'.stopped = none ↔
        ∀ r ∈ order, isLive k s r = true → stopsSession pendingFiles expired r = false) := by
  induction order generalizing p with
  | nil => exact ⟨s, hload, ⟨fun _ _ hr => (nomatch hr), fun _ => hs⟩⟩
  | cons r order ih =>
      rw [recoverQueue_cons]
      rcases recoverRecord_session k pendingFiles expired
          hload hs r with ⟨hlive, hstops, code, hafter⟩ | ⟨hkeeps, hafter⟩
      · refine ⟨{ s with stopped := some code }, ?_, ⟨fun h => (nomatch h), fun h => ?_⟩⟩
        · rw [recoverQueue_stopped, hafter]
          intro t ht
          rw [hafter] at ht
          cases ht
          rfl
        · rw [h r (List.mem_cons_self ..) hlive] at hstops
          cases hstops
      · obtain ⟨s', hfinal, hiff⟩ := ih hafter
        refine ⟨s', hfinal, hiff.trans ⟨fun h t ht hlive => ?_, fun h t ht => ?_⟩⟩
        · rcases List.mem_cons.mp ht with rfl | htail
          · exact hkeeps hlive
          · exact h t htail hlive
        · exact h t (List.mem_cons_of_mem _ ht)

theorem recoverQueue_session_back {order : List QueueRecord} {p : RecoverPass}
    {sessionId : String} {s : SessionState}
    (h : (recoverQueue k pendingFiles expired order p).disk.loadSession sessionId = some s)
    (hs : s.stopped = none) : p.disk.loadSession sessionId = some s := by
  induction order generalizing p with
  | nil => exact h
  | cons r order ih => exact (recoverRecord_session_back k pendingFiles expired (ih h) hs).1

theorem mem_recoverRecord {p : RecoverPass} {r t : QueueRecord} (hother : t.archiveId ≠ r.archiveId)
    (h : r ∈ p.disk.queue) : r ∈ (recoverRecord k pendingFiles expired p t).disk.queue := by
  have hdelete : r ∈ (p.delete t).disk.queue :=
    List.mem_filter.mpr ⟨h, by simpa using hother.symm⟩
  rcases recoverRecord_cases k pendingFiles expired p t with
    ⟨_, _, _, heq⟩ | ⟨_, _, _, _, heq⟩ | ⟨_, heq⟩
  · rw [heq]
    exact h
  · rw [heq]
    exact hdelete
  · rw [heq]
    exact hdelete

theorem mem_recoverQueue {order : List QueueRecord} {p : RecoverPass} {r : QueueRecord}
    (hother : ∀ s ∈ order, s.archiveId ≠ r.archiveId) (h : r ∈ p.disk.queue) :
    r ∈ (recoverQueue k pendingFiles expired order p).disk.queue := by
  induction order generalizing p with
  | nil => exact h
  | cons s order ih =>
      exact ih (fun t ht => hother t (List.mem_cons_of_mem _ ht))
        (mem_recoverRecord k pendingFiles expired (hother s (List.mem_cons_self ..)) h)

theorem mem_recoverQueue_kept {order : List QueueRecord} {p : RecoverPass} {name : String}
    (h : name ∈ p.kept) : name ∈ (recoverQueue k pendingFiles expired order p).kept := by
  induction order generalizing p with
  | nil => exact h
  | cons s order ih =>
      refine ih ?_
      rcases recoverRecord_cases k pendingFiles expired p s with
        ⟨_, _, _, heq⟩ | ⟨_, _, _, _, heq⟩ | ⟨_, heq⟩
      · rw [heq]
        exact List.mem_append_left _ h
      · rw [heq]
        exact h
      · rw [heq]
        exact h

/-- A record that is still queued found its session live, stopped nothing, and came
before everything that stops its session. -/
theorem recoverQueue_kept {order : List QueueRecord} {p : RecoverPass} {r : QueueRecord}
    (hmem : r ∈ order)
    (h : r ∈ (recoverQueue k pendingFiles expired order p).disk.queue)
    (hids : DistinctIds order) :
    ∃ before after s, order = before ++ r :: after ∧
      p.disk.loadSession s.sessionId = some s ∧ s.stopped = none ∧ isLive k s r = true ∧
      stopsSession pendingFiles expired r = false ∧
      (∀ t ∈ before, isLive k s t = true → stopsSession pendingFiles expired t = false) ∧
      r.sealedFile ∈ (recoverQueue k pendingFiles expired order p).kept := by
  induction order generalizing p with
  | nil => exact nomatch hmem
  | cons t order ih =>
      rw [recoverQueue_cons] at h ⊢
      rcases List.mem_cons.mp hmem with rfl | htail
      · have hstep := (recoverQueue_sublist k pendingFiles expired _ _).mem h
        rcases recoverRecord_cases k pendingFiles expired p r with
          ⟨s, hs, hstops, heq⟩ | ⟨s, code, _, _, heq⟩ | ⟨_, heq⟩
        · obtain ⟨hkey, hload⟩ := Disk.sessionOf_eq_some hs.1
          refine ⟨[], order, s, rfl, hload, hs.2.1, hs.2.2, hstops,
            fun u hu => (nomatch hu), ?_⟩
          rw [heq]
          exact mem_recoverQueue_kept k pendingFiles expired
            (List.mem_append_right _ (List.mem_singleton_self _))
        · rw [heq] at hstep
          exact absurd hstep (notMem_delete p r)
        · rw [heq] at hstep
          exact absurd hstep (notMem_delete p r)
      · obtain ⟨before, after, s, heq, hload, hs, hlive, hstops, hbefore, hkept⟩ :=
          ih htail h (List.pairwise_cons.mp hids).2
        obtain ⟨hback, hnot⟩ := recoverRecord_session_back k pendingFiles expired hload hs
        refine ⟨t :: before, after, s, by rw [heq]; rfl, hback, hs, hlive, hstops, ?_, hkept⟩
        intro u hu hu'
        rcases List.mem_cons.mp hu with rfl | hu
        · exact hnot hu'
        · exact hbefore u hu hu'

theorem recoverQueue_first {before after : List QueueRecord} {p : RecoverPass} {r : QueueRecord}
    {s : SessionState} (hload : p.disk.loadSession s.sessionId = some s) (hs : s.stopped = none)
    (hbefore : ∀ t ∈ before, isLive k s t = false) (hlive : isLive k s r = true)
    (hstops : stopsSession pendingFiles expired r = false)
    (hids : DistinctIds (before ++ r :: after)) (hmem : r ∈ p.disk.queue) :
    r ∈ (recoverQueue k pendingFiles expired (before ++ r :: after) p).disk.queue := by
  induction before generalizing p with
  | nil =>
      rw [List.nil_append] at hids ⊢
      rw [recoverQueue_cons]
      have hnot := (List.pairwise_cons.mp hids).1
      refine mem_recoverQueue k pendingFiles expired (fun t ht => (hnot t ht).symm) ?_
      have hfinds : FindsLive k p.disk r s := by
        have hkey := of_decide_eq_true (Bool.and_eq_true_iff.mp hlive).1
        refine ⟨?_, hs, hlive⟩
        rw [← hkey, Disk.sessionOf_key]
        exact hload
      rcases recoverRecord_cases k pendingFiles expired p r with
        ⟨_, _, _, heq⟩ | ⟨_, _, _, hstops', _⟩ | ⟨hno, _⟩
      · rw [heq]
        exact hmem
      · rw [hstops] at hstops'
        cases hstops'
      · exact absurd hfinds (hno s)
  | cons t before ih =>
      rw [List.cons_append] at hids ⊢
      rw [recoverQueue_cons]
      have hdead := hbefore t (List.mem_cons_self ..)
      have hload' : (recoverRecord k pendingFiles expired p t).disk.loadSession s.sessionId
          = some s := by
        rcases recoverRecord_session k pendingFiles expired hload hs t with
          ⟨hlive', -⟩ | ⟨-, hafter⟩
        · rw [hdead] at hlive'
          cases hlive'
        · exact hafter
      refine ih hload' (fun u hu => hbefore u (List.mem_cons_of_mem _ hu))
        (List.pairwise_cons.mp hids).2 ?_
      exact mem_recoverRecord k pendingFiles expired ((List.pairwise_cons.mp hids).1 r
        (List.mem_append_right _ (List.mem_cons_self ..))) hmem

/-! ## Files -/

theorem recoverRecord_pending {p : RecoverPass} {r : QueueRecord} {name : String}
    (h : name ∈ p.disk.pending) (hother : r.sealedFile ≠ name) :
    name ∈ (recoverRecord k pendingFiles expired p r).disk.pending := by
  have hdelete : name ∈ (p.delete r).disk.pending :=
    List.mem_filter.mpr ⟨h, by simpa using hother.symm⟩
  rcases recoverRecord_cases k pendingFiles expired p r with
    ⟨_, _, _, heq⟩ | ⟨_, _, _, _, heq⟩ | ⟨_, heq⟩
  · rw [heq]
    exact h
  · rw [heq]
    exact hdelete
  · rw [heq]
    exact hdelete

theorem recoverQueue_pending {order : List QueueRecord} {p : RecoverPass} {r : QueueRecord}
    (hsealed : ∀ s ∈ order, s.sealedFile = sealedFileName s.archiveId)
    (hr : r.sealedFile = sealedFileName r.archiveId)
    (h : r ∈ (recoverQueue k pendingFiles expired order p).disk.queue)
    (hthere : r.sealedFile ∈ p.disk.pending) :
    r.sealedFile ∈ (recoverQueue k pendingFiles expired order p).disk.pending := by
  induction order generalizing p with
  | nil => exact hthere
  | cons t order ih =>
      rw [recoverQueue_cons] at h ⊢
      refine ih (fun s hs => hsealed s (List.mem_cons_of_mem _ hs)) h ?_
      by_cases hname : t.sealedFile = r.sealedFile
      · have hid : t.archiveId = r.archiveId := by
          rw [hsealed t (List.mem_cons_self ..), hr] at hname
          exact sealedFileName_inj hname
        have hdeleted : r ∉ (p.delete t).disk.queue := by
          intro hmem
          have hne := (List.mem_filter.mp hmem).2
          rw [hid] at hne
          simp at hne
        have hstep := (recoverQueue_sublist k pendingFiles expired _ _).mem h
        rcases recoverRecord_cases k pendingFiles expired p t with
          ⟨_, _, _, heq⟩ | ⟨_, _, _, _, heq⟩ | ⟨_, heq⟩
        · rw [heq]
          exact hthere
        · rw [heq] at hstep
          exact absurd hstep hdeleted
        · rw [heq] at hstep
          exact absurd hstep hdeleted
      · exact recoverRecord_pending k pendingFiles expired hthere hname

theorem recoverQueue_names {order : List QueueRecord} {p : RecoverPass} {name : String}
    (hids : DistinctIds order) (hqueue : ∀ r ∈ order, r ∈ p.disk.queue)
    (h : name ∈ (recoverQueue k pendingFiles expired order p).kept) :
    name ∈ p.kept ∨ ∃ r ∈ (recoverQueue k pendingFiles expired order p).disk.queue,
      r.sealedFile = name := by
  induction order generalizing p with
  | nil => exact .inl h
  | cons t order ih =>
      rw [recoverQueue_cons] at h ⊢
      obtain ⟨hnot, hrest⟩ := List.pairwise_cons.mp hids
      have hqueue' : ∀ r ∈ order, r ∈ (recoverRecord k pendingFiles expired p t).disk.queue :=
        fun r hr => mem_recoverRecord k pendingFiles expired (hnot r hr)
          (hqueue r (List.mem_cons_of_mem _ hr))
      rcases ih hrest hqueue' h with hkept | hfound
      · rcases recoverRecord_cases k pendingFiles expired p t with
          ⟨_, _, _, heq⟩ | ⟨_, _, _, _, heq⟩ | ⟨_, heq⟩
        · rw [heq] at hkept
          rcases List.mem_append.mp hkept with hold | hnew
          · exact .inl hold
          · refine .inr ⟨t, mem_recoverQueue k pendingFiles expired
              (fun s hs => (hnot s hs).symm) ?_, (List.mem_singleton.mp hnew).symm⟩
            rw [heq]
            exact hqueue t (List.mem_cons_self ..)
        · rw [heq] at hkept
          exact .inl hkept
        · rw [heq] at hkept
          exact .inl hkept
      · exact .inr hfound

theorem recoverQueue_baselines (order : List QueueRecord) (p : RecoverPass) :
    (recoverQueue k pendingFiles expired order p).disk.baselines = p.disk.baselines := by
  induction order generalizing p with
  | nil => rfl
  | cons t order ih =>
      rw [recoverQueue_cons, ih]
      rcases recoverRecord_cases k pendingFiles expired p t with
        ⟨_, _, _, heq⟩ | ⟨_, _, _, _, heq⟩ | ⟨_, heq⟩ <;> rw [heq] <;> rfl

theorem recoverQueue_oneRecord (order : List QueueRecord) {p : RecoverPass}
    (h : p.disk.OneRecord) : (recoverQueue k pendingFiles expired order p).disk.OneRecord := by
  induction order generalizing p with
  | nil => exact h
  | cons t order ih =>
      refine ih ?_
      rcases recoverRecord_cases k pendingFiles expired p t with
        ⟨_, _, _, heq⟩ | ⟨_, _, _, _, heq⟩ | ⟨_, heq⟩
      · rw [heq]
        exact h
      · rw [heq]
        exact Disk.OneRecord.save (d := (p.delete t).disk) h _
      · rw [heq]
        exact h

end

/-! ## The invariant -/

/-- A queue whose records have their own names and name their own sealed files. -/
structure Disk.Named (d : Disk) : Prop where
  ids : DistinctIds d.queue
  sealed : ∀ r ∈ d.queue, r.sealedFile = sealedFileName r.archiveId

section

variable {k : StateKey} {expired : QueueRecord → Bool} {order : List QueueRecord} {d : Disk}

/-- The pass `recover` makes. -/
def recoverPass (k : StateKey) (expired : QueueRecord → Bool) (order : List QueueRecord)
    (d : Disk) : RecoverPass :=
  recoverQueue k d.pending expired order ⟨{ d with tmp := [] }, []⟩

theorem mem_recover_sessions (hone : d.OneRecord) {s : SessionState} :
    s ∈ (recover k expired order d).sessions
      ↔ (recoverPass k expired order d).disk.loadSession s.sessionId = some s :=
  (recoverQueue_oneRecord k d.pending expired order hone).mem_iff

theorem recoverPass_session (hone : d.OneRecord) {s : SessionState} (hs : s ∈ d.sessions)
    (hunstopped : s.stopped = none) :
    ∃ s', (recoverPass k expired order d).disk.loadSession s.sessionId = some s' ∧
      (s'.stopped = none ↔
        ∀ r ∈ order, isLive k s r = true → stopsSession d.pending expired r = false) :=
  recoverQueue_session k d.pending expired (hone.mem_iff.mp hs) hunstopped

/-- Whatever the disk and the order, recovery leaves every kept record with its
sealed file and every sealed file with its record, and only named baselines; what
is left to show is that the sessions of kept records are not stopped. -/
theorem recover_kept (hone : d.OneRecord) (hnamed : d.Named) (horder : order.Perm d.queue)
    {r : QueueRecord} (hr : r ∈ (recover k expired order d).queue) :
    ∃ before after s, order = before ++ r :: after ∧ s ∈ d.sessions ∧ s.stopped = none ∧
      isLive k s r = true ∧ stopsSession d.pending expired r = false ∧
      (∀ t ∈ before, isLive k s t = true → stopsSession d.pending expired t = false) ∧
      r.sealedFile ∈ (recover k expired order d).pending := by
  have hids : DistinctIds order :=
    (horder.pairwise_iff fun {a b} h => h.symm).mpr hnamed.ids
  have hmem : r ∈ order := horder.mem_iff.mpr
    ((recoverQueue_sublist k d.pending expired _ _).mem hr)
  obtain ⟨before, after, s, heq, hload, hs, hlive, hstops, hbefore, hkept⟩ :=
    recoverQueue_kept k d.pending expired hmem hr hids
  have hthere : r.sealedFile ∈ d.pending := by
    have hnot := (Bool.or_eq_false_iff.mp hstops).1
    simpa using hnot
  have hpending := recoverQueue_pending k d.pending expired
    (fun t ht => hnamed.sealed t (horder.mem_iff.mp ht))
    (hnamed.sealed r (horder.mem_iff.mp hmem)) hr hthere
  exact ⟨before, after, s, heq, hone.mem_iff.mpr hload, hs, hlive, hstops, hbefore,
    List.mem_filter.mpr ⟨hpending, decide_eq_true hkept⟩⟩

theorem find?_isLive {before after : List QueueRecord} {r : QueueRecord} {s : SessionState}
    (hlive : isLive k s r = true) {h : QueueRecord} {pendingFiles : List String}
    (hfind : (before ++ r :: after).find? (isLive k s) = some h)
    (hbefore : ∀ t ∈ before, isLive k s t = true → stopsSession pendingFiles expired t = false)
    (hstops : stopsSession pendingFiles expired r = false) :
    stopsSession pendingFiles expired h = false := by
  rw [List.find?_append] at hfind
  cases hfirst : before.find? (isLive k s) with
  | none =>
      rw [hfirst, Option.none_or, List.find?_cons_of_pos hlive] at hfind
      cases hfind
      exact hstops
  | some t =>
      rw [hfirst, Option.some_or] at hfind
      cases hfind
      exact hbefore h (List.mem_of_find?_eq_some hfirst) (List.find?_some hfirst)

theorem recover_kept_unstopped (hone : d.OneRecord) (hnamed : d.Named)
    (horder : order.Perm d.queue) (horderly : Orderly k d.pending expired order d)
    {r : QueueRecord} (hr : r ∈ (recover k expired order d).queue) :
    ∃ s ∈ (recover k expired order d).sessions, s.stopped = none ∧ isLive k s r = true := by
  obtain ⟨before, after, s, heq, hs, hunstopped, hlive, hstops, hbefore, -⟩ :=
    recover_kept hone hnamed horder hr
  obtain ⟨s', hload, hiff⟩ := recoverPass_session hone hs hunstopped
  have hnone : s'.stopped = none := by
    refine hiff.mpr fun t ht htlive => ?_
    by_contra htstops
    rw [Bool.not_eq_false] at htstops
    cases hfind : order.find? (isLive k s) with
    | none => exact absurd htlive (List.find?_eq_none.mp hfind t ht)
    | some h =>
        have hstops' := horderly s hs hunstopped ⟨t, ht, htlive, htstops⟩ h hfind
        rw [heq] at hfind
        rw [find?_isLive hlive hfind hbefore hstops] at hstops'
        cases hstops'
  have hback := recoverQueue_session_back k d.pending expired hload hnone
  have hsame : s = s' := Option.some.inj ((hone.mem_iff.mp hs).symm.trans hback)
  subst hsame
  exact ⟨s, (mem_recover_sessions hone).mpr hload, hnone, hlive⟩

theorem recover_canCompare (hone : d.OneRecord)
    (hready : ∀ s ∈ d.sessions, s.stopped = none → CanCompare d s) {s : SessionState}
    (hs : s ∈ (recover k expired order d).sessions) (hunstopped : s.stopped = none) :
    CanCompare (recover k expired order d) s := by
  have hload := (mem_recover_sessions hone).mp hs
  have hback := recoverQueue_session_back k d.pending expired hload hunstopped
  obtain ⟨hbaselines, hreadable⟩ := hready s (hone.mem_iff.mpr hback) hunstopped
  refine ⟨fun b hb => List.mem_filter.mpr ⟨?_, ?_⟩, hreadable⟩
  · rw [recoverQueue_baselines]
    exact hbaselines b hb
  · exact decide_eq_true (List.mem_flatMap.mpr ⟨s, hs, hb⟩)

/-- After recovery the invariant holds exactly when no session was stopped after one
of its records was kept. -/
theorem recover_restored_iff (hone : d.OneRecord) (hnamed : d.Named)
    (horder : order.Perm d.queue)
    (hready : ∀ s ∈ d.sessions, s.stopped = none → CanCompare d s) :
    Restored k (recover k expired order d) ↔ Orderly k d.pending expired order d := by
  have hids : DistinctIds order :=
    (horder.pairwise_iff fun {a b} h => h.symm).mpr hnamed.ids
  constructor
  · rintro hrestored s hs hunstopped ⟨t, ht, htlive, htstops⟩ r hr
    by_contra hstops
    rw [Bool.not_eq_true] at hstops
    obtain ⟨hlive, before, after, heq, hbefore⟩ := List.find?_eq_some_iff_append.mp hr
    have hload := hone.mem_iff.mp hs
    have hkept : r ∈ (recover k expired order d).queue := by
      have hmem : r ∈ d.queue := horder.mem_iff.mp (heq ▸ List.mem_append_right _
        (List.mem_cons_self ..))
      subst heq
      exact recoverQueue_first k d.pending expired (p := ⟨{ d with tmp := [] }, []⟩) hload
        hunstopped (fun u hu => by simpa using hbefore u hu) hlive hstops hids hmem
    obtain ⟨s', hs', hkey, hnone, -⟩ := hrestored.queue r hkept
    obtain ⟨s'', hfinal, hiff⟩ := recoverPass_session hone hs hunstopped
    have hid : s'.sessionId = s.sessionId := by
      have hkey' := of_decide_eq_true (Bool.and_eq_true_iff.mp hlive).1
      exact k.key_inj _ _ (hkey.trans hkey'.symm)
    have hload' := (mem_recover_sessions hone).mp hs'
    rw [hid] at hload'
    have hsame : s' = s'' := Option.some.inj (hload'.symm.trans hfinal)
    subst hsame
    rw [hiff.mp hnone t ht htlive] at htstops
    cases htstops
  · intro horderly
    refine ⟨fun r hr => ?_, fun name hname => ?_, fun name hname => ?_, fun s hs hunstopped =>
      recover_canCompare hone hready hs hunstopped⟩
    · obtain ⟨s, hs, hunstopped, hlive⟩ :=
        recover_kept_unstopped hone hnamed horder horderly hr
      obtain ⟨_, _, _, _, _, _, _, _, _, hpending⟩ := recover_kept hone hnamed horder hr
      obtain ⟨hkey, hpast⟩ := Bool.and_eq_true_iff.mp hlive
      exact ⟨s, hs, of_decide_eq_true hkey, hunstopped, of_decide_eq_true hpast, hpending⟩
    · have hkept := of_decide_eq_true (List.mem_filter.mp hname).2
      rcases recoverQueue_names k d.pending expired hids
          (fun r hr => horder.mem_iff.mp hr) hkept with hnil | hfound
      · exact nomatch hnil
      · exact hfound
    · have hnames := of_decide_eq_true (List.mem_filter.mp hname).2
      exact List.mem_flatMap.mp hnames

end

end OmniRush.Archive
