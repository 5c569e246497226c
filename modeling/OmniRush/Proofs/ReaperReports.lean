import OmniRush.Lib.Machine
import OmniRush.Proofs.ReaperHolds

/-!
# What is reported of an eviction

The mark of an eviction is set when its dispose has succeeded, so the first use of the workspace
after that takes it. It is the first after the dispose began as long as none comes in between
and the entry stays with its workspace.
-/

namespace OmniRush.Server

open OmniRush

/-! ## Evictions in a log -/

def ReaperEvent.isEnded : ReaperEvent → Bool
  | .ended _ => true
  | _ => false

/-- The instance whose dispose starts. -/
def ReaperEvent.gone? : ReaperEvent → Option EngineInstanceUse
  | .began gone => some gone
  | _ => none

def ReaperEvent.Uses (workspaceId : String) : ReaperEvent → Prop
  | .used use _ => use.workspaceId = workspaceId
  | _ => False

/-- What began before these has succeeded. -/
def Succeeded (since : List ReaperEvent) : Prop :=
  since.find? ReaperEvent.isEnded = some (.ended true)

/-- A dispose for the workspace began before, which succeeds, and no use of the workspace was
noted since. -/
def Due (workspaceId : String) (before after : List ReaperEvent) : Prop :=
  ∃ earlier gone since, before = earlier ++ .began gone :: since ∧
    gone.workspaceId = workspaceId ∧ (∀ e ∈ since, ¬ e.Uses workspaceId) ∧
    Succeeded (since ++ after)

/-- A use reports an eviction exactly when it is the first of the workspace since the dispose of
one began. -/
def Reports (log : List ReaperEvent) : Prop :=
  ∀ before use reported after, log = before ++ .used use reported :: after →
    (reported = true ↔ Due use.workspaceId before (.used use reported :: after))

section

variable {log since after : List ReaperEvent} {e : ReaperEvent} {workspaceId : String}

theorem concat_eq_split {earlier : List ReaperEvent} {x : ReaperEvent} :
    log ++ [e] = earlier ++ x :: since ↔
      (since = [] ∧ e = x ∧ log = earlier) ∨
        ∃ since', since = since' ++ [e] ∧ log = earlier ++ x :: since' := by
  constructor
  · intro h
    rcases List.eq_nil_or_concat since with rfl | ⟨since', last, rfl⟩
    · obtain ⟨hlog, he⟩ := List.append_inj' h rfl
      exact .inl ⟨rfl, List.singleton_inj.mp he, hlog⟩
    · right
      rw [List.concat_eq_append, ← List.cons_append, ← List.append_assoc] at h
      obtain ⟨hlog, he⟩ := List.append_inj' h rfl
      exact ⟨since', by rw [List.concat_eq_append, List.singleton_inj.mp he], hlog⟩
  · rintro (⟨rfl, rfl, rfl⟩ | ⟨since', rfl, rfl⟩)
    · rfl
    · simp

theorem succeeded_concat (he : e.isEnded = false) : Succeeded (since ++ [e]) ↔ Succeeded since := by
  rw [Succeeded, List.find?_append]
  simp [he, Succeeded]

theorem succeeded_settled {ok : Bool} (hin : .ended ok ∈ since) :
    Succeeded (since ++ after) ↔ Succeeded since := by
  have hsome : (since.find? ReaperEvent.isEnded).isSome := List.find?_isSome.mpr ⟨_, hin, rfl⟩
  obtain ⟨found, hfound⟩ := Option.isSome_iff_exists.mp hsome
  rw [Succeeded, List.find?_append, hfound, Succeeded, hfound]
  rfl

theorem succeeded_pending {ok : Bool} (hnone : ∀ e ∈ since, e.isEnded = false) :
    Succeeded (since ++ [.ended ok]) ↔ ok = true := by
  have hfind : since.find? ReaperEvent.isEnded = none :=
    List.find?_eq_none.mpr fun e he => by rw [hnone e he]; exact Bool.false_ne_true
  rw [Succeeded, List.find?_append, hfind]
  cases ok <;> decide

theorem not_succeeded (hnone : ∀ e ∈ since, e.isEnded = false) : ¬ Succeeded since := by
  intro h
  have hended := hnone _ (List.mem_of_find?_eq_some h)
  cases hended

/-- An event that is neither the end of a dispose nor a use of the workspace changes nothing. -/
theorem due_concat (he : e.isEnded = false) (huse : ¬ e.Uses workspaceId) :
    Due workspaceId (log ++ [e]) [] ↔ Due workspaceId log [] := by
  constructor
  · rintro ⟨earlier, gone, since, hlog, hworkspace, hnone, hdone⟩
    rw [List.append_nil] at hdone
    rcases concat_eq_split.mp hlog with ⟨rfl, -, -⟩ | ⟨since', rfl, hlog'⟩
    · exact absurd hdone (not_succeeded nofun)
    · refine ⟨earlier, gone, since', hlog', hworkspace,
        fun e' he' => hnone e' (List.mem_append_left _ he'), ?_⟩
      rw [List.append_nil]
      exact (succeeded_concat he).mp hdone
  · rintro ⟨earlier, gone, since, hlog, hworkspace, hnone, hdone⟩
    rw [List.append_nil] at hdone
    refine ⟨earlier, gone, since ++ [e], concat_eq_split.mpr (.inr ⟨since, rfl, hlog⟩), hworkspace,
      fun e' he' => ?_, ?_⟩
    · rcases List.mem_append.mp he' with he' | he'
      · exact hnone e' he'
      · rw [List.mem_singleton.mp he']
        exact huse
    · rw [List.append_nil]
      exact (succeeded_concat he).mpr hdone

theorem not_due_used {use : EngineInstanceUse} {reported : Bool} :
    ¬ Due use.workspaceId (log ++ [.used use reported]) [] := by
  rintro ⟨earlier, gone, since, hlog, -, hnone, -⟩
  rcases concat_eq_split.mp hlog with ⟨-, he, -⟩ | ⟨since', rfl, -⟩
  · cases he
  · exact hnone _ (List.mem_append_right _ (List.mem_singleton_self _)) rfl

theorem due_after (before : List ReaperEvent) (he : e.isEnded = false) :
    Due workspaceId before (after ++ [e]) ↔ Due workspaceId before after := by
  unfold Due
  simp only [← List.append_assoc, succeeded_concat he]

theorem due_concat_nil (before : List ReaperEvent) (he : e.isEnded = false) :
    Due workspaceId before [e] ↔ Due workspaceId before [] := by
  rw [← List.nil_append [e]]
  exact due_after before he

theorem Reports.concat (h : Reports log)
    (hold : ∀ before use reported after, log = before ++ .used use reported :: after →
      (Due use.workspaceId before (.used use reported :: after ++ [e]) ↔
        Due use.workspaceId before (.used use reported :: after)))
    (hnew : ∀ use reported, e = .used use reported →
      (reported = true ↔ Due use.workspaceId log [e])) : Reports (log ++ [e]) := by
  intro before use reported after hlog
  rcases concat_eq_split.mp hlog with ⟨rfl, rfl, rfl⟩ | ⟨after, rfl, hlog'⟩
  · exact hnew use reported rfl
  · rw [h before use reported after hlog', ← hold before use reported after hlog']
    rfl

/-- Every dispose that began has come to its end. -/
def AllEnded (log : List ReaperEvent) : Prop :=
  ∀ earlier gone since, log = earlier ++ .began gone :: since → ∃ ok, .ended ok ∈ since

/-- All but the last, which began so and with this since. -/
def Pending (log : List ReaperEvent) (gone : EngineInstanceUse) (since : List ReaperEvent) : Prop :=
  (∃ earlier, log = earlier ++ .began gone :: since ∧ AllEnded earlier) ∧
    ∀ e ∈ since, e.isEnded = false ∧ e.gone? = none

theorem AllEnded.concat (h : AllEnded log) (he : e.gone? = none) : AllEnded (log ++ [e]) := by
  intro earlier gone since hlog
  rcases concat_eq_split.mp hlog with ⟨-, rfl, -⟩ | ⟨since', rfl, hlog'⟩
  · cases he
  · obtain ⟨ok, hin⟩ := h earlier gone since' hlog'
    exact ⟨ok, List.mem_append_left _ hin⟩

theorem Pending.concat {gone : EngineInstanceUse} (h : Pending log gone since)
    (he : e.isEnded = false) (hgone : e.gone? = none) :
    Pending (log ++ [e]) gone (since ++ [e]) := by
  obtain ⟨⟨earlier, hlog, hended⟩, hsince⟩ := h
  refine ⟨⟨earlier, by rw [hlog]; simp, hended⟩, fun e' he' => ?_⟩
  rcases List.mem_append.mp he' with he' | he'
  · exact hsince e' he'
  · rw [List.mem_singleton.mp he']
    exact ⟨he, hgone⟩

theorem Pending.split {gone gone' : EngineInstanceUse} (h : Pending log gone since)
    {earlier since' : List ReaperEvent} (hlog : log = earlier ++ .began gone' :: since') :
    (∃ ok, .ended ok ∈ since') ∨ gone' = gone ∧ since' = since := by
  obtain ⟨⟨before, hbefore, hended⟩, hsince⟩ := h
  rw [hbefore] at hlog
  rcases List.append_eq_append_iff.mp hlog with ⟨mid, hearlier, heq⟩ | ⟨mid, hb, heq⟩
  · rcases List.cons_eq_append_iff.mp heq with ⟨rfl, heq'⟩ | ⟨mid', rfl, heq'⟩
    · cases heq'
      exact .inr ⟨rfl, rfl⟩
    · have hin : ReaperEvent.began gone' ∈ since := by
        rw [heq']
        exact List.mem_append_right _ (List.mem_cons_self ..)
      cases (hsince _ hin).2
  · rcases List.cons_eq_append_iff.mp heq with ⟨rfl, heq'⟩ | ⟨mid', rfl, heq'⟩
    · cases heq'
      exact .inr ⟨rfl, rfl⟩
    · obtain ⟨ok, hin⟩ := hended earlier gone' mid' hb
      exact .inl ⟨ok, by rw [heq']; exact List.mem_append_left _ hin⟩

theorem allEnded_ended (log : List ReaperEvent) (ok : Bool) : AllEnded (log ++ [.ended ok]) := by
  intro earlier gone' since' hlog
  rcases concat_eq_split.mp hlog with ⟨-, he, -⟩ | ⟨since', rfl, hlog'⟩
  · cases he
  · exact ⟨ok, List.mem_append_right _ (List.mem_singleton_self _)⟩

theorem Pending.due_ended {gone : EngineInstanceUse} (h : Pending log gone since) {ok : Bool}
    (hunused : ok = true → ∀ e ∈ since, ¬ e.Uses gone.workspaceId) :
    Due workspaceId (log ++ [.ended ok]) [] ↔
      Due workspaceId log [] ∨ ok = true ∧ gone.workspaceId = workspaceId := by
  constructor
  · rintro ⟨earlier, gone', since', hlog, hworkspace, hnone, hdone⟩
    rw [List.append_nil] at hdone
    rcases concat_eq_split.mp hlog with ⟨rfl, -, -⟩ | ⟨since', rfl, hlog'⟩
    · exact absurd hdone (not_succeeded nofun)
    · rcases h.split hlog' with ⟨ok', hin⟩ | ⟨rfl, rfl⟩
      · refine .inl ⟨earlier, gone', since', hlog', hworkspace,
          fun e he => hnone e (List.mem_append_left _ he), ?_⟩
        rw [List.append_nil]
        exact (succeeded_settled hin).mp hdone
      · exact .inr ⟨(succeeded_pending fun e he => (h.2 e he).1).mp hdone, hworkspace⟩
  · rintro (⟨earlier, gone', since', hlog, hworkspace, hnone, hdone⟩ | ⟨rfl, hworkspace⟩)
    · rw [List.append_nil] at hdone
      refine ⟨earlier, gone', since' ++ [.ended ok],
        concat_eq_split.mpr (.inr ⟨since', rfl, hlog⟩), hworkspace, fun e he => ?_, ?_⟩
      · rcases List.mem_append.mp he with he | he
        · exact hnone e he
        · rw [List.mem_singleton.mp he]
          exact id
      · rw [List.append_nil]
        exact (succeeded_settled (List.mem_of_find?_eq_some hdone)).mpr hdone
    · obtain ⟨earlier, hlog, -⟩ := h.1
      refine ⟨earlier, gone, since ++ [.ended true],
        concat_eq_split.mpr (.inr ⟨since, rfl, hlog⟩), hworkspace, fun e he => ?_, ?_⟩
      · rcases List.mem_append.mp he with he | he
        · exact hworkspace ▸ hunused rfl e he
        · rw [List.mem_singleton.mp he]
          exact id
      · rw [List.append_nil]
        exact (succeeded_pending fun e he => (h.2 e he).1).mpr rfl

theorem Pending.reports {gone : EngineInstanceUse} (h : Pending log gone since)
    (hreports : Reports log) {ok : Bool}
    (hunused : ok = true → ∀ e ∈ since, ¬ e.Uses gone.workspaceId) :
    Reports (log ++ [.ended ok]) := by
  refine hreports.concat (fun before use reported after hlog => ?_) fun _ _ => nofun
  refine exists_congr fun earlier => exists_congr fun gone' => exists_congr fun since' =>
    and_congr_right fun hbefore => and_congr_right fun hworkspace => and_congr_right fun _ => ?_
  have hlog' : log = earlier ++ .began gone' :: (since' ++ .used use reported :: after) := by
    rw [hlog, hbefore]
    simp
  rw [← List.append_assoc]
  rcases h.split hlog' with ⟨ok', hin⟩ | ⟨rfl, hsince⟩
  · exact succeeded_settled hin
  · -- the dispose has not ended: it fails, as the use came since
    have hnone : ∀ e ∈ since' ++ .used use reported :: after, e.isEnded = false := fun e he =>
      (h.2 e (hsince ▸ he)).1
    rw [succeeded_pending hnone]
    refine ⟨fun hok => absurd ?_ (hunused hok (.used use reported) ?_), fun hdone =>
      absurd hdone (not_succeeded hnone)⟩
    · exact hworkspace.symm
    · rw [← hsince]
      exact List.mem_append_right _ (List.mem_cons_self ..)

end

namespace EngineInstanceReaper

/-! ## The marks -/

structure Marked (r : EngineInstanceReaper) : Prop where
  reports : Reports r.log
  marks : r.closed = false → ∀ workspaceId,
    workspaceId ∈ r.evictedWorkspaceIds ↔ Due workspaceId r.log []

structure Marks (r : EngineInstanceReaper) : Prop extends Marked r where
  ended : (∀ s, r.sweeping = some s → s.await = .probe) → AllEnded r.log
  pending : ∀ s, r.sweeping = some s → s.await = .dispose → ∃ gone since, Pending r.log gone since

variable {r r' : EngineInstanceReaper} {queue : List Nat} {use : EngineInstanceUse} {now : Int}

theorem Marked.concat (hm : r.Marked) {e : ReaperEvent} (he : e.isEnded = false)
    (huse : ∀ use reported, e ≠ .used use reported) (hlog : r'.log = r.log ++ [e])
    (hopen : r'.closed = false →
      r.closed = false ∧ r'.evictedWorkspaceIds = r.evictedWorkspaceIds) : r'.Marked where
  reports := by
    rw [hlog]
    exact hm.reports.concat (fun before _ _ _ _ => due_after before he)
      fun use reported heq => absurd heq (huse use reported)
  marks hclosed workspaceId := by
    obtain ⟨hclosed, hmarks⟩ := hopen hclosed
    have hother : ¬ e.Uses workspaceId := by
      cases e with
      | used use reported => exact absurd rfl (huse use reported)
      | _ => exact id
    rw [hmarks, hlog, due_concat he hother]
    exact hm.marks hclosed workspaceId

theorem Marks.concat (hm : r.Marks) {e : ReaperEvent} (he : e.isEnded = false)
    (hgone : e.gone? = none) (huse : ∀ use reported, e ≠ .used use reported)
    (hlog : r'.log = r.log ++ [e]) (hsweeping : r'.sweeping = r.sweeping)
    (hopen : r'.closed = false →
      r.closed = false ∧ r'.evictedWorkspaceIds = r.evictedWorkspaceIds) : r'.Marks where
  toMarked := hm.toMarked.concat he huse hlog hopen
  ended hprobe := by
    rw [hsweeping] at hprobe
    rw [hlog]
    exact (hm.ended hprobe).concat hgone
  pending s hs hawait := by
    rw [hsweeping] at hs
    obtain ⟨gone, since, hpending⟩ := hm.pending s hs hawait
    exact ⟨gone, since ++ [e], hlog ▸ hpending.concat he hgone⟩

theorem Marks.noteUsed (hm : r.Marks) : (r.noteUsed use now).Marks := by
  have hframe := seen_frame r use now
  unfold EngineInstanceReaper.noteUsed
  split
  · exact hm
  · next hclosed =>
      have hmarks := hm.marks (Bool.eq_false_iff.mpr hclosed)
      obtain ⟨reported, hreported⟩ : ∃ reported, reported =
        decide (use.workspaceId ∈ r.evictedWorkspaceIds) := ⟨_, rfl⟩
      have hmarked : reported = true ↔ use.workspaceId ∈ r.evictedWorkspaceIds := by
        rw [hreported, decide_eq_true_eq]
      have hnew : reported = true ↔ Due use.workspaceId r.log [.used use reported] :=
        hmarked.trans ((hmarks _).trans (due_concat_nil r.log rfl).symm)
      dsimp only
      rw [← hreported]
      refine ⟨⟨?_, fun _ workspaceId => ?_⟩, fun hprobe => ?_, fun s hs hawait => ?_⟩
      · show Reports ((r.seen use now).2.log ++ _)
        rw [hframe.log]
        refine hm.reports.concat (fun before _ _ _ _ => due_after before rfl) fun _ _ heq => ?_
        cases heq
        exact hnew
      · show workspaceId ∈ r.evictedWorkspaceIds.filter _ ↔
          Due workspaceId ((r.seen use now).2.log ++ _) []
        rw [hframe.log, List.mem_filter, decide_eq_true_eq, hmarks]
        by_cases hsame : workspaceId = use.workspaceId
        · subst hsame
          exact ⟨fun h => absurd rfl h.2, fun h => absurd h not_due_used⟩
        · rw [due_concat (e := .used use reported) rfl (Ne.symm hsame), and_iff_left hsame]
      · show AllEnded ((r.seen use now).2.log ++ _)
        rw [hframe.log]
        exact (hm.ended fun s hs => hprobe s (hframe.sweeping.trans hs)).concat rfl
      · obtain ⟨gone, since, hpending⟩ := hm.pending s (hframe.sweeping.symm.trans hs) hawait
        refine ⟨gone, since ++ [.used use reported], ?_⟩
        show Pending ((r.seen use now).2.log ++ _) _ _
        rw [hframe.log]
        exact hpending.concat rfl rfl

theorem Marks.holdStream (hm : r.Marks) : (r.holdStream use now).Marks := by
  have hframe := seen_frame r use now
  unfold EngineInstanceReaper.holdStream
  split
  · exact hm
  · refine hm.concat (e := .held r.holds.length use) rfl rfl nofun ?_ hframe.sweeping
      fun hopen => ⟨hframe.closed.symm.trans hopen, hframe.marks⟩
    show (r.seen use now).2.log ++ _ = _
    rw [hframe.log]

theorem Marks.release (hm : r.Marks) (hold : Nat) : (r.release hold now).Marks := by
  unfold EngineInstanceReaper.release
  split
  · exact hm
  · split
    · exact hm
    · have hnoted : ∀ r' : EngineInstanceReaper, r'.log = r.log ++ [.released hold] →
          r'.sweeping = r.sweeping → r'.closed = r.closed →
          r'.evictedWorkspaceIds = r.evictedWorkspaceIds → r'.Marks :=
        fun r' hlog hsweeping hclosed hmarks =>
          hm.concat (e := .released hold) rfl rfl nofun hlog hsweeping
            fun hopen => ⟨hclosed.symm.trans hopen, hmarks⟩
      dsimp only
      split
      · exact hnoted _ rfl rfl rfl rfl
      · split <;> exact hnoted _ rfl rfl rfl rfl

theorem Marks.close (hm : r.Marks) : r.close.Marks where
  reports := hm.reports
  marks := nofun
  ended := hm.ended
  pending := hm.pending

theorem Marks.returned (hm : r.Marked) (hended : AllEnded r.log) (count : Nat) :
    (r.returned count).Marks where
  toMarked := hm.concat (e := .evicted count) rfl nofun rfl fun hopen => ⟨hopen, rfl⟩
  ended _ := hended.concat rfl
  pending := nofun

theorem Marked.sweepFrom {ttl : Int} {url : String} {activeDirectory : Option String}
    {clock : Nat → Int} {count : Nat} (hm : r.Marked) (hended : AllEnded r.log) :
    (sweepFrom ttl url activeDirectory clock count r queue).Marks := by
  induction queue generalizing r with
  | nil => exact .returned hm hended count
  | cons entry rest ih =>
      unfold EngineInstanceReaper.sweepFrom
      dsimp only
      split
      · exact .returned hm hended count
      · split
        · exact ih ⟨hm.reports, hm.marks⟩ hended
        · split
          · exact ih ⟨hm.reports, hm.marks⟩ hended
          · split
            · exact ih hm hended
            · split
              · exact ih hm hended
              · refine ⟨⟨hm.reports, hm.marks⟩, fun _ => hended, fun s hs hawait => ?_⟩
                cases hs
                cases hawait

/-- What was noted since the last dispose began. -/
def sinceBegan (log : List ReaperEvent) : List ReaperEvent :=
  log.rtakeWhile fun e => e.gone?.isNone

/-- The instance of the last dispose. -/
def lastGone (log : List ReaperEvent) : Option EngineInstanceUse :=
  log.reverse.findSome? ReaperEvent.gone?

/-- When a dispose succeeds, the entry still has the workspace it had as it began, and no use of
that was noted since. -/
def SparesReports (r : EngineInstanceReaper) : ReaperAct → Prop
  | .disposed true _ => ∀ s gone, r.sweeping = some s → lastGone r.log = some gone →
      (r.entries s.entry).workspaceId = gone.workspaceId ∧
        ∀ e ∈ sinceBegan r.log, ¬ e.Uses gone.workspaceId
  | _ => True

def Spares (r : EngineInstanceReaper) (act : ReaperAct) : Prop :=
  r.SparesHolds act ∧ r.SparesReports act

theorem pending_since {log since : List ReaperEvent} {gone : EngineInstanceUse}
    (h : Pending log gone since) : sinceBegan log = since ∧ lastGone log = some gone := by
  obtain ⟨⟨earlier, rfl, -⟩, hsince⟩ := h
  have hnone : ∀ e ∈ since, e.gone? = none := fun e he => (hsince e he).2
  clear hsince
  induction since using List.reverseRecOn with
  | nil =>
      constructor
      · exact List.rtakeWhile_concat_neg _ _ _ Bool.false_ne_true
      · rw [lastGone, List.reverse_append]
        rfl
  | append_singleton since e ih =>
      have he := hnone e (List.mem_append_right _ (List.mem_singleton_self _))
      obtain ⟨hsince, hlast⟩ := ih fun e' he' => hnone e' (List.mem_append_left _ he')
      rw [← List.cons_append, ← List.append_assoc]
      constructor
      · rw [sinceBegan, List.rtakeWhile_concat_pos _ _ _ (by rw [he]; rfl), ← sinceBegan, hsince]
      · rw [lastGone, List.reverse_append, List.findSome?_append]
        simp only [List.reverse_singleton, List.findSome?_cons, he, List.findSome?_nil,
          Option.none_or]
        exact hlast

theorem Marks.probed (hm : r.Marks) {s : Sweep} (hs : r.sweeping = some s)
    (hawait : s.await = .probe) {busy : Option Bool} {clock : Nat → Int} :
    (r.probed s busy clock).Marks := by
  have hended : AllEnded r.log := hm.ended fun s' hs' => by
    rw [hs] at hs'
    cases hs'
    exact hawait
  unfold EngineInstanceReaper.probed
  split
  · exact hm.toMarked.sweepFrom hended
  · exact Marked.sweepFrom ⟨hm.reports, hm.marks⟩ hended
  · dsimp only
    split
    · exact hm.toMarked.sweepFrom hended
    · refine ⟨hm.toMarked.concat (e := .began (r.entries s.entry).toEngineInstanceUse) rfl nofun rfl
        fun hopen => ⟨hopen, rfl⟩, fun hprobe => ?_, fun s' _ _ => ?_⟩
      · cases hprobe _ rfl
      · exact ⟨_, [], ⟨r.log, rfl, hended⟩, nofun⟩

theorem Marks.disposed (hm : r.Marks) {s : Sweep} (hs : r.sweeping = some s)
    (hawait : s.await = .dispose) {ok : Bool} {clock : Nat → Int}
    (hspares : r.SparesReports (.disposed ok clock)) : (r.disposed s ok clock).Marks := by
  obtain ⟨gone, since, hpending⟩ := hm.pending s hs hawait
  obtain ⟨hsince, hgone⟩ := pending_since hpending
  have hended := allEnded_ended r.log ok
  unfold EngineInstanceReaper.disposed
  cases ok with
  | true =>
      obtain ⟨hworkspace, hunused⟩ := hspares s gone hs hgone
      rw [hsince] at hunused
      refine Marked.sweepFrom ⟨hpending.reports hm.reports fun _ => hunused,
        fun hopen workspaceId => ?_⟩ hended
      have hmarks := hm.marks hopen workspaceId
      show workspaceId ∈ r.evictedWorkspaceIds.insert _ ↔ Due workspaceId (r.log ++ _) []
      rw [hpending.due_ended fun _ => hunused, List.mem_insert_iff, hmarks, hworkspace]
      exact ⟨fun h => h.symm.imp_right fun h => ⟨rfl, h.symm⟩,
        fun h => (h.imp_right fun h => h.2.symm).symm⟩
  | false =>
      have hfails : false = true → ∀ e ∈ since, ¬ e.Uses gone.workspaceId :=
        fun h => absurd h Bool.false_ne_true
      refine Marked.sweepFrom ⟨hpending.reports hm.reports hfails,
        fun hopen workspaceId => ?_⟩ hended
      show workspaceId ∈ r.evictedWorkspaceIds ↔ Due workspaceId (r.log ++ _) []
      rw [hpending.due_ended hfails, hm.marks hopen workspaceId]
      exact ⟨.inl, fun h => h.resolve_right fun h => Bool.false_ne_true h.1⟩

theorem Marks.sweep (hm : r.Marks) {ttl : Int} {url activeDirectory : Option String}
    {clock : Nat → Int} : (r.sweep ttl url activeDirectory clock).Marks := by
  unfold EngineInstanceReaper.sweep
  split
  · exact hm
  · next hidle =>
      have hnone : r.sweeping = none := by
        cases hs : r.sweeping with
        | none => rfl
        | some s => exact absurd (.inr (.inl (by rw [hs]; rfl))) hidle
      have hended : AllEnded r.log := hm.ended fun s hs => by
        rw [hnone] at hs
        cases hs
      split
      · exact hm
      · split
        · exact hm
        · have hswept : (r.note .swept).Marked :=
            hm.toMarked.concat (e := .swept) rfl nofun rfl fun hopen => ⟨hopen, rfl⟩
          exact hswept.sweepFrom (hended.concat (e := .swept) rfl)

theorem Marks.step (hm : r.Marks) {act : ReaperAct} (hspares : r.SparesReports act)
    (hstep : r.step act = some r') : r'.Marks := by
  cases act with
  | noteUsed use now =>
      cases hstep
      exact hm.noteUsed
  | holdStream use now =>
      cases hstep
      exact hm.holdStream
  | release hold now =>
      cases hstep
      exact hm.release hold
  | close =>
      cases hstep
      exact hm.close
  | sweep ttl url activeDirectory clock =>
      cases hstep
      exact hm.sweep
  | probed busy clock =>
      obtain ⟨s, hs, rfl⟩ := Option.map_eq_some_iff.mp hstep
      obtain ⟨hs, hawait⟩ := Option.filter_eq_some_iff.mp hs
      exact hm.probed hs (of_decide_eq_true hawait)
  | disposed ok clock =>
      obtain ⟨s, hs, rfl⟩ := Option.map_eq_some_iff.mp hstep
      obtain ⟨hs, hawait⟩ := Option.filter_eq_some_iff.mp hs
      exact hm.disposed hs (of_decide_eq_true hawait) hspares

theorem marks_start : ({} : EngineInstanceReaper).Marks where
  reports before use reported after hlog := by cases before <;> cases hlog
  marks _ workspaceId := by
    refine ⟨nofun, ?_⟩
    rintro ⟨earlier, gone, since, hlog, -⟩
    cases earlier <;> cases hlog
  ended _ earlier gone since hlog := by cases earlier <;> cases hlog
  pending := nofun

/-- In a run whose acts spare the holds and the reports, the map counts the open holds, no dispose
starts for an instance with one, and each eviction is reported by the first use of the workspace
since its dispose began and by no other. -/
theorem reaper_keeps_holds (h : Reach EngineInstanceReaper.step Spares {} r) :
    r.Counted ∧ Throughout ReaperEvent.Safe r.log ∧ Reports r.log := by
  have hinv : r.Ok ∧ r.Marks :=
    h.invariant (I := fun r => r.Ok ∧ r.Marks) (fun r act r' hinv hspares hstep =>
      ⟨hinv.1.step hspares.1 hstep, hinv.2.step hspares.2 hstep⟩) ⟨ok_start, marks_start⟩
  obtain ⟨hok, hmarks⟩ := hinv
  exact ⟨hok.keeps.counted, hok.keeps.safe, hmarks.reports⟩

def useOfW : EngineInstanceUse := ⟨"/w", "ws", "http://a"⟩

/-- A stream is opened and closed, and a while later the instance is evicted. -/
theorem reaper_keeps_holds_quiet : ∃ r : EngineInstanceReaper,
    r.log = [.used useOfW false, .held 0 useOfW, .released 0, .swept, .began useOfW, .ended true,
      .evicted 1, .used useOfW true] ∧
    r.Counted ∧ Throughout ReaperEvent.Safe r.log ∧ Reports r.log := by
  have hused : Reach EngineInstanceReaper.step Spares {} _ :=
    .snoc (a := .noteUsed useOfW 0) .refl ⟨fun _ _ => rfl, trivial⟩ rfl
  have hheld : Reach EngineInstanceReaper.step Spares {} _ :=
    .snoc (a := .holdStream useOfW 1) hused ⟨fun _ h => absurd h (by decide), trivial⟩ rfl
  have hreleased : Reach EngineInstanceReaper.step Spares {} _ :=
    .snoc (a := .release 0 2) hheld
      ⟨fun _ _ _ _ _ _ => .inl ⟨⟨0, "/w", "http://a"⟩, by decide, rfl⟩, trivial⟩ rfl
  have hswept : Reach EngineInstanceReaper.step Spares {} _ :=
    .snoc (a := .sweep 10 (some "http://a") none fun _ => 50) hreleased ⟨trivial, trivial⟩ rfl
  have hbegan : Reach EngineInstanceReaper.step Spares {} _ :=
    .snoc (a := .probed (some false) fun _ => 51) hswept ⟨fun s hs _ => by
      cases (show some (⟨10, "http://a", none, 0, 0, .probe, []⟩ : Sweep) = some s from hs)
      decide, trivial⟩ rfl
  have hended : Reach EngineInstanceReaper.step Spares {} _ :=
    .snoc (a := .disposed true fun _ => 80) hbegan ⟨trivial, fun s gone hs hgone => by
      cases (show some (⟨10, "http://a", none, 0, 0, .dispose, []⟩ : Sweep) = some s from hs)
      cases (show some useOfW = some gone from hgone)
      exact ⟨rfl, fun e he => nomatch (show e ∈ ([] : List ReaperEvent) from he)⟩⟩ rfl
  exact ⟨_, rfl, reaper_keeps_holds
    (.snoc (a := .noteUsed useOfW 90) hended ⟨fun _ _ => rfl, trivial⟩ rfl)⟩

/-- A stream is opened while the probe runs, the probe takes longer than the time to live, and
the instance is used while it is disposed. -/
def evictedWhileHeld : List ReaperAct :=
  [.noteUsed useOfW 0, .sweep 10 (some "http://a") none fun _ => 50, .holdStream useOfW 51,
    .probed (some false) fun _ => 70, .noteUsed useOfW 71, .disposed true fun _ => 80,
    .holdStream useOfW 90]

theorem reaper_evicts_held : ∃ r,
    runActions EngineInstanceReaper.step evictedWhileHeld {} = some r ∧
    ¬ r.Counted ∧ ¬ Throughout ReaperEvent.Safe r.log ∧ ¬ Reports r.log := by
  refine ⟨_, rfl, fun h => ?_, fun h => ?_, fun h => ?_⟩
  · exact absurd (h "/w" 1 rfl) (by decide)
  · have hsafe : holdsOn [.used useOfW false, .swept, .held 0 useOfW] "/w" "http://a" = [] :=
      h _ (.began useOfW) ⟨[.used useOfW false, .ended true, .evicted 1, .held 1 useOfW], rfl⟩
    exact absurd hsafe (by decide)
  · have hfirst := h [.used useOfW false, .swept, .held 0 useOfW, .began useOfW] useOfW false _ rfl
    refine Bool.false_ne_true (hfirst.mpr ?_)
    exact ⟨[.used useOfW false, .swept, .held 0 useOfW], useOfW, [], rfl, rfl, nofun, rfl⟩

end EngineInstanceReaper

end OmniRush.Server
