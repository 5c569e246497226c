import OmniRush.Lib.Machine
import OmniRush.Server.InstanceReaper

/-!
# The holds of an engine instance

What holds are open is read off the log: those taken on a directory since its engine URL last
changed and not released. `Keeps` says that the map counts them, and that an entry a sweep has
still to come to is either the one in the map or has no open hold but such as were taken since
the sweep began. So only a hold taken since then can be open when a dispose starts.
-/

namespace OmniRush.Server

open OmniRush

/-! ## The open holds -/

structure OpenHold where
  hold : Nat
  directory : String
  engineBaseUrl : String
  deriving DecidableEq, Repr

/-- A use at another URL ends the holds of the directory. -/
def stillOpen (use : EngineInstanceUse) (holds : List OpenHold) : List OpenHold :=
  holds.filter fun h => h.directory ≠ use.directory ∨ h.engineBaseUrl = use.engineBaseUrl

def openAfter (holds : List OpenHold) : ReaperEvent → List OpenHold
  | .used use _ => stillOpen use holds
  | .held hold use => stillOpen use holds ++ [⟨hold, use.directory, use.engineBaseUrl⟩]
  | .released hold => holds.filter fun h => h.hold ≠ hold
  | _ => holds

/-- The holds that are not released, of those taken since the URL of their directory last
changed. -/
def openHolds (log : List ReaperEvent) : List OpenHold := log.foldl openAfter []

/-- The open holds of an instance. -/
def holdsOn (log : List ReaperEvent) (directory engineBaseUrl : String) : List OpenHold :=
  (openHolds log).filter fun h => h.directory = directory ∧ h.engineBaseUrl = engineBaseUrl

def ReaperEvent.hold? : ReaperEvent → Option Nat
  | .held hold _ => some hold
  | _ => none

/-- The holds taken since the last sweep began. -/
def sweepHolds (log : List ReaperEvent) : List Nat :=
  (log.rtakeWhile fun e => e ≠ .swept).filterMap ReaperEvent.hold?

/-- A dispose may start for an instance without an open hold. -/
def ReaperEvent.Safe (before : List ReaperEvent) : ReaperEvent → Prop
  | .began gone => holdsOn before gone.directory gone.engineBaseUrl = []
  | _ => True

section

variable {log : List ReaperEvent} {e : ReaperEvent} {directory engineBaseUrl : String}
  {h : OpenHold}

theorem openHolds_concat (log : List ReaperEvent) (e : ReaperEvent) :
    openHolds (log ++ [e]) = openAfter (openHolds log) e := by
  rw [openHolds, List.foldl_append]
  rfl

theorem mem_holdsOn :
    h ∈ holdsOn log directory engineBaseUrl ↔
      h ∈ openHolds log ∧ h.directory = directory ∧ h.engineBaseUrl = engineBaseUrl := by
  rw [holdsOn, List.mem_filter, decide_eq_true_eq]

theorem holdsOn_eq_nil_iff :
    holdsOn log directory engineBaseUrl = [] ↔
      ∀ h ∈ openHolds log, h.directory = directory → h.engineBaseUrl ≠ engineBaseUrl := by
  rw [List.eq_nil_iff_forall_not_mem]
  simp only [mem_holdsOn, not_and]

theorem mem_stillOpen {use : EngineInstanceUse} {holds : List OpenHold} :
    h ∈ stillOpen use holds ↔
      h ∈ holds ∧ (h.directory = use.directory → h.engineBaseUrl = use.engineBaseUrl) := by
  rw [stillOpen, List.mem_filter, decide_eq_true_eq, imp_iff_not_or]

theorem sweepHolds_sub (he : e ≠ .swept) {hold : Nat} (hin : hold ∈ sweepHolds log) :
    hold ∈ sweepHolds (log ++ [e]) := by
  rw [sweepHolds, List.rtakeWhile_concat_pos _ _ _ (by simpa using he), List.filterMap_append]
  exact List.mem_append_left _ hin

theorem mem_sweepHolds_held (hold : Nat) (use : EngineInstanceUse) :
    hold ∈ sweepHolds (log ++ [.held hold use]) := by
  rw [sweepHolds, List.rtakeWhile_concat_pos _ _ _ (by simp), List.filterMap_append]
  exact List.mem_append_right _ (List.mem_singleton_self hold)

/-- What a use leaves open on its own instance, or on other directories, is what was. -/
theorem filter_stillOpen {use : EngineInstanceUse} {holds : List OpenHold}
    (hor : directory = use.directory → engineBaseUrl = use.engineBaseUrl) :
    (stillOpen use holds).filter (fun h => h.directory = directory ∧
        h.engineBaseUrl = engineBaseUrl) =
      holds.filter fun h => h.directory = directory ∧ h.engineBaseUrl = engineBaseUrl := by
  rw [stillOpen, List.filter_filter]
  refine List.filter_congr fun h _ => ?_
  by_cases hon : h.directory = directory ∧ h.engineBaseUrl = engineBaseUrl
  · obtain ⟨rfl, rfl⟩ := hon
    by_cases hdir : h.directory = use.directory
    · simp [hor hdir]
    · simp [hdir]
  · simp [hon]

end

/-! ## The invariant -/

namespace EngineInstanceReaper

section

variable (r : EngineInstanceReaper)

/-- The map counts the open holds of what it tracks. -/
def Counted : Prop :=
  ∀ directory entry, r.instances.get directory = some entry →
    (r.entries entry).streamHolds =
      (holdsOn r.log directory (r.entries entry).engineBaseUrl).length

structure Keeps (queue : List Nat) : Prop where
  named : ∀ directory entry, r.instances.get directory = some entry →
    entry < r.made ∧ (r.entries entry).directory = directory
  counted : r.Counted
  current : ∀ directory entry, r.instances.get directory = some entry →
    ∀ h ∈ openHolds r.log, h.directory = directory →
      h.engineBaseUrl = (r.entries entry).engineBaseUrl
  given : ∀ h ∈ openHolds r.log,
    r.holds[h.hold]? = some ⟨h.directory, h.engineBaseUrl, false⟩
  distinct : (openHolds r.log).Nodup
  queued : ∀ entry ∈ queue, entry < r.made
  apart : (queue.map fun entry => (r.entries entry).directory).Nodup
  waiting : r.closed = false → ∀ entry ∈ queue, ∀ h ∈ openHolds r.log,
    h.directory = (r.entries entry).directory →
    h.engineBaseUrl = (r.entries entry).engineBaseUrl →
    h.hold ∈ sweepHolds r.log ∨ r.instances.get h.directory = some entry
  safe : Throughout ReaperEvent.Safe r.log

/-- The entries a sweep has to come to, from the one it awaits something for. -/
def queue : List Nat :=
  match r.sweeping with
  | none => []
  | some s => s.entry :: s.rest

/-- While an entry is probed its open holds are those taken since the sweep began. -/
def Probing : Prop :=
  ∀ s, r.sweeping = some s → s.await = .probe → ∀ h ∈ openHolds r.log,
    h.directory = (r.entries s.entry).directory →
    h.engineBaseUrl = (r.entries s.entry).engineBaseUrl → h.hold ∈ sweepHolds r.log

structure Ok : Prop where
  keeps : r.Keeps r.queue
  probing : r.Probing

end

variable {r r' : EngineInstanceReaper} {queue queue' : List Nat} {use : EngineInstanceUse}
  {now : Int}

/-! ## Steps that open and release nothing -/

theorem Keeps.mono (hk : r.Keeps queue)
    (hentries : ∀ entry, (r'.entries entry).directory = (r.entries entry).directory ∧
      (r'.entries entry).engineBaseUrl = (r.entries entry).engineBaseUrl ∧
      (r'.entries entry).streamHolds = (r.entries entry).streamHolds)
    (hmade : r'.made = r.made) (hholds : r'.holds = r.holds)
    (hinstances : ∀ directory entry, r'.instances.get directory = some entry →
      r.instances.get directory = some entry)
    (hlog : openHolds r'.log = openHolds r.log)
    (hsweep : ∀ hold ∈ sweepHolds r.log, hold ∈ sweepHolds r'.log)
    (hqueue : queue'.Sublist queue)
    (hstays : r'.closed = false → r.closed = false ∧ ∀ entry ∈ queue', ∀ directory,
      (r.entries entry).directory = directory → r.instances.get directory = some entry →
      r'.instances.get directory = some entry)
    (hsafe : Throughout ReaperEvent.Safe r'.log) : r'.Keeps queue' where
  named directory entry hget := by
    rw [hmade, (hentries entry).1]
    exact hk.named directory entry (hinstances directory entry hget)
  counted directory entry hget := by
    rw [(hentries entry).2.2, (hentries entry).2.1, holdsOn, hlog]
    exact hk.counted directory entry (hinstances directory entry hget)
  current directory entry hget := by
    rw [hlog, (hentries entry).2.1]
    exact hk.current directory entry (hinstances directory entry hget)
  given := by
    rw [hlog, hholds]
    exact hk.given
  distinct := by
    rw [hlog]
    exact hk.distinct
  queued entry hin := by
    rw [hmade]
    exact hk.queued entry (hqueue.subset hin)
  apart := by
    have hsame : (queue'.map fun entry => (r'.entries entry).directory) =
        queue'.map fun entry => (r.entries entry).directory :=
      List.map_congr_left fun entry _ => (hentries entry).1
    rw [hsame]
    exact hk.apart.sublist (hqueue.map _)
  waiting hopen entry hin h hh hdir hurl := by
    obtain ⟨hopen', hkept⟩ := hstays hopen
    rw [hlog] at hh
    rw [(hentries entry).1] at hdir
    rw [(hentries entry).2.1] at hurl
    rcases hk.waiting hopen' entry (hqueue.subset hin) h hh hdir hurl with hsince | htracked
    · exact .inl (hsweep _ hsince)
    · exact .inr (hkept entry hin _ hdir.symm htracked)
  safe := hsafe

/-! ## Uses -/

/-- The step records a use in an entry, which it had for the directory and the URL or makes. -/
structure Recorded (r r' : EngineInstanceReaper) (use : EngineInstanceUse)
    (entry more : Nat) : Prop where
  get : ∀ directory, r'.instances.get directory =
    if directory = use.directory then some entry else r.instances.get directory
  directory : (r'.entries entry).directory = use.directory
  engineBaseUrl : (r'.entries entry).engineBaseUrl = use.engineBaseUrl
  other : ∀ other < r.made, other ≠ entry → r'.entries other = r.entries other
  made : r.made ≤ r'.made ∧ entry < r'.made
  closed : r'.closed = r.closed
  sweeping : r'.sweeping = r.sweeping
  source : (r.made ≤ entry ∧ (r'.entries entry).streamHolds = more ∧
      ∀ old, r.instances.get use.directory = some old →
        (r.entries old).engineBaseUrl ≠ use.engineBaseUrl) ∨
    (r.instances.get use.directory = some entry ∧
      (r.entries entry).engineBaseUrl = use.engineBaseUrl ∧
      (r'.entries entry).streamHolds = (r.entries entry).streamHolds + more)

theorem recorded_track (hnew : ∀ old, r.instances.get use.directory = some old →
    (r.entries old).engineBaseUrl ≠ use.engineBaseUrl) :
    Recorded r (r.track use now).2 use (r.track use now).1 0 where
  get directory := Record.get_set ..
  directory := by simp [track]
  engineBaseUrl := by simp [track]
  other other _ hne := Function.update_of_ne hne ..
  made := ⟨Nat.le_succ _, Nat.lt_succ_self _⟩
  closed := rfl
  sweeping := rfl
  source := .inl ⟨le_refl _, by simp [track], hnew⟩

theorem recorded_seen (use : EngineInstanceUse) (now : Int) (hk : r.Keeps queue) :
    Recorded r (r.seen use now).2 use (r.seen use now).1 0 := by
  rw [seen]
  split
  · next hnone => exact recorded_track fun old hold => by rw [hnone] at hold; cases hold
  · next entry hget =>
      split
      · next hurl =>
          obtain ⟨hmade, hdir⟩ := hk.named _ _ hget
          exact {
            get := fun directory => by
              show r.instances.get directory = _
              split
              · next h => rw [h, hget]
              · rfl
            directory := by simpa [update] using hdir
            engineBaseUrl := by simpa [update] using hurl
            other := fun other _ hne => Function.update_of_ne hne ..
            made := ⟨le_refl _, hmade⟩
            closed := rfl
            sweeping := rfl
            source := .inr ⟨hget, hurl, by simp [update]⟩ }
      · next hurl =>
          refine recorded_track fun old hold => ?_
          rw [hget] at hold
          cases hold
          exact hurl

theorem Recorded.same {entry more : Nat} (hrec : Recorded r r' use entry more)
    (hk : r.Keeps queue) {other : Nat} (hlt : other < r.made) :
    (r'.entries other).directory = (r.entries other).directory ∧
      (r'.entries other).engineBaseUrl = (r.entries other).engineBaseUrl := by
  by_cases hne : other = entry
  · subst hne
    rcases hrec.source with ⟨hle, -⟩ | ⟨hget, hurl, -⟩
    · omega
    · exact ⟨by rw [hrec.directory, (hk.named _ _ hget).2], by rw [hrec.engineBaseUrl, hurl]⟩
  · rw [hrec.other other hlt hne]
    exact ⟨rfl, rfl⟩

theorem Recorded.count {entry more : Nat} (hrec : Recorded r r' use entry more)
    (hk : r.Keeps queue) (hfresh : r.instances.get use.directory = none →
      holdsOn r.log use.directory use.engineBaseUrl = []) :
    (r'.entries entry).streamHolds =
      (holdsOn r.log use.directory use.engineBaseUrl).length + more := by
  rcases hrec.source with ⟨-, hholds, hnew⟩ | ⟨hget, hurl, hholds⟩
  · have hnone : holdsOn r.log use.directory use.engineBaseUrl = [] := by
      cases hget : r.instances.get use.directory with
      | none => exact hfresh hget
      | some old =>
          refine holdsOn_eq_nil_iff.mpr fun h hh hdir hsame => hnew old hget ?_
          rw [← hk.current _ _ hget h hh hdir, hsame]
    rw [hholds, hnone, List.length_nil, Nat.zero_add]
  · rw [hholds, hk.counted _ _ hget, hurl]

theorem Recorded.keeps {entry : Nat} {new : List OpenHold}
    (hrec : Recorded r r' use entry new.length) (hk : r.Keeps queue)
    (hfresh : r.instances.get use.directory = none →
      holdsOn r.log use.directory use.engineBaseUrl = [])
    (hlog : openHolds r'.log = stillOpen use (openHolds r.log) ++ new)
    (hsweep : ∀ hold ∈ sweepHolds r.log, hold ∈ sweepHolds r'.log)
    (hnew : ∀ h ∈ new, h.directory = use.directory ∧ h.engineBaseUrl = use.engineBaseUrl ∧
      h.hold ∈ sweepHolds r'.log ∧ r'.holds[h.hold]? = some ⟨h.directory, h.engineBaseUrl, false⟩)
    (hgiven : ∀ (hold : Nat) given, r.holds[hold]? = some given → r'.holds[hold]? = some given)
    (hdistinct : new.Nodup ∧ ∀ h ∈ new, h ∉ openHolds r.log)
    (hsafe : Throughout ReaperEvent.Safe r'.log) : r'.Keeps queue := by
  have hopen : ∀ h ∈ openHolds r'.log, (h ∈ openHolds r.log ∧
      (h.directory = use.directory → h.engineBaseUrl = use.engineBaseUrl)) ∨ h ∈ new := by
    intro h hh
    rw [hlog, List.mem_append] at hh
    exact hh.imp_left mem_stillOpen.mp
  have hother : ∀ directory other, directory ≠ use.directory →
      r.instances.get directory = some other → r'.entries other = r.entries other := by
    intro directory other hne hget
    obtain ⟨hmade, hdir⟩ := hk.named _ _ hget
    refine hrec.other other hmade ?_
    rintro rfl
    rw [← (hrec.same hk hmade).1, hrec.directory] at hdir
    exact hne hdir.symm
  refine {
    named := fun directory other hget => ?_
    counted := fun directory other hget => ?_
    current := fun directory other hget h hh hdir => ?_
    given := fun h hh => ?_
    distinct := ?_
    queued := fun other hin => Nat.lt_of_lt_of_le (hk.queued other hin) hrec.made.1
    apart := ?_
    waiting := fun hopened other hin h hh hdir hurl => ?_
    safe := hsafe }
  · rw [hrec.get] at hget
    split at hget
    · next h =>
        cases hget
        exact ⟨hrec.made.2, by rw [hrec.directory, h]⟩
    · next h =>
        rw [hother _ _ h hget]
        exact ⟨Nat.lt_of_lt_of_le (hk.named _ _ hget).1 hrec.made.1, (hk.named _ _ hget).2⟩
  · rw [hrec.get] at hget
    rw [holdsOn, hlog, List.filter_append, List.length_append]
    split at hget
    · next h =>
        cases hget
        subst h
        have hall : new.filter (fun h => h.directory = use.directory ∧
            h.engineBaseUrl = (r'.entries entry).engineBaseUrl) = new := by
          refine List.filter_eq_self.mpr fun h hh => ?_
          rw [hrec.engineBaseUrl]
          exact decide_eq_true ⟨(hnew h hh).1, (hnew h hh).2.1⟩
        rw [hall, hrec.engineBaseUrl, filter_stillOpen fun _ => rfl]
        exact hrec.count hk hfresh
    · next h =>
        have hnone : new.filter (fun h => h.directory = directory ∧
            h.engineBaseUrl = (r'.entries other).engineBaseUrl) = [] := by
          refine List.filter_eq_nil_iff.mpr fun hnewHold hin hmatch => h ?_
          rw [← (of_decide_eq_true hmatch).1, (hnew hnewHold hin).1]
        rw [hnone, List.length_nil, filter_stillOpen fun heq => absurd heq h, hother _ _ h hget]
        exact hk.counted _ _ hget
  · rw [hrec.get] at hget
    split at hget
    · next heq =>
        cases hget
        rw [hrec.engineBaseUrl]
        rcases hopen h hh with ⟨-, hstill⟩ | hin
        · exact hstill (hdir.trans heq)
        · exact (hnew h hin).2.1
    · next hne =>
        rw [hother _ _ hne hget]
        rcases hopen h hh with ⟨hold, -⟩ | hin
        · exact hk.current _ _ hget h hold hdir
        · exact absurd (hdir.symm.trans (hnew h hin).1) hne
  · rcases hopen h hh with ⟨hold, -⟩ | hin
    · exact hgiven _ _ (hk.given h hold)
    · exact (hnew h hin).2.2.2
  · rw [hlog]
    refine List.nodup_append.mpr ⟨hk.distinct.filter _, hdistinct.1, fun h hh h' hh' heq => ?_⟩
    exact hdistinct.2 h' hh' (heq ▸ (mem_stillOpen.mp hh).1)
  · have hsame : (queue.map fun other => (r'.entries other).directory) =
        queue.map fun other => (r.entries other).directory :=
      List.map_congr_left fun other hin => (hrec.same hk (hk.queued other hin)).1
    rw [hsame]
    exact hk.apart
  · obtain ⟨hsameDir, hsameUrl⟩ := hrec.same hk (hk.queued other hin)
    rw [hsameDir] at hdir
    rw [hsameUrl] at hurl
    rcases hopen h hh with ⟨hold, hstill⟩ | hin'
    · rcases hk.waiting (hrec.closed ▸ hopened) other hin h hold hdir hurl with hsince | htracked
      · exact .inl (hsweep _ hsince)
      · right
        rw [hrec.get]
        split
        · next heq =>
            rw [heq] at htracked
            -- the entry of the same URL is not made anew
            rcases hrec.source with ⟨-, -, hnone⟩ | ⟨hget, -⟩
            · exact absurd (hurl.symm.trans (hstill heq)) (hnone _ htracked)
            · rw [← hget, htracked]
        · exact htracked
    · exact .inl (hnew h hin').2.2.1

theorem Recorded.probing {entry more : Nat} (hrec : Recorded r r' use entry more) (hok : r.Ok)
    {new : List OpenHold} (hlog : openHolds r'.log = stillOpen use (openHolds r.log) ++ new)
    (hsweep : ∀ hold ∈ sweepHolds r.log, hold ∈ sweepHolds r'.log)
    (hnew : ∀ h ∈ new, h.hold ∈ sweepHolds r'.log) : r'.Probing := by
  intro s hs hawait h hh hdir hurl
  rw [hrec.sweeping] at hs
  have hlt : s.entry < r.made := hok.keeps.queued _ (by simp [queue, hs])
  obtain ⟨hsameDir, hsameUrl⟩ := hrec.same hok.keeps hlt
  rw [hlog, List.mem_append] at hh
  rcases hh with hh | hin
  · refine hsweep _ (hok.probing s hs hawait h (mem_stillOpen.mp hh).1 ?_ ?_)
    · rw [hdir, hsameDir]
    · rw [hurl, hsameUrl]
  · exact hnew h hin

theorem queue_congr (h : r'.sweeping = r.sweeping) : r'.queue = r.queue := by
  rw [queue, queue, h]

/-- What recording a use leaves as it is. -/
structure SeenFrame (r r' : EngineInstanceReaper) : Prop where
  log : r'.log = r.log
  holds : r'.holds = r.holds
  closed : r'.closed = r.closed
  sweeping : r'.sweeping = r.sweeping
  marks : r'.evictedWorkspaceIds = r.evictedWorkspaceIds

theorem seen_frame (r : EngineInstanceReaper) (use : EngineInstanceUse) (now : Int) :
    SeenFrame r (r.seen use now).2 := by
  unfold seen
  split
  · exact ⟨rfl, rfl, rfl, rfl, rfl⟩
  · split <;> exact ⟨rfl, rfl, rfl, rfl, rfl⟩

theorem Ok.noteUsed (hok : r.Ok) (hfresh : r.closed = false →
    r.instances.get use.directory = none →
      holdsOn r.log use.directory use.engineBaseUrl = []) : (r.noteUsed use now).Ok := by
  cases hclosed : r.closed with
  | true => rwa [EngineInstanceReaper.noteUsed, hclosed]
  | false =>
      have hseen := recorded_seen use now hok.keeps
      have hframe := seen_frame r use now
      obtain ⟨e, he⟩ : ∃ e, e = ReaperEvent.used use
        (decide (use.workspaceId ∈ r.evictedWorkspaceIds)) := ⟨_, rfl⟩
      have heq : r.noteUsed use now = { (r.seen use now).2 with
          evictedWorkspaceIds := r.evictedWorkspaceIds.filter fun id => id ≠ use.workspaceId
          log := r.log ++ [e] } := by
        rw [EngineInstanceReaper.noteUsed, hclosed, note, he, ← hframe.log]
        rfl
      rw [heq]
      have hrec : Recorded r { (r.seen use now).2 with
          evictedWorkspaceIds := r.evictedWorkspaceIds.filter fun id => id ≠ use.workspaceId
          log := r.log ++ [e] } use (r.seen use now).1 ([] : List OpenHold).length :=
        ⟨hseen.get, hseen.directory, hseen.engineBaseUrl, hseen.other, hseen.made, hseen.closed,
          hseen.sweeping, hseen.source⟩
      have hopen : openHolds (r.log ++ [e]) = stillOpen use (openHolds r.log) ++ [] := by
        rw [openHolds_concat, he, List.append_nil]
        rfl
      have hsweep : ∀ hold ∈ sweepHolds r.log, hold ∈ sweepHolds (r.log ++ [e]) := fun _ =>
        sweepHolds_sub (by rw [he]; exact nofun)
      refine ⟨?_, hrec.probing hok hopen hsweep nofun⟩
      rw [queue_congr hrec.sweeping]
      refine hrec.keeps hok.keeps (hfresh hclosed) hopen hsweep nofun (fun hold given hgiven => ?_)
        ⟨List.nodup_nil, nofun⟩ (hok.keeps.safe.snoc (by rw [he]; trivial))
      rw [← hframe.holds] at hgiven
      exact hgiven

theorem Ok.holdStream (hok : r.Ok) (hfresh : r.closed = false →
    r.instances.get use.directory = none →
      holdsOn r.log use.directory use.engineBaseUrl = []) : (r.holdStream use now).Ok := by
  cases hclosed : r.closed with
  | true => rwa [EngineInstanceReaper.holdStream, hclosed]
  | false =>
      have hseen := recorded_seen use now hok.keeps
      have hframe := seen_frame r use now
      obtain ⟨given, hgiven⟩ : ∃ given : StreamHold,
        given = ⟨use.directory, use.engineBaseUrl, false⟩ := ⟨_, rfl⟩
      obtain ⟨r', hr'⟩ : ∃ r' : EngineInstanceReaper, r' =
        { (r.seen use now).2.update (r.seen use now).1 fun tracked =>
            { tracked with streamHolds := tracked.streamHolds + 1 } with
          holds := r.holds ++ [given]
          log := r.log ++ [.held r.holds.length use] } := ⟨_, rfl⟩
      have heq : r.holdStream use now = r' := by
        rw [EngineInstanceReaper.holdStream, hclosed, note, hr', hgiven, ← hframe.log]
        rfl
      obtain ⟨new, hnew⟩ : ∃ new : List OpenHold,
        new = [⟨r.holds.length, use.directory, use.engineBaseUrl⟩] := ⟨_, rfl⟩
      have hentry : r'.entries (r.seen use now).1 =
          { (r.seen use now).2.entries (r.seen use now).1 with
            streamHolds := ((r.seen use now).2.entries (r.seen use now).1).streamHolds + 1 } := by
        rw [hr']
        exact Function.update_self ..
      have hrec : Recorded r r' use (r.seen use now).1 new.length := by
        refine ⟨hr' ▸ hseen.get, ?_, ?_, fun other hlt hne => ?_, hr' ▸ hseen.made,
          hr' ▸ hseen.closed, hr' ▸ hseen.sweeping, ?_⟩
        · rw [hentry]
          exact hseen.directory
        · rw [hentry]
          exact hseen.engineBaseUrl
        · rw [hr', ← hseen.other other hlt hne]
          exact Function.update_of_ne hne ..
        · rw [hentry, hnew]
          rcases hseen.source with ⟨hle, hcount, hfirst⟩ | ⟨hget, hurl, hcount⟩
          · exact .inl ⟨hle, by rw [hcount]; rfl, hfirst⟩
          · exact .inr ⟨hget, hurl, by rw [hcount]; rfl⟩
      have hrlog : r'.log = r.log ++ [.held r.holds.length use] := by rw [hr']
      have hrholds : r'.holds = r.holds ++ [given] := by rw [hr']
      have hopen : openHolds r'.log = stillOpen use (openHolds r.log) ++ new := by
        rw [hrlog, openHolds_concat, hnew]
        rfl
      have hsweep : ∀ hold ∈ sweepHolds r.log, hold ∈ sweepHolds r'.log := fun _ hin => by
        rw [hrlog]
        exact sweepHolds_sub (e := .held r.holds.length use) nofun hin
      have hin : ∀ h ∈ new, h.hold ∈ sweepHolds r'.log := fun h hh => by
        rw [hnew, List.mem_singleton] at hh
        rw [hh, hrlog]
        exact mem_sweepHolds_held _ _
      rw [heq]
      refine ⟨?_, hrec.probing hok hopen hsweep hin⟩
      rw [queue_congr hrec.sweeping]
      refine hrec.keeps hok.keeps (hfresh hclosed) hopen hsweep (fun h hh => ?_)
        (fun hold given hold' => ?_) ⟨?_, fun h hh hold => ?_⟩ ?_
      · have hsince := hin h hh
        rw [hnew, List.mem_singleton] at hh
        subst hh
        exact ⟨rfl, rfl, hsince, by rw [hrholds, hgiven, List.getElem?_concat_length]⟩
      · rw [hrholds]
        exact List.getElem?_append_left (List.getElem?_eq_some_iff.mp hold').1 ▸ hold'
      · rw [hnew]
        exact List.nodup_singleton _
      · rw [hnew, List.mem_singleton] at hh
        have hlt := (List.getElem?_eq_some_iff.mp (hok.keeps.given h hold)).1
        rw [hh] at hlt
        exact absurd hlt (Nat.lt_irrefl _)
      · rw [hrlog]
        exact hok.keeps.safe.snoc trivial

/-! ## Releases -/

theorem holdsOn_released (log : List ReaperEvent) (hold : Nat) (directory engineBaseUrl : String) :
    holdsOn (log ++ [.released hold]) directory engineBaseUrl =
      (holdsOn log directory engineBaseUrl).filter fun h => h.hold ≠ hold := by
  rw [holdsOn, openHolds_concat, holdsOn, List.filter_filter]
  show ((openHolds log).filter fun h => h.hold ≠ hold).filter _ = _
  rw [List.filter_filter]
  exact List.filter_congr fun h _ => Bool.and_comm ..

theorem length_filter_hold {holds : List OpenHold} (hdistinct : holds.Nodup) {h : OpenHold}
    (hin : h ∈ holds) (hone : ∀ h' ∈ holds, h'.hold = h.hold → h' = h) :
    (holds.filter fun h' => h'.hold ≠ h.hold).length = holds.length - 1 := by
  have hsame : (holds.filter fun h' => h'.hold ≠ h.hold) = holds.erase h := by
    rw [hdistinct.erase_eq_filter]
    refine List.filter_congr fun h' hh' => ?_
    by_cases heq : h' = h
    · simp [heq]
    · have hne : h'.hold ≠ h.hold := fun hid => heq (hone h' hh' hid)
      simp [heq, hne]
  rw [hsame, List.length_erase_of_mem hin]

theorem Keeps.released (hk : r.Keeps queue) {hold : Nat} {given : StreamHold}
    (hgiven : r.holds[hold]? = some given) (hinstances : r'.instances = r.instances)
    (hmade : r'.made = r.made) (hclosed : r'.closed = r.closed)
    (hholds : r'.holds = r.holds.set hold { given with released := true })
    (hlog : r'.log = r.log ++ [.released hold])
    (hentries : ∀ entry, (r'.entries entry).directory = (r.entries entry).directory ∧
      (r'.entries entry).engineBaseUrl = (r.entries entry).engineBaseUrl)
    (hcount : ∀ directory entry, r.instances.get directory = some entry →
      (r'.entries entry).streamHolds = (r.entries entry).streamHolds -
        if directory = given.directory ∧ (r.entries entry).engineBaseUrl = given.engineBaseUrl
        then 1 else 0)
    (hallowed : ∀ entry, r.instances.get given.directory = some entry →
      (r.entries entry).engineBaseUrl = given.engineBaseUrl →
      (∃ h ∈ openHolds r.log, h.hold = hold) ∨
        holdsOn r.log given.directory given.engineBaseUrl = []) : r'.Keeps queue := by
  have hopen : openHolds r'.log = (openHolds r.log).filter fun h => h.hold ≠ hold := by
    rw [hlog, openHolds_concat]
    rfl
  have hmem : ∀ h ∈ openHolds r'.log, h ∈ openHolds r.log ∧ h.hold ≠ hold := fun h hh => by
    rw [hopen] at hh
    exact ⟨(List.mem_filter.mp hh).1, of_decide_eq_true (List.mem_filter.mp hh).2⟩
  -- an open hold of the number is the one given out with it
  have hone : ∀ h ∈ openHolds r.log, h.hold = hold →
      h.directory = given.directory ∧ h.engineBaseUrl = given.engineBaseUrl := by
    intro h hh hid
    have hsome := hk.given h hh
    rw [hid, hgiven] at hsome
    cases hsome
    exact ⟨rfl, rfl⟩
  refine {
    named := fun directory entry hget => ?_
    counted := fun directory entry hget => ?_
    current := fun directory entry hget h hh hdir => ?_
    given := fun h hh => ?_
    distinct := ?_
    queued := fun entry hin => hmade ▸ hk.queued entry hin
    apart := ?_
    waiting := fun hopened entry hin h hh hdir hurl => ?_
    safe := ?_ }
  · rw [hinstances] at hget
    rw [hmade, (hentries entry).1]
    exact hk.named directory entry hget
  · rw [hinstances] at hget
    rw [hcount directory entry hget, (hentries entry).2, hk.counted directory entry hget, hlog,
      holdsOn_released]
    split
    · next hmatch =>
        obtain ⟨rfl, hurl⟩ := hmatch
        rw [hurl]
        rcases hallowed entry hget hurl with ⟨h, hh, rfl⟩ | hnone
        · have hon : h ∈ holdsOn r.log given.directory given.engineBaseUrl :=
            mem_holdsOn.mpr ⟨hh, hone h hh rfl⟩
          refine (length_filter_hold (hk.distinct.filter _) hon fun h' hh' hid => ?_).symm
          obtain ⟨hopen', hdir', hurl'⟩ := mem_holdsOn.mp hh'
          obtain ⟨-, hdir, hurl⟩ := mem_holdsOn.mp hon
          obtain ⟨id, directory, url⟩ := h
          obtain ⟨id', directory', url'⟩ := h'
          subst hid hdir' hurl'
          rw [← hdir, ← hurl]
        · rw [hnone]
          rfl
    · next hne =>
        have hall : (holdsOn r.log directory (r.entries entry).engineBaseUrl).filter
            (fun h => h.hold ≠ hold) = holdsOn r.log directory (r.entries entry).engineBaseUrl := by
          refine List.filter_eq_self.mpr fun h hh => decide_eq_true fun hid => hne ?_
          obtain ⟨hopen', hdir, hurl⟩ := mem_holdsOn.mp hh
          obtain ⟨hdir', hurl'⟩ := hone h hopen' hid
          exact ⟨hdir.symm.trans hdir', hurl.symm.trans hurl'⟩
        rw [hall, Nat.sub_zero]
  · rw [hinstances] at hget
    rw [(hentries entry).2]
    exact hk.current directory entry hget h (hmem h hh).1 hdir
  · rw [hholds, List.getElem?_set_ne (hmem h hh).2.symm]
    exact hk.given h (hmem h hh).1
  · rw [hopen]
    exact hk.distinct.filter _
  · have hsame : (queue.map fun entry => (r'.entries entry).directory) =
        queue.map fun entry => (r.entries entry).directory :=
      List.map_congr_left fun entry _ => (hentries entry).1
    rw [hsame]
    exact hk.apart
  · rw [(hentries entry).1] at hdir
    rw [(hentries entry).2] at hurl
    rw [hinstances]
    have hwait := hk.waiting (hclosed ▸ hopened) entry hin h (hmem h hh).1 hdir hurl
    refine hwait.imp_left fun hin => ?_
    rw [hlog]
    exact sweepHolds_sub (e := .released hold) nofun hin
  · rw [hlog]
    exact hk.safe.snoc trivial

theorem Ok.release (hok : r.Ok) {hold : Nat} (hallowed : ∀ given entry,
    r.holds[hold]? = some given → given.released = false →
    r.instances.get given.directory = some entry →
    (r.entries entry).engineBaseUrl = given.engineBaseUrl →
    (∃ h ∈ openHolds r.log, h.hold = hold) ∨
      holdsOn r.log given.directory given.engineBaseUrl = []) : (r.release hold now).Ok := by
  unfold EngineInstanceReaper.release
  split
  · exact hok
  · next given hgiven =>
      split
      · exact hok
      · next hreleased =>
          have hallow := fun entry => hallowed given entry hgiven (Bool.not_eq_true _ ▸ hreleased)
          have hprobing : ∀ r' : EngineInstanceReaper, r'.sweeping = r.sweeping →
              r'.log = r.log ++ [.released hold] →
              (∀ entry, (r'.entries entry).directory = (r.entries entry).directory ∧
                (r'.entries entry).engineBaseUrl = (r.entries entry).engineBaseUrl) →
              r'.Probing := by
            intro r' hsweeping hlog hentries s hs hawait h hh hdir hurl
            rw [hsweeping] at hs
            rw [(hentries _).1] at hdir
            rw [(hentries _).2] at hurl
            rw [hlog, openHolds_concat] at hh
            rw [hlog]
            exact sweepHolds_sub (e := .released hold) nofun
              (hok.probing s hs hawait h (List.mem_filter.mp hh).1 hdir hurl)
          split
          · next hnone =>
              refine ⟨hok.keeps.released hgiven rfl rfl rfl rfl rfl (fun _ => ⟨rfl, rfl⟩)
                (fun directory entry hget => ?_) hallow, hprobing _ rfl rfl fun _ => ⟨rfl, rfl⟩⟩
              rw [if_neg]
              · rfl
              · rintro ⟨rfl, -⟩
                rw [hnone] at hget
                cases hget
          · next entry hget =>
              split
              · next hurl =>
                  refine ⟨hok.keeps.released hgiven rfl rfl rfl rfl rfl (fun _ => ⟨rfl, rfl⟩)
                    (fun directory other hother => ?_) hallow,
                    hprobing _ rfl rfl fun _ => ⟨rfl, rfl⟩⟩
                  rw [if_neg]
                  · rfl
                  · rintro ⟨rfl, hsame⟩
                    rw [hget] at hother
                    cases hother
                    exact hurl hsame
              · next hurl =>
                  obtain ⟨freed, hfreed⟩ : ∃ freed : EngineInstanceReaper, freed =
                    { r with
                      holds := r.holds.set hold { given with released := true }
                      log := r.log ++ [.released hold] } := ⟨_, rfl⟩
                  change (({ r with
                      holds := r.holds.set hold { given with released := true }
                      log := r.log ++ [.released hold] } : EngineInstanceReaper).update entry
                    fun tracked => tracked.free now).Ok
                  rw [← hfreed]
                  have hupdate : ∀ other, (freed.update entry fun tracked =>
                      tracked.free now).entries other =
                        if other = entry then (r.entries entry).free now else r.entries other := by
                    rw [hfreed]
                    exact fun other => Function.update_apply ..
                  have hentries : ∀ other, ((freed.update entry fun tracked =>
                      tracked.free now).entries other).directory = (r.entries other).directory ∧
                      ((freed.update entry fun tracked =>
                        tracked.free now).entries other).engineBaseUrl =
                          (r.entries other).engineBaseUrl := by
                    intro other
                    rw [hupdate]
                    split
                    · next h => exact h ▸ ⟨rfl, rfl⟩
                    · exact ⟨rfl, rfl⟩
                  refine ⟨?_, hprobing _ (hfreed ▸ rfl) (hfreed ▸ rfl) hentries⟩
                  rw [queue_congr (r := r) (hfreed ▸ rfl)]
                  refine hok.keeps.released hgiven (hfreed ▸ rfl) (hfreed ▸ rfl) (hfreed ▸ rfl)
                    (hfreed ▸ rfl) (hfreed ▸ rfl) hentries (fun directory other hother => ?_) hallow
                  rw [hupdate]
                  by_cases heq : other = entry
                  · subst heq
                    have hdir : directory = given.directory :=
                      (hok.keeps.named _ _ hother).2.symm.trans (hok.keeps.named _ _ hget).2
                    rw [if_pos rfl, if_pos ⟨hdir, Classical.not_not.mp hurl⟩]
                    rfl
                  · rw [if_neg heq, if_neg]
                    · rfl
                    · rintro ⟨rfl, -⟩
                      rw [hget] at hother
                      cases hother
                      exact heq rfl

/-! ## Sweeps -/

theorem Ok.close (hok : r.Ok) : r.close.Ok where
  keeps := hok.keeps.mono (fun _ => ⟨rfl, rfl, rfl⟩) rfl rfl
    (fun directory _ hget => by cases (Record.get_empty directory).symm.trans hget) rfl
    (fun _ => id) (List.Sublist.refl _) (fun hopen => by cases hopen) hok.keeps.safe
  probing := hok.probing

theorem Keeps.rest {entry : Nat} (hk : r.Keeps (entry :: queue)) : r.Keeps queue :=
  hk.mono (fun _ => ⟨rfl, rfl, rfl⟩) rfl rfl (fun _ _ => id) rfl (fun _ => id)
    (List.sublist_cons_self ..) (fun hopen => ⟨hopen, fun _ _ _ _ => id⟩) hk.safe

theorem Keeps.touch (hk : r.Keeps queue) (touched : Nat) :
    (r.touch touched now).Keeps queue := by
  refine hk.mono (fun entry => ?_) rfl rfl (fun _ _ => id) rfl (fun _ => id) (List.Sublist.refl _)
    (fun hopen => ⟨hopen, fun _ _ _ _ => id⟩) hk.safe
  show _ = _ ∧ _ = _ ∧ _ = _
  rw [show (r.touch touched now).entries entry = if entry = touched then
    { r.entries touched with lastUsedAt := now } else r.entries entry from Function.update_apply ..]
  split
  · next h => exact h ▸ ⟨rfl, rfl, rfl⟩
  · exact ⟨rfl, rfl, rfl⟩

/-- An event that opens and releases nothing, with marks of evictions and a sweep as they are. -/
theorem Keeps.noted (hk : r.Keeps queue) {e : ReaperEvent} (he : openAfter (openHolds r.log) e =
    openHolds r.log) (hne : e ≠ .swept) (hsafe : e.Safe r.log) (marks : List String)
    (sweeping : Option Sweep) :
    ({ r.note e with evictedWorkspaceIds := marks, sweeping := sweeping } :
      EngineInstanceReaper).Keeps queue :=
  hk.mono (fun _ => ⟨rfl, rfl, rfl⟩) rfl rfl (fun _ _ => id)
    ((openHolds_concat r.log e).trans he) (fun _ => sweepHolds_sub hne) (List.Sublist.refl _)
    (fun hopen => ⟨hopen, fun _ _ _ _ => id⟩) (hk.safe.snoc hsafe)

theorem Keeps.deleted {entry : Nat} (hk : r.Keeps (entry :: queue)) :
    ({ r with instances := r.instances.delete (r.entries entry).directory } :
      EngineInstanceReaper).Keeps queue := by
  obtain ⟨hfront, -⟩ := List.nodup_cons.mp hk.apart
  refine hk.mono (fun _ => ⟨rfl, rfl, rfl⟩) rfl rfl (fun directory other hget => ?_) rfl
    (fun _ => id) (List.sublist_cons_self ..) (fun hopen => ⟨hopen, fun other hin directory hdir
      hget => ?_⟩) hk.safe
  · dsimp only at hget
    rw [Record.get_delete] at hget
    split at hget
    · cases hget
    · exact hget
  · rw [Record.get_delete, if_neg]
    · exact hget
    · intro heq
      exact hfront (List.mem_map.mpr ⟨other, hin, hdir.trans heq⟩)

theorem Keeps.returned (hk : r.Keeps queue) (count : Nat) : (r.returned count).Ok where
  keeps :=
    (hk.noted (e := .evicted count) rfl nofun trivial r.evictedWorkspaceIds none).mono
      (fun _ => ⟨rfl, rfl, rfl⟩) rfl rfl (fun _ _ => id) rfl (fun _ => id) (List.nil_sublist _)
      (fun hopen => ⟨hopen, nofun⟩) (hk.safe.snoc trivial)
  probing := nofun

theorem Keeps.sweepFrom {ttl : Int} {url : String} {activeDirectory : Option String}
    {clock : Nat → Int} {count : Nat} (hk : r.Keeps queue) :
    (sweepFrom ttl url activeDirectory clock count r queue).Ok := by
  induction queue generalizing r with
  | nil => exact hk.returned count
  | cons entry rest ih =>
      unfold EngineInstanceReaper.sweepFrom
      dsimp only
      split
      · exact hk.returned count
      · next hopened =>
          split
          · exact ih hk.deleted
          · split
            · exact ih (hk.rest.touch _)
            · split
              · exact ih hk.rest
              · next hnone =>
                  split
                  · exact ih hk.rest
                  · refine ⟨hk.mono (fun _ => ⟨rfl, rfl, rfl⟩) rfl rfl (fun _ _ => id) rfl
                      (fun _ => id) (List.Sublist.refl _) (fun hopen => ⟨hopen, fun _ _ _ _ => id⟩)
                      hk.safe, ?_⟩
                    rintro s hs - h hh hdir hurl
                    cases hs
                    rcases hk.waiting (Bool.eq_false_iff.mpr hopened) entry (List.mem_cons_self ..)
                      h hh hdir hurl with hsince | htracked
                    · exact hsince
                    · -- the map has counted it
                      have hcount := hk.counted _ _ htracked
                      have hin : h ∈ holdsOn r.log h.directory (r.entries entry).engineBaseUrl :=
                        mem_holdsOn.mpr ⟨hh, rfl, hurl⟩
                      have hpos := List.length_pos_of_mem hin
                      omega

theorem Ok.sweep (hok : r.Ok) {ttl : Int} {url activeDirectory : Option String}
    {clock : Nat → Int} : (r.sweep ttl url activeDirectory clock).Ok := by
  unfold EngineInstanceReaper.sweep
  split
  · exact hok
  · split
    · exact hok
    · split
      · exact hok
      · have hlog : openHolds (r.note .swept).log = openHolds r.log := openHolds_concat r.log .swept
        have hget : ∀ entry ∈ r.instances.entries.map (·.2), r.instances.get
            (r.entries entry).directory = some entry ∧ entry < r.made := by
          intro entry hin
          obtain ⟨⟨directory, entry⟩, hmem, rfl⟩ := List.mem_map.mp hin
          have hget := Record.get_eq_some.mpr hmem
          obtain ⟨hmade, hdir⟩ := hok.keeps.named _ _ hget
          exact ⟨by rw [hdir]; exact hget, hmade⟩
        refine Keeps.sweepFrom {
          named := hok.keeps.named
          counted := fun directory entry htracked => ?_
          current := fun directory entry htracked => ?_
          given := ?_
          distinct := ?_
          queued := fun entry hin => (hget entry hin).2
          apart := ?_
          waiting := fun _ entry hin h _ hdir _ => .inr ?_
          safe := hok.keeps.safe.snoc trivial }
        · rw [holdsOn, hlog]
          exact hok.keeps.counted directory entry htracked
        · rw [hlog]
          exact hok.keeps.current directory entry htracked
        · rw [hlog]
          exact hok.keeps.given
        · rw [hlog]
          exact hok.keeps.distinct
        · have hnames : (r.instances.entries.map (·.2)).map (fun entry =>
              (r.entries entry).directory) = r.instances.entries.map (·.1) := by
            rw [List.map_map]
            refine List.map_congr_left fun entry hin => ?_
            exact (hok.keeps.named _ _ (Record.get_eq_some.mpr hin)).2
          show ((r.instances.entries.map (·.2)).map fun entry => (r.entries entry).directory).Nodup
          rw [hnames]
          exact r.instances.distinct
        · rw [hdir]
          exact (hget entry hin).1

/-- What an act must not meet if the holds are to be kept: a use makes no entry for a directory
that has an open hold of the same engine; a hold from before the URL changed is released only
while the map has none to take off; and when a probe lets the dispose start, no hold is open that
was taken on the instance since the sweep began. -/
def SparesHolds (r : EngineInstanceReaper) : ReaperAct → Prop
  | .noteUsed use _ | .holdStream use _ =>
      r.closed = false → r.instances.get use.directory = none →
        holdsOn r.log use.directory use.engineBaseUrl = []
  | .release hold _ => ∀ given entry, r.holds[hold]? = some given → given.released = false →
      r.instances.get given.directory = some entry →
      (r.entries entry).engineBaseUrl = given.engineBaseUrl →
      (∃ h ∈ openHolds r.log, h.hold = hold) ∨
        holdsOn r.log given.directory given.engineBaseUrl = []
  | .probed (some false) clock => ∀ s, r.sweeping = some s →
      s.ttl ≤ clock s.rest.length - (r.entries s.entry).lastUsedAt →
      ∀ h ∈ holdsOn r.log (r.entries s.entry).directory (r.entries s.entry).engineBaseUrl,
        h.hold ∉ sweepHolds r.log
  | _ => True

theorem Ok.keepsRest (hok : r.Ok) {s : Sweep} (hs : r.sweeping = some s) :
    r.Keeps (s.entry :: s.rest) := by
  have hk := hok.keeps
  rwa [queue, hs] at hk

theorem Ok.probed (hok : r.Ok) {s : Sweep} (hs : r.sweeping = some s) (hawait : s.await = .probe)
    {busy : Option Bool} {clock : Nat → Int} (hspares : r.SparesHolds (.probed busy clock)) :
    (r.probed s busy clock).Ok := by
  have hk := hok.keepsRest hs
  unfold EngineInstanceReaper.probed
  split
  · exact hk.rest.sweepFrom
  · exact (hk.rest.touch _).sweepFrom
  · dsimp only
    split
    · exact hk.rest.sweepFrom
    · next hidle =>
        refine ⟨hk.noted (e := .began (r.entries s.entry).toEngineInstanceUse) rfl nofun ?_
          r.evictedWorkspaceIds (some { s with await := .dispose }), fun s' hs' => ?_⟩
        · refine List.eq_nil_iff_forall_not_mem.mpr fun h hin => ?_
          obtain ⟨hh, hdir, hurl⟩ := mem_holdsOn.mp hin
          exact hspares s hs (Int.not_lt.mp hidle) h hin (hok.probing s hs hawait h hh hdir hurl)
        · cases hs'
          exact nofun

theorem Ok.disposed (hok : r.Ok) {s : Sweep} (hs : r.sweeping = some s) (ok : Bool)
    (clock : Nat → Int) : (r.disposed s ok clock).Ok := by
  have hk := hok.keepsRest hs
  have hnoted := fun marks => hk.noted (e := .ended ok) rfl nofun trivial marks r.sweeping
  unfold EngineInstanceReaper.disposed
  dsimp only
  split
  · exact (hnoted (r.evictedWorkspaceIds.insert _)).deleted.sweepFrom
  · exact (hnoted r.evictedWorkspaceIds).rest.sweepFrom

theorem Ok.step (hok : r.Ok) {act : ReaperAct} (hspares : r.SparesHolds act)
    (hstep : r.step act = some r') : r'.Ok := by
  cases act with
  | noteUsed use now =>
      cases hstep
      exact hok.noteUsed hspares
  | holdStream use now =>
      cases hstep
      exact hok.holdStream hspares
  | release hold now =>
      cases hstep
      exact hok.release hspares
  | close =>
      cases hstep
      exact hok.close
  | sweep ttl url activeDirectory clock =>
      cases hstep
      exact hok.sweep
  | probed busy clock =>
      obtain ⟨s, hs, rfl⟩ := Option.map_eq_some_iff.mp hstep
      obtain ⟨hs, hawait⟩ := Option.filter_eq_some_iff.mp hs
      exact hok.probed hs (of_decide_eq_true hawait) hspares
  | disposed ok clock =>
      obtain ⟨s, hs, rfl⟩ := Option.map_eq_some_iff.mp hstep
      exact hok.disposed (Option.filter_eq_some_iff.mp hs).1 ok clock

theorem ok_start : ({} : EngineInstanceReaper).Ok where
  keeps := {
    named := nofun
    counted := nofun
    current := nofun
    given := nofun
    distinct := List.nodup_nil
    queued := nofun
    apart := List.nodup_nil
    waiting := nofun
    safe := .nil }
  probing := nofun

end EngineInstanceReaper

end OmniRush.Server
