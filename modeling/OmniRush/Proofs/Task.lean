import OmniRush.Archive.Task
import OmniRush.Proofs.Continue

/-!
# Whose files a task touches

A baseline file is named after its session's key and a sequence, and keys have no
dash, so a name belongs to one session (`Owns.unique`). Every stage saves only its
own session's record, writes and removes only its own session's baselines, and
writes queue records that name their own session and sealed file
(`Stage.expand_owned`). What one session's tasks do is therefore invisible to
another's (`Agree`).
-/

namespace OmniRush.Archive

open OmniRush

/-! ## Baseline names -/

theorem append_dash_inj {a b x y : List Char} (ha : '-' ∉ a) (hb : '-' ∉ b)
    (h : a ++ '-' :: x = b ++ '-' :: y) : a = b := by
  induction a generalizing b with
  | nil =>
      cases b with
      | nil => rfl
      | cons c b =>
          rw [List.nil_append, List.cons_append] at h
          exact absurd (List.mem_cons.mpr (.inl (List.cons.inj h).1)) hb
  | cons c a ih =>
      cases b with
      | nil =>
          rw [List.nil_append, List.cons_append] at h
          exact absurd (List.mem_cons.mpr (.inl (List.cons.inj h).1.symm)) ha
      | cons e b =>
          rw [List.cons_append, List.cons_append] at h
          obtain ⟨rfl, hrest⟩ := List.cons.inj h
          rw [ih (fun hmem => ha (List.mem_cons_of_mem _ hmem))
            (fun hmem => hb (List.mem_cons_of_mem _ hmem)) hrest]

/-- A session's baselines are the files with its key in their name. -/
def Owns (k : StateKey) (sessionId name : String) : Prop :=
  ∃ sequence, name = baselineName (k.key sessionId) sequence

theorem Owns.unique {k : StateKey} {a b name : String} (ha : Owns k a name)
    (hb : Owns k b name) : a = b := by
  obtain ⟨n, rfl⟩ := ha
  obtain ⟨m, hm⟩ := hb
  have hlist : (k.key a).toList ++ '-' :: ((toString n).toList ++ ".json".toList)
      = (k.key b).toList ++ '-' :: ((toString m).toList ++ ".json".toList) := by
    have h := congrArg String.toList hm
    simpa [baselineName, String.toList_append] using h
  exact k.key_inj _ _ (String.toList_inj.mp (append_dash_inj (k.key_dash a) (k.key_dash b) hlist))

/-- A record that names only its own session's baselines. -/
def SessionState.OwnNames (k : StateKey) (s : SessionState) : Prop :=
  ∀ name ∈ s.namedBaselines, Owns k s.sessionId name

/-- A queue record under its session's key that names its own sealed file. -/
structure QueueRecord.Named (k : StateKey) (r : QueueRecord) : Prop where
  sealedFile : r.sealedFile = sealedFileName r.archiveId
  sessionKey : r.sessionKey = k.key r.request.sessionId

/-! ## Operations -/

/-- An operation a task of the session may do. -/
def FileOp.OwnedBy (k : StateKey) (sessionId : String) : FileOp → Prop
  | .saveSession s => s.sessionId = sessionId ∧ s.OwnNames k
  | .writeBaseline name => Owns k sessionId name
  | .rmBaseline name => Owns k sessionId name
  | .writeQueue r => r.Named k
  | _ => True

/-- An operation that leaves the session records and the baselines alone. -/
def FileOp.quiet : FileOp → Bool
  | .saveSession _ | .writeBaseline _ | .rmBaseline _ => false
  | _ => true

def FileOp.saves : FileOp → Bool
  | .saveSession _ => true
  | _ => false

def FileOp.removesBaseline : FileOp → Bool
  | .rmBaseline _ => true
  | _ => false

/-- What a session's tasks see of a disk: its record and its baselines. -/
structure Agree (k : StateKey) (sessionId : String) (d d' : Disk) : Prop where
  record : d.loadSession sessionId = d'.loadSession sessionId
  baselines : ∀ name, Owns k sessionId name → (name ∈ d.baselines ↔ name ∈ d'.baselines)

section

variable {k : StateKey} {sessionId : String}

theorem Agree.apply {d d' : Disk} (h : Agree k sessionId d d') (op : FileOp) :
    Agree k sessionId (op.apply d) (op.apply d') := by
  refine ⟨?_, fun name hname => ?_⟩
  · cases op with
    | saveSession s => rw [loadSession_save, loadSession_save, h.record]
    | _ => exact h.record
  · cases op with
    | writeBaseline other =>
        show name ∈ addName d.baselines other ↔ name ∈ addName d'.baselines other
        rw [mem_addName, mem_addName, h.baselines name hname]
    | rmBaseline other =>
        show name ∈ d.baselines.filter _ ↔ name ∈ d'.baselines.filter _
        rw [List.mem_filter, List.mem_filter, h.baselines name hname]
    | _ => exact h.baselines name hname

theorem agree_quiet {op : FileOp} (h : op.quiet = true) (d : Disk) :
    Agree k sessionId d (op.apply d) := by
  cases op with
  | saveSession _ => cases h
  | writeBaseline _ => cases h
  | rmBaseline _ => cases h
  | _ => exact ⟨rfl, fun _ _ => Iff.rfl⟩

theorem agree_other {other : String} {op : FileOp} (h : op.OwnedBy k other)
    (hne : other ≠ sessionId) (d : Disk) : Agree k sessionId d (op.apply d) := by
  cases op with
  | saveSession s =>
      refine ⟨?_, fun _ _ => Iff.rfl⟩
      rw [loadSession_save, if_neg fun hid => hne (h.1.symm.trans hid)]
  | writeBaseline name =>
      refine ⟨rfl, fun n hn => ?_⟩
      show n ∈ d.baselines ↔ n ∈ addName d.baselines name
      rw [mem_addName]
      exact ⟨.inl, fun hmem => hmem.resolve_right fun heq => hne (Owns.unique h (heq ▸ hn))⟩
  | rmBaseline name =>
      refine ⟨rfl, fun n hn => ?_⟩
      show n ∈ d.baselines ↔ n ∈ d.baselines.filter _
      rw [List.mem_filter]
      refine ⟨fun hmem => ⟨hmem, ?_⟩, And.left⟩
      simpa using fun heq : n = name => hne (Owns.unique h (heq ▸ hn))
  | _ => exact ⟨rfl, fun _ _ => Iff.rfl⟩

/-- Every operation of a program, handlers included. -/
def OwnSteps (k : StateKey) (sessionId : String) (steps : List (Step FileOp)) : Prop :=
  ∀ step ∈ steps, ∀ op ∈ step.op :: step.onError, op.OwnedBy k sessionId

theorem ownSteps_asSteps {ops : List FileOp} (h : ∀ op ∈ ops, op.OwnedBy k sessionId) :
    OwnSteps k sessionId (asSteps ops) := by
  intro step hstep op hop
  obtain ⟨op', hop', rfl⟩ := List.mem_map.mp hstep
  rw [List.mem_singleton.mp hop]
  exact h op' hop'

theorem expandAskServer_packed (current : Bool) (sessionId : String) (d : Disk)
    (rest : List Stage) (r : Option Registration) (answer : ServerChain) :
    (expandAskServer current sessionId d rest r answer).packed = none := by
  unfold expandAskServer
  split
  · rfl
  · split
    · rfl
    · split <;> rfl

theorem packs_nothing {p : Captured → Prop} : ∀ c ∈ (none : Option Captured), p c :=
  fun _ hc => absurd hc (Option.not_mem_none _)

theorem ownSteps_nil : OwnSteps k sessionId [] := fun _ hstep => nomatch hstep

theorem mem_removeBaseline {name : Option String} {op : FileOp}
    (h : op ∈ removeBaseline name) : ∃ b, name = some b ∧ op = .rmBaseline b := by
  obtain ⟨b, hb, rfl⟩ := List.mem_map.mp h
  exact ⟨b, Option.mem_toList.mp hb, rfl⟩

theorem dropJobs_quiet {d : Disk} {sequence : Nat} {op : FileOp}
    (h : op ∈ d.dropJobs sessionId sequence) :
    (∃ name, op = .rmPending name) ∨ ∃ archiveId, op = .rmQueue archiveId := by
  obtain ⟨r, -, hop⟩ := List.mem_flatMap.mp h
  rcases List.mem_cons.mp hop with rfl | hop
  · exact .inl ⟨_, rfl⟩
  · exact .inr ⟨_, List.mem_singleton.mp hop⟩

theorem dropJobs_owned {d : Disk} {sequence : Nat} {op : FileOp}
    (h : op ∈ d.dropJobs sessionId sequence) : op.OwnedBy k sessionId := by
  rcases dropJobs_quiet h with ⟨_, rfl⟩ | ⟨_, rfl⟩ <;> trivial

/-! ## Records -/

theorem SessionState.OwnNames.baseline {s : SessionState} (h : s.OwnNames k) {b : String}
    (hb : s.baseline = some b) : Owns k s.sessionId b :=
  h b (List.mem_append_left _ (by rw [hb]; exact List.mem_singleton_self b))

theorem SessionState.OwnNames.rewind {s : SessionState} (h : s.OwnNames k) {b : String}
    (hb : s.rewind.bind (·.baseline) = some b) : Owns k s.sessionId b :=
  h b (List.mem_append_right _ (by rw [hb]; exact List.mem_singleton_self b))

theorem SessionState.OwnNames.of_subset {s t : SessionState} (h : s.OwnNames k)
    (hid : t.sessionId = s.sessionId) (hsub : ∀ b ∈ t.namedBaselines, b ∈ s.namedBaselines) :
    t.OwnNames k := by
  intro b hb
  rw [hid]
  exact h b (hsub b hb)

theorem ownNames_nil {s : SessionState} (h : s.namedBaselines = []) : s.OwnNames k := by
  intro b hb
  rw [h] at hb
  exact nomatch hb

theorem continue_namedBaselines {state found : SessionState} {answer : ServerChain}
    {signedOut : Bool} (h : continueServerChain state answer signedOut = .continue found) :
    found.sessionId = state.sessionId ∧ found.namedBaselines = [] := by
  obtain ⟨nextSequence, tip, -, rfl⟩ := continueServerChain_continue h
  exact ⟨rfl, rfl⟩

theorem rewoundState_names (s : SessionState) {p : ChainPoint} (h : s.rewind = some p) {b : String}
    (hb : b ∈ (rewoundState s p).namedBaselines) : b ∈ s.namedBaselines := by
  unfold SessionState.namedBaselines at hb ⊢
  rw [h]
  exact List.mem_append_right _ (by simpa [rewoundState, SessionState.atPoint] using hb)

theorem continuedState_names (s found : SessionState) {b : String}
    (hb : b ∈ (continuedState s found).namedBaselines) : b ∈ s.namedBaselines := by
  unfold continuedState at hb
  split at hb
  · exact hb
  · exact nomatch hb

theorem continuedState_sessionId (s found : SessionState) :
    (continuedState s found).sessionId = s.sessionId := by
  unfold continuedState
  split <;> rfl

theorem noteUnchanged_same (s : SessionState) (kind : ArchiveKind) (turn : Nat)
    (options : CaptureOptions) :
    (noteUnchanged s kind turn options).toChainPoint = s.toChainPoint ∧
      (noteUnchanged s kind turn options).rewind = s.rewind ∧
      (noteUnchanged s kind turn options).sessionId = s.sessionId ∧
      (noteUnchanged s kind turn options).stopped = s.stopped ∧
      (noteUnchanged s kind turn options).serverChain = s.serverChain := by
  unfold noteUnchanged
  split
  · exact ⟨rfl, rfl, rfl, rfl, rfl⟩
  · split <;> exact ⟨rfl, rfl, rfl, rfl, rfl⟩

theorem namedBaselines_congr {s t : SessionState} (hpoint : t.toChainPoint = s.toChainPoint)
    (hrewind : t.rewind = s.rewind) : t.namedBaselines = s.namedBaselines := by
  unfold SessionState.namedBaselines
  rw [hpoint, hrewind]

/-- The names of the record a commit saves: the new baseline, and names of the old. -/
theorem commitNext_names (k : StateKey) (flags : CommitFlags) (c : Captured) {b : String}
    (hb : b ∈ (commitNext k flags c).namedBaselines) :
    b = commitBaseline k c ∨ b ∈ c.state.namedBaselines := by
  rcases List.mem_append.mp hb with hb | hb
  · exact .inl (List.mem_singleton.mp hb)
  · refine .inr ?_
    have hrewind : (commitNext k flags c).rewind = (c.state.rewind <|>
        (if c.kind = .delta ∧ c.options.trigger = some .final ∧ flags.finalsAccepted = false
          then some c.state.point else none)) := rfl
    rw [hrewind] at hb
    unfold SessionState.namedBaselines
    cases hold : c.state.rewind with
    | some p =>
        rw [hold] at hb
        exact List.mem_append_right _ hb
    | none =>
        rw [hold] at hb
        change b ∈ (Option.bind (if _ then _ else _) _).toList at hb
        split at hb
        · exact List.mem_append_left _ hb
        · exact nomatch hb

theorem startState_cases {r : Option Registration} {d : Disk} {s : SessionState}
    (h : startState r sessionId d = some s) :
    d.loadSession sessionId = some s ∨
      (d.nextSequence sessionId = 0 ∧ ∃ r : Registration, s = r.state sessionId) := by
  unfold startState at h
  split at h
  · exact .inl h
  · next r =>
      split at h
      · next hzero => exact .inr ⟨hzero, r, (Option.some.inj h).symm⟩
      · exact .inl h

end

/-! ## Stages -/

section

variable {k : StateKey} {sessionId : String} {d : Disk}

theorem startState_owned (hown : ∀ s, d.loadSession sessionId = some s → s.OwnNames k)
    {r : Option Registration} {s : SessionState} (h : startState r sessionId d = some s) :
    s.sessionId = sessionId ∧ s.OwnNames k := by
  rcases startState_cases h with hload | ⟨-, r, rfl⟩
  · exact ⟨loadSession_sessionId hload, hown s hload⟩
  · exact ⟨rfl, ownNames_nil rfl⟩

theorem saveChanged_owned (hown : ∀ s, d.loadSession sessionId = some s → s.OwnNames k)
    {change : SessionState → SessionState}
    (hchange : ∀ s : SessionState, (change s).sessionId = s.sessionId ∧
      (change s).namedBaselines = s.namedBaselines) :
    ∀ op ∈ saveChanged sessionId d change, op.OwnedBy k sessionId := by
  intro op hop
  unfold saveChanged at hop
  split at hop
  · exact nomatch hop
  · next s hload =>
      split at hop
      · exact nomatch hop
      · rw [List.mem_singleton.mp hop]
        obtain ⟨hid, hnames⟩ := hchange s
        exact ⟨hid.trans (loadSession_sessionId hload),
          (hown s hload).of_subset hid fun b hb => hnames ▸ hb⟩

theorem markStopped_owned (hown : ∀ s, d.loadSession sessionId = some s → s.OwnNames k)
    (code : String) : ∀ op ∈ markStopped d sessionId code, op.OwnedBy k sessionId := by
  intro op hop
  rcases List.mem_append.mp hop with hop | hop
  · exact dropJobs_owned hop
  · split at hop
    · next s hload =>
        split at hop
        · exact nomatch hop
        · rw [List.mem_singleton.mp hop]
          have hid := loadSession_sessionId hload
          exact ⟨hid, hown s hload⟩
    · exact nomatch hop

theorem expandRetryConflict_owned (hown : ∀ s, d.loadSession sessionId = some s → s.OwnNames k)
    (current : Bool) (answer : ServerChain) :
    ∀ op ∈ expandRetryConflict current sessionId d answer, op.OwnedBy k sessionId := by
  intro op hop
  unfold expandRetryConflict at hop
  split at hop
  · exact nomatch hop
  · next s hload =>
      have hid := loadSession_sessionId hload
      split at hop
      · split at hop
        · next found hfound =>
            obtain ⟨hfid, hnames⟩ := continue_namedBaselines hfound
            rcases List.mem_append.mp hop with hop | hop
            · obtain ⟨b, hb, rfl⟩ := mem_removeBaseline hop
              exact hid ▸ (hown s hload).baseline hb
            · rw [List.mem_singleton.mp hop]
              exact ⟨hfid.trans hid, ownNames_nil hnames⟩
        · exact nomatch hop
      · exact nomatch hop

theorem expandReset_owned (hown : ∀ s, d.loadSession sessionId = some s → s.OwnNames k) :
    ∀ op ∈ expandReset sessionId d, op.OwnedBy k sessionId := by
  intro op hop
  rcases List.mem_append.mp hop with hop | hop
  · exact dropJobs_owned hop
  · split at hop
    · exact nomatch hop
    · next s hload =>
        have hid := loadSession_sessionId hload
        split at hop
        · exact nomatch hop
        · rcases List.mem_append.mp hop with hop | hop
          · rcases List.mem_append.mp hop with hop | hop
            · obtain ⟨b, hb, rfl⟩ := mem_removeBaseline hop
              exact hid ▸ (hown s hload).baseline hb
            · obtain ⟨b, hb, rfl⟩ := mem_removeBaseline hop
              exact hid ▸ (hown s hload).rewind hb
          · rw [List.mem_singleton.mp hop]
            exact ⟨hid, ownNames_nil rfl⟩

theorem expandAcceptFinal_owned (hown : ∀ s, d.loadSession sessionId = some s → s.OwnNames k)
    (sequence : Nat) :
    ∀ op ∈ expandAcceptFinal sessionId d sequence, op.OwnedBy k sessionId := by
  intro op hop
  unfold expandAcceptFinal at hop
  split at hop
  · exact nomatch hop
  · next s hload =>
      have hid := loadSession_sessionId hload
      split at hop
      · exact nomatch hop
      · next p hrewind =>
          split at hop
          · exact nomatch hop
          · rcases List.mem_append.mp hop with hop | hop
            · obtain ⟨b, hb, rfl⟩ := mem_removeBaseline hop
              refine hid ▸ (hown s hload).rewind ?_
              rw [hrewind]
              exact (Option.filter_eq_some_iff.mp hb).1
            · rw [List.mem_singleton.mp hop]
              refine ⟨hid, (hown s hload).of_subset rfl fun b hb => ?_⟩
              exact List.mem_append_left _ (by simpa [SessionState.namedBaselines] using hb)

theorem expandAskServer_owned (hown : ∀ s, d.loadSession sessionId = some s → s.OwnNames k)
    (current : Bool) (rest : List Stage) (r : Option Registration) (answer : ServerChain) :
    OwnSteps k sessionId (expandAskServer current sessionId d rest r answer).steps ∧
      (expandAskServer current sessionId d rest r answer).packed = none := by
  unfold expandAskServer
  split
  · exact ⟨ownSteps_nil, rfl⟩
  · next s hstart =>
      obtain ⟨hid, -⟩ := startState_owned hown hstart
      split
      · exact ⟨ownSteps_nil, rfl⟩
      · split
        · next found hfound =>
            obtain ⟨hfid, hnames⟩ := continue_namedBaselines hfound
            refine ⟨ownSteps_asSteps fun op hop => ?_, rfl⟩
            rw [List.mem_singleton.mp hop]
            exact ⟨hfid.trans hid, ownNames_nil hnames⟩
        · exact ⟨ownSteps_asSteps (markStopped_owned hown _), rfl⟩
        · exact ⟨ownSteps_nil, rfl⟩
        · exact ⟨ownSteps_nil, rfl⟩

theorem saveUnchanged_owned {s : SessionState} (hid : s.sessionId = sessionId)
    (hown : s.OwnNames k) (turn : Nat) (options : CaptureOptions) :
    ∀ op ∈ saveUnchanged s turn options, op.OwnedBy k sessionId := by
  intro op hop
  unfold saveUnchanged at hop
  split at hop
  · exact nomatch hop
  · rw [List.mem_singleton.mp hop]
    obtain ⟨hpoint, hrewind, hsame, -⟩ := noteUnchanged_same s (nextKind s) turn options
    refine ⟨hsame.trans hid, hown.of_subset hsame fun b hb => ?_⟩
    rwa [namedBaselines_congr hpoint hrewind] at hb

theorem expandCapture_owned (hown : ∀ s, d.loadSession sessionId = some s → s.OwnNames k)
    (current : Bool) (rest : List Stage) (r : Option Registration) (scan : Scan) :
    OwnSteps k sessionId (expandCapture current sessionId d rest r scan).steps ∧
      ∀ c ∈ (expandCapture current sessionId d rest r scan).packed,
        c.state.sessionId = sessionId ∧ c.state.OwnNames k := by
  unfold expandCapture
  split
  · exact ⟨ownSteps_nil, fun _ hc => nomatch hc⟩
  · next s hstart =>
      obtain ⟨hid, hnames⟩ := startState_owned hown hstart
      split
      · exact ⟨ownSteps_nil, fun _ hc => nomatch hc⟩
      · split
        · exact ⟨ownSteps_asSteps (markStopped_owned hown _), fun _ hc => nomatch hc⟩
        · cases scan with
          | unchanged turn options =>
              refine ⟨?_, fun _ hc => nomatch hc⟩
              dsimp only
              split
              · exact ownSteps_asSteps (saveUnchanged_owned hid hnames turn options)
              · exact ownSteps_nil
          | changed p =>
              refine ⟨fun step hstep op hop => ?_, fun c hc => ?_⟩
              · rw [List.mem_singleton.mp hstep] at hop
                rcases List.mem_cons.mp hop with rfl | hop
                · trivial
                · rw [List.mem_singleton.mp hop]
                  trivial
              · obtain rfl := Option.some.inj hc
                exact ⟨hid, hnames⟩

theorem expandRewind_owned (hown : ∀ s, d.loadSession sessionId = some s → s.OwnNames k)
    (rest : List Stage) (sequence : Nat) (scan : Option Scan) :
    OwnSteps k sessionId (expandRewind sessionId d rest sequence scan).steps ∧
      (expandRewind sessionId d rest sequence scan).packed = none := by
  have hdrop : OwnSteps k sessionId (asSteps (d.dropJobs sessionId sequence)) :=
    ownSteps_asSteps fun op hop => dropJobs_owned hop
  unfold expandRewind
  split
  · exact ⟨hdrop, rfl⟩
  · next s hload =>
      have hid := loadSession_sessionId hload
      split
      · exact ⟨hdrop, rfl⟩
      · split
        · exact ⟨ownSteps_asSteps (markStopped_owned hown _), rfl⟩
        · next p hrewind =>
            split
            · exact ⟨ownSteps_asSteps (markStopped_owned hown _), rfl⟩
            · refine ⟨ownSteps_asSteps fun op hop => ?_, rfl⟩
              rcases List.mem_append.mp hop with hop | hop
              · rcases List.mem_cons.mp hop with rfl | hop
                · exact ⟨hid, (hown s hload).of_subset rfl fun b hb =>
                    rewoundState_names s hrewind hb⟩
                · obtain ⟨b, hb, rfl⟩ := mem_removeBaseline hop
                  exact hid ▸ (hown s hload).baseline (Option.filter_eq_some_iff.mp hb).1
              · exact dropJobs_owned hop

theorem expandContinueChain_owned (hown : ∀ s, d.loadSession sessionId = some s → s.OwnNames k)
    (rest : List Stage) (found : SessionState) (scan : Option Scan) :
    OwnSteps k sessionId (expandContinueChain sessionId d rest found scan).steps ∧
      (expandContinueChain sessionId d rest found scan).packed = none := by
  have hdrop : OwnSteps k sessionId (asSteps (d.dropJobs sessionId 0)) :=
    ownSteps_asSteps fun op hop => dropJobs_owned hop
  unfold expandContinueChain
  split
  · exact ⟨hdrop, rfl⟩
  · next s hload =>
      have hid := loadSession_sessionId hload
      split
      · exact ⟨hdrop, rfl⟩
      · refine ⟨ownSteps_asSteps fun op hop => ?_, rfl⟩
        rcases List.mem_append.mp hop with hop | hop
        · rcases List.mem_append.mp hop with hop | hop
          · rcases List.mem_append.mp hop with hop | hop
            · exact dropJobs_owned hop
            · split at hop
              · exact nomatch hop
              · rw [List.mem_singleton.mp hop]
                have hsame := continuedState_sessionId s found
                exact ⟨hsame.trans hid, (hown s hload).of_subset hsame fun b hb =>
                  continuedState_names s found hb⟩
          · split at hop
            · obtain ⟨b, hb, rfl⟩ := mem_removeBaseline hop
              exact hid ▸ (hown s hload).baseline hb
            · exact nomatch hop
        · split at hop
          · obtain ⟨b, hb, rfl⟩ := mem_removeBaseline hop
            exact hid ▸ (hown s hload).rewind hb
          · exact nomatch hop

theorem Stage.expand_owned (hown : ∀ s, d.loadSession sessionId = some s → s.OwnNames k)
    (current : Bool) (rest : List Stage) (stage : Stage) :
    OwnSteps k sessionId (stage.expand current sessionId d rest).steps ∧
      ∀ c ∈ (stage.expand current sessionId d rest).packed,
        c.state.sessionId = sessionId ∧ c.state.OwnNames k := by
  have hif : ∀ {p : Prop} [Decidable p] {ops : List FileOp},
      (∀ op ∈ ops, op.OwnedBy k sessionId) →
      OwnSteps k sessionId (if p then asSteps ops else []) := by
    intro p _ ops hops
    split
    · exact ownSteps_asSteps hops
    · exact ownSteps_nil
  have hfresh : ∀ r : Registration, ∀ op ∈ [FileOp.saveSession (r.state sessionId)],
      op.OwnedBy k sessionId := by
    intro r op hop
    rw [List.mem_singleton.mp hop]
    exact ⟨rfl, ownNames_nil rfl⟩
  cases stage with
  | noteTurn turnSeen =>
      exact ⟨hif (saveChanged_owned hown fun _ => ⟨rfl, rfl⟩), fun _ hc => nomatch hc⟩
  | register r => exact ⟨hif (hfresh r), fun _ hc => nomatch hc⟩
  | rescue r => exact ⟨hif (hfresh r), fun _ hc => nomatch hc⟩
  | retryConflict answer =>
      exact ⟨hif (expandRetryConflict_owned hown current answer), fun _ hc => nomatch hc⟩
  | askServer r answer =>
      obtain ⟨hsteps, hpacked⟩ := expandAskServer_owned hown current rest r answer
      refine ⟨hsteps, fun c hc => ?_⟩
      rw [show (Stage.askServer r answer).expand current sessionId d rest
        = expandAskServer current sessionId d rest r answer from rfl, hpacked] at hc
      exact nomatch hc
  | capture r scan => exact expandCapture_owned hown current rest r scan
  | skipFinal ended =>
      exact ⟨hif (saveChanged_owned hown fun _ => ⟨rfl, rfl⟩), fun _ hc => nomatch hc⟩
  | stop code => exact ⟨hif (markStopped_owned hown code), fun _ hc => nomatch hc⟩
  | acceptFinal sequence =>
      exact ⟨hif (expandAcceptFinal_owned hown sequence), fun _ hc => nomatch hc⟩
  | rewind sequence scan =>
      obtain ⟨hsteps, hpacked⟩ := expandRewind_owned hown rest sequence scan
      simp only [Stage.expand]
      split
      · refine ⟨hsteps, fun c hc => ?_⟩
        rw [hpacked] at hc
        exact nomatch hc
      · exact ⟨ownSteps_nil, fun _ hc => nomatch hc⟩
  | continueChain found scan =>
      obtain ⟨hsteps, hpacked⟩ := expandContinueChain_owned hown rest found scan
      simp only [Stage.expand]
      split
      · refine ⟨hsteps, fun c hc => ?_⟩
        rw [hpacked] at hc
        exact nomatch hc
      · exact ⟨ownSteps_nil, fun _ hc => nomatch hc⟩
  | reset => exact ⟨hif (expandReset_owned hown), fun _ hc => nomatch hc⟩

theorem commitSteps_owned (flags : CommitFlags) {c : Captured} (hown : c.state.OwnNames k) :
    OwnSteps k c.state.sessionId (commitSteps k flags c) := by
  have hbaseline : Owns k c.state.sessionId (commitBaseline k c) := ⟨_, rfl⟩
  have hnext : (commitNext k flags c).OwnNames k := by
    intro b hb
    rcases commitNext_names k flags c hb with rfl | hb
    · exact hbaseline
    · exact hown b hb
  intro step hstep op hop
  simp only [commitSteps, List.mem_append, List.mem_cons, List.not_mem_nil, or_false,
    Option.mem_toList, Option.map_eq_some_iff] at hstep
  rcases hstep with ((rfl | rfl | rfl | rfl) | ⟨name, hname, rfl⟩) | rfl
  all_goals simp only [List.mem_cons, List.not_mem_nil, or_false] at hop
  · rcases hop with rfl | rfl <;> trivial
  · rcases hop with rfl | rfl | rfl
    · exact ⟨rfl, rfl⟩
    · trivial
    · trivial
  · rcases hop with rfl | rfl
    · exact hbaseline
    · trivial
  · rcases hop with rfl | rfl
    · exact ⟨rfl, hnext⟩
    · trivial
  · rcases hop with rfl | rfl
    · exact hown.baseline (Option.filter_eq_some_iff.mp hname).1
    · trivial
  · rcases hop with rfl | rfl <;> trivial

end

end OmniRush.Archive
