import OmniRush.Proofs.Process

/-!
# A crash anywhere, and the recovery after it

Recovery restores the queue's invariant from any disk whose unstopped sessions can
still read the baselines they name (`recover_restored_iff`). So the question is
whether a crash can leave one that cannot. Commits and rewinds save the record
before they remove what it no longer names, and every point of them is sound. A
reset and an accepted final remove first: between the removal and the save the
record names a file that is gone (`Exposed`).

A run is safe when no crash and no failed operation comes there, and when every
recovery lists a session's stopping record before its other live ones (`Orderly`).
In every safe run each recovery restores the invariant (`recover_restores`).
-/

namespace OmniRush.Archive

open OmniRush

/-- The task removed a baseline of a session that goes on, and has not saved the
record that no longer names it. -/
def Exposed (sessionId : String) (d : Disk) (done : List FileOp) (steps : List (Step FileOp)) :
    Bool :=
  (d.loadSession sessionId).any (·.stopped.isNone) && done.any FileOp.removesBaseline &&
    steps.any (·.op.saves)

/-- No operation fails and no crash comes while a task is exposed, and recovery lists
the queue in an order it can use. -/
def Safely (k : StateKey) (w : World) : Action → Prop
  | .fail sessionId _ =>
      ∀ t, w.tasks sessionId = some t → Exposed sessionId w.disk t.done t.steps = false
  | .recover expired order =>
      (∀ sessionId t, w.tasks sessionId = some t →
        Exposed sessionId w.disk t.done t.steps = false) ∧
      Orderly k w.disk.pending expired order w.disk
  | _ => True

/-! ## Sound records -/

/-- A chain point with something to compare with. -/
def ChainPoint.Readable (p : ChainPoint) (serverChain : Bool) : Prop :=
  p.nextSequence = 0 ∨ p.baseline.isSome ∨ serverChain

/-- The baselines a record names are there, and both its chain points can be
continued. -/
structure Ready (d : Disk) (s : SessionState) : Prop where
  baselines : ∀ b ∈ s.namedBaselines, b ∈ d.baselines
  here : s.toChainPoint.Readable s.serverChain
  back : ∀ p ∈ s.rewind, p.Readable s.serverChain

/-- The session's record names its own baselines, and is ready unless stopped. -/
def SoundAt (k : StateKey) (sessionId : String) (d : Disk) : Prop :=
  ∀ s, d.loadSession sessionId = some s → s.OwnNames k ∧ (s.stopped = none → Ready d s)

theorem Ready.canCompare {d : Disk} {s : SessionState} (h : Ready d s) : CanCompare d s :=
  ⟨h.baselines, h.here⟩

theorem ready_nil {d : Disk} {s : SessionState} (hnames : s.namedBaselines = [])
    (hhere : s.toChainPoint.Readable s.serverChain) (hback : s.rewind = none) : Ready d s := by
  refine ⟨fun b hb => ?_, hhere, fun p hp => ?_⟩
  · rw [hnames] at hb
    exact nomatch hb
  · rw [hback] at hp
    exact nomatch hp

section

variable {k : StateKey} {sessionId : String} {d d' : Disk}

theorem Ready.congr (h : Agree k sessionId d d') {s : SessionState} (hown : s.OwnNames k)
    (hid : s.sessionId = sessionId) (hready : Ready d s) : Ready d' s :=
  ⟨fun b hb => (h.baselines b (hid ▸ hown b hb)).mp (hready.baselines b hb), hready.here,
    hready.back⟩

theorem Ready.same (h : d'.baselines = d.baselines) {s : SessionState} (hready : Ready d s) :
    Ready d' s :=
  ⟨fun b hb => h ▸ hready.baselines b hb, hready.here, hready.back⟩

theorem SoundAt.congr (h : Agree k sessionId d d') (hsound : SoundAt k sessionId d) :
    SoundAt k sessionId d' := by
  intro s hs
  rw [← h.record] at hs
  obtain ⟨hown, hready⟩ := hsound s hs
  exact ⟨hown, fun hstopped => (hready hstopped).congr h hown (loadSession_sessionId hs)⟩

theorem SoundAt.quiet (h : SoundAt k sessionId d) {op : FileOp} (hop : op.quiet = true) :
    SoundAt k sessionId (op.apply d) :=
  h.congr (agree_quiet hop d)

theorem soundAt_save {s : SessionState} (hid : s.sessionId = sessionId) (hown : s.OwnNames k)
    (hready : s.stopped = none → Ready d s) :
    SoundAt k sessionId ((FileOp.saveSession s).apply d) := by
  intro t ht
  rw [loadSession_save, if_pos hid] at ht
  cases ht
  have hsame : ((FileOp.saveSession s).apply d).baselines = d.baselines := rfl
  exact ⟨hown, fun hstopped => (hready hstopped).same hsame⟩

/-- Exposed, or sound. -/
def SoundPoint (k : StateKey) (sessionId : String) (d : Disk) (done : List FileOp)
    (steps : List (Step FileOp)) : Prop :=
  Exposed sessionId d done steps = false → SoundAt k sessionId d

theorem SoundPoint.congr (h : Agree k sessionId d d') {done : List FileOp}
    {steps : List (Step FileOp)} (hpoint : SoundPoint k sessionId d done steps) :
    SoundPoint k sessionId d' done steps := by
  intro hexposed
  refine (hpoint ?_).congr h
  unfold Exposed at hexposed ⊢
  rwa [h.record]

/-- Every point of a task's remaining steps is exposed or sound. -/
abbrev SafeSteps (k : StateKey) (sessionId : String) (steps : List (Step FileOp))
    (done : List FileOp) (d : Disk) : Prop :=
  Along FileOp.apply (SoundPoint k sessionId) steps done d

theorem SafeSteps.congr (h : Agree k sessionId d d') {steps : List (Step FileOp)}
    {done : List FileOp} (hsafe : SafeSteps k sessionId steps done d) :
    SafeSteps k sessionId steps done d' :=
  Along.congr (R := Agree k sessionId) (fun op _ _ hrel => hrel.apply op)
    (fun _ _ _ _ hrel hpoint => hpoint.congr hrel) h hsafe

theorem SafeSteps.sound {steps : List (Step FileOp)} {done : List FileOp}
    (h : SafeSteps k sessionId steps done d) (hexposed : Exposed sessionId d done steps = false) :
    SoundAt k sessionId d := h.here hexposed

/-! ## Programs of sound points -/

theorem safe_quiet_then {ops : List FileOp} (hquiet : ∀ op ∈ ops, op.quiet = true)
    (rest : List (Step FileOp)) {done : List FileOp} (hsound : SoundAt k sessionId d)
    (hrest : ∀ d', SoundAt k sessionId d' → d'.baselines = d.baselines →
      d'.loadSession sessionId = d.loadSession sessionId →
      SafeSteps k sessionId rest (done ++ ops) d') :
    SafeSteps k sessionId (asSteps ops ++ rest) done d := by
  have hops : (asSteps ops).map (·.op) = ops := by
    unfold asSteps
    rw [List.map_map]
    exact List.map_id ops
  refine Along.of_invariant (P := SoundPoint k sessionId)
    (I := fun d' => SoundAt k sessionId d' ∧ d'.baselines = d.baselines ∧
      d'.loadSession sessionId = d.loadSession sessionId)
    (fun _ _ _ h _ => h.1) (fun step hstep d' h => ?_) rest ⟨hsound, rfl, rfl⟩ fun d' h => ?_
  · obtain ⟨op, hop, rfl⟩ := List.mem_map.mp hstep
    have hq := hquiet op hop
    refine ⟨h.1.quiet hq, ?_, ?_⟩
    · cases op with
      | writeBaseline _ => cases hq
      | rmBaseline _ => cases hq
      | _ => exact h.2.1
    · have hagree : Agree k sessionId d' (op.apply d') := agree_quiet hq d'
      rw [← hagree.record]
      exact h.2.2
  · rw [hops]
    exact hrest d' h.1 h.2.1 h.2.2

theorem asSteps_append (ops ops' : List FileOp) :
    asSteps (ops ++ ops') = asSteps ops ++ asSteps ops' := List.map_append

theorem safe_quiet {ops : List FileOp} (hquiet : ∀ op ∈ ops, op.quiet = true)
    {done : List FileOp} (hsound : SoundAt k sessionId d) :
    SafeSteps k sessionId (asSteps ops) done d := by
  have h : SafeSteps k sessionId (asSteps ops ++ []) done d :=
    safe_quiet_then hquiet [] hsound fun d' hd' _ _ _ => hd'
  rwa [List.append_nil] at h

theorem safe_save {ops : List FileOp} (hquiet : ∀ op ∈ ops, op.quiet = true)
    {done : List FileOp} (hsound : SoundAt k sessionId d) {s : SessionState}
    (hid : s.sessionId = sessionId) (hown : s.OwnNames k)
    (hready : s.stopped = none → Ready d s) :
    SafeSteps k sessionId (asSteps (ops ++ [.saveSession s])) done d := by
  rw [asSteps_append]
  refine safe_quiet_then hquiet _ hsound fun d' hd' hbaselines _ => ⟨fun _ => hd', fun _ => ?_⟩
  exact soundAt_save hid hown fun hstopped => (hready hstopped).same hbaselines

theorem safe_nothing {done : List FileOp} (hsound : SoundAt k sessionId d) :
    SafeSteps k sessionId (asSteps []) done d := fun _ => hsound

theorem safe_only_save {done : List FileOp} (hsound : SoundAt k sessionId d) {s : SessionState}
    (hid : s.sessionId = sessionId) (hown : s.OwnNames k)
    (hready : s.stopped = none → Ready d s) :
    SafeSteps k sessionId (asSteps [.saveSession s]) done d :=
  ⟨fun _ => hsound, fun _ => soundAt_save hid hown hready⟩

/-- Once the record is saved: quiet operations, and removals of what it does not
name. -/
theorem safe_tail {s : SessionState} (hsound : SoundAt k sessionId d)
    (hload : d.loadSession sessionId = some s) {steps : List (Step FileOp)} {done : List FileOp}
    (hsteps : ∀ step ∈ steps, step.op.quiet = true ∨
      ∃ name, step.op = .rmBaseline name ∧ name ∉ s.namedBaselines) :
    SafeSteps k sessionId steps done d := by
  have h : SafeSteps k sessionId (steps ++ []) done d := by
    refine Along.of_invariant (P := SoundPoint k sessionId)
      (I := fun d' => SoundAt k sessionId d' ∧ d'.loadSession sessionId = some s)
      (fun _ _ _ h _ => h.1) (fun step hstep d' h => ?_) [] ⟨hsound, hload⟩ fun d' h _ => h.1
    rcases hsteps step hstep with hquiet | ⟨name, heq, hname⟩
    · refine ⟨h.1.quiet hquiet, ?_⟩
      have hagree : Agree k sessionId d' (step.op.apply d') := agree_quiet hquiet d'
      rw [← hagree.record]
      exact h.2
    · rw [heq]
      refine ⟨fun t ht => ?_, h.2⟩
      have hts : t = s := Option.some.inj (ht.symm.trans h.2)
      subst hts
      obtain ⟨hown, hready⟩ := h.1 t h.2
      refine ⟨hown, fun hstopped => ⟨fun b hb => ?_, (hready hstopped).here,
        (hready hstopped).back⟩⟩
      refine List.mem_filter.mpr ⟨(hready hstopped).baselines b hb, ?_⟩
      simpa using fun heq : b = name => hname (heq ▸ hb)
  rwa [List.append_nil] at h

/-- Removals first, then a record that names none of what went: exposed in between. -/
theorem safe_removals {s : SessionState} (hid : s.sessionId = sessionId) (hown : s.OwnNames k)
    (names : List String) {done : List FileOp}
    (hpoint : SoundAt k sessionId d ∨ (done.any FileOp.removesBaseline = true ∧
      ∀ t, d.loadSession sessionId = some t → t.OwnNames k))
    (hready : s.stopped = none → (∀ b ∈ s.namedBaselines, b ∈ d.baselines ∧ b ∉ names) ∧
      s.toChainPoint.Readable s.serverChain ∧ ∀ p ∈ s.rewind, p.Readable s.serverChain) :
    SafeSteps k sessionId (asSteps (names.map FileOp.rmBaseline ++ [.saveSession s])) done d := by
  have hhere : ∀ steps : List (Step FileOp), steps.any (·.op.saves) = true →
      SoundPoint k sessionId d done steps := by
    intro steps hsteps hexposed
    rcases hpoint with hsound | ⟨hdone, hnames⟩
    · exact hsound
    · intro t ht
      refine ⟨hnames t ht, fun hstopped => ?_⟩
      unfold Exposed at hexposed
      rw [ht, hdone, hsteps] at hexposed
      simp [hstopped] at hexposed
  induction names generalizing d done with
  | nil =>
      refine ⟨hhere _ rfl, fun _ => soundAt_save hid hown fun hstopped => ?_⟩
      obtain ⟨hnames, hread, hback⟩ := hready hstopped
      exact ⟨fun b hb => (hnames b hb).1, hread, hback⟩
  | cons name names ih =>
      have hsaves : ∀ names : List String, (asSteps (names.map FileOp.rmBaseline ++
          [.saveSession s])).any (·.op.saves) = true := by
        intro names
        rw [asSteps_append, List.any_append]
        exact Bool.or_eq_true_iff.mpr (.inr rfl)
      have hrecord : ∀ t, d.loadSession sessionId = some t → t.OwnNames k := by
        rcases hpoint with hsound | ⟨-, hnames⟩
        · exact fun t ht => (hsound t ht).1
        · exact hnames
      have hdone : (done ++ [FileOp.rmBaseline name]).any FileOp.removesBaseline = true := by
        rw [List.any_append]
        exact Bool.or_eq_true_iff.mpr (.inr rfl)
      have hready' : s.stopped = none → (∀ b ∈ s.namedBaselines,
          b ∈ ((FileOp.rmBaseline name).apply d).baselines ∧ b ∉ names) ∧
          s.toChainPoint.Readable s.serverChain ∧ ∀ p ∈ s.rewind, p.Readable s.serverChain := by
        intro hstopped
        obtain ⟨hnames, hrest⟩ := hready hstopped
        refine ⟨fun b hb => ?_, hrest⟩
        obtain ⟨hthere, hnot⟩ := hnames b hb
        rw [List.mem_cons, not_or] at hnot
        exact ⟨List.mem_filter.mpr ⟨hthere, by simpa using hnot.1⟩, hnot.2⟩
      refine ⟨hhere _ (hsaves (name :: names)), ih (.inr ⟨hdone, hrecord⟩) hready' ?_⟩
      intro steps hsteps hexposed t ht
      refine ⟨hrecord t ht, fun hstopped => ?_⟩
      have hload : ((FileOp.rmBaseline name).apply d).loadSession sessionId = some t := ht
      unfold Exposed at hexposed
      rw [hload, hdone, hsteps] at hexposed
      simp [hstopped] at hexposed

/-! ## Stages -/

theorem dropJobs_isQuiet {sequence : Nat} {op : FileOp}
    (h : op ∈ d.dropJobs sessionId sequence) : op.quiet = true := by
  rcases dropJobs_quiet h with ⟨_, rfl⟩ | ⟨_, rfl⟩ <;> rfl

theorem registration_ready (r : Registration) (d : Disk) : Ready d (r.state sessionId) :=
  ready_nil rfl (.inl rfl) rfl

theorem continue_ready {state found : SessionState} {answer : ServerChain} {signedOut : Bool}
    (h : continueServerChain state answer signedOut = .continue found) (d : Disk) :
    Ready d found := by
  obtain ⟨_, _, -, rfl⟩ := continueServerChain_continue h
  exact ready_nil rfl (.inr (.inr rfl)) rfl

theorem startState_ready (hsound : SoundAt k sessionId d) {r : Option Registration}
    {s : SessionState} (h : startState r sessionId d = some s) :
    s.sessionId = sessionId ∧ s.OwnNames k ∧ (s.stopped = none → Ready d s) := by
  rcases startState_cases h with hload | ⟨-, r, rfl⟩
  · exact ⟨loadSession_sessionId hload, hsound s hload⟩
  · exact ⟨rfl, ownNames_nil rfl, fun _ => registration_ready r d⟩

theorem saveChanged_safe (hsound : SoundAt k sessionId d) {change : SessionState → SessionState}
    (hchange : ∀ s : SessionState, (change s).sessionId = s.sessionId ∧
      (change s).toChainPoint = s.toChainPoint ∧ (change s).rewind = s.rewind ∧
      (change s).stopped = s.stopped ∧ (change s).serverChain = s.serverChain) :
    SafeSteps k sessionId (asSteps (saveChanged sessionId d change)) [] d := by
  unfold saveChanged
  split
  · exact safe_nothing hsound
  · next s hload =>
      split
      · exact safe_nothing hsound
      · obtain ⟨hid, hpoint, hrewind, hstopped, hchain⟩ := hchange s
        obtain ⟨hown, hready⟩ := hsound s hload
        have hnames := namedBaselines_congr hpoint hrewind
        refine safe_only_save hsound
          (hid.trans (loadSession_sessionId hload))
          (hown.of_subset hid fun b hb => hnames ▸ hb) fun hnone => ?_
        obtain ⟨hbaselines, hhere, hback⟩ := hready (hstopped ▸ hnone)
        refine ⟨fun b hb => hbaselines b (hnames ▸ hb), ?_, ?_⟩
        · rwa [hpoint, hchain]
        · rwa [hrewind, hchain]

theorem markStopped_safe (hsound : SoundAt k sessionId d) (code : String) :
    SafeSteps k sessionId (asSteps (markStopped d sessionId code)) [] d := by
  have hdrop := fun op (h : op ∈ d.dropJobs sessionId 0) => dropJobs_isQuiet h
  unfold markStopped
  split
  · next s hload =>
      split
      · rw [List.append_nil]
        exact safe_quiet hdrop hsound
      · have hid := loadSession_sessionId hload
        have hown := (hsound s hload).1
        exact safe_save hdrop hsound (s := { s with stopped := some code }) hid hown
          fun hnone => nomatch hnone
  · rw [List.append_nil]
    exact safe_quiet hdrop hsound

theorem saveUnchanged_safe (hsound : SoundAt k sessionId d) {s : SessionState}
    (hid : s.sessionId = sessionId) (hown : s.OwnNames k) (hready : Ready d s) (turn : Nat)
    (options : CaptureOptions) :
    SafeSteps k sessionId (asSteps (saveUnchanged s turn options)) [] d := by
  unfold saveUnchanged
  split
  · exact safe_nothing hsound
  · obtain ⟨hpoint, hrewind, hsame, -, hchain⟩ :=
      noteUnchanged_same s (nextKind s) turn options
    have hnames := namedBaselines_congr hpoint hrewind
    refine safe_only_save hsound (hsame.trans hid)
      (hown.of_subset hsame fun b hb => hnames ▸ hb) fun _ => ?_
    refine ⟨fun b hb => hready.baselines b (hnames ▸ hb), ?_, ?_⟩
    · rw [hpoint, hchain]
      exact hready.here
    · rw [hrewind, hchain]
      exact hready.back

theorem removeBaseline_eq (name : Option String) :
    removeBaseline name = name.toList.map FileOp.rmBaseline := rfl

/-- The stopped record it finds makes every point sound, whatever is removed. -/
theorem expandRetryConflict_safe (hsound : SoundAt k sessionId d) (current : Bool)
    (answer : ServerChain) :
    SafeSteps k sessionId (asSteps (expandRetryConflict current sessionId d answer)) [] d := by
  unfold expandRetryConflict
  split
  · exact safe_nothing hsound
  · next s hload =>
      have hid := loadSession_sessionId hload
      split
      · split
        · next found hfound =>
            obtain ⟨hfid, hnames⟩ := continue_namedBaselines hfound
            obtain ⟨-, hhere, hback⟩ := continue_ready hfound d
            rw [removeBaseline_eq]
            refine safe_removals (s := { found with stopped := none, ended := false })
              (hfid.trans hid) (ownNames_nil hnames) s.baseline.toList (.inl hsound)
              fun _ => ⟨fun b hb => ?_, hhere, hback⟩
            have hb' : b ∈ found.namedBaselines := hb
            rw [hnames] at hb'
            exact nomatch hb'
        · exact safe_nothing hsound
      · exact safe_nothing hsound

theorem expandReset_safe (hsound : SoundAt k sessionId d) :
    SafeSteps k sessionId (asSteps (expandReset sessionId d)) [] d := by
  have hdrop := fun op (h : op ∈ d.dropJobs sessionId 0) => dropJobs_isQuiet h
  unfold expandReset
  split
  · rw [List.append_nil]
    exact safe_quiet hdrop hsound
  · next s hload =>
      have hid := loadSession_sessionId hload
      split
      · rw [List.append_nil]
        exact safe_quiet hdrop hsound
      · rw [asSteps_append]
        refine safe_quiet_then hdrop _ hsound fun d' hd' _ _ => ?_
        rw [removeBaseline_eq, removeBaseline_eq, ← List.map_append]
        exact safe_removals (s := resetState s) hid (ownNames_nil rfl) _ (.inl hd')
          fun _ => ⟨fun b hb => (nomatch hb), .inl rfl, fun p hp => nomatch hp⟩

theorem expandAcceptFinal_safe (hsound : SoundAt k sessionId d) (sequence : Nat) :
    SafeSteps k sessionId (asSteps (expandAcceptFinal sessionId d sequence)) [] d := by
  unfold expandAcceptFinal
  split
  · exact safe_nothing hsound
  · next s hload =>
      have hid := loadSession_sessionId hload
      obtain ⟨hown, hready⟩ := hsound s hload
      split
      · exact safe_nothing hsound
      · next p hrewind =>
          split
          · exact safe_nothing hsound
          · have hsub : ∀ b, b ∈ ({ s with rewind := none } : SessionState).namedBaselines →
                s.baseline = some b ∧ b ∈ s.namedBaselines := by
              intro b hb
              rcases List.mem_append.mp hb with hb | hb
              · exact ⟨Option.mem_toList.mp hb, List.mem_append_left _ hb⟩
              · exact nomatch hb
            rw [removeBaseline_eq]
            refine safe_removals (s := { s with rewind := none }) hid
              (hown.of_subset rfl fun b hb => (hsub b hb).2) _ (.inl hsound)
              fun hstopped => ⟨fun b hb => ?_, (hready hstopped).here, fun p hp => nomatch hp⟩
            obtain ⟨hbaseline, hnamed⟩ := hsub b hb
            refine ⟨(hready hstopped).baselines b hnamed, fun hremoved => ?_⟩
            have hne := (Option.filter_eq_some_iff.mp (Option.mem_toList.mp hremoved)).2
            rw [hbaseline] at hne
            simp at hne

theorem expandAskServer_safe (hsound : SoundAt k sessionId d) (current : Bool)
    (rest : List Stage) (r : Option Registration) (answer : ServerChain) :
    SafeSteps k sessionId (expandAskServer current sessionId d rest r answer).steps [] d := by
  have hnil : SafeSteps k sessionId [] [] d := fun _ => hsound
  unfold expandAskServer
  split
  · exact hnil
  · next s hstart =>
      obtain ⟨hid, -, -⟩ := startState_ready hsound hstart
      split
      · exact hnil
      · split
        · next found hfound =>
            obtain ⟨hfid, hnames⟩ := continue_namedBaselines hfound
            exact safe_only_save hsound (hfid.trans hid)
              (ownNames_nil hnames) fun _ => continue_ready hfound d
        · exact markStopped_safe hsound _
        · exact hnil
        · exact hnil

theorem expandCapture_safe (hsound : SoundAt k sessionId d) (current : Bool)
    (rest : List Stage) (r : Option Registration) (scan : Scan) :
    SafeSteps k sessionId (expandCapture current sessionId d rest r scan).steps [] d ∧
      ∀ c ∈ (expandCapture current sessionId d rest r scan).packed, Ready d c.state ∧
        ∀ step ∈ (expandCapture current sessionId d rest r scan).steps,
          step.op.quiet = true := by
  have hnil : SafeSteps k sessionId [] [] d := fun _ => hsound
  unfold expandCapture
  split
  · exact ⟨hnil, fun _ hc => nomatch hc⟩
  · next s hstart =>
      obtain ⟨hid, hown, hready⟩ := startState_ready hsound hstart
      split
      · exact ⟨hnil, fun _ hc => nomatch hc⟩
      · next hgoes =>
          have hstopped : s.stopped = none := by simpa using hgoes
          split
          · exact ⟨markStopped_safe hsound _, fun _ hc => nomatch hc⟩
          · cases scan with
            | unchanged turn options =>
                refine ⟨?_, fun _ hc => nomatch hc⟩
                dsimp only
                split
                · exact saveUnchanged_safe hsound hid hown (hready hstopped) turn options
                · exact hnil
            | changed p =>
                refine ⟨⟨fun _ => hsound, fun _ => hsound.quiet rfl⟩, fun c hc => ?_⟩
                obtain rfl := Option.some.inj hc
                refine ⟨hready hstopped, fun step hstep => ?_⟩
                rw [List.mem_singleton.mp hstep]
                rfl

theorem expandRewind_safe (hsound : SoundAt k sessionId d) (rest : List Stage) (sequence : Nat)
    (scan : Option Scan) :
    SafeSteps k sessionId (expandRewind sessionId d rest sequence scan).steps [] d := by
  have hdrop := fun op (h : op ∈ d.dropJobs sessionId sequence) => dropJobs_isQuiet h
  unfold expandRewind
  split
  · exact safe_quiet hdrop hsound
  · next s hload =>
      have hid := loadSession_sessionId hload
      obtain ⟨hown, hready⟩ := hsound s hload
      split
      · exact safe_quiet hdrop hsound
      · next hgoes =>
          have hstopped : s.stopped = none := by simpa using hgoes
          split
          · exact markStopped_safe hsound _
          · next p hrewind =>
              split
              · exact markStopped_safe hsound _
              · have hback : Ready d (rewoundState s p) := by
                  refine ⟨fun b hb => (hready hstopped).baselines b
                    (rewoundState_names s hrewind hb), ?_, fun q hq => nomatch hq⟩
                  exact (hready hstopped).back p hrewind
                have hsaved : SoundAt k sessionId
                    ((FileOp.saveSession (rewoundState s p)).apply d) :=
                  soundAt_save hid (hown.of_subset rfl fun b hb =>
                    rewoundState_names s hrewind hb) fun _ => hback
                refine ⟨fun _ => hsound, safe_tail hsaved (s := rewoundState s p) ?_ ?_⟩
                · rw [loadSession_save]
                  exact if_pos hid
                · intro step hstep
                  obtain ⟨op, hop, rfl⟩ := List.mem_map.mp hstep
                  rcases List.mem_append.mp hop with hop | hop
                  · obtain ⟨b, hb, rfl⟩ := mem_removeBaseline hop
                    refine .inr ⟨b, rfl, fun hnamed => ?_⟩
                    have hne := (Option.filter_eq_some_iff.mp hb).2
                    rcases List.mem_append.mp hnamed with hnamed | hnamed
                    · have heq : p.baseline = some b := Option.mem_toList.mp hnamed
                      rw [heq] at hne
                      simp at hne
                    · exact nomatch hnamed
                  · exact .inl (hdrop op hop)

theorem expandContinueChain_safe (hsound : SoundAt k sessionId d) (rest : List Stage)
    (found : SessionState) (scan : Option Scan) :
    SafeSteps k sessionId (expandContinueChain sessionId d rest found scan).steps [] d := by
  have hdrop := fun op (h : op ∈ d.dropJobs sessionId 0) => dropJobs_isQuiet h
  unfold expandContinueChain
  split
  · exact safe_quiet hdrop hsound
  · next s hload =>
      have hid := loadSession_sessionId hload
      obtain ⟨hown, hready⟩ := hsound s hload
      split
      · exact safe_quiet hdrop hsound
      · dsimp only
        rw [List.append_assoc, List.append_assoc, asSteps_append]
        refine safe_quiet_then hdrop _ hsound fun d' hd' hbaselines hsame => ?_
        have hload' : d'.loadSession sessionId = some s := hsame.trans hload
        have hremovals : ∀ {t : SessionState} {d'' : Disk}, SoundAt k sessionId d'' →
            d''.loadSession sessionId = some t → (∀ b, s.baseline = some b →
              (continuedState s found).baseline = none → b ∉ t.namedBaselines) →
            (∀ b, s.rewind.bind (·.baseline) = some b →
              (continuedState s found).rewind = none → b ∉ t.namedBaselines) →
            ∀ done, SafeSteps k sessionId (asSteps
              ((if (continuedState s found).baseline = none then removeBaseline s.baseline
                else []) ++ (if (continuedState s found).rewind = none then
                  removeBaseline (s.rewind.bind (·.baseline)) else []))) done d'' := by
          intro t d'' hd'' hload'' hbaseline hrewind done
          refine safe_tail hd'' hload'' fun step hstep => ?_
          obtain ⟨op, hop, rfl⟩ := List.mem_map.mp hstep
          rcases List.mem_append.mp hop with hop | hop
          all_goals split at hop
          · next hnone =>
              obtain ⟨b, hb, rfl⟩ := mem_removeBaseline hop
              exact .inr ⟨b, rfl, hbaseline b hb hnone⟩
          · exact nomatch hop
          · next hnone =>
              obtain ⟨b, hb, rfl⟩ := mem_removeBaseline hop
              exact .inr ⟨b, rfl, hrewind b hb hnone⟩
          · exact nomatch hop
        by_cases hsaved : continuedState s found = s
        · rw [if_pos hsaved, List.nil_append]
          refine hremovals hd' hload' (fun b hb hnone => ?_) (fun b hb hnone => ?_) _
          · rw [hsaved, hb] at hnone
            cases hnone
          · rw [hsaved] at hnone
            rw [hnone] at hb
            cases hb
        · have hmoved : (continuedState s found).namedBaselines = [] ∧
              (continuedState s found).serverChain = true ∧
              (continuedState s found).rewind = none := by
            unfold continuedState at hsaved ⊢
            split
            · next hcurrent =>
                rw [if_pos hcurrent] at hsaved
                exact absurd rfl hsaved
            · exact ⟨rfl, rfl, rfl⟩
          have hcid := (continuedState_sessionId s found).trans hid
          rw [if_neg hsaved, List.singleton_append]
          refine ⟨fun _ => hd', hremovals (t := continuedState s found) ?_ ?_ ?_ ?_ _⟩
          · exact soundAt_save hcid (ownNames_nil hmoved.1) fun _ =>
              ready_nil hmoved.1 (.inr (.inr hmoved.2.1)) hmoved.2.2
          · rw [loadSession_save]
            exact if_pos hcid
          · rw [hmoved.1]
            exact fun _ _ _ h => nomatch h
          · rw [hmoved.1]
            exact fun _ _ _ h => nomatch h

theorem Stage.expand_safe (hsound : SoundAt k sessionId d) (current : Bool) (rest : List Stage)
    (stage : Stage) :
    SafeSteps k sessionId (stage.expand current sessionId d rest).steps [] d ∧
      ∀ c ∈ (stage.expand current sessionId d rest).packed, Ready d c.state ∧
        ∀ step ∈ (stage.expand current sessionId d rest).steps, step.op.quiet = true := by
  have hnil : SafeSteps k sessionId [] [] d := fun _ => hsound
  have hif : ∀ {p : Prop} [Decidable p] {steps : List (Step FileOp)},
      SafeSteps k sessionId steps [] d → SafeSteps k sessionId (if p then steps else []) [] d := by
    intro p _ steps hsteps
    split
    · exact hsteps
    · exact hnil
  have hfresh : ∀ r : Registration,
      SafeSteps k sessionId (asSteps [.saveSession (r.state sessionId)]) [] d := fun r =>
    safe_only_save hsound rfl (ownNames_nil rfl) fun _ =>
      registration_ready r d
  cases stage with
  | noteTurn turnSeen =>
      exact ⟨hif (saveChanged_safe hsound fun _ => ⟨rfl, rfl, rfl, rfl, rfl⟩),
        packs_nothing⟩
  | register r => exact ⟨hif (hfresh r), packs_nothing⟩
  | rescue r => exact ⟨hif (hfresh r), packs_nothing⟩
  | retryConflict answer =>
      exact ⟨hif (expandRetryConflict_safe hsound current answer), packs_nothing⟩
  | askServer r answer =>
      have hpacked : ((Stage.askServer r answer).expand current sessionId d rest).packed = none :=
        expandAskServer_packed current sessionId d rest r answer
      rw [hpacked]
      exact ⟨expandAskServer_safe hsound current rest r answer, packs_nothing⟩
  | capture r scan => exact expandCapture_safe hsound current rest r scan
  | skipFinal ended =>
      exact ⟨hif (saveChanged_safe hsound fun _ => ⟨rfl, rfl, rfl, rfl, rfl⟩),
        packs_nothing⟩
  | stop code => exact ⟨hif (markStopped_safe hsound code), packs_nothing⟩
  | acceptFinal sequence =>
      exact ⟨hif (expandAcceptFinal_safe hsound sequence), packs_nothing⟩
  | rewind sequence scan =>
      have hpacked : ((Stage.rewind sequence scan).expand current sessionId d rest).packed
          = none := by
        simp only [Stage.expand]
        split
        · exact (expandRewind_owned (k := k) (fun s hs => (hsound s hs).1) rest sequence scan).2
        · rfl
      refine ⟨?_, fun c hc => by rw [hpacked] at hc; cases hc⟩
      simp only [Stage.expand]
      split
      · exact expandRewind_safe hsound rest sequence scan
      · exact hnil
  | continueChain found scan =>
      have hpacked : ((Stage.continueChain found scan).expand current sessionId d rest).packed
          = none := by
        simp only [Stage.expand]
        split
        · exact (expandContinueChain_owned (k := k) (fun s hs => (hsound s hs).1) rest found
            scan).2
        · rfl
      refine ⟨?_, fun c hc => by rw [hpacked] at hc; cases hc⟩
      simp only [Stage.expand]
      split
      · exact expandContinueChain_safe hsound rest found scan
      · exact hnil
  | reset => exact ⟨hif (expandReset_safe hsound), packs_nothing⟩

theorem commitNext_ready {flags : CommitFlags} {c : Captured} (hready : Ready d c.state)
    (hold : ∀ b ∈ d.baselines, b ∈ d'.baselines) (hnew : commitBaseline k c ∈ d'.baselines) :
    Ready d' (commitNext k flags c) := by
  refine ⟨fun b hb => ?_, .inr (.inl rfl), fun p hp => ?_⟩
  · rcases commitNext_names k flags c hb with rfl | hb
    · exact hnew
    · exact hold b (hready.baselines b hb)
  · have hrewind : (commitNext k flags c).rewind = (c.state.rewind <|>
        (if c.kind = .delta ∧ c.options.trigger = some .final ∧ flags.finalsAccepted = false
          then some c.state.point else none)) := rfl
    rw [hrewind] at hp
    cases hback : c.state.rewind with
    | some q =>
        rw [hback] at hp
        obtain rfl := Option.some.inj hp
        exact hready.back q hback
    | none =>
        rw [hback] at hp
        change p ∈ (if _ then _ else _ : Option ChainPoint) at hp
        split at hp
        · cases hp
          exact hready.here
        · cases hp

theorem commitSteps_safe {flags : CommitFlags} {c : Captured} (hsound : SoundAt k sessionId d)
    (hid : c.state.sessionId = sessionId) (hown : c.state.OwnNames k)
    (hready : Ready d c.state) : SafeSteps k sessionId (commitSteps k flags c) [] d := by
  have hqueued : SoundAt k sessionId ((FileOp.writeQueue (commitRecord k flags c)).apply
      ((FileOp.renamePending c.archiveId).apply d)) := (hsound.quiet rfl).quiet rfl
  have hwritten : SoundAt k sessionId ((FileOp.writeBaseline (commitBaseline k c)).apply
      ((FileOp.writeQueue (commitRecord k flags c)).apply
        ((FileOp.renamePending c.archiveId).apply d))) := by
    intro s hs
    obtain ⟨hnames, hrecord⟩ := hqueued s hs
    exact ⟨hnames, fun hstopped => ⟨fun b hb =>
      mem_addName.mpr (.inl ((hrecord hstopped).baselines b hb)), (hrecord hstopped).here,
      (hrecord hstopped).back⟩⟩
  have hnext : (commitNext k flags c).OwnNames k := by
    intro b hb
    rcases commitNext_names k flags c hb with rfl | hb
    · exact ⟨_, rfl⟩
    · exact hown b hb
  have hsaved : SoundAt k sessionId ((FileOp.saveSession (commitNext k flags c)).apply
      ((FileOp.writeBaseline (commitBaseline k c)).apply
        ((FileOp.writeQueue (commitRecord k flags c)).apply
          ((FileOp.renamePending c.archiveId).apply d)))) := by
    refine soundAt_save hid hnext fun _ => ?_
    exact commitNext_ready hready (fun b hb => mem_addName.mpr (.inl hb))
      (mem_addName.mpr (.inr rfl))
  refine ⟨fun _ => hsound, fun _ => hsound.quiet rfl, fun _ => hqueued, fun _ => hwritten,
    safe_tail hsaved (s := commitNext k flags c) ?_ fun step hstep => ?_⟩
  · rw [loadSession_save]
    exact if_pos hid
  · rcases List.mem_append.mp hstep with hstep | hstep
    · have hstep : step ∈ ((previousBaseline c.state (commitNext k flags c)).map fun name =>
          (⟨.rmBaseline name, [.rmPartial c.archiveId]⟩ : Step FileOp)).toList := hstep
      obtain ⟨name, hname, rfl⟩ := Option.map_eq_some_iff.mp (Option.mem_toList.mp hstep)
      refine .inr ⟨name, rfl, fun hnamed => ?_⟩
      have hne := (Option.filter_eq_some_iff.mp hname).2
      rw [Bool.and_eq_true] at hne
      rcases List.mem_append.mp hnamed with hnamed | hnamed
      · exact (of_decide_eq_true hne.1) (Option.mem_toList.mp hnamed)
      · exact (of_decide_eq_true hne.2) (Option.mem_toList.mp hnamed)
    · rw [List.mem_singleton.mp hstep]
      exact .inl rfl

end

/-! ## Runs -/

section

variable {k : StateKey}

/-- A task whose remaining steps are safe, and what it packed ready to commit. -/
structure TaskSafe (k : StateKey) (sessionId : String) (d : Disk) (t : Task) : Prop where
  steps : SafeSteps k sessionId t.steps t.done d
  packed : ∀ c ∈ t.packed, Ready d c.state ∧ ∀ step ∈ t.steps, step.op.quiet = true

structure Safe (k : StateKey) (w : World) : Prop where
  idle : ∀ sessionId, w.tasks sessionId = none → SoundAt k sessionId w.disk
  tasks : ∀ sessionId t, w.tasks sessionId = some t → TaskSafe k sessionId w.disk t

theorem TaskSafe.congr {sessionId : String} {d d' : Disk} {t : Task}
    (h : Agree k sessionId d d')
    (hown : ∀ c ∈ t.packed, c.state.sessionId = sessionId ∧ c.state.OwnNames k)
    (hsafe : TaskSafe k sessionId d t) : TaskSafe k sessionId d' t := by
  refine ⟨hsafe.steps.congr h, fun c hc => ?_⟩
  obtain ⟨hid, hnames⟩ := hown c hc
  obtain ⟨hready, hquiet⟩ := hsafe.packed c hc
  exact ⟨hready.congr h hnames hid, hquiet⟩

theorem TaskSafe.enter {sessionId : String} {d : Disk} {flags : CommitFlags}
    {current cancelled : Bool} {t t' : Task} (hsafe : TaskSafe k sessionId d t)
    (hown : ∀ c ∈ t.packed, c.state.sessionId = sessionId ∧ c.state.OwnNames k)
    (henter : t.enter k flags current cancelled sessionId d = some t') :
    TaskSafe k sessionId d t' := by
  obtain ⟨hdone, hnew, -, hcases⟩ := enter_cases henter
  have hsound : SoundAt k sessionId d := by
    refine hsafe.steps.sound ?_
    rw [hdone]
    exact Bool.and_false _
  rcases hcases with ⟨c, hpacked, hnone, -, hsteps⟩ | ⟨stage, rest, -, -, -, hsteps, hpacked⟩
  · obtain ⟨hid, hnames⟩ := hown c hpacked
    obtain ⟨hready, -⟩ := hsafe.packed c hpacked
    refine ⟨?_, fun c' hc' => ?_⟩
    · rw [hsteps, hnew]
      split
      · exact commitSteps_safe hsound hid hnames hready
      · exact ⟨fun _ => hsound, fun _ => hsound.quiet rfl⟩
    · rw [hnone] at hc'
      exact nomatch hc'
  · obtain ⟨hstage, hready⟩ := Stage.expand_safe hsound current rest stage
    refine ⟨?_, ?_⟩
    · rw [hsteps, hnew]
      exact hstage
    · rw [hpacked, hsteps]
      exact hready

theorem Safe.others {w : World} (hsafe : Safe k w) (hkept : Kept k w) {d : Disk}
    {sessionId : String}
    (hagree : ∀ id, id ≠ sessionId → Agree k id w.disk d) {t : Option Task} {w' : World}
    (hdisk : w'.disk = d) (htasks : ∀ id, id ≠ sessionId → w'.tasks id = w.tasks id)
    (hown : w'.tasks sessionId = t) (hidle : t = none → SoundAt k sessionId d)
    (htask : ∀ u, t = some u → TaskSafe k sessionId d u) : Safe k w' := by
  refine ⟨fun id hid => ?_, fun id u hu => ?_⟩
  · rw [hdisk]
    by_cases heq : id = sessionId
    · subst heq
      exact hidle (hown.symm.trans hid)
    · exact (hsafe.idle id ((htasks id heq).symm.trans hid)).congr (hagree id heq)
  · rw [hdisk]
    by_cases heq : id = sessionId
    · subst heq
      exact htask u (hown.symm.trans hu)
    · have hold := (htasks id heq).symm.trans hu
      exact (hsafe.tasks id u hold).congr (hagree id heq) ((hkept.tasks id u hold).packed)

theorem SoundAt.recover {sessionId : String} {expired : QueueRecord → Bool}
    {order : List QueueRecord} {d : Disk} (hsound : SoundAt k sessionId d)
    (hone : d.OneRecord) (hready : ∀ s ∈ d.sessions, s.stopped = none → CanCompare d s) :
    SoundAt k sessionId (recover k expired order d) := by
  intro s hs
  obtain ⟨s', hload, heq⟩ := recover_record hs
  obtain ⟨hown, hbefore⟩ := hsound s' hload
  refine ⟨unstopped_ownNames heq hown, fun hstopped => ?_⟩
  have hback := recoverQueue_session_back k d.pending expired hs hstopped
  have hsame : s' = s := Option.some.inj (hload.symm.trans hback)
  subst hsame
  have hcan : CanCompare (Archive.recover k expired order d) s' := recover_canCompare hone hready
    ((mem_recover_sessions hone).mpr (by rw [loadSession_sessionId hload]; exact hs)) hstopped
  exact ⟨hcan.1, (hbefore hstopped).here, (hbefore hstopped).back⟩

theorem Safe.canCompare {w : World} (hsafe : Safe k w) (hone : w.disk.OneRecord)
    (hexposed : ∀ sessionId t, w.tasks sessionId = some t →
      Exposed sessionId w.disk t.done t.steps = false) :
    (∀ sessionId, SoundAt k sessionId w.disk) ∧
      ∀ s ∈ w.disk.sessions, s.stopped = none → CanCompare w.disk s := by
  have hsound : ∀ sessionId, SoundAt k sessionId w.disk := by
    intro sessionId
    cases htask : w.tasks sessionId with
    | none => exact hsafe.idle sessionId htask
    | some t => exact (hsafe.tasks sessionId t htask).steps.sound (hexposed sessionId t htask)
  refine ⟨hsound, fun s hs hstopped => ?_⟩
  exact ((hsound s.sessionId s (hone.mem_iff.mp hs)).2 hstopped).canCompare

theorem Safe.step {w w' : World} {a : Action} (hsafe : Safe k w) (hkept : Kept k w)
    (hguard : Safely k w a) (hstep : w.step k a = some w') : Safe k w' := by
  have hrefl : ∀ id, Agree k id w.disk w.disk := fun id => ⟨rfl, fun _ _ => Iff.rfl⟩
  cases step_moves hstep with
  | @take _ sessionId t waiting _ hfree hnew _ =>
      obtain ⟨hsteps, hdone, hpacked⟩ := hnew
      refine hsafe.others hkept (fun id _ => hrefl id) rfl (fun id hid => if_neg hid)
        (if_pos rfl) (fun hnone => nomatch hnone) fun u hu => ?_
      cases hu
      refine ⟨?_, ?_⟩
      · rw [hsteps, hdone]
        exact fun _ => hsafe.idle sessionId hfree
      · rw [hpacked]
        exact fun _ hc => nomatch hc
  | @enter sessionId cancelled flags t t' htask henter =>
      refine hsafe.others hkept (fun id _ => hrefl id) rfl (fun id hid => if_neg hid)
        (if_pos rfl) (fun hnone => nomatch hnone) fun u hu => ?_
      cases hu
      exact (hsafe.tasks sessionId t htask).enter ((hkept.tasks sessionId t htask).packed) henter
  | @write sessionId t step steps htask hsteps =>
      have hown := (hkept.tasks sessionId t htask).steps
      have htsafe := hsafe.tasks sessionId t htask
      rw [hsteps] at hown
      have hop := hown step (List.mem_cons_self ..) step.op (List.mem_cons_self ..)
      refine hsafe.others hkept (fun id hid => agree_other hop (Ne.symm hid) w.disk) rfl
        (fun id hid => if_neg hid) (if_pos rfl) (fun hnone => nomatch hnone) fun u hu => ?_
      cases hu
      have hprogram := htsafe.steps
      rw [hsteps] at hprogram
      refine ⟨hprogram.next, fun c hc => ?_⟩
      obtain ⟨hready, hquiet⟩ := htsafe.packed c hc
      obtain ⟨hid, hnames⟩ := (hkept.tasks sessionId t htask).packed c hc
      rw [hsteps] at hquiet
      exact ⟨hready.congr (agree_quiet (hquiet step (List.mem_cons_self ..)) w.disk) hnames hid,
        fun s hs => hquiet s (List.mem_cons_of_mem _ hs)⟩
  | @fail sessionId paused t t' step steps htask hsteps hfail =>
      obtain ⟨hnew, hdone, hpacked, -⟩ := hfail
      have htsafe := hsafe.tasks sessionId t htask
      refine hsafe.others hkept (fun id _ => hrefl id) rfl (fun id hid => if_neg hid)
        (if_pos rfl) (fun hnone => nomatch hnone) fun u hu => ?_
      cases hu
      have hsound := htsafe.steps.sound (hguard t htask)
      have hhandlers := (hkept.tasks sessionId t htask).handlers step
        (by rw [hsteps]; exact List.mem_cons_self ..)
      refine ⟨?_, ?_⟩
      · rw [hnew, hdone]
        exact safe_quiet (fun op hop => cleansUp_quiet (hhandlers op hop)) hsound
      · rw [hpacked]
        exact fun _ hc => nomatch hc
  | @finish sessionId t htask hsteps =>
      refine hsafe.others hkept (fun id _ => hrefl id) rfl (fun id hid => if_neg hid)
        (if_pos rfl) (fun _ => ?_) fun u hu => nomatch hu
      refine (hsafe.tasks sessionId t htask).steps.sound ?_
      rw [hsteps]
      exact Bool.and_false _
  | @drain _ drain accepted waiting _ _ _ => exact ⟨hsafe.idle, hsafe.tasks⟩
  | @drainWrite records op ops asks hdrain =>
      have hquiet := hkept.quiet op (by rw [hdrain]; exact List.mem_cons_self ..)
      refine ⟨fun id hid => (hsafe.idle id hid).congr (agree_quiet hquiet w.disk),
        fun id u hu => (hsafe.tasks id u hu).congr (agree_quiet hquiet w.disk)
          ((hkept.tasks id u hu).packed)⟩
  | bump => exact ⟨hsafe.idle, hsafe.tasks⟩
  | @recover expired order horder =>
      obtain ⟨hsound, hready⟩ := hsafe.canCompare hkept.disk.one hguard.1
      exact ⟨fun id _ => (hsound id).recover hkept.disk.one hready, fun _ _ hu => nomatch hu⟩

theorem safe_start : Safe k {} :=
  ⟨fun _ _ _ hs => (nomatch hs), fun _ _ hu => nomatch hu⟩

theorem Safe.reach {w : World} (h : Reach (World.step k) (Safely k) {} w) :
    Kept k w ∧ Safe k w :=
  h.invariant (I := fun w => Kept k w ∧ Safe k w)
    (fun _ _ _ hinv hguard hstep =>
      ⟨hinv.1.step hstep, hinv.2.step hinv.1 hguard hstep⟩)
    ⟨kept_start, safe_start⟩

/-- In every safe run of captures, drains, rewinds and resets, cut anywhere else by a
crash, each recovery restores the queue's invariant. -/
theorem recover_restores {w w' : World} {expired : QueueRecord → Bool}
    {order : List QueueRecord} (hrun : Reach (World.step k) (Safely k) {} w)
    (hsafely : Safely k w (.recover expired order))
    (hstep : w.step k (.recover expired order) = some w') : Restored k w'.disk := by
  obtain ⟨hkept, hsafe⟩ := Safe.reach hrun
  simp only [World.step] at hstep
  split at hstep
  · next horder =>
      cases hstep
      obtain ⟨-, hready⟩ := hsafe.canCompare hkept.disk.one hsafely.1
      exact (recover_restored_iff hkept.disk.one
        ⟨hkept.disk.ids, fun r hr => (hkept.disk.queue r hr).sealedFile⟩ horder hready).mpr
        hsafely.2
  · cases hstep

end

/-! ## Runs of one session -/

/-- A base, and a delta whose queue record is written and whose session record is not. -/
def tornDelta : List Action := (captureActions "a" 0 5 ++ captureActions "b" 1 6).take 16

theorem tornDelta_takes {sessionId : String} (h : sessionId ≠ "s") :
    ∀ a ∈ tornDelta, a.takes ≠ some sessionId := by
  intro a ha htakes
  have hmem := List.mem_of_mem_take ha
  rw [List.mem_append] at hmem
  simp only [captureActions, List.mem_append, List.mem_cons, List.not_mem_nil, or_false,
    List.mem_replicate] at hmem
  have hs : a.takes = none ∨ a.takes = some "s" := by
    rcases hmem with (((rfl | rfl | rfl | rfl) | ⟨-, rfl⟩) | rfl) |
      (((rfl | rfl | rfl | rfl) | ⟨-, rfl⟩) | rfl) <;> simp [Action.takes]
  rcases hs with hs | hs
  · rw [hs] at htakes
    cases htakes
  · rw [hs] at htakes
    exact h (Option.some.inj htakes).symm

set_option maxRecDepth 10000 in
theorem recover_restores_tornDelta :
    ∃ w w', runActions (World.step escapeKey) tornDelta {} = some w ∧
      w.step escapeKey (.recover (fun _ => false) w.disk.queue) = some w' ∧
      Restored escapeKey w'.disk := by
  have hrun : (runActions (World.step escapeKey) tornDelta {}).any (fun w =>
      (w.tasks "s").all (fun t => !Exposed "s" w.disk t.done t.steps) &&
        w.disk.queue.all fun r => r.sealedFile ∈ w.disk.pending) = true := by decide +kernel
  obtain ⟨w, hw, hcheck⟩ := exists_of_any hrun
  obtain ⟨htask, hqueue⟩ := Bool.and_eq_true_iff.mp hcheck
  have hreach : Reach (World.step escapeKey) (Safely escapeKey) {} w := by
    refine reach_of_run (fun a ha s => ?_) hw
    have hmem := List.mem_of_mem_take ha
    rw [List.mem_append] at hmem
    simp only [captureActions, List.mem_append, List.mem_cons, List.not_mem_nil, or_false,
      List.mem_replicate] at hmem
    rcases hmem with (((rfl | rfl | rfl | rfl) | ⟨-, rfl⟩) | rfl) |
      (((rfl | rfl | rfl | rfl) | ⟨-, rfl⟩) | rfl) <;> trivial
  have hstep : w.step escapeKey (.recover (fun _ => false) w.disk.queue)
      = some { disk := recover escapeKey (fun _ => false) w.disk.queue w.disk
               accepted := w.accepted } := if_pos (List.Perm.refl _)
  refine ⟨w, _, hw, hstep, recover_restores hreach ⟨fun sessionId t ht => ?_, ?_⟩ hstep⟩
  · by_cases hid : sessionId = "s"
    · subst hid
      rw [ht] at htask
      simpa using htask
    · rw [run_idle hw (tornDelta_takes hid) rfl] at ht
      cases ht
  · rintro s - - ⟨r, hr, -, hstops⟩
    have hthere := List.all_eq_true.mp hqueue r hr
    unfold stopsSession at hstops
    simp only [decide_eq_true_eq] at hthere
    simp [hthere] at hstops

/-- A reset cut after it removed the baseline of the session's dropped base, and a
queue that lists a delta before the uploaded base it follows, whose sealed file is
gone. -/
theorem recover_leaves_broken :
    (∃ w w', runActions (World.step escapeKey) (captureActions "a" 0 5 ++
        [.list, .read, .pass, .answer (.rekey "unknown_kid"), .drainWrite, .drainWrite, .ask,
          .begin ⟨"s", 0, .reset⟩, .enter "s" false {}, .write "s"]) {} = some w ∧
      w.step escapeKey (.recover (fun _ => false) w.disk.queue) = some w' ∧
      ¬ Restored escapeKey w'.disk) ∧
    (∃ w w', runActions (World.step escapeKey) (captureActions "a" 0 5 ++ captureActions "b" 1 6
        ++ [.list, .read, .read, .pass, .answer .uploaded, .drainWrite]) {} = some w ∧
      w.step escapeKey (.recover (fun _ => false) w.disk.queue.reverse) = some w' ∧
      ¬ Restored escapeKey w'.disk) := by
  constructor
  · have hrun : (runActions (World.step escapeKey) (captureActions "a" 0 5 ++
        [.list, .read, .pass, .answer (.rekey "unknown_kid"), .drainWrite, .drainWrite, .ask,
          .begin ⟨"s", 0, .reset⟩, .enter "s" false {}, .write "s"]) {}).any (fun w =>
        (w.step escapeKey (.recover (fun _ => false) w.disk.queue)).any fun w' =>
          w'.disk.sessions.any fun s => s.stopped.isNone &&
            s.namedBaselines.any fun b => b ∉ w'.disk.baselines) = true := by decide +kernel
    obtain ⟨w, hw, hcheck⟩ := exists_of_any hrun
    obtain ⟨w', hw', hcheck⟩ := exists_of_any hcheck
    obtain ⟨s, hs, hcheck⟩ := List.any_eq_true.mp hcheck
    obtain ⟨hstopped, hnamed⟩ := Bool.and_eq_true_iff.mp hcheck
    obtain ⟨b, hb, hgone⟩ := List.any_eq_true.mp hnamed
    refine ⟨w, w', hw, hw', fun hrestored => ?_⟩
    exact (of_decide_eq_true hgone)
      ((hrestored.sessions s hs (by simpa using hstopped)).1 b hb)
  · have hrun : (runActions (World.step escapeKey) (captureActions "a" 0 5 ++
        captureActions "b" 1 6 ++ [.list, .read, .read, .pass, .answer .uploaded, .drainWrite])
        {}).any (fun w =>
        (w.step escapeKey (.recover (fun _ => false) w.disk.queue.reverse)).any fun w' =>
          w'.disk.queue.any fun r => w'.disk.sessions.all fun s => s.stopped.isSome) = true := by
      decide +kernel
    obtain ⟨w, hw, hcheck⟩ := exists_of_any hrun
    obtain ⟨w', hw', hcheck⟩ := exists_of_any hcheck
    obtain ⟨r, hr, hall⟩ := List.any_eq_true.mp hcheck
    refine ⟨w, w', hw, hw', fun hrestored => ?_⟩
    obtain ⟨s, hs, -, hnone, -⟩ := hrestored.queue r hr
    have hsome := List.all_eq_true.mp hall s hs
    rw [hnone] at hsome
    cases hsome

end OmniRush.Archive
