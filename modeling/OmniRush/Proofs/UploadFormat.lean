import OmniRush.Uploader.Format

/-!
# A refused format stays refused

As long as a refusal stands the server is in the refused set, nothing is remembered of it and the
cache holds no schema 3. A check that was started before the refusal can undo all of this, in three
places, with an answer that comes after it.
-/

namespace OmniRush.Uploader

def CheckStage.version : CheckStage → Option UploadSchema
  | .probing => none
  | .decided version _ => some version
  | .settled version => some version

/-- What a check keeps, beside what it decided. -/
structure CheckSound (w : UploadFormat) (check : Check) : Prop where
  id : check.id < w.next
  started : check.started ≤ w.refusals
  generation : check.generation ≤ w.generation
  current : check.generation = w.generation → check.started = w.refusals
  pending : w.pending = some check.id → check.started = w.refusals
  calls : ∀ call ∈ check.calls, call ≤ check.started
  decided : check.stage.version = some .three → check.started ≤ w.advertised

/-- Nothing says that the server takes schema 3. -/
structure Forgotten (w : UploadFormat) : Prop where
  refused : w.refused = true
  memory : w.memory = none
  disk : w.file = true → w.disk = none
  cache : ∀ cache, w.cache = some cache → cache.version = .two

structure FormatSound (w : UploadFormat) : Prop where
  advertised : w.advertised ≤ w.refusals
  stands : w.advertised < w.refusals → Forgotten w
  checks : ∀ check ∈ w.checks, CheckSound w check
  resolved : ∀ r ∈ w.resolved, r.stands = true → r.version = .two

/-- A check answers with schema 3 only if no refusal came since it was started, and the file can be
read and written when a refusal comes. -/
def Fresh (w : UploadFormat) : FormatAct → Prop
  | .unsupported io => io = true
  | .answer i .advertised _ => ∀ check ∈ w.checks[i]?, check.started = w.refusals
  | _ => True

variable {w w' : UploadFormat}

theorem formatSound_new (file probe : Bool) (disk : Option Int) :
    FormatSound { file, probe, disk } where
  advertised := Nat.le_refl 0
  stands := fun h => absurd h (Nat.lt_irrefl 0)
  checks := nofun
  resolved := nofun

/-! ## Calls -/

theorem FormatSound.resolve (h : FormatSound w) {call : Nat} {version : UploadSchema}
    (hversion : w.advertised < call → version = .two) : FormatSound (w.resolve call version) :=
  { h with
    stands := fun hstands => { h.stands hstands with }
    checks := fun check hcheck => { h.checks check hcheck with }
    resolved := by
      intro r hr hstands
      rcases List.mem_append.mp hr with hold | hnew
      · exact h.resolved r hold hstands
      · rw [List.mem_singleton.mp hnew] at hstands ⊢
        exact hversion (of_decide_eq_true hstands) }

theorem FormatSound.startCheck (h : FormatSound w) : FormatSound w.startCheck where
  advertised := h.advertised
  stands := fun hstands => { h.stands hstands with }
  checks := by
    intro check hcheck
    rcases List.mem_append.mp hcheck with hold | hnew
    · have hsound := h.checks check hold
      exact { hsound with
        id := Nat.lt_succ_of_lt hsound.id
        pending := by
          intro hpending
          have hid : w.next = check.id := Option.some.inj hpending
          exact absurd hid (Nat.ne_of_gt hsound.id) }
    · rw [List.mem_singleton.mp hnew]
      exact {
        id := Nat.lt_succ_self _
        started := Nat.le_refl _
        generation := Nat.le_refl _
        current := fun _ => rfl
        pending := fun _ => rfl
        calls := fun call hcall => Nat.le_of_eq (List.mem_singleton.mp hcall)
        decided := by
          intro hthree
          simp only at hthree
          split at hthree <;> cases hthree }
  resolved := h.resolved

theorem FormatSound.join (h : FormatSound w) {id : Nat} (hpending : w.pending = some id) :
    FormatSound (w.join id) where
  advertised := h.advertised
  stands := fun hstands => { h.stands hstands with }
  checks := by
    intro check hcheck
    obtain ⟨old, hold, rfl⟩ := List.mem_map.mp hcheck
    have hsound := h.checks old hold
    by_cases hid : old.id = id
    · simp only [if_pos hid]
      exact { hsound with
        calls := by
          intro call hcall
          rcases List.mem_append.mp hcall with hbefore | hnew
          · exact hsound.calls call hbefore
          · rw [List.mem_singleton.mp hnew]
            exact Nat.le_of_eq (hsound.pending (by rw [hpending, hid])).symm }
    · simp only [if_neg hid]
      exact { hsound with }
  resolved := h.resolved

theorem FormatSound.version (h : FormatSound w) (force : Bool) : FormatSound (w.version force) := by
  simp only [UploadFormat.version]
  split
  · next cache hcache =>
      refine h.resolve fun hstands => ?_
      cases force with
      | true => cases hcache
      | false => exact (h.stands hstands).cache cache (Option.filter_eq_some_iff.mp hcache).1
  · cases hpending : w.pending with
    | none => exact h.startCheck
    | some id => exact h.join hpending

theorem unsupported_eq (w : UploadFormat) : w.unsupported true = { w with
    generation := w.generation + 1, pending := none
    cache := some ⟨.two, w.now + recheckMs⟩, refused := true, refusals := w.refusals + 1
    memory := none, disk := if w.file then none else w.disk } := by
  simp only [UploadFormat.unsupported, UploadFormat.read, UploadFormat.write, Bool.and_true]
  cases w.file with
  | true => cases w.disk <;> simp
  | false => cases w.memory <;> simp

theorem FormatSound.unsupported (h : FormatSound w) : FormatSound (w.unsupported true) := by
  rw [unsupported_eq]
  exact {
    advertised := Nat.le_succ_of_le h.advertised
    stands := fun _ => {
      refused := rfl
      memory := rfl
      disk := fun hfile => if_pos hfile
      cache := by
        intro cache hcache
        cases hcache
        rfl }
    checks := by
      intro check hcheck
      have hsound := h.checks check hcheck
      exact { hsound with
        started := Nat.le_succ_of_le hsound.started
        generation := Nat.le_succ_of_le hsound.generation
        current := by
          intro heq
          have hle := hsound.generation
          simp only at heq
          omega
        pending := nofun }
    resolved := h.resolved }

theorem FormatSound.reset (h : FormatSound w) : FormatSound w.reset where
  advertised := h.advertised
  stands := fun hstands => { h.stands hstands with cache := nofun }
  checks := by
    intro check hcheck
    have hsound := h.checks check hcheck
    exact { hsound with
      generation := Nat.le_succ_of_le hsound.generation
      current := by
        intro heq
        have hle := hsound.generation
        have heq' : check.generation = w.generation + 1 := heq
        omega
      pending := nofun }
  resolved := h.resolved

/-! ## Checks -/

theorem FormatSound.setStage (h : FormatSound w) {i : Nat} {check : Check}
    (hcheck : w.checks[i]? = some check) {stage : CheckStage}
    (hstage : stage.version = some .three → check.started ≤ w.advertised) :
    FormatSound (w.setStage i check stage) where
  advertised := h.advertised
  stands := fun hstands => { h.stands hstands with }
  checks := by
    intro other hother
    rcases List.mem_or_eq_of_mem_set hother with hold | hnew
    · exact { h.checks other hold with }
    · rw [hnew]
      exact { h.checks check (List.mem_of_getElem? hcheck) with decided := hstage }
  resolved := h.resolved

theorem FormatSound.read (h : FormatSound w) (io : Bool) : FormatSound (w.read io) := by
  simp only [UploadFormat.read]
  split
  · next hfile =>
      rw [Bool.and_eq_true] at hfile
      exact {
        advertised := h.advertised
        stands := by
          intro hstands
          have hforgotten := h.stands hstands
          exact { hforgotten with memory := hforgotten.disk hfile.1 }
        checks := fun check hcheck => { h.checks check hcheck with }
        resolved := h.resolved }
  · exact h

theorem read_checks (w : UploadFormat) (io : Bool) :
    (w.read io).checks = w.checks ∧ (w.read io).advertised = w.advertised ∧
      (w.read io).refusals = w.refusals := by
  simp only [UploadFormat.read]
  split <;> exact ⟨rfl, rfl, rfl⟩

theorem FormatSound.remember (h : FormatSound w) (hstands : ¬ w.advertised < w.refusals)
    (io : Bool) : FormatSound (w.remember io) := by
  have hread := h.read io
  obtain ⟨-, hadvertised, hrefusals⟩ := read_checks w io
  simp only [UploadFormat.remember]
  split
  · exact hread
  · exact {
      advertised := hread.advertised
      stands := by
        intro hless
        rw [show ((w.read io).write io (some (w.read io).now)).advertised = w.advertised from
          hadvertised, show ((w.read io).write io (some (w.read io).now)).refusals = w.refusals from
          hrefusals] at hless
        exact absurd hless hstands
      checks := fun check hcheck => { hread.checks check hcheck with }
      resolved := hread.resolved }

theorem remember_checks (w : UploadFormat) (io : Bool) :
    (w.remember io).checks = w.checks ∧ (w.remember io).advertised = w.advertised := by
  obtain ⟨hchecks, hadvertised, -⟩ := read_checks w io
  simp only [UploadFormat.remember]
  split
  · exact ⟨hchecks, hadvertised⟩
  · exact ⟨hchecks, hadvertised⟩

/-- While a refusal stands a check that was not answered with schema 3 decides for schema 2. -/
theorem decided_two (h : FormatSound w) (hstands : w.advertised < w.refusals)
    {answer : FormatAnswer} (hanswer : answer ≠ .advertised) (io : Bool) (started : Nat) :
    (w.decided answer io started).2.1 = .two := by
  obtain ⟨-, hadvertised, hrefusals⟩ := read_checks w io
  have hforgotten : Forgotten (w.read io) :=
    (h.read io).stands (by rw [hadvertised, hrefusals]; exact hstands)
  have hnot : (w.read io).remembers = false := by
    simp only [UploadFormat.remembers, hforgotten.memory]
    rfl
  cases answer with
  | advertised => exact absurd rfl hanswer
  | failed => simp only [UploadFormat.decided, hnot, hforgotten.refused]; rfl
  | plain => simp only [UploadFormat.decided, hnot]; rfl
  | missing => simp only [UploadFormat.decided, hnot]; rfl

theorem FormatSound.decided (h : FormatSound w) {answer : FormatAnswer} (io : Bool) {started : Nat}
    (hstarted : started ≤ w.refusals) (hfresh : answer = .advertised → started = w.refusals) :
    FormatSound (w.decided answer io started).1 ∧
      (w.decided answer io started).1.checks = w.checks ∧
      ((w.decided answer io started).2.1 = .three →
        started ≤ (w.decided answer io started).1.advertised) := by
  obtain ⟨hchecks, hadvertised, -⟩ := read_checks w io
  have hother : answer ≠ .advertised → (w.decided answer io started).1 = w.read io →
      FormatSound (w.decided answer io started).1 ∧
        (w.decided answer io started).1.checks = w.checks ∧
        ((w.decided answer io started).2.1 = .three →
          started ≤ (w.decided answer io started).1.advertised) := by
    intro hanswer heq
    rw [heq]
    refine ⟨h.read io, hchecks, fun hthree => ?_⟩
    rw [hadvertised]
    by_contra hless
    have htwo := decided_two h (by omega) hanswer io started
    rw [hthree] at htwo
    cases htwo
  cases answer with
  | advertised =>
      have hmax : max w.advertised started = w.refusals := by
        have hle := h.advertised
        have heq := hfresh rfl
        omega
      have hadvertises : FormatSound
          { w with refused := false, advertised := max w.advertised started } :=
        { advertised := Nat.le_of_eq hmax
          stands := fun hless => absurd hmax (Nat.ne_of_lt hless)
          checks := fun check hcheck =>
            { h.checks check hcheck with
              decided := fun hthree =>
                Nat.le_trans ((h.checks check hcheck).decided hthree) (Nat.le_max_left _ _) }
          resolved := h.resolved }
      obtain ⟨hchecks', hadvertised'⟩ := remember_checks
        { w with refused := false, advertised := max w.advertised started } io
      refine ⟨hadvertises.remember (fun hless => absurd hmax (Nat.ne_of_lt hless)) io, hchecks',
        fun _ => ?_⟩
      rw [show (w.decided .advertised io started).1.advertised = max w.advertised started from
        hadvertised']
      exact Nat.le_max_right _ _
  | failed => exact hother nofun rfl
  | plain => exact hother nofun rfl
  | missing => exact hother nofun rfl

theorem FormatSound.answer (h : FormatSound w) {i : Nat} {answer : FormatAnswer} {io : Bool}
    (hfresh : answer = .advertised → ∀ check ∈ w.checks[i]?, check.started = w.refusals)
    (hstep : w.answer i answer io = some w') : FormatSound w' := by
  simp only [UploadFormat.answer] at hstep
  split at hstep
  · cases hstep
  · next check hcheck =>
      split at hstep
      · cases hstep
        have hsound := h.checks check (List.mem_of_getElem? hcheck)
        obtain ⟨hdecided, hchecks, hthree⟩ := h.decided io hsound.started
          fun hanswer => hfresh hanswer check hcheck
        refine hdecided.setStage (by rw [hchecks]; exact hcheck) fun hversion => ?_
        exact hthree (Option.some.inj hversion)
      · cases hstep

theorem FormatSound.settle (h : FormatSound w) {i : Nat} (hstep : w.settle i = some w') :
    FormatSound w' := by
  simp only [UploadFormat.settle] at hstep
  split at hstep
  · cases hstep
  · next check hcheck =>
      split at hstep
      · next version recheck hstage =>
          cases hstep
          have hsound := h.checks check (List.mem_of_getElem? hcheck)
          have hthree : version = .three → check.started ≤ w.advertised := by
            intro heq
            refine hsound.decided ?_
            rw [hstage, heq]
            rfl
          have hcache : FormatSound { w with
              cache := if check.generation = w.generation
                then some ⟨version, w.now + recheck⟩ else w.cache } :=
            { h with
              stands := by
                intro hstands
                exact { h.stands hstands with
                  cache := by
                    intro cache hcache
                    simp only at hcache
                    split at hcache
                    · next hgeneration =>
                        cases hcache
                        have hcurrent := hsound.current hgeneration
                        cases version with
                        | two => rfl
                        | three =>
                            have hle := hthree rfl
                            have hless : w.advertised < w.refusals := hstands
                            omega
                    · exact (h.stands hstands).cache cache hcache }
              checks := fun other hother => { h.checks other hother with } }
          refine hcache.setStage hcheck fun hversion => hthree (Option.some.inj hversion)
      · cases hstep

theorem FormatSound.resolveAll (h : FormatSound w) {version : UploadSchema} {calls : List Nat}
    (hcalls : ∀ call ∈ calls, w.advertised < call → version = .two) :
    FormatSound (calls.foldl (fun w call => w.resolve call version) w) := by
  induction calls generalizing w with
  | nil => exact h
  | cons call calls ih =>
      refine ih (h.resolve (hcalls call List.mem_cons_self)) fun other hother => ?_
      exact hcalls other (List.mem_cons_of_mem call hother)

theorem FormatSound.finish (h : FormatSound w) {i : Nat} (hstep : w.finish i = some w') :
    FormatSound w' := by
  simp only [UploadFormat.finish] at hstep
  split at hstep
  · cases hstep
  · next check hcheck =>
      split at hstep
      · next version hstage =>
          cases hstep
          have hsound := h.checks check (List.mem_of_getElem? hcheck)
          have hdone : FormatSound { w with
              checks := w.checks.eraseIdx i
              pending := if w.pending = some check.id then none else w.pending } :=
            { h with
              stands := fun hstands => { h.stands hstands with }
              checks := by
                intro other hother
                have hother' := h.checks other (List.mem_of_mem_eraseIdx hother)
                exact { hother' with
                  pending := by
                    intro hpending
                    simp only at hpending
                    split at hpending
                    · cases hpending
                    · exact hother'.pending hpending } }
          refine hdone.resolveAll fun call hcall hless => ?_
          cases version with
          | two => rfl
          | three =>
              have hthree : check.started ≤ w.advertised := by
                refine hsound.decided ?_
                rw [hstage]
                rfl
              have hle := hsound.calls call hcall
              have hless' : w.advertised < call := hless
              omega
      · cases hstep

theorem FormatSound.step {act : FormatAct} (h : FormatSound w) (hfresh : Fresh w act)
    (hstep : w.step act = some w') : FormatSound w' := by
  cases act with
  | version force =>
      cases hstep
      exact h.version force
  | unsupported io =>
      cases hstep
      obtain rfl : io = true := hfresh
      exact h.unsupported
  | reset =>
      cases hstep
      exact h.reset
  | answer i answer io =>
      refine h.answer (fun hanswer => ?_) hstep
      rw [hanswer] at hfresh
      exact hfresh
  | settle i => exact h.settle hstep
  | finish i => exact h.finish hstep
  | tick ms =>
      cases hstep
      exact { h with
        stands := fun hstands => { h.stands hstands with }
        checks := fun check hcheck => { h.checks check hcheck with } }

/-- In every run in which no check that was started before a refusal answers with schema 3 after
it, a call that is answered while a refusal before it stands is answered schema 2. -/
theorem refused_stays_refused {file probe : Bool} {disk : Option Int}
    (hrun : Reach UploadFormat.step Fresh { file, probe, disk } w) :
    ∀ r ∈ w.resolved, r.stands = true → r.version = .two :=
  (hrun.invariant (fun _ _ _ h hguard hstep => h.step hguard hstep)
    (formatSound_new file probe disk)).resolved

instance (w : UploadFormat) (act : FormatAct) : Decidable (Fresh w act) := by
  cases act with
  | unsupported io => exact inferInstanceAs (Decidable (io = true))
  | answer i answer io =>
      cases answer with
      | advertised =>
          exact inferInstanceAs (Decidable (∀ check ∈ w.checks[i]?, check.started = w.refusals))
      | _ => exact inferInstanceAs (Decidable True)
  | _ => exact inferInstanceAs (Decidable True)

/-- The server took schema 3 and refuses it. A check that was under way fails, one that is started
later fails too, and one after a sign-out finds schema 3 again. -/
theorem refused_stays_refused_checks : ∃ w : UploadFormat,
    w.resolved = [⟨.two, false⟩, ⟨.two, true⟩, ⟨.two, true⟩, ⟨.three, false⟩] ∧
      ∀ r ∈ w.resolved, r.stands = true → r.version = .two := by
  have hrun : (runActions
      (fun w act => if Fresh w act then UploadFormat.step w act else none)
      [.version false, .unsupported true, .answer 0 .failed true, .settle 0, .finish 0,
        .version false, .version true, .answer 0 .failed true, .settle 0, .finish 0, .reset,
        .version false, .answer 0 .advertised true, .settle 0, .finish 0]
      { file := true, probe := true, disk := some 0 }).any (fun w =>
        w.resolved = [⟨.two, false⟩, ⟨.two, true⟩, ⟨.two, true⟩, ⟨.three, false⟩]) = true := by
    decide +kernel
  obtain ⟨w, hw, hstate⟩ := exists_of_any hrun
  exact ⟨w, of_decide_eq_true hstate, refused_stays_refused (reach_of_checked hw).1⟩

/-- A check that was under way when the refusal came answers with schema 3. Five minutes later a
check fails, and the call is answered schema 3. -/
theorem refused_undone :
    ∃ w, runActions UploadFormat.step
        [.version false, .unsupported true, .answer 0 .advertised true, .settle 0, .finish 0,
          .tick 300000, .version false, .answer 0 .failed true, .settle 0, .finish 0]
        { file := true, probe := true, disk := none } = some w ∧
      w.resolved = [⟨.three, false⟩, ⟨.three, true⟩] := by
  have hrun : (runActions UploadFormat.step
      [.version false, .unsupported true, .answer 0 .advertised true, .settle 0, .finish 0,
        .tick 300000, .version false, .answer 0 .failed true, .settle 0, .finish 0]
      { file := true, probe := true, disk := none }).any
        (fun w => w.resolved = [⟨.three, false⟩, ⟨.three, true⟩]) = true := by decide +kernel
  obtain ⟨w, hw, hstate⟩ := exists_of_any hrun
  exact ⟨w, hw, of_decide_eq_true hstate⟩

end OmniRush.Uploader
