import Mathlib.Data.List.Nodup
import OmniRush.Proofs.RunLifecycle
import OmniRush.Automations.Events

/-!
# The states an automation moves through

An edit and an attention mark look at the state in the statement that writes it. The
other two writers do not. `setState` compares the state it wants with the one it read and
then selects by id, and it asks no table, so an archived automation is activated again
by anybody who asks. The last update of a cloud run selects by id as well, when the run
is over, whatever became of its automation since.

The table forbids one thing, to leave `archived`. `Permitted` is the condition on the
two updates under which a step keeps to it and activates no schedule its user
deactivated while it has no due time. It is exact (`allowed_iff`), and over a run of
permitted steps an archived automation stays archived (`archived_automations_stay`).
-/

namespace OmniRush.Automations

open OmniRush

/-! ## Automations by their id -/

theorem automation_updateAutomations {db : Db} {selects : AutomationRow → Bool}
    {set : AutomationRow → AutomationRow} (hset : ∀ a, (set a).id = a.id) (id : String) :
    (db.updateAutomations selects set).automation id
      = (db.automation id).map fun a => if selects a then set a else a := by
  unfold Db.automation Db.updateAutomations
  rw [List.find?_map]
  congr 2
  funext a
  simp only [Function.comp_apply]
  split
  · rw [hset]
  · rfl

theorem automation_id {db : Db} {id : String} {a : AutomationRow}
    (h : db.automation id = some a) : a.id = id := by
  simpa using List.find?_some h

/-- Ids tell automations apart. -/
def Db.OneAutomation (db : Db) : Prop := (db.automations.map (·.id)).Nodup

theorem automation_of_mem {db : Db} (hdb : db.OneAutomation) {a : AutomationRow}
    (ha : a ∈ db.automations) : db.automation a.id = some a := by
  have hsome : (db.automation a.id).isSome = true :=
    List.find?_isSome.mpr ⟨a, ha, decide_eq_true rfl⟩
  obtain ⟨b, hb⟩ := Option.isSome_iff_exists.mp hsome
  rw [hb, List.inj_on_of_nodup_map hdb (List.mem_of_find?_eq_some hb) ha (automation_id hb)]

section

variable {zones : TimeZones}

/-! ## What an edit does -/

/-- An edit leaves the state of its automation, or changes the definition of one that is
not archived. -/
theorem update_cases {db db' : Db} {input : Changes} (h : db.update zones input = .ok db') :
    ∃ set : AutomationRow → AutomationRow, (∀ a, (set a).id = a.id) ∧
      db'.automations
        = (db.updateAutomations (fun a => a.id = input.automationId) set).automations ∧
      ((∀ a, (set a).state = a.state) ∨
        (db.redefines input = true ∧ (∀ a, (set a).state = .active) ∧
          ∃ found ∈ db.automations, found.id = input.automationId ∧ found.state ≠ .archived)) := by
  unfold Db.update at h
  split at h
  · cases h
  · next found hfound =>
      have hid : found.id = input.automationId := by
        have hsome := List.find?_some hfound
        simp only [Bool.and_eq_true, decide_eq_true_eq] at hsome
        exact hsome.1.1
      split at h
      · cases h
      · next harchived =>
          split at h
          · cases h
          · next current hrev =>
              dsimp only at h
              rw [hid] at h
              split at h
              · injection h with h
                subst h
                exact ⟨fun a => { a with
                  name := input.name.getD found.name, updatedAt := input.now },
                  fun _ => rfl, rfl, .inl fun _ => rfl⟩
              · next hdigest =>
                  injection h with h
                  subst h
                  have hredefines : db.redefines input = true := by
                    unfold Db.redefines
                    rw [hfound]
                    simp [hrev, harchived, hdigest]
                  exact ⟨fun a => { a with
                    name := input.name.getD found.name
                    currentRevisionId := input.newRevisionId
                    nextDueAt := nextAutomationOccurrence zones
                      (input.schedule.getD current.schedule) input.now
                    state := .active
                    updatedAt := input.now },
                    fun _ => rfl, rfl, .inr ⟨hredefines, fun _ => rfl, found,
                      List.mem_of_find?_eq_some hfound, hid, harchived⟩⟩

/-! ## Steps -/

/-- The update of a `setState`. -/
def ServiceAction.SetsState (act : ServiceAction) : Prop :=
  ∃ item state now drawn, act = .den (.write (.settingState item state now) drawn)

/-- The update of an automation that ends a completion. -/
def ServiceAction.WritesArtifact (act : ServiceAction) : Prop :=
  ∃ index, act = .writeArtifactState index

/-- What a writer that looks at the state does to it. -/
inductive CheckedMove (w : Service) (act : ServiceAction) (a a' : AutomationRow) : Prop
  | kept (h : a'.state = a.state)
  | edited {input : Changes} (hact : act = .den (.update input))
      (hid : a.id = input.automationId) (hredefines : w.den.db.redefines input = true)
      (hfound : ∃ found ∈ w.den.db.automations, found.id = input.automationId ∧
        found.state ≠ .archived) (h : a'.state = .active)
  | marked (h : a.state = .active) (h' : a'.state = .needsAttention)

/-- The automations after a step: the ones there were, row by row, and a new one. -/
structure Rewritten (w w' : Service) (move : AutomationRow → AutomationRow → Prop) where
  set : AutomationRow → AutomationRow
  created : List AutomationRow
  id : ∀ a, (set a).id = a.id
  rows : w'.den.db.automations = w.den.db.automations.map set ++ created
  fresh : created.length ≤ 1 ∧ ∀ c ∈ created, ∀ a ∈ w.den.db.automations, a.id ≠ c.id
  moves : ∀ a ∈ w.den.db.automations, move a (set a)

theorem rewritten_same {w w' : Service} {act : ServiceAction}
    (h : w'.den.db.automations = w.den.db.automations) :
    Nonempty (Rewritten w w' (CheckedMove w act)) :=
  ⟨⟨id, [], fun _ => rfl, by rw [h, List.map_id, List.append_nil], by simp, fun _ _ => .kept rfl⟩⟩

theorem rewritten_update {w w' : Service} {move : AutomationRow → AutomationRow → Prop}
    {selects : AutomationRow → Bool} {set : AutomationRow → AutomationRow}
    (h : w'.den.db.automations = (w.den.db.updateAutomations selects set).automations)
    (hid : ∀ a, (set a).id = a.id)
    (hmove : ∀ a ∈ w.den.db.automations, move a (if selects a then set a else a)) :
    Nonempty (Rewritten w w' move) := by
  refine ⟨⟨_, [], fun a => ?_, by rw [List.append_nil]; exact h, by simp, hmove⟩⟩
  split
  · exact hid a
  · rfl

theorem claim_automations {db db' : Db} {input : ClaimInput} {answer : ClaimAnswer}
    (h : db.claim zones input = .ok (answer, db')) :
    ∃ set : AutomationRow → AutomationRow, (∀ a, (set a).id = a.id ∧ (set a).state = a.state) ∧
      db'.automations = (db.updateAutomations (fun a => a.id = input.item.automation.id)
        set).automations := by
  rcases claim_cases h with ⟨run, -, rfl⟩ | ⟨key, overlap, -, -, rfl⟩
  · refine ⟨id, fun _ => ⟨rfl, rfl⟩, ?_⟩
    unfold Db.updateAutomations
    simp
  · exact ⟨fun a => { a with
      nextDueAt := input.nextDueAt zones
      latestRunAt := some input.now
      updatedAt := input.now }, fun _ => ⟨rfl, rfl⟩, rfl⟩

theorem den_rewritten {w w' : Service} {a : Action} (h : w.step zones (.den a) = some w')
    (hset : ¬ (ServiceAction.den a).SetsState) :
    Nonempty (Rewritten w w' (CheckedMove w (.den a))) := by
  simp only [Service.step, Option.map_eq_some_iff] at h
  obtain ⟨den, hstep, rfl⟩ := h
  have hmoves := step_moves hstep
  cases hmoves with
  | runs _ hruns =>
      obtain ⟨f, rfl, -⟩ := hruns
      exact rewritten_same rfl
  | read _ => exact rewritten_same rfl
  | create ha hfresh =>
      simp only [Db.fresh, Bool.and_eq_true, List.all_eq_true, decide_eq_true_eq] at hfresh
      refine ⟨⟨id, _, fun _ => rfl, by rw [List.map_id]; rfl, ⟨by simp, ?_⟩, fun _ _ => .kept rfl⟩⟩
      intro c hc b hb
      rw [List.mem_singleton.mp hc]
      exact hfresh.1.1 b hb
  | update ha _ hupdate =>
      obtain ⟨set, hid, hrows, hmove⟩ := update_cases hupdate
      refine rewritten_update hrows hid fun b _ => ?_
      split
      · next hb =>
          rcases hmove with hkept | ⟨hredefines, hactive, hfound⟩
          · exact .kept (hkept b)
          · exact .edited (by rw [ha]) (of_decide_eq_true hb) hredefines hfound (hactive b)
      · exact .kept rfl
  | attention _ _ _ =>
      refine rewritten_update rfl (fun _ => rfl) fun b _ => ?_
      split
      · next hb =>
          simp only [Bool.and_eq_true, decide_eq_true_eq] at hb
          exact .marked hb.2 rfl
      · exact .kept rfl
  | setState ha _ =>
      exact absurd ⟨_, _, _, _, congrArg ServiceAction.den ha⟩ hset
  | claim _ _ _ hclaim =>
      obtain ⟨set, hmove, hrows⟩ := claim_automations hclaim
      refine rewritten_update hrows (fun b => (hmove b).1) fun b _ => ?_
      split
      · exact .kept (hmove b).2
      · exact .kept rfl

theorem recordSkippedManual_automations {db db' : Db} {input : SkippedManual}
    (h : db.recordSkippedManual input = .ok db') :
    db'.automations = (db.updateAutomations (fun a => a.id = input.item.automation.id) fun a =>
      { a with latestRunAt := some input.now, updatedAt := input.now }).automations := by
  unfold Db.recordSkippedManual at h
  split at h
  · cases h
  · split at h
    · cases h
    · split at h
      · cases h
      · split at h
        · cases h
        · split at h
          · cases h
          · injection h with h
            subst h
            rfl

theorem complete_automations {db db' : Db} {runId leaseOwner : String} {attempt : Option Nat}
    {status : FinalStatus} {resultSummary : Option String} {error : Option AutomationError}
    {now : Int}
    (h : db.complete runId leaseOwner attempt status resultSummary error now = .ok db') :
    db'.automations = db.automations := by
  unfold Db.complete at h
  dsimp only at h
  split at h
  · cases h
  · split at h
    · split at h
      · cases h
      · injection h with h
        rw [h]
    · split at h
      · cases h
      · injection h with h
        rw [← h]
        rfl

theorem append_automations {db db' : Db} {events events' : List EventRow} {input : EventInput}
    {source : EventSource} {e : EventRow}
    (h : appendClaimedEvent db events input source = .ok (e, db', events')) :
    db'.automations = db.automations := by
  unfold appendClaimedEvent at h
  split at h
  · cases h
  · dsimp only at h
    split at h
    · cases h
      rfl
    · split at h
      · cases h
      · split at h
        · cases h
        · cases h
          rfl

theorem step_rewritten {w w' : Service} {act : ServiceAction} (h : w.step zones act = some w')
    (hset : ¬ act.SetsState) (hartifact : ¬ act.WritesArtifact) :
    Nonempty (Rewritten w w' (CheckedMove w act)) := by
  cases act with
  | den a => exact den_rewritten h hset
  | append input source =>
      simp only [Service.step] at h
      split at h
      · cases h
        exact rewritten_same rfl
      · next hanswer =>
          cases h
          exact rewritten_same (append_automations hanswer)
  | recordSkippedManual input =>
      simp only [Service.step] at h
      split at h
      · cases h
        cases hanswer : w.den.db.recordSkippedManual input with
        | error e => exact rewritten_same rfl
        | ok db' =>
            refine rewritten_update (recordSkippedManual_automations hanswer) (fun _ => rfl)
              fun b _ => ?_
            split <;> exact .kept rfl
      · cases h
  | completeCloud input =>
      simp only [Service.step] at h
      split at h
      · cases h
        exact rewritten_same rfl
      · next hanswer =>
          cases h
          exact rewritten_same (complete_automations hanswer)
  | writeArtifactState index => exact absurd ⟨index, rfl⟩ hartifact

/-! ## Allowed steps -/

/-- Every change of a state is in the table, and no schedule that its user deactivated
becomes active without a due time. -/
structure Allowed (w w' : Service) : Prop where
  table : ∀ id a a', w.den.db.automation id = some a → w'.den.db.automation id = some a' →
    a'.state ≠ a.state → a'.state ∈ transitions a.state
  pointed : ∀ id ∈ w'.deactivated, ∀ a a', w.den.db.automation id = some a →
    w'.den.db.automation id = some a' → a.state ≠ .active → a'.state = .active →
    a'.nextDueAt ≠ none

/-- Neither update that looks at nothing takes an automation out of the archive, and the
end of a successful cloud run finds no automation without a due time that its user
deactivated. -/
def Permitted (w : Service) : ServiceAction → Prop
  | .den (.write (.settingState item state _) _) =>
      item.automation.state ≠ state → ∀ a, w.den.db.automation item.automation.id = some a →
        a.state = .archived → state = .archived
  | .writeArtifactState index =>
      ∀ input ∈ w.completing[index]?, ∀ a, w.den.db.automation input.automationId = some a →
        a.state ≠ .archived ∧ (input.status.1 = .succeeded → a.state ≠ .active →
          input.automationId ∈ w.deactivated → a.nextDueAt ≠ none)
  | _ => True

theorem mem_transitions {state next : AutomationState} (h : state ≠ .archived) (hne : next ≠ state) :
    next ∈ transitions state := by
  cases state <;> cases next <;> simp_all [transitions]

theorem notMem_transitions_archived (next : AutomationState) : next ∉ transitions .archived := by
  simp [transitions]

theorem Rewritten.automation {w w' : Service} {move : AutomationRow → AutomationRow → Prop}
    (hr : Rewritten w w' move) {id : String} {a : AutomationRow}
    (ha : w.den.db.automation id = some a) :
    w'.den.db.automation id = some (hr.set a) ∧ move a (hr.set a) := by
  refine ⟨?_, hr.moves a (List.mem_of_find?_eq_some ha)⟩
  have hp : (fun a : AutomationRow => decide (a.id = id)) ∘ hr.set = fun a => decide (a.id = id) := by
    funext b
    simp [hr.id]
  unfold Db.automation at ha ⊢
  rw [hr.rows, List.find?_append, List.find?_map, hp, ha]
  rfl

theorem Rewritten.oneAutomation {w w' : Service} {move : AutomationRow → AutomationRow → Prop}
    (hr : Rewritten w w' move) (hw : w.den.db.OneAutomation) : w'.den.db.OneAutomation := by
  have hids : (w.den.db.automations.map hr.set).map (·.id) = w.den.db.automations.map (·.id) := by
    rw [List.map_map]
    exact List.map_congr_left fun a _ => hr.id a
  unfold Db.OneAutomation at hw ⊢
  rw [hr.rows, List.map_append, hids]
  refine List.nodup_append.mpr ⟨hw, ?_, ?_⟩
  · match hcreated : hr.created with
    | [] => exact List.nodup_nil
    | [c] => exact List.nodup_singleton _
    | _ :: _ :: _ =>
        have hle := hr.fresh.1
        rw [hcreated, List.length_cons, List.length_cons] at hle
        omega
  · intro x hx y hy
    obtain ⟨a, ha, rfl⟩ := List.mem_map.mp hx
    obtain ⟨c, hc, rfl⟩ := List.mem_map.mp hy
    exact hr.fresh.2 c hc a ha

theorem step_deactivated {w w' : Service} {a : Action} (h : w.step zones (.den a) = some w') :
    w'.deactivated = w.deactivatedAfter a := by
  simp only [Service.step, Option.map_eq_some_iff] at h
  obtain ⟨den, -, rfl⟩ := h
  rfl

theorem checked_allowed {w w' : Service} {act : ServiceAction} (hw : w.den.db.OneAutomation)
    (h : w.step zones act = some w') (hr : Rewritten w w' (CheckedMove w act)) :
    Allowed w w' := by
  refine ⟨fun id a a' ha ha' hne => ?_, fun id hid a a' ha ha' hinactive hactive => ?_⟩
  · obtain ⟨hset, hmove⟩ := hr.automation ha
    obtain rfl := Option.some.inj (hset.symm.trans ha')
    cases hmove with
    | kept h => exact absurd h hne
    | edited _ hid _ hfound _ =>
        obtain ⟨found, hmem, hfound, harchived⟩ := hfound
        have hsame := automation_of_mem hw hmem
        rw [hfound, ← hid, automation_id ha, ha] at hsame
        obtain rfl := Option.some.inj hsame
        exact mem_transitions harchived hne
    | marked h _ => exact mem_transitions (by rw [h]; simp) hne
  · obtain ⟨hset, hmove⟩ := hr.automation ha
    obtain rfl := Option.some.inj (hset.symm.trans ha')
    cases hmove with
    | kept h => exact absurd (h.symm.trans hactive) hinactive
    | @edited input hact haid hredefines _ _ =>
        subst hact
        rw [step_deactivated h, Service.deactivatedAfter, if_pos hredefines] at hid
        have hne := of_decide_eq_true (List.mem_filter.mp hid).2
        exact absurd ((automation_id ha).symm.trans haid) hne
    | marked h _ => exact absurd h hinactive

theorem written_allowed_iff {w w' : Service} {target : String} {state : AutomationState}
    {f : AutomationRow → AutomationRow}
    (hrows : w'.den.db.automations
      = (w.den.db.updateAutomations (fun a => a.id = target) f).automations)
    (hset : ∀ a, (f a).id = a.id ∧ (f a).state = state) :
    Allowed w w' ↔ ∀ a, w.den.db.automation target = some a →
      (a.state = .archived → state = .archived) ∧
        (target ∈ w'.deactivated → a.state ≠ .active → state = .active →
          (f a).nextDueAt ≠ none) := by
  have hrow : ∀ id, w'.den.db.automation id
      = (w.den.db.automation id).map fun a => if a.id = target then f a else a := by
    intro id
    have hfind : (w.den.db.updateAutomations (fun a => a.id = target) f).automation id = _ :=
      automation_updateAutomations (fun a => (hset a).1) id
    simp only [decide_eq_true_eq] at hfind
    rw [← hfind]
    unfold Db.automation
    rw [hrows]
  constructor
  · intro hallowed a ha
    have hwritten := hrow target
    rw [ha, Option.map_some, if_pos (automation_id ha)] at hwritten
    refine ⟨fun harchived => ?_, fun hdeactivated hinactive hactive => ?_⟩
    · by_contra hstate
      have hmem := hallowed.table target a _ ha hwritten (by rw [(hset a).2, harchived]; exact hstate)
      rw [harchived] at hmem
      exact notMem_transitions_archived _ hmem
    · exact hallowed.pointed target hdeactivated a _ ha hwritten hinactive
        ((hset a).2.trans hactive)
  · intro hcondition
    refine ⟨fun id a a' ha ha' hne => ?_, fun id hid a a' ha ha' hinactive hactive => ?_⟩
    all_goals
      have hwritten := (hrow id).symm.trans ha'
      rw [ha, Option.map_some] at hwritten
      obtain rfl := Option.some.inj hwritten
      by_cases htarget : a.id = target
    · rw [if_pos htarget, (hset a).2] at hne ⊢
      have hid := (automation_id ha).symm.trans htarget
      rw [hid] at ha
      refine mem_transitions (fun harchived => ?_) hne
      exact hne (((hcondition a ha).1 harchived).trans harchived.symm)
    · rw [if_neg htarget] at hne
      exact absurd rfl hne
    · rw [if_pos htarget] at hactive ⊢
      have hsame := (automation_id ha).symm.trans htarget
      rw [hsame] at ha hid
      exact (hcondition a ha).2 hid hinactive ((hset a).2.symm.trans hactive)
    · rw [if_neg htarget] at hactive
      exact absurd hactive hinactive

theorem settingState_db {w w' : Service} {item : Item} {state : AutomationState} {now : Int}
    {drawn : Drawn}
    (h : w.step zones (.den (.write (.settingState item state now) drawn)) = some w') :
    w'.den.db = w.den.db.setState zones item state now := by
  simp only [Service.step, Option.map_eq_some_iff, Den.step] at h
  obtain ⟨den, hstep, rfl⟩ := h
  split at hstep
  · cases hstep
    rfl
  · cases hstep

theorem settingState_iff {w w' : Service} {item : Item} {state : AutomationState} {now : Int}
    {drawn : Drawn}
    (h : w.step zones (.den (.write (.settingState item state now) drawn)) = some w') :
    Allowed w w' ↔ Permitted w (.den (.write (.settingState item state now) drawn)) := by
  have hdeactivated : w'.deactivated = w.deactivatedAfter (.write (.settingState item state now) drawn) :=
    step_deactivated h
  have hdb := settingState_db h
  by_cases hsame : item.automation.state = state
  · have hsame' : w'.den.db = w.den.db := hdb.trans (if_pos hsame)
    refine ⟨fun _ hne => absurd hsame hne, fun _ => ⟨fun id a a' ha ha' hne => ?_,
      fun id _ a a' ha ha' hinactive hactive => ?_⟩⟩
    all_goals
      rw [hsame'] at ha'
      obtain rfl := Option.some.inj (ha.symm.trans ha')
    · exact absurd rfl hne
    · exact absurd hactive hinactive
  · have hwritten : w'.den.db = _ := hdb.trans (if_neg hsame)
    rw [written_allowed_iff (congrArg Db.automations hwritten) fun _ => ⟨rfl, rfl⟩]
    refine ⟨fun h _ a ha => (h a ha).1, fun h a ha => ⟨h hsame a ha, fun hid _ hactive => ?_⟩⟩
    rw [hactive] at hsame
    rw [hdeactivated] at hid
    simp [Service.deactivatedAfter, hsame, hactive] at hid

theorem writeArtifactState_iff {w w' : Service} {index : Nat}
    (h : w.step zones (.writeArtifactState index) = some w') :
    Allowed w w' ↔ Permitted w (.writeArtifactState index) := by
  simp only [Service.step, Option.map_eq_some_iff] at h
  obtain ⟨input, hinput, rfl⟩ := h
  have hstate : input.artifactState.state
      = if input.status.1 = .succeeded then .active else .needsAttention := by
    unfold CloudCompletion.artifactState cloudArtifactStateUpdate
    by_cases hsucceeded : input.status.1 = .succeeded
    · rw [if_pos hsucceeded, if_pos hsucceeded]
      rfl
    · rw [if_neg hsucceeded, if_neg hsucceeded]
      rfl
  rw [written_allowed_iff (f := fun a =>
    { a with state := input.artifactState.state, updatedAt := input.now }) rfl fun _ => ⟨rfl, rfl⟩]
  have harchived : input.artifactState.state ≠ .archived := by
    rw [hstate]
    split <;> simp
  have hactive : input.artifactState.state = .active ↔ input.status.1 = .succeeded := by
    rw [hstate]
    split <;> simp_all
  constructor
  · intro h input' hinput' a ha
    obtain rfl := Option.some.inj (hinput.symm.trans hinput')
    obtain ⟨htable, hpointed⟩ := h a ha
    exact ⟨fun h => harchived (htable h), fun hsucceeded hinactive hid =>
      hpointed hid hinactive (hactive.mpr hsucceeded)⟩
  · intro h a ha
    obtain ⟨hkept, hpointed⟩ := h input hinput a ha
    exact ⟨fun h => absurd h hkept, fun hid hinactive h => hpointed (hactive.mp h) hinactive hid⟩

theorem allowed_iff {w w' : Service} {act : ServiceAction} (hw : w.den.db.OneAutomation)
    (h : w.step zones act = some w') : Allowed w w' ↔ Permitted w act := by
  by_cases hset : act.SetsState
  · obtain ⟨item, state, now, drawn, rfl⟩ := hset
    exact settingState_iff h
  · by_cases hartifact : act.WritesArtifact
    · obtain ⟨index, rfl⟩ := hartifact
      exact writeArtifactState_iff h
    · obtain ⟨hr⟩ := step_rewritten h hset hartifact
      refine ⟨fun _ => ?_, fun _ => checked_allowed hw h hr⟩
      unfold Permitted
      split
      · exact absurd ⟨_, _, _, _, rfl⟩ hset
      · exact absurd ⟨_, rfl⟩ hartifact
      · trivial

/-! ## Runs -/

theorem step_rows {w w' : Service} {act : ServiceAction} (h : w.step zones act = some w') :
    Nonempty (Rewritten w w' fun _ _ => True) := by
  by_cases hset : act.SetsState
  · obtain ⟨item, state, now, drawn, rfl⟩ := hset
    have hdb := settingState_db h
    unfold Db.setState at hdb
    split at hdb
    · exact ⟨⟨id, [], fun _ => rfl, by rw [hdb, List.map_id, List.append_nil], by simp,
        fun _ _ => trivial⟩⟩
    · exact rewritten_update (congrArg Db.automations hdb) (fun _ => rfl) fun _ _ => trivial
  · by_cases hartifact : act.WritesArtifact
    · obtain ⟨index, rfl⟩ := hartifact
      simp only [Service.step, Option.map_eq_some_iff] at h
      obtain ⟨input, -, rfl⟩ := h
      exact rewritten_update rfl (fun _ => rfl) fun _ _ => trivial
    · obtain ⟨hr⟩ := step_rewritten h hset hartifact
      exact ⟨⟨hr.set, hr.created, hr.id, hr.rows, hr.fresh, fun _ _ => trivial⟩⟩

theorem reach_oneAutomation {guard : Service → ServiceAction → Prop} {w : Service}
    (hrun : Reach (Service.step zones) guard {} w) : w.den.db.OneAutomation := by
  refine hrun.invariant (I := fun w => w.den.db.OneAutomation) (fun s a t hs _ hstep => ?_)
    List.nodup_nil
  obtain ⟨hr⟩ := step_rows hstep
  exact hr.oneAutomation hs

/-- In every state that any interleaving leads to, a step changes the states as the table
allows and activates no deactivated schedule without a due time exactly when it is
permitted. In every run of permitted steps an archived automation stays archived. -/
theorem archived_automations_stay :
    (∀ w, Reach (Service.step zones) (fun _ _ => True) {} w → ∀ act w',
      w.step zones act = some w' → (Allowed w w' ↔ Permitted w act)) ∧
    ∀ w, Reach (Service.step zones) Permitted {} w →
      (∀ act w', Permitted w act → w.step zones act = some w' → Allowed w w') ∧
      ∀ w', Reach (Service.step zones) Permitted w w' → ∀ id a,
        w.den.db.automation id = some a → a.state = .archived →
          ∃ a', w'.den.db.automation id = some a' ∧ a'.state = .archived := by
  refine ⟨fun w hrun act w' hstep => allowed_iff (reach_oneAutomation hrun) hstep,
    fun w hrun => ⟨fun act w' hpermitted hstep =>
      (allowed_iff (reach_oneAutomation hrun) hstep).mpr hpermitted,
      fun w' hrun' id a ha harchived => ?_⟩⟩
  have hone := reach_oneAutomation hrun
  have hkept := hrun'.invariant (I := fun v => v.den.db.OneAutomation ∧
      ∃ a', v.den.db.automation id = some a' ∧ a'.state = .archived)
    (fun v act v' hv hpermitted hstep => ?_) ⟨hone, a, ha, harchived⟩
  · exact hkept.2
  · obtain ⟨hone, b, hb, hbstate⟩ := hv
    obtain ⟨hr⟩ := step_rows hstep
    obtain ⟨hb', -⟩ := hr.automation hb
    refine ⟨hr.oneAutomation hone, _, hb', ?_⟩
    by_contra hleft
    have hallowed := (allowed_iff hone hstep).mpr hpermitted
    have hmem := hallowed.table id b _ hb hb' (by rw [hbstate]; exact hleft)
    rw [hbstate] at hmem
    exact notMem_transitions_archived _ hmem

end

/-! ## An archived automation activated -/

def cloudItem : Item :=
  ⟨exampleAutomation, { exampleRevision with executionTarget := .cloud }⟩

/-- The item once its only occurrence is claimed. -/
def claimedCloudItem : Item :=
  { cloudItem with automation := { exampleAutomation with
    nextDueAt := none, latestRunAt := some 10, updatedAt := 10 } }

theorem succeeded_isTerminal : RunStatus.isTerminal .succeeded = true := rfl

def cloudCompletion : CloudCompletion where
  automationId := "a"
  runId := "r"
  leaseOwner := "server"
  status := ⟨.succeeded, succeeded_isTerminal⟩
  resultSummary := "ok"
  now := 40

/-- A cloud automation whose only run is taken by a server. -/
def takenCloudActions : List ServiceAction :=
  [.den (.create ⟨"a", "v", "o", "m", "n", .once "UTC" 10, .cloud, "d", 0⟩),
    .den (.read (.due cloudItem 10)), .den (.write (.due cloudItem 10) exampleDrawn),
    .den (.claimCloud "r" "server" 100 2 20)]

def setStateActions (item : Item) (state : AutomationState) (now : Int) : List ServiceAction :=
  [.den (.read (.settingState item state now)), .den (.write (.settingState item state now) {})]

def Service.stateOf (w : Service) (id : String) : Option AutomationState :=
  (w.den.db.automation id).map (·.state)

instance (w : Service) (act : ServiceAction) : Decidable (Permitted w act) := by
  unfold Permitted
  simp only [← Option.mem_def]
  split <;> infer_instance

/-- A cloud run ends, then its automation is archived, and it stays so. -/
theorem archived_automations_stay_ended :
    ∃ w, runActions (Service.step exampleZones) (takenCloudActions ++
        [.completeCloud cloudCompletion, .writeArtifactState 0]) {} = some w ∧
      w.stateOf "a" = some .active ∧
      (∀ act w', Permitted w act → w.step exampleZones act = some w' → Allowed w w') ∧
      ∀ w', Reach (Service.step exampleZones) Permitted w w' → ∀ id a,
        w.den.db.automation id = some a → a.state = .archived →
          ∃ a', w'.den.db.automation id = some a' ∧ a'.state = .archived := by
  have hrun : (runActions (fun w a => if Permitted w a then w.step exampleZones a else none)
      (takenCloudActions ++ [.completeCloud cloudCompletion, .writeArtifactState 0]) {}).any
      (fun w => w.stateOf "a" = some .active) = true := by decide +kernel
  obtain ⟨w, hw, hstate⟩ := exists_of_any hrun
  obtain ⟨hreach, hplain⟩ := reach_of_checked hw
  exact ⟨w, hplain, of_decide_eq_true hstate, archived_automations_stay.2 w hreach⟩

/-- An automation is archived while its cloud run is under way, and the end of the run
activates it. Without any run, whoever asks activates an archived automation. -/
theorem archived_automation_activated :
    (∃ w w', runActions (Service.step exampleZones) (takenCloudActions ++
        setStateActions claimedCloudItem .archived 30 ++ [.completeCloud cloudCompletion]) {}
        = some w ∧
      w.step exampleZones (.writeArtifactState 0) = some w' ∧
      w.stateOf "a" = some .archived ∧ w'.stateOf "a" = some .active) ∧
    ∃ w w', runActions (Service.step exampleZones)
        ([.den (.create ⟨"a", "v", "o", "m", "n", .once "UTC" 10, .cloud, "d", 0⟩)] ++
          setStateActions cloudItem .archived 5 ++
          [.den (.read (.settingState { cloudItem with automation := { exampleAutomation with
            state := .archived, nextDueAt := none, archivedAt := some 5, updatedAt := 5 } }
            .active 7))]) {} = some w ∧
      w.step exampleZones (.den (.write (.settingState { cloudItem with
        automation := { exampleAutomation with
          state := .archived, nextDueAt := none, archivedAt := some 5, updatedAt := 5 } }
        .active 7) {})) = some w' ∧
      w.stateOf "a" = some .archived ∧ w'.stateOf "a" = some .active := by
  have hstep : ∀ (w : Option Service) (act : ServiceAction),
      w.any (fun w => w.stateOf "a" = some .archived &&
        (w.step exampleZones act).any fun w' => w'.stateOf "a" = some .active) = true →
      ∃ v v', w = some v ∧ v.step exampleZones act = some v' ∧
        v.stateOf "a" = some .archived ∧ v'.stateOf "a" = some .active := by
    intro w act h
    obtain ⟨v, hv, h⟩ := exists_of_any h
    obtain ⟨hbefore, hafter⟩ := Bool.and_eq_true_iff.mp h
    obtain ⟨v', hv', hafter⟩ := exists_of_any hafter
    exact ⟨v, v', hv, hv', of_decide_eq_true hbefore, of_decide_eq_true hafter⟩
  exact ⟨hstep _ _ (by decide +kernel), hstep _ _ (by decide +kernel)⟩

end OmniRush.Automations
