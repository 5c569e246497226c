import OmniRush.Proofs.BaseSteps

/-!
# A sign-out forgets every text

From the moment a `clear` begins no write that is under way may set its digest any more, and as
long as nothing is put no other comes (`Idle`). Once the index is emptied nothing is saved again
either (`Empty`), so when the writes, the removals and the saves it waits for are done, nothing is
left that could make the folder again.
-/

namespace OmniRush.Server

open TurnBaseStore

/-- No text is on its way into the index. -/
structure Idle (s : TurnBaseStore) : Prop where
  queue : s.queue = []
  saveTimer : s.saveTimer = false
  old : ∀ t ∈ s.writes, t.generation < s.generation

/-- Nothing is held, or waits to be saved. -/
structure Empty (s : TurnBaseStore) : Prop extends Idle s where
  index : s.index = .empty
  dirty : s.dirty = false

/-- A step that puts nothing. -/
structure Calm (w w' : TurnBases) : Prop where
  idle : Idle w.store →
    Idle w'.store ∧ ∀ t' ∈ w'.store.writes, ∃ t ∈ w.store.writes, t.id = t'.id
  empty : Empty w.store → w.load = none ∨ w.folder = none → Empty w'.store ∧
    (w'.store.saves = [] ∨ w'.store.saves.getLast?.map IndexSave.id =
      w.store.saves.getLast?.map IndexSave.id)
  ready : w.store.ready = true → w'.store.ready = true
  folder : Empty w.store → w.store.writes = [] → w.store.saves = [] → w.folder = none →
    w'.folder = none
  clears : w'.clears = w.clears ∧ w'.forgotten = w.forgotten

section

variable {digest : String → String} {sizes : String → Nat} {budget : Nat} {w w' : TurnBases}
  {s s' : TurnBaseStore}

/-! ## Steps that put nothing -/

/-- The writes and the queue are the same, and no save is planned that was not. -/
structure SameWork (s s' : TurnBaseStore) : Prop where
  queue : s'.queue = s.queue
  saveTimer : s.saveTimer = false → s'.saveTimer = false
  writes : s'.writes = s.writes
  generation : s'.generation = s.generation
  ready : s.ready = true → s'.ready = true

/-- The stores differ only in what plays no part here. -/
structure Alike (s s' : TurnBaseStore) : Prop extends SameWork s s' where
  index : s'.index = s.index
  dirty : s'.dirty = s.dirty
  saves : s'.saves = s.saves

theorem Alike.refl (s : TurnBaseStore) : Alike s s :=
  ⟨⟨rfl, id, rfl, rfl, id⟩, rfl, rfl, rfl⟩

theorem SameWork.idle (h : SameWork s s') (hidle : Idle s) : Idle s' where
  queue := h.queue.trans hidle.queue
  saveTimer := h.saveTimer hidle.saveTimer
  old := by
    rw [h.writes, h.generation]
    exact hidle.old

theorem Calm.of_same (h : SameWork w.store w'.store)
    (hempty : Empty w.store → w.load = none ∨ w.folder = none →
      w'.store.index = .empty ∧ w'.store.dirty = false ∧
        (w'.store.saves = [] ∨ w'.store.saves.getLast?.map IndexSave.id =
          w.store.saves.getLast?.map IndexSave.id))
    (hfolder : Empty w.store → w.store.writes = [] → w.store.saves = [] → w.folder = none →
      w'.folder = none)
    (hclears : w'.clears = w.clears ∧ w'.forgotten = w.forgotten) : Calm w w' where
  idle := by
    intro hidle
    refine ⟨h.idle hidle, fun t' ht' => ⟨t', ?_, rfl⟩⟩
    rwa [h.writes] at ht'
  empty := by
    intro hall hload
    obtain ⟨hindex, hdirty, hsaves⟩ := hempty hall hload
    exact ⟨⟨h.idle hall.toIdle, hindex, hdirty⟩, hsaves⟩
  ready := h.ready
  folder := hfolder
  clears := hclears

theorem Calm.of_alike (h : Alike w.store w'.store) (hfolder : w.folder = none → w'.folder = none)
    (hclears : w'.clears = w.clears ∧ w'.forgotten = w.forgotten) : Calm w w' :=
  .of_same h.toSameWork
    (fun hempty _ =>
      ⟨h.index.trans hempty.index, h.dirty.trans hempty.dirty, .inr (by rw [h.saves])⟩)
    (fun _ _ _ hnone => hfolder hnone) hclears

theorem Calm.of_busy (hidle : Idle w.store → False)
    (hready : w.store.ready = true → w'.store.ready = true)
    (hclears : w'.clears = w.clears ∧ w'.forgotten = w.forgotten) : Calm w w' where
  idle := fun h => (hidle h).elim
  empty := fun h _ => (hidle h.toIdle).elim
  ready := hready
  folder := fun h => (hidle h.toIdle).elim
  clears := hclears

/-! ## The load -/

theorem evict_empty (h : s.index = .empty) : s.evict budget = s := by
  simp only [TurnBaseStore.evict, h]
  rfl

theorem calm_finishLoad (h : BasesSound digest sizes budget w) :
    Calm w (w.finishLoad budget) := by
  obtain ⟨index, used, removals, removing, next, heq, -, -, hsub⟩ := evict_spec budget h.store.used
  refine .of_same ?_ ?_ (fun _ _ _ hnone => hnone) ⟨rfl, rfl⟩
  · simp only [TurnBases.finishLoad, heq]
    exact ⟨rfl, id, rfl, rfl, fun _ => rfl⟩
  · intro hempty _
    simp only [TurnBases.finishLoad, evict_empty hempty.index]
    exact ⟨hempty.index, hempty.dirty, .inr trivial⟩

theorem calm_sweep (h : BasesSound digest sizes budget w) (names : List String) :
    Calm w (w.sweep budget names) := by
  simp only [TurnBases.sweep]
  split
  · exact calm_finishLoad h
  · exact .of_alike (.refl _) id ⟨rfl, rfl⟩

theorem Calm.of_removeText {name : String} (h : Calm (w.removeText name) w') : Calm w w' where
  idle := h.idle
  empty := fun hempty hload =>
    h.empty hempty (hload.imp id fun hnone => by simp [TurnBases.removeText, hnone])
  ready := h.ready
  folder := fun hempty hwrites hsaves hnone =>
    h.folder hempty hwrites hsaves (by simp [TurnBases.removeText, hnone])
  clears := h.clears

theorem calm_stepLoad (h : BasesSound digest sizes budget w) {ok : Bool}
    (hstep : w.stepLoad budget ok = some w') : Calm w w' := by
  simp only [TurnBases.stepLoad] at hstep
  split at hstep
  · cases hstep
  · next hload =>
      cases hstep
      have hentries : SavedSound sizes budget
          (if ok = true then (w.folder.bind BaseFolder.saved).getD [] else []) :=
        h.loaded ok
      obtain ⟨index, used, heq, -⟩ := accept_spec _ hentries.1 h.store.used h.store.index
      refine .of_same ?_ ?_ (fun _ _ _ hnone => hnone) ⟨rfl, rfl⟩
      · rw [heq]
        exact ⟨rfl, id, rfl, rfl, id⟩
      · intro hempty hnone
        rw [hload] at hnone
        rcases hnone with hnone | hnone
        · cases hnone
        · simp only [hnone, Option.bind_none, Option.getD_none, ite_self]
          exact ⟨hempty.index, hempty.dirty, .inr rfl⟩
  · cases hstep
    split
    · exact calm_sweep h _
    · exact calm_finishLoad h
  · cases hstep
    exact calm_finishLoad h
  · next name rest hload =>
      cases hstep
      split
      · exact (calm_sweep (h.removeText name) rest).of_removeText
      · exact calm_finishLoad h

/-! ## Writes -/

theorem calm_await {i : Nat} {t : BaseWrite} (ht : w.store.writes[i]? = some t)
    (stage : WriteStage) (f : Option BaseFolder) :
    Calm w ({ w with folder := f }.await i t stage) := by
  have hin : t ∈ w.store.writes := List.mem_of_getElem? ht
  have hold : ∀ t' ∈ w.store.writes.set i { t with stage },
      ∃ old ∈ w.store.writes, old.id = t'.id ∧ old.generation = t'.generation := by
    intro t' ht'
    rcases mem_set ht ht' with heq | hmem
    · rw [heq]
      exact ⟨t, hin, rfl, rfl⟩
    · exact ⟨t', hmem, rfl, rfl⟩
  have hidle : Idle w.store → Idle ({ w with folder := f }.await i t stage).store := by
    intro h
    refine ⟨h.queue, h.saveTimer, fun t' ht' => ?_⟩
    obtain ⟨old, hmem, -, hgeneration⟩ := hold t' ht'
    rw [← hgeneration]
    exact h.old old hmem
  exact {
    idle := by
      intro h
      refine ⟨hidle h, fun t' ht' => ?_⟩
      obtain ⟨old, hmem, hid, -⟩ := hold t' ht'
      exact ⟨old, hmem, hid⟩
    empty := fun h _ => ⟨⟨hidle h.toIdle, h.index, h.dirty⟩, .inr rfl⟩
    ready := id
    folder := by
      intro _ hwrites
      rw [hwrites] at hin
      cases hin
    clears := ⟨rfl, rfl⟩ }

theorem finishWrite_idle (h : s.queue = []) (i : Nat) (name : String) :
    (s.finishWrite i name).queue = [] ∧
      (s.finishWrite i name).writes = s.writes.eraseIdx i := by
  simp only [TurnBaseStore.finishWrite]
  split
  · simp only [TurnBaseStore.pump, TurnBaseStore.wake, h]
    exact ⟨rfl, rfl⟩
  · simp only [TurnBaseStore.pump, TurnBaseStore.wake, h]
    exact ⟨rfl, rfl⟩

theorem calm_finishWrite (i : Nat) (name : String) :
    Calm w { w with store := w.store.finishWrite i name } := by
  obtain ⟨hready, hindex, hgeneration, hdirty, htimer, hsaves⟩ :=
    finishWrite_same (s := w.store) i name
  have hidle : Idle w.store → Idle (w.store.finishWrite i name) := by
    intro h
    obtain ⟨hqueue, hwrites⟩ := finishWrite_idle h.queue i name
    refine ⟨hqueue, htimer.trans h.saveTimer, fun t' ht' => ?_⟩
    rw [hwrites] at ht'
    rw [hgeneration]
    exact h.old t' (List.mem_of_mem_eraseIdx ht')
  exact {
    idle := by
      intro h
      refine ⟨hidle h, fun t' ht' => ⟨t', ?_, rfl⟩⟩
      rw [show ({ w with store := w.store.finishWrite i name } : TurnBases).store.writes =
        w.store.writes.eraseIdx i from (finishWrite_idle h.queue i name).2] at ht'
      exact List.mem_of_mem_eraseIdx ht'
    empty := fun h _ => ⟨⟨hidle h.toIdle, hindex.trans h.index, hdirty.trans h.dirty⟩,
      .inr (by rw [hsaves])⟩
    ready := fun h => hready.trans h
    folder := fun _ _ _ hnone => hnone
    clears := ⟨rfl, rfl⟩ }

theorem busy_of_current {t : BaseWrite} (ht : t ∈ s.writes) (h : ¬ t.generation ≠ s.generation) :
    Idle s → False := fun hidle => h (Nat.ne_of_lt (hidle.old t ht))

theorem evictFrom_ready (entries : List (String × Nat)) :
    (evictFrom budget entries s).ready = s.ready := by
  induction entries generalizing s with
  | nil => rfl
  | cons entry rest ih =>
      simp only [evictFrom]
      split
      · rfl
      · rw [ih]

theorem calm_written {i : Nat} {t : BaseWrite} {held : HeldText}
    (ht : w.store.writes[i]? = some t) : Calm w (w.written budget i t held) := by
  simp only [TurnBases.written]
  split
  · exact calm_await ht .undo _
  · next hgeneration =>
      refine .of_busy (busy_of_current (List.mem_of_getElem? ht) hgeneration) ?_ ⟨rfl, rfl⟩
      intro hready
      exact (evictFrom_ready _).trans hready

theorem calm_stepWrite {i : Nat} {ok : Bool} (hstep : w.stepWrite budget i ok = some w') :
    Calm w w' := by
  simp only [TurnBases.stepWrite] at hstep
  split at hstep
  · cases hstep
  · next t ht =>
      have hsettle : Calm w (w.await i t .settled) := calm_await ht .settled w.folder
      cases hstage : t.stage with
      | ready =>
          simp only [hstage] at hstep
          split at hstep
          · cases hstep
            exact calm_await ht _ w.folder
          · cases hstep
      | removal removal =>
          simp only [hstage] at hstep
          split at hstep
          · cases hstep
          · cases hheld : t.held with
            | none =>
                simp only [hheld] at hstep
                cases hstep
                exact hsettle
            | some held =>
                simp only [hheld] at hstep
                split at hstep
                · cases hstep
                  exact hsettle
                · next hgeneration =>
                    split at hstep
                    · cases hstep
                      exact .of_busy (busy_of_current (List.mem_of_getElem? ht) hgeneration) id
                        ⟨rfl, rfl⟩
                    · cases hstep
                      exact calm_await ht .mkdir w.folder
      | mkdir =>
          simp only [hstage] at hstep
          cases hstep
          split
          · exact calm_await ht .file _
          · exact hsettle
      | file =>
          cases hheld : t.held with
          | none =>
              simp only [hstage, hheld] at hstep
              cases hstep
              exact hsettle
          | some held =>
              simp only [hstage, hheld] at hstep
              cases hstep
              split
              · exact calm_written ht
              · exact hsettle
      | undo =>
          simp only [hstage] at hstep
          cases hstep
          split
          · exact calm_await ht .settled _
          · exact hsettle
      | settled =>
          simp only [hstage] at hstep
          cases hstep
          exact calm_finishWrite i t.sha256

theorem calm_stepRemoval {id : Nat} {ok : Bool} (hstep : w.stepRemoval id ok = some w') :
    Calm w w' := by
  simp only [TurnBases.stepRemoval] at hstep
  split at hstep
  · cases hstep
  · next name hfind =>
      cases hstep
      have halike : ∀ removals removing, Alike w.store { w.store with removals, removing } :=
        fun _ _ => ⟨⟨rfl, fun h => h, rfl, rfl, fun h => h⟩, rfl, rfl, rfl⟩
      cases ok with
      | false => exact .of_alike (halike _ _) (fun hnone => hnone) ⟨rfl, rfl⟩
      | true =>
          refine .of_alike (halike _ _) ?_ ⟨rfl, rfl⟩
          intro hnone
          simp [TurnBases.removeText, hnone]

/-! ## Calls under way -/

theorem calm_stepGet {i : Nat} {ok : Bool} (hstep : w.stepGet digest i ok = some w') :
    Calm w w' := by
  simp only [TurnBases.stepGet] at hstep
  split at hstep
  · cases hstep
  · split at hstep
    · split at hstep
      · cases hstep
        exact .of_alike (.refl _) id ⟨rfl, rfl⟩
      · cases hstep
        exact .of_alike (.refl _) id ⟨rfl, rfl⟩
    · cases hstep
  · next name bytes hget =>
      split at hstep
      · cases hstep
        refine .of_same ?_ ?_ (fun _ _ _ hnone => hnone) ⟨rfl, rfl⟩
        · simp only [TurnBases.answer]
          split <;> exact ⟨rfl, id, rfl, rfl, id⟩
        · intro hempty _
          simp only [TurnBases.answer, hempty.index]
          exact ⟨hempty.index, hempty.dirty, .inr rfl⟩
      · cases hstep
        refine .of_same ?_ ?_ (fun _ _ _ hnone => hnone) ⟨rfl, rfl⟩
        · simp only [TurnBases.answer]
          split <;> exact ⟨rfl, id, rfl, rfl, id⟩
        · intro hempty _
          simp only [TurnBases.answer, hempty.index]
          exact ⟨hempty.index, hempty.dirty, .inr rfl⟩

theorem calm_stepFlush {i : Nat} (hstep : w.stepFlush i = some w') : Calm w w' := by
  simp only [TurnBases.stepFlush] at hstep
  split at hstep
  · cases hstep
  · split at hstep
    · cases hstep
    · cases hstep
      exact .of_alike ⟨⟨rfl, fun _ => rfl, rfl, rfl, id⟩, rfl, rfl, rfl⟩ id ⟨rfl, rfl⟩
  · split at hstep
    · split at hstep
      · next hdirty =>
          cases hstep
          refine .of_same ⟨rfl, id, rfl, rfl, id⟩ ?_ (fun _ _ _ hnone => hnone) ⟨rfl, rfl⟩
          intro hempty _
          rw [hempty.dirty] at hdirty
          cases hdirty
      · cases hstep
        exact .of_alike (.refl _) id ⟨rfl, rfl⟩
    · cases hstep
  · split at hstep
    · cases hstep
    · cases hstep
      exact .of_alike (.refl _) id ⟨rfl, rfl⟩

theorem calm_stepSave {ok : Bool} (hstep : w.stepSave ok = some w') : Calm w w' := by
  simp only [TurnBases.stepSave] at hstep
  split at hstep
  · cases hstep
  · next job rest hsaves =>
      have hdone : ∀ f, Calm w
          { w with store := { w.store with saves := rest }, folder := f } := by
        intro f
        refine .of_same ⟨rfl, id, rfl, rfl, id⟩ ?_ ?_ ⟨rfl, rfl⟩
        · intro hempty _
          refine ⟨hempty.index, hempty.dirty, ?_⟩
          cases rest with
          | nil => exact .inl rfl
          | cons job' rest =>
              rw [hsaves, List.getLast?_cons_cons]
              exact .inr rfl
        · intro _ _ hnone
          rw [hsaves] at hnone
          cases hnone
      have hawait : ∀ stage f, Calm w { w with
          store := { w.store with saves := { job with stage } :: rest }, folder := f } := by
        intro stage f
        refine .of_same ⟨rfl, id, rfl, rfl, id⟩ ?_ ?_ ⟨rfl, rfl⟩
        · intro hempty _
          refine ⟨hempty.index, hempty.dirty, .inr ?_⟩
          rw [hsaves]
          cases rest with
          | nil => rfl
          | cons job' rest => rw [List.getLast?_cons_cons, List.getLast?_cons_cons]
        · intro _ _ hnone
          rw [hsaves] at hnone
          cases hnone
      cases hstep
      split
      · split
        · exact hdone w.folder
        · exact hawait .mkdir w.folder
      · split
        · exact hawait .file _
        · exact hdone w.folder
      · split
        · exact hdone _
        · exact hdone w.folder

/-! ## Sign-outs under way -/

/-- How far a sign-out is, as long as nothing is put. -/
def ClearSound (w : TurnBases) (c : BaseClear) : Prop :=
  c.noPut = true → Idle w.store ∧ match c.stage with
    | .ready ids => ∀ t ∈ w.store.writes, t.id ∈ ids
    | .writing ids =>
        (Empty w.store ∧ w.store.ready = true) ∧ ∀ t ∈ w.store.writes, t.id ∈ ids
    | .removals _ => (Empty w.store ∧ w.store.ready = true) ∧ w.store.writes = []
    | .saveTail save => (Empty w.store ∧ w.store.ready = true) ∧ w.store.writes = [] ∧
        (w.store.saves = [] ∨ save = w.store.saves.getLast?.map IndexSave.id)
    | .folder =>
        (Empty w.store ∧ w.store.ready = true) ∧ w.store.writes = [] ∧ w.store.saves = []

structure Forgets (w : TurnBases) : Prop where
  clears : ∀ c ∈ w.clears, ClearSound w c
  forgotten : w.forgotten = true →
    Empty w.store ∧ w.store.writes = [] ∧ w.store.saves = [] ∧ w.folder = none

theorem Calm.writes (h : Calm w w') (hidle : Idle w.store) (hwrites : w.store.writes = []) :
    w'.store.writes = [] := by
  rw [List.eq_nil_iff_forall_not_mem]
  intro t' ht'
  obtain ⟨t, ht, -⟩ := (h.idle hidle).2 t' ht'
  rw [hwrites] at ht
  cases ht

theorem Calm.saves (h : Calm w w') (hempty : Empty w.store)
    (hload : w.load = none ∨ w.folder = none) (hsaves : w.store.saves = []) :
    w'.store.saves = [] := by
  rcases (h.empty hempty hload).2 with hnone | hsame
  · exact hnone
  · rw [hsaves, List.getLast?_nil, Option.map_none, Option.map_eq_none_iff,
      List.getLast?_eq_none_iff] at hsame
    exact hsame

theorem ClearSound.calm {c : BaseClear} (h : ClearSound w c) (hcalm : Calm w w')
    (hbases : BasesSound digest sizes budget w) : ClearSound w' c := by
  intro hput
  obtain ⟨hidle, hstage⟩ := h hput
  obtain ⟨hidle', hwrites⟩ := hcalm.idle hidle
  have hids : ∀ ids : List Nat, (∀ t ∈ w.store.writes, t.id ∈ ids) →
      ∀ t' ∈ w'.store.writes, t'.id ∈ ids := by
    intro ids hall t' ht'
    obtain ⟨t, ht, hid⟩ := hwrites t' ht'
    rw [← hid]
    exact hall t ht
  have hload : w.store.ready = true → w.load = none := by
    intro hready
    rwa [hbases.ready, Option.isNone_iff_eq_none] at hready
  have hempty : Empty w.store ∧ w.store.ready = true →
      Empty w'.store ∧ w'.store.ready = true := fun h =>
    ⟨(hcalm.empty h.1 (.inl (hload h.2))).1, hcalm.ready h.2⟩
  refine ⟨hidle', ?_⟩
  cases hc : c.stage with
  | ready ids =>
      rw [hc] at hstage
      exact hids ids hstage
  | writing ids =>
      rw [hc] at hstage
      exact ⟨hempty hstage.1, hids ids hstage.2⟩
  | removals ids =>
      rw [hc] at hstage
      exact ⟨hempty hstage.1, hcalm.writes hidle hstage.2⟩
  | saveTail save =>
      rw [hc] at hstage
      obtain ⟨hall, hnone, hsaves⟩ := hstage
      refine ⟨hempty hall, hcalm.writes hidle hnone, ?_⟩
      rcases (hcalm.empty hall.1 (.inl (hload hall.2))).2 with hsaves' | hsame
      · exact .inl hsaves'
      · rcases hsaves with hsaves | hlast
        · exact .inl (hcalm.saves hall.1 (.inl (hload hall.2)) hsaves)
        · exact .inr (hlast.trans hsame.symm)
  | folder =>
      rw [hc] at hstage
      obtain ⟨hall, hnone, hsaves⟩ := hstage
      exact ⟨hempty hall, hcalm.writes hidle hnone,
        hcalm.saves hall.1 (.inl (hload hall.2)) hsaves⟩

theorem Forgets.calm (h : Forgets w) (hcalm : Calm w w')
    (hbases : BasesSound digest sizes budget w) : Forgets w' where
  clears := by
    intro c hc
    rw [hcalm.clears.1] at hc
    exact (h.clears c hc).calm hcalm hbases
  forgotten := by
    intro hforgotten
    rw [hcalm.clears.2] at hforgotten
    obtain ⟨hempty, hwrites, hsaves, hfolder⟩ := h.forgotten hforgotten
    exact ⟨(hcalm.empty hempty (.inr hfolder)).1, hcalm.writes hempty.toIdle hwrites,
      hcalm.saves hempty (.inr hfolder) hsaves, hcalm.folder hempty hwrites hsaves hfolder⟩

theorem mem_setClear {i : Nat} {c other : BaseClear} {stage : ClearStage}
    (h : other ∈ (w.setClear i c stage).clears) : other ∈ w.clears ∨ other = { c with stage } :=
  List.mem_or_eq_of_mem_set h

theorem Forgets.setClear (h : Forgets w) {i : Nat} {c : BaseClear} {stage : ClearStage}
    (hc : ClearSound w { c with stage }) : Forgets (w.setClear i c stage) where
  clears := by
    intro other hother
    rcases mem_setClear hother with hold | hnew
    · exact h.clears other hold
    · rw [hnew]
      exact hc
  forgotten := h.forgotten

theorem calm_forget : Calm w { w with store := w.store.forget } := by
  refine .of_same ⟨rfl, id, rfl, rfl, id⟩ ?_ (fun _ _ _ hnone => hnone) ⟨rfl, rfl⟩
  intro hempty _
  exact ⟨rfl, rfl, .inr rfl⟩

theorem Forgets.stepClear (h : Forgets w) (hbases : BasesSound digest sizes budget w) {i : Nat}
    {ok : Bool} (hstep : w.stepClear i ok = some w') : Forgets w' := by
  simp only [TurnBases.stepClear] at hstep
  split at hstep
  · cases hstep
  · next c hc =>
      have hin : c ∈ w.clears := List.mem_of_getElem? hc
      have hsound := h.clears c hin
      cases hstage : c.stage with
      | ready ids =>
          simp only [hstage] at hstep
          split at hstep
          · next hready =>
              cases hstep
              refine (h.calm calm_forget hbases).setClear fun hput => ?_
              obtain ⟨hidle, hids⟩ := hsound hput
              rw [hstage] at hids
              have hidle' := (calm_forget.idle hidle).1
              exact ⟨hidle', ⟨⟨hidle', rfl, rfl⟩, hready⟩, hids⟩
          · cases hstep
      | writing ids =>
          simp only [hstage] at hstep
          split at hstep
          · cases hstep
          · next hdone =>
              cases hstep
              refine h.setClear fun hput => ?_
              obtain ⟨hidle, hall⟩ := hsound hput
              rw [hstage] at hall
              refine ⟨hidle, hall.1, ?_⟩
              rw [List.eq_nil_iff_forall_not_mem]
              intro t ht
              exact hdone ⟨t.id, hall.2 t ht, List.mem_map_of_mem ht⟩
      | removals ids =>
          simp only [hstage] at hstep
          split at hstep
          · cases hstep
          · cases hstep
            refine h.setClear fun hput => ?_
            obtain ⟨hidle, hall⟩ := hsound hput
            rw [hstage] at hall
            exact ⟨hidle, hall.1, hall.2, .inr rfl⟩
      | saveTail save =>
          simp only [hstage] at hstep
          split at hstep
          · cases hstep
          · next hdone =>
              cases hstep
              refine h.setClear fun hput => ?_
              obtain ⟨hidle, hall⟩ := hsound hput
              rw [hstage] at hall
              refine ⟨hidle, hall.1, hall.2.1, ?_⟩
              rcases hall.2.2 with hsaves | hlast
              · exact hsaves
              · cases hjob : w.store.saves.getLast? with
                | none => exact List.getLast?_eq_none_iff.mp hjob
                | some job =>
                    refine absurd ⟨job.id, ?_, List.mem_map_of_mem (List.mem_of_getLast? hjob)⟩
                      hdone
                    rw [hlast, hjob]
                    rfl
      | folder =>
          simp only [hstage] at hstep
          cases hstep
          have hclears : ∀ other ∈ w.clears.eraseIdx i, ClearSound w other :=
            fun other hother => h.clears other (List.mem_of_mem_eraseIdx hother)
          cases ok with
          | false => exact ⟨hclears, h.forgotten⟩
          | true =>
              refine ⟨hclears, fun hforgotten => ?_⟩
              rcases Bool.or_eq_true_iff.mp hforgotten with hbefore | hput
              · obtain ⟨hempty, hwrites, hsaves, -⟩ := h.forgotten hbefore
                exact ⟨hempty, hwrites, hsaves, rfl⟩
              · obtain ⟨hidle, hall⟩ := hsound hput
                rw [hstage] at hall
                exact ⟨hall.1.1, hall.2.1, hall.2.2, rfl⟩

theorem forgets_new (folder : Option BaseFolder) : Forgets (TurnBases.new folder) :=
  ⟨nofun, nofun⟩

theorem calm_beginClear (hbases : BasesSound digest sizes budget w) :
    Calm w { w with store := w.store.beginClear } ∧ Idle w.store.beginClear := by
  have hidle : Idle w.store.beginClear :=
    ⟨rfl, rfl, fun t ht => Nat.lt_succ_of_le (hbases.store.generations t ht)⟩
  refine ⟨⟨fun _ => ⟨hidle, fun t ht => ⟨t, ht, rfl⟩⟩, fun h _ => ?_, id, fun _ _ _ h => h,
    ⟨rfl, rfl⟩⟩, hidle⟩
  exact ⟨⟨hidle, h.index, h.dirty⟩, .inr rfl⟩

theorem Forgets.step {act : BaseAct} (h : Forgets w) (hbases : BasesSound digest sizes budget w)
    (hstep : w.step digest budget act = some w') : Forgets w' := by
  cases act with
  | put name text bytes =>
      cases hstep
      refine ⟨fun c hc hput => ?_, fun hforgotten => by cases hforgotten⟩
      obtain ⟨old, -, rfl⟩ := List.mem_map.mp hc
      cases hput
  | has name =>
      cases hstep
      exact h
  | writable =>
      cases hstep
      refine h.calm (.of_alike ?_ (fun hnone => hnone) ⟨rfl, rfl⟩) hbases
      simp only [TurnBaseStore.writable]
      split <;> exact ⟨⟨rfl, id, rfl, rfl, id⟩, rfl, rfl, rfl⟩
  | get name =>
      cases hstep
      refine h.calm ?_ hbases
      simp only [TurnBases.get]
      split <;> exact .of_alike (.refl _) (fun hnone => hnone) ⟨rfl, rfl⟩
  | flush =>
      cases hstep
      have halike : Alike w.store (w.store.below 0) :=
        ⟨⟨rfl, id, rfl, rfl, id⟩, rfl, rfl, rfl⟩
      exact h.calm (.of_alike halike (fun hnone => hnone) ⟨rfl, rfl⟩) hbases
  | clear =>
      cases hstep
      obtain ⟨hcalm, hidle⟩ := calm_beginClear hbases
      have hafter := h.calm hcalm hbases
      refine ⟨fun c hc => ?_, hafter.forgotten⟩
      rcases List.mem_append.mp hc with hold | hnew
      · exact hafter.clears c hold
      · rw [List.mem_singleton.mp hnew]
        exact fun _ => ⟨hidle, fun t ht => List.mem_map_of_mem ht⟩
  | load ok => exact h.calm (calm_stepLoad hbases hstep) hbases
  | write i ok => exact h.calm (calm_stepWrite hstep) hbases
  | removal id ok => exact h.calm (calm_stepRemoval hstep) hbases
  | read i ok => exact h.calm (calm_stepGet hstep) hbases
  | flushed i => exact h.calm (calm_stepFlush hstep) hbases
  | cleared i ok => exact h.stepClear hbases hstep
  | saved ok => exact h.calm (calm_stepSave hstep) hbases
  | timer =>
      simp only [TurnBases.step] at hstep
      split at hstep
      · next htimer =>
          cases hstep
          refine h.calm (.of_busy (fun hidle => ?_) id ⟨rfl, rfl⟩) hbases
          rw [hidle.saveTimer] at htimer
          cases htimer
      · cases hstep
  | restart =>
      cases hstep
      refine ⟨fun c hc => (by cases hc), fun hforgotten => ?_⟩
      obtain ⟨-, -, -, hfolder⟩ := h.forgotten hforgotten
      exact ⟨⟨⟨rfl, rfl, fun t ht => by cases ht⟩, rfl, rfl⟩, rfl, rfl, hfolder⟩
  | change name text =>
      cases hstep
      refine h.calm (.of_alike (.refl _) (fun hnone => ?_) ⟨rfl, rfl⟩) hbases
      simp [hnone]

/-! ## Runs -/

/-- In every run whose puts are clean the accounts are right and within the budget, a text that is
read back has its digest, no one waits while no write is under way, and after a sign-out nothing
is left. -/
theorem bases_sound {folder : Option BaseFolder}
    (hsaved : ∀ f entries, folder = some f → f.saved = some entries →
      SavedSound sizes budget entries)
    (hrun : Reach (TurnBases.step digest budget) (CleanPut digest sizes) (TurnBases.new folder) w) :
    w.store.used = w.store.index.total id ∧ w.store.used ≤ budget ∧
      w.store.pendingBytes = w.store.pending.total HeldText.bytes ∧
      (∀ name text, (name, some text) ∈ w.answers → digest text = name) ∧
      (∀ waiter ∈ w.store.waiters, w.store.writes ≠ [] ∧ waiter.limit ≤ w.store.pendingBytes) ∧
      (w.forgotten = true → w.store.index = .empty ∧ w.folder = none) := by
  have hboth : BasesSound digest sizes budget w ∧ Forgets w := by
    refine hrun.invariant (I := fun w => BasesSound digest sizes budget w ∧ Forgets w) ?_
      ⟨basesSound_new hsaved, forgets_new folder⟩
    intro w act w' hw hclean hstep
    exact ⟨hw.1.step hclean hstep, hw.2.step hw.1 hstep⟩
  obtain ⟨hbases, hforgets⟩ := hboth
  refine ⟨hbases.store.used, hbases.store.cap, hbases.store.pendingBytes,
    fun name text hin => hbases.answers _ hin text rfl, fun waiter hin => ?_, fun hforgotten => ?_⟩
  · have hless := hbases.store.waiters waiter hin
    have hactive := hbases.store.active
    have hbusy := hbases.store.busy
    simp only [outstanding] at hless
    split at hless
    · next hwork =>
        refine ⟨?_, by omega⟩
        intro hnone
        rw [hnone] at hactive
        rcases hwork with hpos | hqueue
        · exact absurd hactive (Nat.ne_of_gt hpos)
        · have hfull := hbusy hqueue
          rw [hactive] at hfull
          cases hfull
    · omega
  · obtain ⟨hempty, -, -, hfolder⟩ := hforgets.forgotten hforgotten
    exact ⟨hempty.index, hfolder⟩

/-- The digest of the one text of the runs below. -/
def digestOfX : String := "2d711642b726b04401627ca9fbac32f5c8530fb1903cc4db02258717921a4881"

instance (w : TurnBases) (act : BaseAct) : Decidable (CleanPut digest sizes w act) := by
  cases act with
  | put name text bytes => exact inferInstanceAs (Decidable (_ ∧ _ ∧ (_ → _ ∉ _)))
  | _ => exact inferInstanceAs (Decidable True)

/-- A text is put, written and saved, read back after a restart, and forgotten. -/
theorem bases_sound_forgotten : ∃ w : TurnBases,
    w.forgotten = true ∧ w.answers = [(digestOfX, some "x")] ∧
      (w.store.used = w.store.index.total id ∧ w.store.used ≤ (100 : Nat) ∧
        w.store.pendingBytes = w.store.pending.total HeldText.bytes ∧
        (∀ name text, (name, some text) ∈ w.answers → digestOfX = name) ∧
        (∀ waiter ∈ w.store.waiters,
          w.store.writes ≠ [] ∧ waiter.limit ≤ w.store.pendingBytes) ∧
        (w.forgotten = true → w.store.index = .empty ∧ w.folder = none)) := by
  have hrun : (runActions
      (fun w act =>
        if CleanPut (fun _ => digestOfX) (fun _ => 1) w act
        then TurnBases.step (fun _ => digestOfX) 100 w act else none)
      [.put digestOfX "x" 1, .load true, .load true, .write 0 true, .write 0 true, .write 0 true,
        .write 0 true, .write 0 true, .timer, .saved true, .saved true, .saved true, .restart,
        .load true, .load true, .get digestOfX, .read 0 true, .read 0 true, .clear,
        .cleared 0 true, .cleared 0 true, .cleared 0 true, .cleared 0 true, .cleared 0 true]
      (TurnBases.new none)).any
        (fun w => w.forgotten && w.answers = [(digestOfX, some "x")]) = true := by
    decide +kernel
  obtain ⟨w, hw, hstate⟩ := exists_of_any hrun
  simp only [Bool.and_eq_true, decide_eq_true_eq] at hstate
  have hnone : ∀ f entries, (none : Option BaseFolder) = some f → f.saved = some entries →
      SavedSound (fun _ => 1) 100 entries := by
    intro f entries hf
    cases hf
  exact ⟨w, hstate.1, hstate.2, bases_sound hnone (reach_of_checked hw).1⟩

/-- A text that is put while a sign-out waits for the index, and again before it is written. -/
def countedTwice : List BaseAct :=
  [.clear, .put digestOfX "x" 1, .load true, .load true, .cleared 0 true, .put digestOfX "x" 1,
    .write 0 true, .write 1 true, .write 0 true, .write 1 true, .write 0 true, .write 1 true,
    .write 0 true, .write 1 true, .write 0 true, .write 0 true]

theorem bases_counted_twice :
    ∃ w, runActions (TurnBases.step (fun _ => digestOfX) 100) countedTwice
        (TurnBases.new none) = some w ∧ w.store.writes = [] ∧ w.store.used = 2 ∧
      w.store.index.total id = 1 := by
  have hrun : (runActions (TurnBases.step (fun _ => digestOfX) 100) countedTwice
      (TurnBases.new none)).any (fun w => w.store.writes = [] && w.store.used = 2 &&
        w.store.index.total id = 1) = true := by decide +kernel
  obtain ⟨w, hw, hstate⟩ := exists_of_any hrun
  simp only [Bool.and_eq_true, decide_eq_true_eq] at hstate
  exact ⟨w, hw, hstate.1.1, hstate.1.2, hstate.2⟩

end

end OmniRush.Server
