import OmniRush.Proofs.BaseStore

/-!
# The accounts from step to step

What a step of the store at work keeps (`BasesSound.step`): the accounts, the sizes that are read
back, and the index on disk. Every act but a put is free; a put must be of a text with its digest
and size, and not of a digest for which a write is under way that is no longer pending.
-/

namespace OmniRush.Server

open TurnBaseStore

/-- A put of a text under its digest, with its size. If the digest is not pending there is no
write of it either that may still set it in the index. -/
def CleanPut (digest : String → String) (sizes : String → Nat) (w : TurnBases) : BaseAct → Prop
  | .put name text bytes => digest text = name ∧ bytes = sizes name ∧
      (w.store.pending.get name = none →
        name ∉ live w.store.generation w.store.writes ++ w.store.queue)
  | _ => True

structure BasesSound (digest : String → String) (sizes : String → Nat) (budget : Nat)
    (w : TurnBases) : Prop where
  store : StoreSound digest sizes budget w.store
  gets : ∀ g ∈ w.gets, ∀ bytes, g.reading = some bytes → bytes = sizes g.sha256
  answers : ∀ entry ∈ w.answers, ∀ text, entry.2 = some text → digest text = entry.1
  saved : ∀ f entries, w.folder = some f → f.saved = some entries →
    SavedSound sizes budget entries
  ready : w.store.ready = w.load.isNone
  loading : w.load = some .index → w.store.index = .empty

section

variable {digest : String → String} {sizes : String → Nat} {budget : Nat} {w w' : TurnBases}

theorem basesSound_new {folder : Option BaseFolder}
    (hsaved : ∀ f entries, folder = some f → f.saved = some entries →
      SavedSound sizes budget entries) :
    BasesSound digest sizes budget (TurnBases.new folder) where
  store := storeSound_new
  gets := nofun
  answers := nofun
  saved := hsaved
  ready := rfl
  loading := fun _ => rfl

/-! ## Texts on disk -/

theorem BasesSound.removeText (h : BasesSound digest sizes budget w) (name : String) :
    BasesSound digest sizes budget (w.removeText name) :=
  { h with
    saved := by
      intro f entries hf hentries
      obtain ⟨old, hold, rfl⟩ := Option.map_eq_some_iff.mp hf
      exact h.saved old entries hold hentries }

theorem saved_getD (h : BasesSound digest sizes budget w) (texts : Record String) (f : BaseFolder)
    (entries : List (String × Int))
    (hf : some { (w.folder.getD .new) with texts := texts } = some f)
    (hentries : f.saved = some entries) : SavedSound sizes budget entries := by
  cases hf
  cases hfolder : w.folder with
  | none =>
      rw [hfolder] at hentries
      cases hentries
  | some old =>
      rw [hfolder] at hentries
      exact h.saved old entries hfolder hentries

/-! ## The load -/

theorem BasesSound.finishLoad (h : BasesSound digest sizes budget w) :
    BasesSound digest sizes budget (w.finishLoad budget) :=
  { h with
    store := h.store.finishLoad
    ready := rfl
    loading := nofun }

theorem BasesSound.sweep (h : BasesSound digest sizes budget w) (hload : w.load.isNone = false)
    (names : List String) : BasesSound digest sizes budget (w.sweep budget names) := by
  simp only [TurnBases.sweep]
  split
  · exact h.finishLoad
  · exact { h with
      ready := h.ready.trans hload
      loading := nofun }

theorem BasesSound.loaded (h : BasesSound digest sizes budget w) (ok : Bool) :
    SavedSound sizes budget
      (if ok = true then (w.folder.bind BaseFolder.saved).getD [] else []) := by
  have hnone : SavedSound sizes budget [] := ⟨nofun, Int.natCast_nonneg _⟩
  split
  · cases hfolder : w.folder with
    | none => exact hnone
    | some f =>
        cases hsaved : f.saved with
        | none => simpa [hsaved] using hnone
        | some entries => simpa [hsaved] using h.saved f entries hfolder hsaved
  · exact hnone

theorem BasesSound.stepLoad (h : BasesSound digest sizes budget w) {ok : Bool}
    (hstep : w.stepLoad budget ok = some w') : BasesSound digest sizes budget w' := by
  simp only [TurnBases.stepLoad] at hstep
  split at hstep
  · cases hstep
  · next hload =>
      cases hstep
      have hready : w.store.ready = false := h.ready.trans (by rw [hload]; rfl)
      have hentries := h.loaded ok
      have hstore := h.store.accept (h.loading hload) hready hentries
      exact { h with
        store := hstore
        ready := by
          obtain ⟨index, used, heq, -⟩ := accept_spec _ hentries.1 h.store.used h.store.index
          show (accept _ w.store).ready = false
          rw [heq]
          exact hready
        loading := nofun }
  · next hload =>
      cases hstep
      split
      · exact h.sweep (by rw [hload]; rfl) _
      · exact h.finishLoad
  · cases hstep
    exact h.finishLoad
  · next name rest hload =>
      cases hstep
      split
      · refine (h.removeText name).sweep ?_ rest
        show w.load.isNone = false
        rw [hload]
        rfl
      · exact h.finishLoad

/-! ## Writes -/

theorem BasesSound.await (h : BasesSound digest sizes budget w) {i : Nat} {t : BaseWrite}
    (ht : w.store.writes[i]? = some t) (hready : w.store.ready = true)
    (hstage : t.stage ≠ .settled) (stage : WriteStage)
    (habsent : stage = .mkdir ∨ stage = .file → isLive w.store.generation t = true →
      w.store.index.get t.sha256 = none) :
    BasesSound digest sizes budget (w.await i t stage) :=
  { h with store := h.store.setStage ht hready hstage stage habsent }

theorem BasesSound.settle (h : BasesSound digest sizes budget w) {i : Nat} {t : BaseWrite}
    (ht : w.store.writes[i]? = some t) (hready : w.store.ready = true)
    (hstage : t.stage ≠ .settled) : BasesSound digest sizes budget (w.await i t .settled) :=
  h.await ht hready hstage .settled nofun

theorem BasesSound.written (h : BasesSound digest sizes budget w) {i : Nat} {t : BaseWrite}
    {held : HeldText} (ht : w.store.writes[i]? = some t) (hready : w.store.ready = true)
    (hheld : t.held = some held) (hstage : t.stage = .file) :
    BasesSound digest sizes budget (w.written budget i t held) := by
  have hfolder : BasesSound digest sizes budget { w with
      folder := some { (w.folder.getD .new) with
        texts := (w.folder.getD .new).texts.set t.sha256 held.text } } :=
    { h with saved := saved_getD h _ }
  simp only [TurnBases.written]
  split
  · exact hfolder.await ht hready (by simp [hstage]) .undo nofun
  · next hgeneration =>
      rw [Decidable.not_not] at hgeneration
      obtain ⟨index, used, removals, removing, next, heq, -⟩ := evict_spec budget
        (s := { w.store with
          index := w.store.index.set t.sha256 held.bytes
          used := w.store.used + held.bytes, dirty := true }) (by
          have hnone := h.store.absent t (List.mem_of_getElem? ht)
            (by simp [isLive, hgeneration, hstage]) (.inr hstage)
          show w.store.used + held.bytes =
            ((w.store.index.set t.sha256 held.bytes).total id : Nat)
          rw [Record.total_set_new hnone, h.store.used]
          rfl)
      have hstore := h.store.written ht hready hheld hstage hgeneration
      rw [heq] at hstore
      simp only [TurnBases.await, heq]
      exact { hfolder with
        store := hstore
        loading := by
          intro hload
          rw [h.ready, show w.load = some .index from hload] at hready
          cases hready }

theorem BasesSound.stepWrite (h : BasesSound digest sizes budget w) {i : Nat} {ok : Bool}
    (hstep : w.stepWrite budget i ok = some w') : BasesSound digest sizes budget w' := by
  simp only [TurnBases.stepWrite] at hstep
  split at hstep
  · cases hstep
  · next t ht =>
      have hin := List.mem_of_getElem? ht
      have hready : t.stage ≠ .ready → w.store.ready = true := by
        intro hstage
        by_contra hnot
        exact hstage (h.store.loading (Bool.eq_false_iff.mpr hnot) t hin)
      cases hstage : t.stage with
      | ready =>
          simp only [hstage] at hstep
          split at hstep
          · next hstart =>
              cases hstep
              exact h.await ht hstart (by simp [hstage]) _ nofun
          · cases hstep
      | removal removal =>
          have hstart := hready (by simp [hstage])
          have hopen : t.stage ≠ .settled := by simp [hstage]
          simp only [hstage] at hstep
          split at hstep
          · cases hstep
          · cases hheld : t.held with
            | none =>
                simp only [hheld] at hstep
                cases hstep
                exact h.settle ht hstart hopen
            | some held =>
                simp only [hheld] at hstep
                split at hstep
                · cases hstep
                  exact h.settle ht hstart hopen
                · split at hstep
                  · next hhas =>
                      cases hstep
                      have htouch : BasesSound digest sizes budget
                          { w with store := w.store.touch t.sha256 held.bytes } :=
                        { h with
                          store := h.store.touch hhas (h.store.writes t hin held hheld)
                          loading := by
                            intro hload
                            rw [h.ready, show w.load = some .index from hload] at hstart
                            cases hstart }
                      exact htouch.settle ht hstart hopen
                  · next hhas =>
                      cases hstep
                      refine h.await ht hstart hopen .mkdir fun _ _ => ?_
                      simpa using hhas
      | mkdir =>
          have hstart := hready (by simp [hstage])
          have hopen : t.stage ≠ .settled := by simp [hstage]
          simp only [hstage] at hstep
          cases hstep
          split
          · have hfolder : BasesSound digest sizes budget
                { w with folder := some (w.folder.getD .new) } :=
              { h with saved := saved_getD h _ }
            exact hfolder.await ht hstart hopen .file fun _ hlive =>
              h.store.absent t hin hlive (.inl hstage)
          · exact h.settle ht hstart hopen
      | file =>
          have hstart := hready (by simp [hstage])
          have hopen : t.stage ≠ .settled := by simp [hstage]
          cases hheld : t.held with
          | none =>
              simp only [hstage, hheld] at hstep
              cases hstep
              exact h.settle ht hstart hopen
          | some held =>
              simp only [hstage, hheld] at hstep
              cases hstep
              split
              · exact h.written ht hstart hheld hstage
              · exact h.settle ht hstart hopen
      | undo =>
          have hstart := hready (by simp [hstage])
          have hopen : t.stage ≠ .settled := by simp [hstage]
          simp only [hstage] at hstep
          cases hstep
          split
          · exact (h.removeText t.sha256).settle ht hstart hopen
          · exact h.settle ht hstart hopen
      | settled =>
          simp only [hstage] at hstep
          cases hstep
          obtain ⟨hsame, hindex, -⟩ := finishWrite_same (s := w.store) i t.sha256
          exact { h with
            store := h.store.finishWrite ht
            ready := hsame.trans h.ready
            loading := fun hload => hindex.trans (h.loading hload) }

theorem BasesSound.stepRemoval (h : BasesSound digest sizes budget w) {id : Nat} {ok : Bool}
    (hstep : w.stepRemoval id ok = some w') : BasesSound digest sizes budget w' := by
  simp only [TurnBases.stepRemoval] at hstep
  split at hstep
  · cases hstep
  · next name hfind =>
      cases hstep
      cases ok with
      | false => exact { h with store := { h.store with } }
      | true =>
          have hremoved := h.removeText name
          exact { hremoved with store := { h.store with } }

/-! ## Calls under way -/

theorem BasesSound.answer (h : BasesSound digest sizes budget w) (i : Nat) {name : String}
    {text : Option String} (htext : ∀ t, text = some t → digest t = name) :
    BasesSound digest sizes budget (w.answer i name text) :=
  { h with
    gets := fun g hg => h.gets g (List.mem_of_mem_eraseIdx hg)
    answers := by
      intro entry hentry t ht
      rcases List.mem_append.mp hentry with hold | hnew
      · exact h.answers entry hold t ht
      · rw [List.mem_singleton.mp hnew] at ht ⊢
        exact htext t ht }

theorem StoreSound.drop {s : TurnBaseStore} (h : StoreSound digest sizes budget s) {name : String}
    {bytes : Nat} (hget : s.index.get name = some bytes) :
    StoreSound digest sizes budget
      { s with index := s.index.delete name, used := s.used - bytes } := by
  have htotal := Record.total_delete (f := id) hget
  have hused := h.used
  have hcap := h.cap
  simp only [id_eq] at htotal
  exact { h with
    used := by
      show s.used - bytes = ((s.index.delete name).total id : Nat)
      omega
    cap := by
      show s.used - bytes ≤ budget
      omega
    index := by
      intro n b hb
      rw [Record.get_delete] at hb
      split at hb
      · cases hb
      · exact h.index n b hb
    absent := by
      intro t ht hlive hstage
      rw [Record.get_delete]
      split
      · rfl
      · exact h.absent t ht hlive hstage }

theorem BasesSound.stepGet (h : BasesSound digest sizes budget w) {i : Nat} {ok : Bool}
    (hstep : w.stepGet digest i ok = some w') : BasesSound digest sizes budget w' := by
  simp only [TurnBases.stepGet] at hstep
  split at hstep
  · cases hstep
  · next name hget =>
      split at hstep
      · split at hstep
        · cases hstep
          exact h.answer i nofun
        · next bytes hbytes =>
            cases hstep
            exact { h with
              gets := by
                intro g hg b hb
                rcases List.mem_or_eq_of_mem_set hg with hold | hnew
                · exact h.gets g hold b hb
                · rw [hnew] at hb ⊢
                  cases hb
                  exact h.store.index name bytes hbytes }
      · cases hstep
  · next name bytes hget =>
      have hbytes := h.gets _ (List.mem_of_getElem? hget) bytes rfl
      split at hstep
      · next text hread =>
          cases hstep
          have htext : digest text = name := by
            simpa using (Option.filter_eq_some_iff.mp hread).2
          have htouch : BasesSound digest sizes budget { w with
              store := if (w.store.index.get name).isSome = true
                then w.store.touch name bytes else w.store } := by
            split
            · next hin =>
                exact { h with
                  store := h.store.touch hin hbytes
                  loading := by
                    intro hload
                    rw [h.loading hload] at hin
                    cases hin }
            · exact h
          refine htouch.answer i fun t ht => ?_
          cases ht
          exact htext
      · cases hstep
        have hdrop : BasesSound digest sizes budget { w with
            store := if w.store.index.get name = some bytes then
              { w.store with
                index := w.store.index.delete name, used := w.store.used - bytes }
              else w.store } := by
          split
          · next hin =>
              exact { h with
                store := h.store.drop hin
                loading := by
                  intro hload
                  rw [h.loading hload] at hin
                  cases hin }
          · exact h
        exact hdrop.answer i nofun

theorem BasesSound.stepFlush (h : BasesSound digest sizes budget w) {i : Nat}
    (hstep : w.stepFlush i = some w') : BasesSound digest sizes budget w' := by
  simp only [TurnBases.stepFlush] at hstep
  split at hstep
  · cases hstep
  · split at hstep
    · cases hstep
    · cases hstep
      exact { h with store := { h.store with } }
  · split at hstep
    · split at hstep
      · cases hstep
        exact { h with store := h.store.save }
      · cases hstep
        exact { h with }
    · cases hstep
  · split at hstep
    · cases hstep
    · cases hstep
      exact { h with }

theorem BasesSound.stepClear (h : BasesSound digest sizes budget w) {i : Nat} {ok : Bool}
    (hstep : w.stepClear i ok = some w') : BasesSound digest sizes budget w' := by
  simp only [TurnBases.stepClear] at hstep
  split at hstep
  · cases hstep
  · next c hc =>
      split at hstep
      · split at hstep
        · cases hstep
          exact { h with
            store := h.store.forget
            loading := fun _ => rfl }
        · cases hstep
      · split at hstep
        · cases hstep
        · cases hstep
          exact { h with }
      · split at hstep
        · cases hstep
        · cases hstep
          exact { h with }
      · split at hstep
        · cases hstep
        · cases hstep
          exact { h with }
      · cases hstep
        split
        · exact { h with saved := nofun }
        · exact { h with }

theorem BasesSound.stepSave (h : BasesSound digest sizes budget w) {ok : Bool}
    (hstep : w.stepSave ok = some w') : BasesSound digest sizes budget w' := by
  simp only [TurnBases.stepSave] at hstep
  split at hstep
  · cases hstep
  · next job rest hsaves =>
      have hjob := h.store.saves job (by rw [hsaves]; exact List.mem_cons_self)
      have hrest : ∀ other ∈ rest, SavedSound sizes budget
          (other.index.map fun entry => (entry.1, (entry.2 : Int))) :=
        fun other hother => h.store.saves other (by rw [hsaves]; exact .tail _ hother)
      have hdone : BasesSound digest sizes budget
          { w with store := { w.store with saves := rest } } :=
        { h with store := { h.store with saves := hrest } }
      have hawait : ∀ stage, BasesSound digest sizes budget
          { w with store := { w.store with saves := { job with stage } :: rest } } :=
        fun stage => { h with
          store := { h.store with
            saves := by
              intro other hother
              rcases List.mem_cons.mp hother with heq | hother
              · rw [heq]
                exact hjob
              · exact hrest other hother } }
      cases hstep
      split
      · split
        · exact hdone
        · exact hawait .mkdir
      · split
        · exact { hawait .file with saved := saved_getD h _ }
        · exact hdone
      · split
        · exact { hdone with
            saved := by
              intro f entries hf hentries
              obtain ⟨old, hold, rfl⟩ := Option.map_eq_some_iff.mp hf
              cases hentries
              exact hjob }
        · exact hdone

/-! ## Steps and runs -/

theorem BasesSound.step {act : BaseAct} (h : BasesSound digest sizes budget w)
    (hclean : CleanPut digest sizes w act) (hstep : w.step digest budget act = some w') :
    BasesSound digest sizes budget w' := by
  cases act with
  | put name text bytes =>
      cases hstep
      obtain ⟨hdigest, hbytes, hwrites⟩ := hclean
      obtain ⟨hready, hindex⟩ := put_same (s := w.store) budget name text bytes
      exact { h with
        store := h.store.put hdigest hbytes hwrites
        ready := hready.trans h.ready
        loading := fun hload => hindex (h.loading hload) }
  | has name =>
      cases hstep
      exact h
  | writable =>
      cases hstep
      have hsame : w.store.writable.ready = w.store.ready ∧
          w.store.writable.index = w.store.index := by
        simp only [TurnBaseStore.writable]
        split <;> exact ⟨rfl, rfl⟩
      exact { h with
        store := h.store.writable
        ready := hsame.1.trans h.ready
        loading := fun hload => hsame.2.trans (h.loading hload) }
  | get name =>
      cases hstep
      simp only [TurnBases.get]
      split
      · next held hheld =>
          exact { h with
            answers := by
              intro entry hentry t ht
              rcases List.mem_append.mp hentry with hold | hnew
              · exact h.answers entry hold t ht
              · rw [List.mem_singleton.mp hnew] at ht ⊢
                cases ht
                exact (h.store.pending name held hheld).1 }
      · exact { h with
          gets := by
            intro g hg b hb
            rcases List.mem_append.mp hg with hold | hnew
            · exact h.gets g hold b hb
            · rw [List.mem_singleton.mp hnew] at hb
              cases hb }
  | flush =>
      cases hstep
      exact { h with store := h.store.below 0 }
  | clear =>
      cases hstep
      exact { h with store := h.store.beginClear }
  | load ok => exact h.stepLoad hstep
  | write i ok => exact h.stepWrite hstep
  | removal id ok => exact h.stepRemoval hstep
  | read i ok => exact h.stepGet hstep
  | flushed i => exact h.stepFlush hstep
  | cleared i ok => exact h.stepClear hstep
  | saved ok => exact h.stepSave hstep
  | timer =>
      simp only [TurnBases.step] at hstep
      split at hstep
      · cases hstep
        exact { h with store := StoreSound.save { h.store with } }
      · cases hstep
  | restart =>
      cases hstep
      exact {
        store := storeSound_new
        gets := fun g hg => by cases hg
        answers := h.answers
        saved := h.saved
        ready := rfl
        loading := fun _ => rfl }
  | change name text =>
      cases hstep
      exact { h with
        saved := by
          intro f entries hf hentries
          obtain ⟨old, hold, rfl⟩ := Option.map_eq_some_iff.mp hf
          exact h.saved old entries hold hentries }

end

end OmniRush.Server
