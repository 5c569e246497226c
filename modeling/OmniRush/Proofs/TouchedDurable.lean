import OmniRush.Proofs.TouchedFile

/-!
# Touched paths survive a restart

A write that failed in the middle of a line leaves `torn` as it was, so the next write of the
same run begins in that line, and its first path is lost with it (`torn_append_loses`). Only
`load` sees a torn line, after a crash.

Where every append to a file in use begins behind a whole line or with a line break, the limit
refuses a path only when that many different ones are held, and a forgotten session is not
tracked again while a write from before has yet to read the file (`Careful`), a snapshot has
what was written and what was noted, and nothing else (`touched_paths_durable`).

`History` is what was asked for: the paths noted ever, those written since the session was
last forgotten, in this run of the app or an earlier one, and those this run is to keep.
-/

namespace OmniRush.Archive.TouchedPathStore

structure History where
  noted : List String := []
  written : List String := []
  wanted : List String := []

namespace TouchedSession

/-- The paths the session holds. A write begun before it was forgotten is none of its. -/
def held (t : TouchedSession) : List String :=
  t.known.getD [] ++ t.pending ++ (if t.known.isSome then t.writing else [])

/-- The session is to keep the path: it has it, or fewer than the limit. -/
def keeps (t : TouchedSession) (path : String) : Bool :=
  t.mode ≠ .ignored && ((touchedPathParts path).isSome || isOutsideTouchedPath path)
    && (t.has path || t.held.dedup.length < maxTouchedPaths)

end TouchedSession

/-- The history after an act, from the slot before it. What a session is found not to be, or
is forgotten, goes; an append is a success for a session that was not forgotten meanwhile. -/
def History.after (h : History) (s : Slot) : Act → History
  | .note path =>
      { h with
        noted := path :: h.noted
        wanted := if (s.session.getD { mode := .unknown }).keeps path then path :: h.wanted
          else h.wanted }
  | .decided .ignored => if s.session.any (·.mode = .unknown) then { h with wanted := [] } else h
  | .forget => { h with written := [], wanted := [] }
  | .appended =>
      match s.stage, s.session with
      | .appending _ _ batch _, some t =>
          if t.known.isSome then { h with written := h.written ++ batch } else h
      | _, _ => h
  | _ => h

structure World where
  store : Store
  history : String → History

def World.empty : World := ⟨fun _ => {}, fun _ => {}⟩

def World.step (w : World) (e : Event) : Option World :=
  (w.store.step e).map fun store =>
    { store
      history := match e with
        | .session sessionId act => Function.update w.history sessionId
            ((w.history sessionId).after (w.store sessionId) act)
        | .flush => w.history
        | .restart _ => fun sessionId => { w.history sessionId with wanted := [] } }

/-! ## The condition -/

/-- A write stands before a removal. -/
def early : List Task → Bool
  | [] => false
  | .remove :: rest => early rest
  | .write :: rest => rest.contains .remove || early rest
  | .snapshot _ :: rest => rest.contains .remove || early rest

/-- The tasks that have not read the session's file yet. -/
def Slot.waiting (s : Slot) : List Task :=
  match s.stage with
  | .queued | .loading => s.tail
  | .appending _ _ _ _ | .collecting | .removing => s.tail.tail

def EndsLine (file : Option (List UInt8)) : Prop := file.bind (·.getLast?) = some 10

instance (file : Option (List UInt8)) : Decidable (EndsLine file) :=
  inferInstanceAs (Decidable (file.bind (·.getLast?) = some 10))

def Slot.Careful (s : Slot) : Act → Prop
  | .note path => ∀ t ∈ s.session, t.refuses path = true → maxTouchedPaths ≤ t.held.dedup.length
  | .track | .snapshot _ => early s.waiting = false
  | .start => s.tail.head? ≠ some .remove → ∀ t ∈ s.session,
      t.mode = .tracked → t.known ≠ none → t.pending ≠ [] → t.torn = true ∨ EndsLine s.file
  | _ => True

instance (s : Slot) : ∀ act, Decidable (s.Careful act)
  | .note path => inferInstanceAs (Decidable (∀ t ∈ s.session,
      t.refuses path = true → maxTouchedPaths ≤ t.held.dedup.length))
  | .track | .snapshot _ => inferInstanceAs (Decidable (early s.waiting = false))
  | .start => inferInstanceAs (Decidable (s.tail.head? ≠ some .remove → ∀ t ∈ s.session,
      t.mode = .tracked → t.known ≠ none → t.pending ≠ [] → t.torn = true ∨ EndsLine s.file))
  | .decided _ | .forget | .loaded | .appended | .failed _ | .collected | .removed _ =>
      .isTrue trivial

def World.Careful (w : World) : Event → Prop
  | .session sessionId act => (w.store sessionId).Careful act
  | .flush | .restart _ => True

instance (w : World) : ∀ e, Decidable (w.Careful e)
  | .session sessionId act => inferInstanceAs (Decidable ((w.store sessionId).Careful act))
  | .flush | .restart _ => .isTrue trivial

/-! ## Tails -/

/-- Every snapshot has a removal behind it. -/
def Settled : List Task → Prop
  | [] => True
  | .snapshot _ :: rest => .remove ∈ rest ∧ Settled rest
  | .write :: rest => Settled rest
  | .remove :: rest => Settled rest

theorem early_false_of_notMem {l : List Task} (h : .remove ∉ l) : early l = false := by
  induction l with
  | nil => rfl
  | cons task l ih =>
      rw [List.mem_cons, not_or] at h
      cases task with
      | remove => exact absurd rfl h.1
      | write => simp [early, ih h.2, h.2]
      | snapshot => simp [early, ih h.2, h.2]

theorem early_append {l : List Task} {task : Task} (h : task ≠ .remove) :
    early (l ++ [task]) = early l := by
  induction l with
  | nil =>
      cases task with
      | remove => exact absurd rfl h
      | write => rfl
      | snapshot => rfl
  | cons first l ih => cases first <;> simp [early, ih, h.symm]

theorem early_tail {l : List Task} (h : early l = false) : early l.tail = false := by
  cases l with
  | nil => rfl
  | cons task l =>
      cases task with
      | remove => exact h
      | write => exact (Bool.or_eq_false_iff.mp h).2
      | snapshot => exact (Bool.or_eq_false_iff.mp h).2

theorem notMem_of_early {task : Task} {rest : List Task} (h : early (task :: rest) = false)
    (hne : task ≠ .remove) : .remove ∉ task :: rest := by
  rw [List.mem_cons, not_or]
  refine ⟨hne.symm, fun hmem => ?_⟩
  have hcontains : rest.contains .remove = true := List.contains_iff_mem.mpr hmem
  cases task with
  | remove => exact hne rfl
  | write => rw [early, hcontains, Bool.true_or] at h; cases h
  | snapshot => rw [early, hcontains, Bool.true_or] at h; cases h

theorem settled_remove (l : List Task) : Settled (l ++ [.remove]) := by
  induction l with
  | nil => exact trivial
  | cons task l ih =>
      cases task with
      | remove => exact ih
      | write => exact ih
      | snapshot => exact ⟨List.mem_append_right _ (List.mem_singleton.mpr rfl), ih⟩

theorem Settled.tail {l : List Task} (h : Settled l) : Settled l.tail := by
  cases l with
  | nil => trivial
  | cons task l =>
      cases task with
      | remove => exact h
      | write => exact h
      | snapshot => exact h.2

/-! ## The invariant -/

/-- What a session holds, however far its file work is. -/
structure Good (tail : List Task) (t : TouchedSession) (h : History) : Prop where
  pending : ∀ p ∈ t.pending, Storable p ∧ p ∈ h.noted
  known : ∀ known, t.known = some known → (∀ p ∈ known, p ∈ h.noted) ∧ ∀ p ∈ h.written, p ∈ known
  wanted : ∀ p ∈ h.wanted, p ∈ t.held
  removal : .remove ∈ tail → h.written = [] ∧ t.known = none
  settled : t.mode ≠ .tracked → Settled tail
  unknown : t.mode = .unknown → tail = []

/-- No write is under way, and the paths the session knows are in a file of its own. -/
structure Idle (sessionId : String) (file : Option (List UInt8)) (t : TouchedSession) : Prop where
  writing : t.writing = []
  usable : t.known ≠ none → (load sessionId file).fresh = false

/-- A write under way: where it may stop, and what it leaves behind then. -/
structure Writing (sessionId : String) (s : Slot) (t : TouchedSession) (h : History) (fresh : Bool)
    (known batch : List String) (text : List UInt8) : Prop where
  noted : ∀ p ∈ batch, Storable p ∧ p ∈ h.noted
  writing : t.writing = batch
  session : t.known = none ∧ .remove ∈ s.tail ∨ t.known = some known
  usable : fresh = false → (load sessionId s.file).fresh = false
  first : fresh = true → known = []
  lands : ∀ n, Lands sessionId s.file (s.landed fresh text n) batch
  whole : LandsWhole sessionId (s.landed fresh text (some text.length)) batch

def Work (tail : List Task) : Prop := ∃ task rest, tail = task :: rest ∧ task ≠ .remove

def StageOk (sessionId : String) (s : Slot) (t : TouchedSession) (h : History) : Prop :=
  match s.stage with
  | .queued => Idle sessionId s.file t
  | .loading => Idle sessionId s.file t ∧ Work s.tail ∧ t.known = none
  | .appending fresh known batch text =>
      Writing sessionId s t h fresh known batch text ∧ Work s.tail
  | .collecting => Idle sessionId s.file t ∧ (∃ outside rest, s.tail = .snapshot outside :: rest) ∧
      (t.known = none → h.written = [])
  | .removing => Idle sessionId s.file t ∧ ∃ rest, s.tail = .remove :: rest

structure Inv (sessionId : String) (s : Slot) (h : History) : Prop where
  file : ∀ p ∈ (load sessionId s.file).paths, p ∈ h.noted
  written : ∀ p ∈ h.written, p ∈ (load sessionId s.file).paths
  absent : s.session = none → s.tail = [] ∧ s.stage = .queued ∧ h.wanted = []
  good : ∀ t, s.session = some t → Good s.tail t h
  order : ∀ t, s.session = some t → t.mode = .tracked → early s.waiting = false
  stage : ∀ t, s.session = some t → StageOk sessionId s t h

variable {s s' : Slot} {h : History} {t : TouchedSession}

theorem Inv.started {file : Option (List UInt8)}
    (hfile : ∀ p ∈ (load sessionId file).paths, p ∈ h.noted)
    (hwritten : ∀ p ∈ h.written, p ∈ (load sessionId file).paths) (hwanted : h.wanted = []) :
    Inv sessionId { file } h where
  file := hfile
  written := hwritten
  absent _ := ⟨rfl, rfl, hwanted⟩
  good _ ht := by cases ht
  order _ ht := by cases ht
  stage _ ht := by cases ht

theorem good_dropped {tail : List Task} (hpending : t.pending = []) (hknown : t.known = none)
    (hwanted : h.wanted = []) (hremoval : .remove ∈ tail → h.written = []) (hsettled : Settled tail)
    (hunknown : t.mode = .unknown → tail = []) : Good tail t h where
  pending p hp := by rw [hpending] at hp; cases hp
  known _ hsome := by rw [hknown] at hsome; cases hsome
  wanted p hp := by rw [hwanted] at hp; cases hp
  removal hmem := ⟨hremoval hmem, hknown⟩
  settled _ := hsettled
  unknown := hunknown

theorem Inv.create (hinv : Inv sessionId s h) (mode : Mode)
    (ht : s.session.getD { mode } = t) :
    Good s.tail t h ∧ (t.mode = .tracked → early s.waiting = false) ∧
      StageOk sessionId s t h := by
  cases hsession : s.session with
  | some t' =>
      rw [hsession, Option.getD_some] at ht
      subst ht
      exact ⟨hinv.good t' hsession, hinv.order t' hsession, hinv.stage t' hsession⟩
  | none =>
      obtain ⟨htail, hstage, hwanted⟩ := hinv.absent hsession
      rw [hsession, Option.getD_none] at ht
      subst ht
      refine ⟨?_, fun _ => ?_, ?_⟩
      · rw [htail]
        exact good_dropped rfl rfl hwanted (fun hmem => by cases hmem) trivial fun _ => rfl
      · rw [Slot.waiting, hstage, htail]
        rfl
      · rw [StageOk, hstage]
        exact ⟨rfl, fun hne => absurd rfl hne⟩

theorem Slot.waiting_subset {s : Slot} {task : Task} (h : task ∈ s.waiting) : task ∈ s.tail := by
  unfold waiting at h
  split at h
  · exact h
  · exact h
  all_goals exact List.mem_of_mem_tail h

theorem StageOk.append (hstage : StageOk sessionId s t h) (more : List Task) :
    StageOk sessionId { s with tail := s.tail ++ more } t h := by
  have hwork : Work s.tail → Work (s.tail ++ more) := by
    rintro ⟨task, rest, htail, hne⟩
    exact ⟨task, rest ++ more, by rw [htail, List.cons_append], hne⟩
  rcases s with ⟨session, tail, stage, file⟩
  cases stage with
  | queued => exact hstage
  | loading => exact hstage.imp_right (And.imp_left hwork)
  | appending fresh known batch text =>
      obtain ⟨hwriting, hw⟩ := hstage
      exact ⟨⟨hwriting.noted, hwriting.writing,
        hwriting.session.imp_left (And.imp_right (List.mem_append_left _)), hwriting.usable,
        hwriting.first, hwriting.lands, hwriting.whole⟩, hwork hw⟩
  | collecting =>
      obtain ⟨hidle, ⟨outside, rest, htail⟩, hknown⟩ := hstage
      refine ⟨hidle, ⟨outside, rest ++ more, ?_⟩, hknown⟩
      have htail' : tail = .snapshot outside :: rest := htail
      rw [htail', List.cons_append]
  | removing =>
      obtain ⟨hidle, rest, htail⟩ := hstage
      refine ⟨hidle, rest ++ more, ?_⟩
      have htail' : tail = .remove :: rest := htail
      rw [htail', List.cons_append]

/-- The stage of a session whose own state changes in a way no file work sees. -/
theorem StageOk.session {t' : TouchedSession} {h' : History} (hstage : StageOk sessionId s t h)
    (hwriting : t'.writing = t.writing) (hknown : t'.known = t.known)
    (hnoted : ∀ p ∈ h.noted, p ∈ h'.noted) (hwritten : h'.written = h.written) :
    StageOk sessionId { s with session := some t' } t' h' := by
  have hidle : Idle sessionId s.file t → Idle sessionId s.file t' :=
    fun hidle => ⟨hwriting.trans hidle.writing, hknown ▸ hidle.usable⟩
  rcases s with ⟨session, tail, stage, file⟩
  cases stage with
  | queued => exact hidle hstage
  | loading => exact ⟨hidle hstage.1, hstage.2.1, hknown.trans hstage.2.2⟩
  | appending fresh known batch text =>
      obtain ⟨hw, hwork⟩ := hstage
      exact ⟨⟨fun p hp => (hw.noted p hp).imp_right (hnoted p), hwriting.trans hw.writing,
        hknown ▸ hw.session, hw.usable, hw.first, hw.lands, hw.whole⟩, hwork⟩
  | collecting =>
      refine ⟨hidle hstage.1, hstage.2.1, fun hnone => ?_⟩
      rw [hwritten]
      exact hstage.2.2 (hknown ▸ hnone)
  | removing => exact hstage.imp_left hidle

/-! ## Calls -/

theorem note_spec (t : TouchedSession) (path : String) :
    (t.note path).mode = t.mode ∧ (t.note path).known = t.known ∧
      (t.note path).writing = t.writing ∧
      ∀ p, p ∈ (t.note path).pending → p ∈ t.pending ∨ p = path ∧ Storable path := by
  unfold TouchedSession.note
  split
  · exact ⟨rfl, rfl, rfl, fun _ => .inl⟩
  split
  · exact ⟨rfl, rfl, rfl, fun _ => .inl⟩
  split
  · exact ⟨rfl, rfl, rfl, fun _ => .inl⟩
  · next hstorable _ =>
      refine ⟨rfl, rfl, rfl, fun p hp => ?_⟩
      refine (mem_add.mp hp).imp_right fun heq => ⟨heq, ?_⟩
      rw [Bool.and_eq_true, not_and_or, Option.isNone_iff_eq_none, ← ne_eq,
        ← Option.isSome_iff_ne_none] at hstorable
      exact hstorable.imp_right fun hnot => by simpa using hnot

theorem note_held {t : TouchedSession} {path p : String} (hp : p ∈ t.held) :
    p ∈ (t.note path).held := by
  obtain ⟨-, hknown, hwriting, -⟩ := note_spec t path
  have hpending : ∀ p ∈ t.pending, p ∈ (t.note path).pending := by
    intro p hp
    unfold TouchedSession.note
    split
    · exact hp
    split
    · exact hp
    split
    · exact hp
    · exact mem_add.mpr (.inl hp)
  unfold TouchedSession.held at hp ⊢
  rw [hknown, hwriting]
  rcases List.mem_append.mp hp with hp | hp
  · rcases List.mem_append.mp hp with hp | hp
    · exact List.mem_append_left _ (List.mem_append_left _ hp)
    · exact List.mem_append_left _ (List.mem_append_right _ (hpending p hp))
  · exact List.mem_append_right _ hp

theorem mem_held_of_has {t : TouchedSession} {path : String} (h : t.has path = true) :
    path ∈ t.held := by
  unfold TouchedSession.has at h
  rw [Bool.or_eq_true, List.contains_iff_mem, List.contains_iff_mem, ← List.mem_append] at h
  exact List.mem_append_left _ h

theorem held_of_keeps {t : TouchedSession} {path : String}
    (hcareful : t.refuses path = true → maxTouchedPaths ≤ t.held.dedup.length)
    (hkeeps : t.keeps path = true) : path ∈ (t.note path).held := by
  rcases hhas : t.has path with _ | _
  · unfold TouchedSession.keeps at hkeeps
    simp only [hhas, Bool.and_eq_true, Bool.or_eq_true, Bool.false_or, decide_eq_true_eq] at hkeeps
    obtain ⟨⟨hmode, hstorable⟩, hlimit⟩ := hkeeps
    have hrefuses : ¬t.refuses path = true := fun h => absurd (hcareful h) (by omega)
    have hpending : path ∈ (t.note path).pending := by
      have hstorable' : ((touchedPathParts path).isNone && !isOutsideTouchedPath path) = false := by
        rcases hstorable with h | h
        · rw [Option.isNone_eq_false_iff.mpr h, Bool.false_and]
        · rw [h, Bool.not_true, Bool.and_false]
      unfold TouchedSession.note
      rw [if_neg (by simp [hmode, hhas]), if_neg (by rw [hstorable']; exact Bool.false_ne_true),
        if_neg hrefuses]
      exact mem_add.mpr (.inr rfl)
    exact List.mem_append_left _ (List.mem_append_right _ hpending)
  · exact note_held (mem_held_of_has hhas)

theorem Inv.note (hinv : Inv sessionId s h) {path : String} (hcareful : s.Careful (.note path)) :
    Inv sessionId (s.note path) (h.after s (.note path)) := by
  generalize ht : s.session.getD { mode := .unknown } = t
  obtain ⟨hgood, horder, hstage⟩ := hinv.create _ ht
  obtain ⟨hmode, hknown, hwriting, hpending⟩ := note_spec t path
  have hnote : s.note path = { s with session := some (t.note path) } := by rw [Slot.note, ht]
  have hafter : h.after s (.note path) = { h with
      noted := path :: h.noted
      wanted := if t.keeps path then path :: h.wanted else h.wanted } := by
    rw [History.after, ht]
  have hlimit : t.refuses path = true → maxTouchedPaths ≤ t.held.dedup.length := by
    cases hsession : s.session with
    | some t' =>
        rw [hsession, Option.getD_some] at ht
        exact ht ▸ hcareful t' hsession
    | none =>
        rw [hsession, Option.getD_none] at ht
        subst ht
        intro hrefuses
        exact absurd hrefuses
          (by simp [TouchedSession.refuses, TouchedSession.count, maxTouchedPaths])
  rw [hnote, hafter]
  refine ⟨fun p hp => List.mem_cons_of_mem _ (hinv.file p hp), hinv.written, fun hnone => ?_,
    ?_, ?_, ?_⟩
  · cases hnone
  · intro t' ht'
    cases ht'
    refine ⟨fun p hp => ?_, fun known hsome => ?_, fun p hp => ?_, ?_, ?_, ?_⟩
    · rcases hpending p hp with hp | ⟨rfl, hstorable⟩
      · exact (hgood.pending p hp).imp_right (List.mem_cons_of_mem _)
      · exact ⟨hstorable, List.mem_cons_self ..⟩
    · exact (hgood.known known (hknown ▸ hsome)).imp_left
        fun hnoted p hp => List.mem_cons_of_mem _ (hnoted p hp)
    · dsimp only at hp
      split at hp
      · next hkeeps =>
          rcases List.mem_cons.mp hp with rfl | hp
          · exact held_of_keeps hlimit hkeeps
          · exact note_held (hgood.wanted p hp)
      · exact note_held (hgood.wanted p hp)
    · rw [hknown]
      exact hgood.removal
    · rw [hmode]
      exact hgood.settled
    · rw [hmode]
      exact hgood.unknown
  · intro t' ht'
    cases ht'
    rw [hmode]
    exact horder
  · intro t' ht'
    cases ht'
    exact hstage.session hwriting hknown (fun p hp => List.mem_cons_of_mem _ hp) rfl

theorem Inv.track (hinv : Inv sessionId s h) (hearly : early s.waiting = false) :
    Inv sessionId s.track h := by
  generalize ht : s.session.getD { mode := .tracked } = t
  obtain ⟨hgood, -, hstage⟩ := hinv.create _ ht
  have htrack : s.track = { s with session := some { t with mode := .tracked } } := by
    rw [Slot.track, ht]
  rw [htrack]
  refine ⟨hinv.file, hinv.written, fun hnone => ?_, ?_, fun _ _ _ => hearly, ?_⟩
  · cases hnone
  · intro t' ht'
    cases ht'
    exact ⟨hgood.pending, hgood.known, hgood.wanted, hgood.removal, fun hne => absurd rfl hne,
      fun hunknown => by cases hunknown⟩
  · intro t' ht'
    cases ht'
    exact hstage.session rfl rfl (fun _ hp => hp) rfl

theorem Inv.queue (hinv : Inv sessionId s h) {task : Task} (hne : task ≠ .remove)
    (ht : s.session = some t) (hmode : t.mode = .tracked) :
    Inv sessionId { s with tail := s.tail ++ [task] } h := by
  have hgood := hinv.good t ht
  have hsame : ∀ t', s.session = some t' → t' = t := fun t' ht' =>
    Option.some.inj (ht'.symm.trans ht)
  refine ⟨hinv.file, hinv.written, fun hnone => ?_, ?_, ?_, ?_⟩
  · rw [ht] at hnone
    cases hnone
  · intro t' ht'
    obtain rfl := hsame t' ht'
    refine ⟨hgood.pending, hgood.known, hgood.wanted, fun hmem => ?_, fun hne => absurd hmode hne,
      fun hunknown => ?_⟩
    · refine hgood.removal ?_
      rcases List.mem_append.mp hmem with hmem | hmem
      · exact hmem
      · exact absurd (List.mem_singleton.mp hmem).symm hne
    · rw [hmode] at hunknown
      cases hunknown
  · intro t' ht' _
    have horder := hinv.order t ht hmode
    have hstage := hinv.stage t ht
    rcases s with ⟨session, tail, stage, file⟩
    -- a task under way stays the first of the tail
    cases stage with
    | queued => exact (early_append hne).trans horder
    | loading => exact (early_append hne).trans horder
    | appending =>
        obtain ⟨-, first, rest, htail, -⟩ := hstage
        have htail' : tail = first :: rest := htail
        subst htail'
        exact (early_append hne).trans horder
    | collecting =>
        obtain ⟨-, ⟨outside, rest, htail⟩, -⟩ := hstage
        have htail' : tail = .snapshot outside :: rest := htail
        subst htail'
        exact (early_append hne).trans horder
    | removing =>
        obtain ⟨-, rest, htail⟩ := hstage
        have htail' : tail = .remove :: rest := htail
        subst htail'
        exact (early_append hne).trans horder
  · intro t' ht'
    exact (hinv.stage t' ht').append _

theorem Inv.snapshot (hinv : Inv sessionId s h) {outside : Bool}
    (hcareful : s.Careful (.snapshot outside)) : Inv sessionId (s.snapshot outside) h :=
  (hinv.track hcareful).queue (fun hne => by cases hne) rfl rfl

theorem Inv.flush (hinv : Inv sessionId s h) : Inv sessionId s.flush h := by
  unfold Slot.flush
  split
  · next hany =>
      obtain ⟨t, ht, htracked⟩ := exists_of_any hany
      rw [Bool.and_eq_true, decide_eq_true_eq] at htracked
      exact hinv.queue (fun hne => by cases hne) ht htracked.1
  · exact hinv

theorem Inv.decided (hinv : Inv sessionId s h) (mode : Mode) :
    Inv sessionId (s.decided mode) (h.after s (.decided mode)) := by
  unfold Slot.decided
  cases hsession : s.session with
  | none =>
      have hafter : h.after s (.decided mode) = h := by
        cases mode <;> simp [History.after, hsession]
      rw [hafter]
      exact hinv
  | some t =>
      dsimp only
      have hgood := hinv.good t hsession
      by_cases hunknown : t.mode = .unknown
      · rw [if_neg (not_not_intro hunknown)]
        cases mode with
        | unknown => exact hinv
        | tracked =>
            refine hinv.track (early_false_of_notMem fun hmem => ?_)
            have hmem' := Slot.waiting_subset hmem
            rw [hgood.unknown hunknown] at hmem'
            cases hmem'
        | ignored =>
            have hafter : h.after s (.decided .ignored) = { h with wanted := [] } := by
              simp [History.after, hsession, hunknown]
            rw [hafter]
            have htail := hgood.unknown hunknown
            refine ⟨hinv.file, hinv.written, fun hnone => ?_, ?_, ?_, ?_⟩
            · cases hnone
            · intro t' ht'
              cases ht'
              rw [htail]
              exact good_dropped rfl rfl rfl (fun hmem => by cases hmem) trivial
                fun hmode => by cases hmode
            · intro t' ht' hmode
              cases ht'
              cases hmode
            · intro t' ht'
              cases ht'
              have hstage := hinv.stage t hsession
              rcases s with ⟨session, tail, stage, file⟩
              have htail' : tail = [] := htail
              subst htail'
              cases stage with
              | queued =>
                  have hidle : Idle sessionId file t := hstage
                  exact ⟨hidle.writing, fun hne => absurd rfl hne⟩
              | loading => obtain ⟨-, ⟨task, rest, htail, -⟩, -⟩ := hstage; cases htail
              | appending => obtain ⟨-, task, rest, htail, -⟩ := hstage; cases htail
              | collecting => obtain ⟨-, ⟨outside, rest, htail⟩, -⟩ := hstage; cases htail
              | removing => obtain ⟨-, rest, htail⟩ := hstage; cases htail
      · rw [if_pos hunknown]
        have hafter : h.after s (.decided mode) = h := by
          cases mode <;> simp [History.after, hsession, hunknown]
        rw [hafter]
        exact hinv

/-- The session keeps nothing, and its file goes behind the work that is queued. -/
theorem Inv.forget (hinv : Inv sessionId s h) :
    Inv sessionId s.forget (h.after s .forget) := by
  have hremove : .remove ∈ s.tail ++ [.remove] :=
    List.mem_append_right _ (List.mem_singleton.mpr rfl)
  refine ⟨hinv.file, fun p hp => ?_, fun hnone => ?_, ?_, ?_, ?_⟩
  · cases hp
  · cases hnone
  · intro t' ht'
    have hdropped : t'.mode = .ignored ∧ t'.known = none ∧ t'.pending = [] := by
      cases hsession : s.session <;>
        (rw [Slot.forget, hsession] at ht'; cases ht'; exact ⟨rfl, rfl, rfl⟩)
    obtain ⟨hmode, hknown, hpending⟩ := hdropped
    refine good_dropped hpending hknown rfl (fun _ => rfl) (settled_remove _) fun hunknown => ?_
    rw [hmode] at hunknown
    cases hunknown
  · intro t' ht' hmode
    exfalso
    cases hsession : s.session <;>
      (rw [Slot.forget, hsession] at ht'; cases ht'; cases hmode)
  · intro t' ht'
    cases hsession : s.session with
    | none =>
        obtain ⟨htail, hstage, -⟩ := hinv.absent hsession
        rw [Slot.forget, hsession] at ht' ⊢
        cases ht'
        rw [StageOk]
        dsimp only
        rw [hstage]
        exact ⟨rfl, fun hne => absurd rfl hne⟩
    | some t =>
        have hstage := hinv.stage t hsession
        rw [Slot.forget, hsession] at ht' ⊢
        cases ht'
        rcases s with ⟨session, tail, stage, file⟩
        have hidle : Idle sessionId file t → Idle sessionId file t.drop :=
          fun hidle => ⟨hidle.writing, fun hne => absurd rfl hne⟩
        have happend := hstage.append [.remove]
        cases stage with
        | queued => exact hidle happend
        | loading => exact ⟨hidle happend.1, happend.2.1, rfl⟩
        | appending fresh known batch text =>
            obtain ⟨hw, hwork⟩ := happend
            exact ⟨⟨hw.noted, hw.writing, .inl ⟨rfl, hremove⟩, hw.usable, hw.first, hw.lands,
              hw.whole⟩, hwork⟩
        | collecting => exact ⟨hidle happend.1, happend.2.1, fun _ => rfl⟩
        | removing => exact happend.imp_left hidle

/-! ## File work -/

theorem Inv.wrote {task : Task} {rest : List Task}
    (hfile : ∀ p ∈ (load sessionId s.file).paths, p ∈ h.noted)
    (hwritten : ∀ p ∈ h.written, p ∈ (load sessionId s.file).paths)
    (ht : s.session = some t) (htail : s.tail = task :: rest) (hne : task ≠ .remove)
    (hgood : Good s.tail t h) (hidle : Idle sessionId s.file t)
    (hearly : t.mode = .tracked → early rest = false)
    (hnone : t.known = none → (∃ outside, task = .snapshot outside) → h.written = []) :
    Inv sessionId s.wrote h := by
  rw [htail] at hgood
  cases task with
  | remove => exact absurd rfl hne
  | snapshot outside =>
      have hwrote : s.wrote = { s with stage := .collecting } := by
        rw [Slot.wrote, htail]
      rw [hwrote]
      refine ⟨hfile, hwritten, fun h => ?_, ?_, ?_, ?_⟩
      · have hsome : s.session = none := h
        rw [ht] at hsome
        cases hsome
      · intro t' ht'
        obtain rfl : t' = t := Option.some.inj (ht'.symm.trans ht)
        dsimp only
        rwa [htail]
      · intro t' ht' hmode
        obtain rfl : t' = t := Option.some.inj (ht'.symm.trans ht)
        rw [Slot.waiting]
        dsimp only
        rw [htail]
        exact hearly hmode
      · intro t' ht'
        obtain rfl : t' = t := Option.some.inj (ht'.symm.trans ht)
        exact ⟨hidle, ⟨outside, rest, htail⟩, fun h => hnone h ⟨outside, rfl⟩⟩
  | write =>
      have hwrote : s.wrote = { s with tail := rest, stage := .queued } := by
        rw [Slot.wrote, htail]
        rfl
      rw [hwrote]
      refine ⟨hfile, hwritten, fun h => ?_, ?_, ?_, ?_⟩
      · have hsome : s.session = none := h
        rw [ht] at hsome
        cases hsome
      · intro t' ht'
        obtain rfl : t' = t := Option.some.inj (ht'.symm.trans ht)
        exact ⟨hgood.pending, hgood.known, hgood.wanted,
          fun hmem => hgood.removal (List.mem_cons_of_mem _ hmem), hgood.settled,
          fun hunknown => by cases hgood.unknown hunknown⟩
      · intro t' ht' hmode
        obtain rfl : t' = t := Option.some.inj (ht'.symm.trans ht)
        exact hearly hmode
      · intro t' ht'
        obtain rfl : t' = t := Option.some.inj (ht'.symm.trans ht)
        exact hidle

theorem lines_fresh (t : TouchedSession) (hne : t.pending ≠ []) :
    Slot.lines t (header sessionId) = header sessionId ++ '\n' :: pathFormat.text t.pending := by
  rw [Slot.lines, if_neg header_ne_nil, List.append_assoc, intercalate_pathLine hne,
    List.append_assoc]
  rfl

theorem lines_more (t : TouchedSession) (hne : t.pending ≠ []) :
    Slot.lines t [] = (if t.torn then ['\n'] else []) ++ pathFormat.text t.pending := by
  rw [Slot.lines, if_pos rfl, List.append_assoc, intercalate_pathLine hne]

theorem lands_lines {fresh : Bool} (hne : t.pending ≠ []) (hpending : ∀ p ∈ t.pending, Storable p)
    (hload : (load sessionId s.file).fresh = fresh)
    (haligned : fresh = false → t.torn = true ∨ EndsLine s.file) :
    let text := encodeText (Slot.lines t (if fresh then header sessionId else []))
    (∀ n, Lands sessionId s.file (s.landed fresh text n) t.pending) ∧
      LandsWhole sessionId (s.landed fresh text (some text.length)) t.pending := by
  cases fresh with
  | true =>
      rw [if_pos rfl, lines_fresh t hne]
      have hfirst := lands_first hload hpending
      refine ⟨fun n => ?_, (hfirst _).2 (Nat.le_refl _)⟩
      cases n with
      | none => exact Lands.refl
      | some n => exact (hfirst n).1
  | false =>
      obtain ⟨bytes, hbytes, husable⟩ := load_fresh.mp hload
      have hend : t.torn = true ∨ bytes.getLast? = some 10 := by
        refine (haligned rfl).imp_right fun hend => ?_
        rwa [EndsLine, hbytes] at hend
      have happend := lands_append husable hpending hend
      dsimp only
      rw [if_neg Bool.false_ne_true, lines_more t hne]
      refine ⟨fun n => ?_, ?_⟩
      · cases n with
        | none => exact Lands.refl
        | some n =>
            rw [Slot.landed, if_neg Bool.false_ne_true, hbytes]
            exact (happend n).1
      · rw [Slot.landed, if_neg Bool.false_ne_true, hbytes]
        exact (happend _).2 (Nat.le_refl _)

theorem Inv.append {task : Task} {tasks : List Task} {known : List String} {fresh : Bool}
    (hfile : ∀ p ∈ (load sessionId s.file).paths, p ∈ h.noted)
    (hwritten : ∀ p ∈ h.written, p ∈ (load sessionId s.file).paths)
    (htail : s.tail = task :: tasks) (hne : task ≠ .remove) (hmode : t.mode = .tracked)
    (hearly : early s.tail = false) (hgood : Good s.tail t h) (hwriting : t.writing = [])
    (hknown : t.known = some known) (hload : (load sessionId s.file).fresh = fresh)
    (hfirst : fresh = true → known = [])
    (haligned : fresh = false → t.pending ≠ [] → t.torn = true ∨ EndsLine s.file) :
    Inv sessionId (s.append sessionId t known fresh) h := by
  have hremove : .remove ∉ s.tail := by
    rw [htail] at hearly ⊢
    exact notMem_of_early hearly hne
  have hrest : early tasks = false := by
    have htasks := early_tail hearly
    rwa [htail] at htasks
  have hheld : t.held = known ++ t.pending := by
    rw [TouchedSession.held, hknown, hwriting, Option.getD_some]
    exact List.append_nil _
  unfold Slot.append
  split
  · next hpending =>
      refine Inv.wrote hfile hwritten rfl htail hne ?_ ?_ (fun _ => hrest) fun hnone _ => ?_
      · refine ⟨hgood.pending, fun known' hsome => ?_, fun p hp => ?_,
          fun hmem => absurd hmem hremove, fun hmode' => absurd hmode hmode', hgood.unknown⟩
        · cases fresh with
          | true => cases hsome
          | false =>
              obtain rfl : known = known' := Option.some.inj hsome
              exact hgood.known known hknown
        · have hp' := hgood.wanted p hp
          rw [hheld, hpending, List.append_nil] at hp'
          cases fresh with
          | true =>
              rw [hfirst rfl] at hp'
              cases hp'
          | false => exact List.mem_append_left _ (List.mem_append_left _ hp')
      · refine ⟨hwriting, fun hsome => ?_⟩
        cases fresh with
        | true => exact absurd rfl hsome
        | false => exact hload
      · cases fresh with
        | false => cases hnone
        | true =>
            rw [load_paths_fresh hload] at hwritten
            exact List.eq_nil_iff_forall_not_mem.mpr fun p hp => by cases hwritten p hp
  · next hpending =>
      have hstorable : ∀ p ∈ t.pending, Storable p := fun p hp => (hgood.pending p hp).1
      obtain ⟨hlands, hwhole⟩ := lands_lines hpending hstorable hload
        (fun hfresh => haligned hfresh hpending)
      refine ⟨hfile, hwritten, fun hnone => ?_, ?_, ?_, ?_⟩
      · cases hnone
      · intro t' ht'
        cases ht'
        refine ⟨fun p hp => ?_, fun known' hsome => ?_, fun p hp => ?_,
          fun hmem => absurd hmem hremove, fun hmode' => absurd hmode hmode', hgood.unknown⟩
        · cases hp
        · obtain rfl : known = known' := Option.some.inj hsome
          exact hgood.known known hknown
        · have hp' := hgood.wanted p hp
          rw [hheld] at hp'
          show p ∈ known ++ [] ++ t.pending
          rwa [List.append_nil]
      · intro t' ht' _
        rw [Slot.waiting]
        dsimp only
        rw [htail]
        exact hrest
      · intro t' ht'
        cases ht'
        exact ⟨⟨hgood.pending, rfl, .inr rfl, fun hfresh => hload.trans hfresh, hfirst,
          hlands, hwhole⟩, task, tasks, htail, hne⟩

theorem Inv.untracked (hinv : Inv sessionId s h) {task : Task} {rest : List Task}
    (ht : s.session = some t) (htail : s.tail = task :: rest) (hne : task ≠ .remove)
    (hmode : t.mode ≠ .tracked) (hidle : Idle sessionId s.file t) : Inv sessionId s.wrote h := by
  have hgood := hinv.good t ht
  refine Inv.wrote hinv.file hinv.written ht htail hne hgood hidle
    (fun htracked => absurd htracked hmode) fun _ hsnapshot => ?_
  obtain ⟨outside, rfl⟩ := hsnapshot
  have hsettled := hgood.settled hmode
  rw [htail] at hsettled
  exact (hgood.removal (htail ▸ List.mem_cons_of_mem _ hsettled.1)).1

theorem Inv.startWrite (hinv : Inv sessionId s h) {task : Task} {rest : List Task}
    (hstage : s.stage = .queued) (htail : s.tail = task :: rest) (hne : task ≠ .remove)
    (hcareful : s.Careful .start) : Inv sessionId (s.startWrite sessionId) h := by
  unfold Slot.startWrite
  split
  · next t ht =>
      have hgood := hinv.good t ht
      have hidle : Idle sessionId s.file t := by
        have hok := hinv.stage t ht
        rwa [StageOk, hstage] at hok
      have hhead : s.tail.head? ≠ some .remove := by
        rw [htail]
        exact fun heq => hne (Option.some.inj heq)
      split
      · next hmode =>
          have hearly : early s.tail = false := by
            have horder := hinv.order t ht hmode
            rwa [Slot.waiting, hstage] at horder
          split
          · next known hknown =>
              have hsome : t.known ≠ none := by rw [hknown]; exact Option.some_ne_none _
              exact Inv.append hinv.file hinv.written htail hne hmode hearly hgood hidle.writing
                hknown (hidle.usable hsome) (fun hfresh => by cases hfresh)
                fun _ hpending => hcareful hhead t ht hmode hsome hpending
          · next hknown =>
            refine ⟨hinv.file, hinv.written, fun hnone => ?_, hinv.good, fun t' ht' hmode' => ?_,
              fun t' ht' => ?_⟩
            · have hnone' : s.session = none := hnone
              rw [ht] at hnone'
              cases hnone'
            · have horder := hinv.order t' ht' hmode'
              rwa [Slot.waiting, hstage] at horder
            · obtain rfl : t' = t := Option.some.inj (ht'.symm.trans ht)
              exact ⟨hidle, ⟨task, rest, htail, hne⟩, hknown⟩
      · next hmode => exact hinv.untracked ht htail hne hmode hidle
  · next hnone =>
      rw [(hinv.absent hnone).1] at htail
      cases htail

theorem Inv.start (hinv : Inv sessionId s h) (hcareful : s.Careful .start)
    (hstep : s.start sessionId = some s') : Inv sessionId s' h := by
  unfold Slot.start at hstep
  split at hstep
  · next rest hstage htail =>
      cases hstep
      refine ⟨hinv.file, hinv.written, fun hnone => ?_, hinv.good, fun t ht hmode => ?_,
        fun t ht => ?_⟩
      · have hnone' := (hinv.absent hnone).1
        rw [htail] at hnone'
        cases hnone'
      · have horder := early_tail (hinv.order t ht hmode)
        rw [Slot.waiting, hstage] at horder
        exact horder
      · have hok := hinv.stage t ht
        rw [StageOk, hstage] at hok
        exact ⟨hok, rest, htail⟩
  · next task rest hne hstage htail =>
      cases hstep
      exact hinv.startWrite hstage htail hne hcareful
  · cases hstep

theorem torn_or_endsLine {file : Option (List UInt8)} (h : (load sessionId file).fresh = false) :
    (load sessionId file).torn = true ∨ EndsLine file := by
  obtain ⟨bytes, rfl, husable⟩ := load_fresh.mp h
  have hload : load sessionId (some bytes) = ⟨addAll [] ((textLines bytes).tail.filterMap readLine),
      false, (decodeUtf8From none bytes).getLast? ≠ some '\n'⟩ := if_pos husable
  by_cases hlast : (decodeUtf8From none bytes).getLast? = some '\n'
  · exact .inr (decodeUtf8From_getLast? none (fun p hp => by cases hp) hlast)
  · rw [hload]
    exact .inl (decide_eq_true hlast)

theorem Inv.loaded (hinv : Inv sessionId s h) (hstep : s.loaded sessionId = some s') :
    Inv sessionId s' h := by
  unfold Slot.loaded at hstep
  split at hstep
  · next t hstage ht =>
      have hgood := hinv.good t ht
      have hok := hinv.stage t ht
      rw [StageOk, hstage] at hok
      obtain ⟨hidle, ⟨task, rest, htail, hne⟩, hnone⟩ := hok
      dsimp only at hstep
      split at hstep
      · next hmode =>
          cases hstep
          have hearly : early s.tail = false := by
            have horder := hinv.order t ht hmode
            rwa [Slot.waiting, hstage] at horder
          have hremove : .remove ∉ s.tail := by
            rw [htail] at hearly ⊢
            exact notMem_of_early hearly hne
          refine Inv.append hinv.file hinv.written htail hne hmode hearly ?_ hidle.writing rfl rfl
            load_paths_fresh fun hfresh _ => ?_
          · refine ⟨fun p hp => hgood.pending p (List.mem_of_mem_filter hp), fun known hsome => ?_,
              fun p hp => ?_, fun hmem => absurd hmem hremove, fun hmode' => absurd hmode hmode',
              hgood.unknown⟩
            · cases hsome
              exact ⟨hinv.file, hinv.written⟩
            · have hp' : p ∈ t.pending := by
                have hheld := hgood.wanted p hp
                rw [TouchedSession.held, hnone] at hheld
                simpa using hheld
              by_cases hmem : p ∈ (load sessionId s.file).paths
              · exact List.mem_append_left _ (List.mem_append_left _ hmem)
              · refine List.mem_append_left _ (List.mem_append_right _ ?_)
                rw [List.mem_filter]
                exact ⟨hp', by simpa using hmem⟩
          · exact torn_or_endsLine hfresh
      · next hmode =>
          cases hstep
          exact hinv.untracked ht htail hne hmode hidle
  · cases hstep

theorem Inv.appended (hinv : Inv sessionId s h) (hstep : s.appended = some s') :
    Inv sessionId s' (h.after s .appended) := by
  unfold Slot.appended at hstep
  split at hstep
  · next fresh known batch text t hstage ht =>
      cases hstep
      have hgood := hinv.good t ht
      have hok := hinv.stage t ht
      rw [StageOk, hstage] at hok
      obtain ⟨hw, task, rest, htail, hne⟩ := hok
      have hlands := hw.lands (some text.length)
      have hafter : h.after s .appended =
          if t.known.isSome then { h with written := h.written ++ batch } else h := by
        rw [History.after, hstage, ht]
      have hforgotten : .remove ∈ s.tail → (h.after s .appended).written = [] ∧ t.known = none := by
        intro hmem
        obtain ⟨hwritten, hnone⟩ := hgood.removal hmem
        rw [hafter, if_neg (by rw [hnone]; exact Bool.false_ne_true)]
        exact ⟨hwritten, hnone⟩
      have hnoted : (h.after s .appended).noted = h.noted := by
        rw [hafter]
        split <;> rfl
      have hwanted : (h.after s .appended).wanted = h.wanted := by
        rw [hafter]
        split <;> rfl
      have hwritten : ∀ p ∈ (h.after s .appended).written, p ∈ h.written ∨ p ∈ batch := by
        rw [hafter]
        split
        · exact fun p hp => List.mem_append.mp hp
        · exact fun p hp => .inl hp
      refine Inv.wrote (t := { t with
          known := t.known.map (addAll · batch), writing := [], torn := false })
        (fun p hp => ?_) (fun p hp => ?_) rfl htail hne ?_ ⟨rfl, fun _ => hw.whole.usable⟩
        (fun hmode => ?_) fun hnone _ => ?_
      · rw [hnoted]
        rcases hlands.new p hp with hp | hp
        · exact hinv.file p hp
        · exact (hw.noted p hp).2
      · rcases hwritten p hp with hp | hp
        · exact hlands.kept p (hinv.written p hp)
        · exact hw.whole.all p hp
      · refine ⟨?_, fun known' hsome => ?_, fun p hp => ?_, fun hmem => ?_, hgood.settled,
          hgood.unknown⟩
        · rw [hnoted]
          exact hgood.pending
        · obtain ⟨k, hk, rfl⟩ := Option.map_eq_some_iff.mp hsome
          obtain ⟨hknown, hall⟩ := hgood.known k hk
          refine ⟨fun p hp => ?_, fun p hp => ?_⟩
          · rw [hnoted]
            rcases mem_addAll.mp hp with hp | hp
            · exact hknown p hp
            · exact (hw.noted p hp).2
          · exact mem_addAll.mpr ((hwritten p hp).imp_left (hall p))
        · rw [hwanted] at hp
          have hheld := hgood.wanted p hp
          unfold TouchedSession.held at hheld ⊢
          dsimp only
          cases hk : t.known with
          | none => simpa [hk] using hheld
          | some k =>
              simp only [hk, hw.writing, Option.getD_some, Option.isSome_some, if_true,
                List.mem_append, Option.map_some, mem_addAll, List.not_mem_nil, or_false] at hheld ⊢
              rcases hheld with (hp | hp) | hp
              · exact .inl (.inl hp)
              · exact .inr hp
              · exact .inl (.inr hp)
        · obtain ⟨hwritten, hnone⟩ := hforgotten hmem
          exact ⟨hwritten, by rw [hnone]; rfl⟩
      · have horder := hinv.order t ht hmode
        rwa [Slot.waiting, hstage, htail] at horder
      · rcases hw.session with ⟨-, hmem⟩ | hsome
        · exact (hforgotten hmem).1
        · rw [hsome] at hnone
          cases hnone
  · cases hstep

theorem Good.pop {tail : List Task} (hgood : Good tail t h) (hne : tail ≠ []) :
    Good tail.tail t h where
  pending := hgood.pending
  known := hgood.known
  wanted := hgood.wanted
  removal hmem := hgood.removal (List.mem_of_mem_tail hmem)
  settled hmode := (hgood.settled hmode).tail
  unknown hmode := absurd (hgood.unknown hmode) hne

theorem Inv.failed (hinv : Inv sessionId s h) {n : Option Nat} (hstep : s.failed n = some s') :
    Inv sessionId s' h := by
  unfold Slot.failed at hstep
  split at hstep
  · next fresh known batch text t hstage ht =>
      cases hstep
      have hgood := hinv.good t ht
      have hok := hinv.stage t ht
      rw [StageOk, hstage] at hok
      obtain ⟨hw, task, rest, htail, hne⟩ := hok
      have hlands := hw.lands n
      have hknown : ∀ k, (if fresh then none else t.known) = some k →
          fresh = false ∧ t.known = some k := by
        intro k hk
        cases fresh with
        | true => cases hk
        | false => exact ⟨rfl, hk⟩
      refine ⟨fun p hp => ?_, fun p hp => hlands.kept p (hinv.written p hp), fun hnone => ?_, ?_,
        ?_, ?_⟩
      · rcases hlands.new p hp with hp | hp
        · exact hinv.file p hp
        · exact (hw.noted p hp).2
      · cases hnone
      · intro t' ht'
        cases ht'
        have hne : s.tail ≠ [] := by
          rw [htail]
          exact List.cons_ne_nil _ _
        refine Good.pop (?_ : Good s.tail _ h) hne
        refine ⟨fun p hp => ?_, fun k hk => hgood.known k (hknown k hk).2, fun p hp => ?_,
          fun hmem => ?_, hgood.settled, hgood.unknown⟩
        · rcases mem_addAll.mp hp with hp | hp
          · exact hgood.pending p hp
          · exact hw.noted p (List.mem_of_mem_filter hp)
        · have hheld := hgood.wanted p hp
          unfold TouchedSession.held at hheld ⊢
          dsimp only
          cases hk : t.known with
          | none => simp_all [mem_addAll]
          | some k =>
              obtain rfl : k = known := by
                rcases hw.session with ⟨hnone, -⟩ | hsome
                · rw [hk] at hnone
                  cases hnone
                · exact Option.some.inj (hk.symm.trans hsome)
              rw [hk, hw.writing] at hheld
              have hbatch : p ∈ k ++ t.pending ++ batch := hheld
              have hpending : p ∉ k →
                  p ∈ addAll t.pending (batch.filter fun path => !k.contains path) := by
                intro hout
                rw [mem_addAll, List.mem_filter]
                rw [List.append_assoc, List.mem_append, List.mem_append] at hbatch
                rcases hbatch with hp | hp | hp
                · exact absurd hp hout
                · exact .inl hp
                · exact .inr ⟨hp, by simpa using hout⟩
              cases fresh with
              | true =>
                  have hempty := hw.first rfl
                  subst hempty
                  exact List.mem_append_left _ (hpending List.not_mem_nil)
              | false =>
                  refine List.mem_append_left _ ?_
                  by_cases hin : p ∈ k
                  · exact List.mem_append_left _ hin
                  · exact List.mem_append_right _ (hpending hin)
        · obtain ⟨hwritten, hnone⟩ := hgood.removal hmem
          refine ⟨hwritten, ?_⟩
          rw [hnone]
          exact ite_self _
      · intro t' ht' hmode
        cases ht'
        have horder := hinv.order t ht hmode
        rwa [Slot.waiting, hstage] at horder
      · intro t' ht'
        cases ht'
        refine ⟨rfl, fun hsome => ?_⟩
        obtain ⟨k, hk⟩ := Option.ne_none_iff_exists'.mp hsome
        exact hlands.usable (hw.usable (hknown k hk).1)
  · cases hstep

theorem Inv.collected (hinv : Inv sessionId s h) (hstep : s.collected = some s') :
    Inv sessionId s' h := by
  unfold Slot.collected at hstep
  split at hstep
  · next hstage =>
      cases hstep
      have hwork : ∀ t, s.session = some t → Idle sessionId s.file t ∧ s.tail ≠ [] := by
        intro t ht
        have hok := hinv.stage t ht
        rw [StageOk, hstage] at hok
        obtain ⟨hidle, ⟨outside, rest, htail⟩, -⟩ := hok
        exact ⟨hidle, by rw [htail]; exact List.cons_ne_nil _ _⟩
      refine ⟨hinv.file, hinv.written, fun hnone => ?_, fun t ht => ?_, fun t ht hmode => ?_,
        fun t ht => (hwork t ht).1⟩
      · obtain ⟨htail, -, hwanted⟩ := hinv.absent hnone
        exact ⟨by rw [htail]; rfl, rfl, hwanted⟩
      · exact (hinv.good t ht).pop (hwork t ht).2
      · have horder := hinv.order t ht hmode
        rwa [Slot.waiting, hstage] at horder
  · cases hstep

theorem Inv.removed (hinv : Inv sessionId s h) {gone : Bool} (hstep : s.removed gone = some s') :
    Inv sessionId s' h := by
  unfold Slot.removed at hstep
  split at hstep
  · next hstage =>
      cases hstep
      have hwork : ∀ t, s.session = some t → t.writing = [] ∧ .remove ∈ s.tail := by
        intro t ht
        have hok := hinv.stage t ht
        rw [StageOk, hstage] at hok
        obtain ⟨hidle, rest, htail⟩ := hok
        exact ⟨hidle.writing, by rw [htail]; exact List.mem_cons_self ..⟩
      cases hsession : s.session with
      | none =>
          obtain ⟨-, hqueued, -⟩ := hinv.absent hsession
          rw [hstage] at hqueued
          cases hqueued
      | some t =>
          obtain ⟨hwriting, hmem⟩ := hwork t hsession
          have hgood := hinv.good t hsession
          obtain ⟨hwritten, hnone⟩ := hgood.removal hmem
          refine ⟨fun p hp => ?_, ?_, fun hnone' => ?_, ?_, ?_, ?_⟩
          · cases gone with
            | true => cases hp
            | false => exact hinv.file p hp
          · rw [hwritten]
            exact fun p hp => by cases hp
          · cases hnone'
          · intro t' ht'
            cases ht'
            exact hgood.pop (List.ne_nil_of_mem hmem)
          · intro t' ht' hmode
            cases ht'
            have horder := hinv.order t hsession hmode
            rwa [Slot.waiting, hstage] at horder
          · intro t' ht'
            cases ht'
            exact ⟨hwriting, fun hne => absurd hnone hne⟩
  · cases hstep

theorem Inv.restart (hinv : Inv sessionId s h) (n : Option Nat) :
    Inv sessionId (s.restart n) { h with wanted := [] } := by
  have hbusy : s.stage ≠ .queued → ∃ t, s.session = some t := by
    intro hne
    cases hsession : s.session with
    | none => exact absurd (hinv.absent hsession).2.1 hne
    | some t => exact ⟨t, rfl⟩
  unfold Slot.restart
  split
  · next fresh known batch text hstage =>
      obtain ⟨t, ht⟩ := hbusy (by rw [hstage]; exact fun heq => by cases heq)
      have hok := hinv.stage t ht
      rw [StageOk, hstage] at hok
      have hlands := hok.1.lands n
      refine Inv.started (fun p hp => ?_) (fun p hp => hlands.kept p (hinv.written p hp)) rfl
      rcases hlands.new p hp with hp | hp
      · exact hinv.file p hp
      · exact (hok.1.noted p hp).2
  · next hstage =>
      obtain ⟨t, ht⟩ := hbusy (by rw [hstage]; exact fun heq => by cases heq)
      have hok := hinv.stage t ht
      rw [StageOk, hstage] at hok
      obtain ⟨-, rest, htail⟩ := hok
      obtain ⟨hwritten, -⟩ := (hinv.good t ht).removal (by rw [htail]; exact List.mem_cons_self ..)
      refine Inv.started (fun p hp => ?_) ?_ rfl
      · cases n with
        | none => exact hinv.file p hp
        | some n => cases hp
      · dsimp only
        rw [hwritten]
        exact fun p hp => by cases hp
  · exact Inv.started hinv.file hinv.written rfl

/-! ## Runs -/

theorem Inv.step (hinv : Inv sessionId s h) {act : Act} (hcareful : s.Careful act)
    (hstep : s.step sessionId act = some s') : Inv sessionId s' (h.after s act) := by
  cases act with
  | note path =>
      cases hstep
      exact hinv.note hcareful
  | decided mode =>
      cases hstep
      exact hinv.decided mode
  | track =>
      cases hstep
      exact hinv.track hcareful
  | snapshot outside =>
      cases hstep
      exact hinv.snapshot hcareful
  | forget =>
      cases hstep
      exact hinv.forget
  | start => exact hinv.start hcareful hstep
  | loaded => exact hinv.loaded hstep
  | appended => exact hinv.appended hstep
  | failed n => exact hinv.failed hstep
  | collected => exact hinv.collected hstep
  | removed gone => exact hinv.removed hstep

/-- A snapshot has what was written and what this run is to keep, and nothing that was not
noted. -/
theorem Inv.answer (hinv : Inv sessionId s h) {outside : Bool} {paths : List String}
    (hanswer : s.answer = some (outside, paths)) :
    (∀ p ∈ paths, p ∈ h.noted) ∧
      ∀ p, p ∈ h.written ∨ p ∈ h.wanted → isOutsideTouchedPath p = outside → p ∈ paths := by
  unfold Slot.answer at hanswer
  split at hanswer
  · next kind rest hstage htail =>
      cases hsession : s.session with
      | none =>
          obtain ⟨-, hqueued, -⟩ := hinv.absent hsession
          rw [hstage] at hqueued
          cases hqueued
      | some t =>
          have hgood := hinv.good t hsession
          have hok := hinv.stage t hsession
          rw [StageOk, hstage] at hok
          obtain ⟨hidle, -, hnone⟩ := hok
          rw [hsession] at hanswer
          cases hanswer
          have hall : ∀ p, p ∈ h.written ∨ p ∈ h.wanted →
              p ∈ addAll (t.known.getD []) t.pending := by
            rintro p (hp | hp)
            · rw [mem_addAll]
              cases hk : t.known with
              | none =>
                  rw [hnone hk] at hp
                  cases hp
              | some known => exact .inl ((hgood.known known hk).2 p hp)
            · have hheld := hgood.wanted p hp
              rw [TouchedSession.held, hidle.writing, ite_self, List.append_nil, List.mem_append]
                at hheld
              exact mem_addAll.mpr hheld
          refine ⟨fun p hp => ?_, fun p hp houtside => ?_⟩
          · rcases mem_addAll.mp (List.mem_of_mem_filter hp) with hp | hp
            · cases hk : t.known with
              | none =>
                  rw [hk] at hp
                  cases hp
              | some known =>
                  rw [hk] at hp
                  exact (hgood.known known hk).1 p hp
            · exact (hgood.pending p hp).2
          · exact List.mem_filter.mpr ⟨hall p hp, decide_eq_true houtside⟩
  · cases hanswer

def World.Inv (w : World) : Prop :=
  ∀ sessionId, TouchedPathStore.Inv sessionId (w.store sessionId) (w.history sessionId)

theorem World.Inv.step {w w' : World} {e : Event} (hinv : w.Inv) (hcareful : w.Careful e)
    (hstep : w.step e = some w') : w'.Inv := by
  obtain ⟨store, hstore, rfl⟩ := Option.map_eq_some_iff.mp hstep
  intro sessionId
  cases e with
  | session id act =>
      obtain ⟨slot, hslot, rfl⟩ := Option.map_eq_some_iff.mp hstore
      by_cases hid : sessionId = id
      · subst hid
        dsimp only
        rw [Function.update_self, Function.update_self]
        exact (hinv sessionId).step hcareful hslot
      · dsimp only
        rw [Function.update_of_ne hid, Function.update_of_ne hid]
        exact hinv sessionId
  | flush =>
      cases hstore
      exact (hinv sessionId).flush
  | restart landed =>
      cases hstore
      exact (hinv sessionId).restart (landed sessionId)

theorem World.step_session (w : World) (sessionId : String) (act : Act) {slot : Slot}
    (h : (w.store sessionId).step sessionId act = some slot) :
    ∃ w', w.step (.session sessionId act) = some w' ∧ w'.store sessionId = slot ∧
      w'.history sessionId = (w.history sessionId).after (w.store sessionId) act := by
  refine ⟨⟨Function.update w.store sessionId slot, Function.update w.history sessionId
    ((w.history sessionId).after (w.store sessionId) act)⟩, ?_, Function.update_self ..,
    Function.update_self ..⟩
  rw [World.step, Store.step, h]
  rfl

/-- What a new store does for its first snapshot. -/
def reopen (landed : String → Option Nat) (sessionId : String) (outside : Bool) : List Event :=
  [.restart landed, .session sessionId (.snapshot outside), .session sessionId .start,
    .session sessionId .loaded]

theorem World.Inv.reopen {w : World} (hinv : w.Inv) (landed : String → Option Nat)
    (sessionId : String) (outside : Bool) :
    ∃ w' paths, runActions World.step (reopen landed sessionId outside) w = some w' ∧
      (w'.store sessionId).answer = some (outside, paths) ∧
      ∀ p ∈ (w.history sessionId).written, isOutsideTouchedPath p = outside → p ∈ paths := by
  obtain ⟨file, hfile⟩ : ∃ file, (w.store sessionId).restart (landed sessionId) = { file } := by
    unfold Slot.restart
    split <;> exact ⟨_, rfl⟩
  obtain ⟨w₁, hw₁⟩ : ∃ w₁, w.step (.restart landed) = some w₁ := ⟨_, rfl⟩
  have hinv₁ := hinv.step (e := .restart landed) trivial hw₁
  have hstore₁ : w₁.store sessionId = { file } := by
    cases hw₁
    exact hfile
  have hwritten₁ : (w₁.history sessionId).written = (w.history sessionId).written := by
    cases hw₁
    rfl
  obtain ⟨w₂, hw₂, hstore₂, hhistory₂⟩ := World.step_session w₁ sessionId
    (.snapshot outside) rfl
  have hinv₂ := hinv₁.step (e := .session sessionId (.snapshot outside))
    (by rw [World.Careful, hstore₁]; rfl) hw₂
  rw [hstore₁] at hstore₂
  have hcareful₂ : w₂.Careful (.session sessionId .start) := by
    rw [World.Careful, hstore₂]
    intro _ t ht _ hknown
    cases ht
    exact absurd rfl hknown
  obtain ⟨w₃, hw₃, hstore₃, hhistory₃⟩ := World.step_session w₂ sessionId .start
    (by rw [hstore₂]; rfl)
  have hinv₃ := hinv₂.step hcareful₂ hw₃
  obtain ⟨w₄, hw₄, hstore₄, hhistory₄⟩ := World.step_session w₃ sessionId .loaded
    (by rw [hstore₃]; rfl)
  have hinv₄ := hinv₃.step (e := .session sessionId .loaded) trivial hw₄
  have hwritten₄ : (w₄.history sessionId).written = (w.history sessionId).written := by
    rw [hhistory₄, hhistory₃, hhistory₂, ← hwritten₁]
    rfl
  have hanswer : ∃ paths, (w₄.store sessionId).answer = some (outside, paths) := by
    rw [hstore₄]
    exact ⟨_, rfl⟩
  obtain ⟨paths, hpaths⟩ := hanswer
  refine ⟨w₄, paths, ?_, hpaths, fun p hp => ((hinv₄ sessionId).answer hpaths).2 p (.inl ?_)⟩
  · rw [TouchedPathStore.reopen, runActions, hw₁, Option.bind_some, runActions, hw₂,
      Option.bind_some, runActions, hw₃, Option.bind_some, runActions, hw₄, Option.bind_some,
      runActions]
  · rwa [hwritten₄]

/-- In every run whose steps are careful a snapshot has the paths that were written for the
session, in this run of the app or an earlier one, and those this run is to keep, and none
that was not noted. A new store's first snapshot has every path that was written, whatever
landed of the work that was under way. -/
theorem touched_paths_durable {w : World} (h : Reach World.step World.Careful World.empty w)
    (sessionId : String) :
    (∀ outside paths, (w.store sessionId).answer = some (outside, paths) →
      (∀ p ∈ paths, p ∈ (w.history sessionId).noted) ∧
        ∀ p, p ∈ (w.history sessionId).written ∨ p ∈ (w.history sessionId).wanted →
          isOutsideTouchedPath p = outside → p ∈ paths) ∧
      ∀ landed outside, ∃ w' paths,
        runActions World.step (reopen landed sessionId outside) w = some w' ∧
          (w'.store sessionId).answer = some (outside, paths) ∧
          ∀ p ∈ (w.history sessionId).written, isOutsideTouchedPath p = outside → p ∈ paths := by
  have hinv : w.Inv := h.invariant (fun _ _ _ hinv hguard hstep => hinv.step hguard hstep)
    fun _ => Inv.started (fun _ hp => by cases hp) (fun _ hp => by cases hp) rfl
  exact ⟨fun outside paths hanswer => (hinv sessionId).answer hanswer,
    fun landed outside => hinv.reopen landed sessionId outside⟩

/-- One path is written, the next one torn by a full disk and written after that. -/
def tornAppend : List Event :=
  [.session "s" (.note "a"), .session "s" .track, .flush, .session "s" .start,
    .session "s" .loaded, .session "s" .appended, .session "s" (.note "b"), .flush,
    .session "s" .start, .session "s" (.failed (some 2)), .flush, .session "s" .start,
    .session "s" .appended]

theorem first_append_durable : ∃ w, Reach World.step World.Careful World.empty w ∧
    "a" ∈ (w.history "s").written ∧ ∃ w' paths,
      runActions World.step (reopen (fun _ => none) "s" false) w = some w' ∧
        (w'.store "s").answer = some (false, paths) ∧ "a" ∈ paths := by
  have hrun : (runActions (fun s a => if World.Careful s a then World.step s a else none)
      (tornAppend.take 10) World.empty).any (fun w => "a" ∈ (w.history "s").written) = true := by
    decide +kernel
  obtain ⟨w, hw, hwritten⟩ := exists_of_any hrun
  obtain ⟨hreach, -⟩ := reach_of_checked hw
  have hmem : "a" ∈ (w.history "s").written := of_decide_eq_true hwritten
  obtain ⟨w', paths, hrun', hanswer, hall⟩ :=
    (touched_paths_durable hreach "s").2 (fun _ => none) false
  exact ⟨w, hreach, hmem, w', paths, hrun', hanswer, hall "a" hmem (by decide +kernel)⟩

/-- The path whose line was torn is written again in the torn line, reported written, and not
there after a restart. -/
theorem torn_append_loses :
    (runActions World.step tornAppend World.empty).any (fun w =>
      decide ("b" ∈ (w.history "s").written) &&
        (runActions World.step (reopen (fun _ => none) "s" false) w).any fun w' =>
          (w'.store "s").answer = some (false, ["a"])) = true := by
  decide +kernel

end OmniRush.Archive.TouchedPathStore
