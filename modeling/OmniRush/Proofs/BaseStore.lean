import OmniRush.Server.TurnBases

/-!
# The accounts of the base store

What is kept of the store from await to await (`StoreSound`), and one lemma for each of its
operations. The accounts alone (`Accounts`) are right at any time, but for the budget. A digest is
set in the index by a write only, and the write has looked before whether it is there. So the sum
is right as long as no two writes of one digest are under way that may both set it; such writes,
and those still in the queue, are `live`.
-/

namespace OmniRush.Server

namespace TurnBaseStore

/-- The write may still set its digest in the index. -/
def isLive (generation : Nat) (t : BaseWrite) : Bool :=
  t.generation = generation && t.stage ≠ .settled

/-- The digests of the live writes. -/
def live (generation : Nat) (writes : List BaseWrite) : List String :=
  (writes.filter (isLive generation)).map BaseWrite.sha256

end TurnBaseStore

open TurnBaseStore

/-- A saved index gives each digest the size of its texts, and no more in all than the budget. -/
def SavedSound (sizes : String → Nat) (budget : Nat) (entries : List (String × Int)) : Prop :=
  (∀ entry ∈ entries, entry.2 = sizes entry.1) ∧ (entries.map Prod.snd).sum ≤ budget

/-- The accounts of the store. -/
structure Accounts (digest : String → String) (sizes : String → Nat) (budget : Nat)
    (s : TurnBaseStore) : Prop where
  used : s.used = s.index.total id
  index : ∀ name bytes, s.index.get name = some bytes → bytes = sizes name
  pendingBytes : s.pendingBytes = s.pending.total HeldText.bytes
  pending : ∀ name held, s.pending.get name = some held →
    digest held.text = name ∧ held.bytes = sizes name
  writes : ∀ t ∈ s.writes, ∀ held, t.held = some held → held.bytes = sizes t.sha256
  generations : ∀ t ∈ s.writes, t.generation ≤ s.generation
  distinct : (live s.generation s.writes ++ s.queue).Nodup
  absent : ∀ t ∈ s.writes, isLive s.generation t = true → t.stage = .mkdir ∨ t.stage = .file →
    s.index.get t.sha256 = none
  loading : s.ready = false → ∀ t ∈ s.writes, t.stage = .ready
  saves : ∀ job ∈ s.saves,
    SavedSound sizes budget (job.index.map fun (name, bytes) => (name, (bytes : Int)))
  active : s.active = s.writes.length

/-- What holds of the store at every await. -/
structure StoreSound (digest : String → String) (sizes : String → Nat) (budget : Nat)
    (s : TurnBaseStore) : Prop extends Accounts digest sizes budget s where
  cap : s.used ≤ budget
  busy : s.queue ≠ [] → baseWriteConcurrency ≤ s.active
  waiters : ∀ waiter ∈ s.waiters, waiter.limit < s.outstanding

section

variable {digest : String → String} {sizes : String → Nat} {budget : Nat} {s : TurnBaseStore}

theorem storeSound_new : StoreSound digest sizes budget {} where
  used := rfl
  index := nofun
  pendingBytes := rfl
  pending := nofun
  writes := nofun
  generations := nofun
  distinct := List.nodup_nil
  absent := nofun
  loading := fun _ => nofun
  saves := nofun
  active := rfl
  cap := Int.natCast_nonneg _
  busy := fun h => absurd rfl h
  waiters := nofun

/-! ## The index -/

theorem get_move {r : Record Nat} {name n : String} {bytes : Nat} :
    ((r.delete name).set name bytes).get n = if n = name then some bytes else r.get n := by
  rw [Record.get_set]
  split
  · rfl
  · next hne => rw [Record.get_delete, if_neg hne]

theorem StoreSound.touch (h : StoreSound digest sizes budget s) {name : String} {bytes : Nat}
    (hin : (s.index.get name).isSome = true) (hbytes : bytes = sizes name) :
    StoreSound digest sizes budget (s.touch name bytes) := by
  obtain ⟨old, hold⟩ := Option.isSome_iff_exists.mp hin
  obtain rfl : bytes = old := hbytes.trans (h.index name old hold).symm
  exact { h with
    used := h.used.trans (congrArg _ (Record.total_move hold).symm)
    index := by
      intro n b hb
      rw [show (s.touch name bytes).index = (s.index.delete name).set name bytes from rfl,
        get_move] at hb
      split at hb
      · next heq => cases hb; rw [heq]; exact hbytes
      · exact h.index n b hb
    absent := by
      intro t ht hlive hstage
      have hnone := h.absent t ht hlive hstage
      rw [show (s.touch name bytes).index = (s.index.delete name).set name bytes from rfl,
        get_move, if_neg, hnone]
      intro heq
      rw [heq, hold] at hnone
      cases hnone }

/-- What `evict` leaves of a store whose accounts are right, but for the budget. -/
theorem evictFrom_spec (entries : List (String × Nat)) (hentries : s.index.entries = entries)
    (hused : s.used = s.index.total id) :
    ∃ index used removals removing next,
      evictFrom budget entries s = { s with index, used, removals, removing, next } ∧
        used = index.total id ∧ used ≤ budget ∧
        ∀ name bytes, index.get name = some bytes → s.index.get name = some bytes := by
  induction entries generalizing s with
  | nil =>
      refine ⟨s.index, s.used, s.removals, s.removing, s.next, rfl, hused, ?_, fun _ _ h => h⟩
      have hzero : s.index.total id = 0 := by rw [Record.total, hentries]; rfl
      rw [hused, hzero]
      exact Int.natCast_nonneg _
  | cons entry rest ih =>
      obtain ⟨name, bytes⟩ := entry
      rw [evictFrom]
      split
      · next hle => exact ⟨_, _, _, _, _, rfl, hused, hle, fun _ _ h => h⟩
      · have hget : s.index.get name = some bytes := by
          rw [Record.get_eq_some, hentries]
          exact List.mem_cons_self
        have hdistinct := s.index.distinct
        rw [hentries, List.map_cons, List.nodup_cons] at hdistinct
        have hdelete : (s.index.delete name).entries = rest := by
          show s.index.entries.filter _ = rest
          rw [hentries, List.filter_cons_of_neg (by simp), List.filter_eq_self]
          intro entry hentry
          have hne : entry.1 ≠ name := fun heq =>
            hdistinct.1 (List.mem_map.mpr ⟨entry, hentry, heq⟩)
          simpa using hne
        have htotal := Record.total_delete (f := id) hget
        obtain ⟨index, used, removals, removing, next, heq, hused', hle, hsub⟩ := ih (s := { s with
          index := s.index.delete name, used := s.used - bytes
          removals := s.removals.set name s.next, removing := s.removing ++ [(s.next, name)]
          next := s.next + 1 }) hdelete (by
            show s.used - bytes = ((s.index.delete name).total id : Nat)
            simp only [id_eq] at htotal
            omega)
        refine ⟨index, used, removals, removing, next, heq, hused', hle, fun n b hb => ?_⟩
        have hold := hsub n b hb
        rw [show ({ s with
          index := s.index.delete name, used := s.used - bytes
          removals := s.removals.set name s.next, removing := s.removing ++ [(s.next, name)]
          next := s.next + 1 } : TurnBaseStore).index = s.index.delete name from rfl,
          Record.get_delete] at hold
        split at hold
        · cases hold
        · exact hold

theorem evict_spec (budget : Nat) (hused : s.used = s.index.total id) :
    ∃ index used removals removing next,
      s.evict budget = { s with index, used, removals, removing, next } ∧
        used = index.total id ∧ used ≤ budget ∧
        ∀ name bytes, index.get name = some bytes → s.index.get name = some bytes :=
  evictFrom_spec s.index.entries rfl hused

theorem Accounts.evict (h : Accounts digest sizes budget s) :
    Accounts digest sizes budget (s.evict budget) := by
  obtain ⟨index, used, removals, removing, next, heq, hused, -, hsub⟩ := evict_spec budget h.used
  rw [heq]
  exact { h with
    used := hused
    index := fun name bytes hget => h.index name bytes (hsub name bytes hget)
    absent := by
      intro t ht hlive hstage
      have hnone := h.absent t ht hlive hstage
      show index.get t.sha256 = none
      cases hget : index.get t.sha256 with
      | none => rfl
      | some bytes =>
          rw [hsub _ _ hget] at hnone
          cases hnone }

/-! ## The queue -/

theorem pumpFrom_spec (queue : List String) (hqueue : s.queue = queue) :
    ∃ k started next, pumpFrom queue s = { s with
        queue := queue.drop k, active := s.active + k, writes := s.writes ++ started, next } ∧
      started.map BaseWrite.sha256 = queue.take k ∧ started.length = k ∧
      (∀ t ∈ started, t.generation = s.generation ∧ t.held = s.pending.get t.sha256 ∧
        t.stage = .ready) ∧
      (queue.drop k ≠ [] → baseWriteConcurrency ≤ s.active + k) := by
  induction queue generalizing s with
  | nil =>
      refine ⟨0, [], s.next, ?_, rfl, rfl, nofun, fun h => absurd rfl h⟩
      cases s
      cases hqueue
      rw [pumpFrom, List.append_nil]
      rfl
  | cons name rest ih =>
      rw [pumpFrom]
      split
      · obtain ⟨k, started, next, heq, hnames, hlength, hstarted, hbusy⟩ := ih (s := { s with
          queue := rest, active := s.active + 1
          writes := s.writes ++ [⟨s.next, name, s.generation, s.pending.get name, .ready⟩]
          next := s.next + 1 }) rfl
        refine ⟨k + 1, ⟨s.next, name, s.generation, s.pending.get name, .ready⟩ :: started, next,
          ?_, congrArg (name :: ·) hnames, congrArg (· + 1) hlength, ?_, ?_⟩
        · rw [heq]
          simp only [List.drop_succ_cons, List.append_assoc, List.singleton_append,
            TurnBaseStore.mk.injEq, true_and, and_true]
          omega
        · intro t ht
          rcases List.mem_cons.mp ht with heq | ht
          · rw [heq]
            exact ⟨rfl, rfl, rfl⟩
          · exact hstarted t ht
        · intro hne
          have hle := hbusy hne
          show baseWriteConcurrency ≤ s.active + (k + 1)
          simp only at hle
          omega
      · next hfull =>
          refine ⟨0, [], s.next, ?_, rfl, rfl, nofun, fun _ => Nat.le_of_not_lt hfull⟩
          rw [List.append_nil, List.drop_zero, ← hqueue]
          rfl

theorem live_append (generation : Nat) (writes more : List BaseWrite) :
    live generation (writes ++ more) = live generation writes ++ live generation more := by
  simp only [live, List.filter_append, List.map_append]

theorem live_started {generation : Nat} {started : List BaseWrite}
    (h : ∀ t ∈ started, t.generation = generation ∧ t.stage = .ready) :
    live generation started = started.map BaseWrite.sha256 := by
  simp only [live]
  rw [List.filter_eq_self.mpr]
  intro t ht
  obtain ⟨hgeneration, hstage⟩ := h t ht
  simp [isLive, hgeneration, hstage]

theorem Accounts.pump (h : Accounts digest sizes budget s) :
    Accounts digest sizes budget s.pump := by
  obtain ⟨k, started, next, heq, hnames, hlength, hstarted, -⟩ := pumpFrom_spec s.queue rfl
  rw [TurnBaseStore.pump, heq]
  have hnew : ∀ t ∈ s.writes ++ started, t ∈ s.writes ∨ t ∈ started :=
    fun t ht => List.mem_append.mp ht
  exact { h with
    writes := by
      intro t ht held hheld
      rcases hnew t ht with ht | ht
      · exact h.writes t ht held hheld
      · rw [(hstarted t ht).2.1] at hheld
        exact (h.pending _ held hheld).2
    generations := by
      intro t ht
      rcases hnew t ht with ht | ht
      · exact h.generations t ht
      · exact Nat.le_of_eq (hstarted t ht).1
    distinct := by
      show (live s.generation (s.writes ++ started) ++ s.queue.drop k).Nodup
      rw [live_append, live_started fun t ht => ⟨(hstarted t ht).1, (hstarted t ht).2.2⟩, hnames,
        List.append_assoc, List.take_append_drop]
      exact h.distinct
    absent := by
      intro t ht hlive hstage
      rcases hnew t ht with ht | ht
      · exact h.absent t ht hlive hstage
      · rw [(hstarted t ht).2.2] at hstage
        rcases hstage with hstage | hstage <;> cases hstage
    loading := by
      intro hready t ht
      rcases hnew t ht with ht | ht
      · exact h.loading hready t ht
      · exact (hstarted t ht).2.2
    active := by
      show s.active + k = (s.writes ++ started).length
      rw [List.length_append, hlength, h.active] }

theorem pump_busy : s.pump.queue ≠ [] → baseWriteConcurrency ≤ s.pump.active := by
  obtain ⟨k, started, next, heq, -, -, -, hbusy⟩ := pumpFrom_spec s.queue rfl
  rw [TurnBaseStore.pump, heq]
  exact hbusy

theorem pump_same : s.pump.ready = s.ready ∧ s.pump.index = s.index ∧ s.pump.used = s.used ∧
    s.pump.waiters = s.waiters ∧ s.pump.generation = s.generation ∧ s.pump.dirty = s.dirty ∧
    s.pump.saveTimer = s.saveTimer ∧ s.pump.saves = s.saves := by
  obtain ⟨k, started, next, heq, -⟩ := pumpFrom_spec s.queue rfl
  rw [TurnBaseStore.pump, heq]
  exact ⟨rfl, rfl, rfl, rfl, rfl, rfl, rfl, rfl⟩

theorem pump_outstanding (hpos : 0 ≤ s.pendingBytes) : s.outstanding ≤ s.pump.outstanding := by
  obtain ⟨k, started, next, heq, -, -, -, -⟩ := pumpFrom_spec s.queue rfl
  rw [TurnBaseStore.pump, heq]
  have hless : (0 : Int) ≤ s.pendingBytes + 1 := by omega
  by_cases hbusy : 0 < s.active ∨ s.queue ≠ []
  · have hafter : 0 < s.active + k ∨ s.queue.drop k ≠ [] := by
      cases k with
      | zero => exact hbusy
      | succ k => exact .inl (Nat.lt_add_left _ (Nat.succ_pos k))
    exact Int.le_of_eq ((if_pos hbusy).trans (if_pos hafter).symm)
  · by_cases hafter : 0 < s.active + k ∨ s.queue.drop k ≠ []
    · simp only [outstanding]
      rw [if_neg hbusy, if_pos hafter]
      exact hless
    · exact Int.le_of_eq ((if_neg hbusy).trans (if_neg hafter).symm)

/-! ## Waiters -/

theorem Accounts.wake (h : Accounts digest sizes budget s) :
    Accounts digest sizes budget s.wake := { h with }

theorem wake_waiters : ∀ waiter ∈ s.wake.waiters, waiter.limit < s.wake.outstanding :=
  fun _ hin => of_decide_eq_true (List.mem_filter.mp hin).2

theorem StoreSound.below (h : StoreSound digest sizes budget s) (limit : Nat) :
    StoreSound digest sizes budget (s.below limit) :=
  { h with waiters := wake_waiters }

theorem StoreSound.writable (h : StoreSound digest sizes budget s) :
    StoreSound digest sizes budget s.writable := by
  simp only [TurnBaseStore.writable]
  split
  · exact h
  · exact h.below _

/-! ## Puts -/

theorem StoreSound.put (h : StoreSound digest sizes budget s) {name text : String} {bytes : Nat}
    (hdigest : digest text = name) (hbytes : bytes = sizes name)
    (hclean : s.pending.get name = none → name ∉ live s.generation s.writes ++ s.queue) :
    StoreSound digest sizes budget (s.put budget name text bytes) := by
  simp only [TurnBaseStore.put]
  by_cases hlarge : maxBaseTextBytes < bytes
  · rw [if_pos hlarge]
    exact h
  rw [if_neg hlarge]
  by_cases hin : (s.index.get name).isSome = true
  · rw [if_pos hin]
    exact h.touch hin hbytes
  rw [if_neg hin]
  split
  · exact h
  · next hnew =>
      simp only [Bool.or_eq_true, not_or, Bool.not_eq_true, Option.isSome_eq_false_iff,
        Option.isNone_iff_eq_none] at hnew
      have hnone := hnew.1
      generalize hs : ({ s with
        pending := s.pending.set name ⟨text, bytes⟩, pendingBytes := s.pendingBytes + bytes
        queue := s.queue ++ [name] } : TurnBaseStore) = after
      have haccounts : Accounts digest sizes budget after := by
        subst hs
        exact { h with
          pendingBytes := by
            show s.pendingBytes + bytes = ((s.pending.set name ⟨text, bytes⟩).total _ : Nat)
            rw [Record.total_set_new hnone, h.pendingBytes]
            rfl
          pending := by
            intro n held hheld
            rw [Record.get_set] at hheld
            split at hheld
            · next heq =>
                cases hheld
                exact ⟨hdigest.trans heq.symm, hbytes.trans (congrArg sizes heq.symm)⟩
            · exact h.pending n held hheld
          distinct := by
            rw [← List.append_assoc, List.nodup_append]
            refine ⟨h.distinct, List.nodup_singleton _, fun x hx y hy heq => ?_⟩
            rw [List.mem_singleton.mp hy] at heq
            exact hclean hnone (heq ▸ hx) }
      have hmore : s.outstanding ≤ after.pump.outstanding := by
        have hpending : 0 ≤ s.pendingBytes := by
          rw [h.pendingBytes]
          exact Int.natCast_nonneg _
        have hafter : s.outstanding ≤ after.outstanding := by
          subst hs
          simp only [outstanding]
          rw [if_pos (.inr (by simp)) (c := 0 < s.active ∨ s.queue ++ [name] ≠ [])]
          split <;> omega
        refine Int.le_trans hafter (pump_outstanding ?_)
        subst hs
        show 0 ≤ s.pendingBytes + bytes
        omega
      obtain ⟨-, -, hused, hwaiters, -⟩ := pump_same (s := after)
      have hsame : after.used = s.used ∧ after.waiters = s.waiters := by
        subst hs
        exact ⟨rfl, rfl⟩
      exact { haccounts.pump with
        cap := by rw [hused, hsame.1]; exact h.cap
        busy := pump_busy
        waiters := by
          rw [hwaiters, hsame.2]
          exact fun waiter hin => Int.lt_of_lt_of_le (h.waiters waiter hin) hmore }

theorem put_same (budget : Nat) (name text : String) (bytes : Nat) :
    (s.put budget name text bytes).ready = s.ready ∧
      (s.index = .empty → (s.put budget name text bytes).index = .empty) := by
  simp only [TurnBaseStore.put]
  split
  · exact ⟨rfl, id⟩
  · split
    · next hin =>
        refine ⟨rfl, fun hempty => ?_⟩
        rw [hempty] at hin
        cases hin
    · split
      · exact ⟨rfl, id⟩
      · exact ⟨pump_same.1, fun hempty => pump_same.2.1.trans hempty⟩

/-! ## Writes -/

theorem split_at {i : Nat} {t : BaseWrite} {writes : List BaseWrite} (ht : writes[i]? = some t) :
    ∃ before after, writes = before ++ t :: after ∧ writes.eraseIdx i = before ++ after ∧
      ∀ t', writes.set i t' = before ++ t' :: after := by
  obtain ⟨hlt, rfl⟩ := List.getElem?_eq_some_iff.mp ht
  refine ⟨writes.take i, writes.drop (i + 1), ?_, ?_, fun t' => ?_⟩
  · rw [← List.drop_eq_getElem_cons hlt, List.take_append_drop]
  · exact List.eraseIdx_eq_take_drop_succ ..
  · exact List.set_eq_take_append_cons_drop ..  |>.trans (if_pos hlt)

theorem live_cons (generation : Nat) (t : BaseWrite) (writes : List BaseWrite) :
    live generation (t :: writes) =
      (if isLive generation t then [t.sha256] else []) ++ live generation writes := by
  simp only [live, List.filter_cons]
  split <;> rfl

theorem live_set_sublist {generation i : Nat} {t : BaseWrite} {writes : List BaseWrite}
    (ht : writes[i]? = some t) (hstage : t.stage ≠ .settled) (stage : WriteStage) :
    (live generation (writes.set i { t with stage })).Sublist (live generation writes) := by
  obtain ⟨before, after, hwrites, -, hset⟩ := split_at ht
  rw [hset, hwrites, live_append, live_append, live_cons, live_cons]
  refine List.Sublist.append_left (List.Sublist.append_right ?_ _) _
  by_cases hold : isLive generation t = true
  · rw [if_pos hold]
    split
    · exact List.Sublist.refl _
    · exact List.nil_sublist _
  · rw [if_neg hold, if_neg]
    intro hlive
    simp only [isLive, Bool.and_eq_true, decide_eq_true_eq] at hold hlive
    exact hold ⟨hlive.1, hstage⟩

theorem mem_set {i : Nat} {t t' other : BaseWrite} {writes : List BaseWrite}
    (ht : writes[i]? = some t) (h : other ∈ writes.set i t') : other = t' ∨ other ∈ writes := by
  obtain ⟨before, after, hwrites, -, hset⟩ := split_at ht
  rw [hset] at h
  rw [hwrites]
  simp only [List.mem_append, List.mem_cons] at h ⊢
  tauto

theorem StoreSound.setStage (h : StoreSound digest sizes budget s) {i : Nat} {t : BaseWrite}
    (ht : s.writes[i]? = some t) (hready : s.ready = true) (hstage : t.stage ≠ .settled)
    (stage : WriteStage)
    (habsent : stage = .mkdir ∨ stage = .file → isLive s.generation t = true →
      s.index.get t.sha256 = none) :
    StoreSound digest sizes budget { s with writes := s.writes.set i { t with stage } } := by
  have hin : t ∈ s.writes := List.mem_of_getElem? ht
  exact { h with
    writes := by
      intro other hother
      rcases mem_set ht hother with heq | hother
      · rw [heq]
        exact h.writes t hin
      · exact h.writes other hother
    generations := by
      intro other hother
      rcases mem_set ht hother with heq | hother
      · rw [heq]
        exact h.generations t hin
      · exact h.generations other hother
    distinct := h.distinct.sublist ((live_set_sublist ht hstage stage).append_right _)
    absent := by
      intro other hother hlive hother'
      rcases mem_set ht hother with heq | hother
      · rw [heq] at hlive hother' ⊢
        simp only [isLive, Bool.and_eq_true, decide_eq_true_eq] at hlive
        refine habsent hother' ?_
        simp only [isLive, Bool.and_eq_true, decide_eq_true_eq]
        exact ⟨hlive.1, hstage⟩
      · exact h.absent other hother hlive hother'
    loading := fun hloading => by
      rw [show s.ready = false from hloading] at hready
      cases hready
    active := by
      show s.active = (s.writes.set i _).length
      rw [List.length_set, h.active] }

theorem StoreSound.alone (h : StoreSound digest sizes budget s) {i : Nat} {t : BaseWrite}
    (ht : s.writes[i]? = some t) (hlive : isLive s.generation t = true) :
    ∀ other ∈ s.writes.set i { t with stage := .settled }, isLive s.generation other = true →
      other.sha256 ≠ t.sha256 := by
  obtain ⟨before, after, hwrites, -, hset⟩ := split_at ht
  intro other hother hother' heq
  have hnot := (List.nodup_append.mp h.distinct).1
  rw [hwrites, live_append, live_cons, if_pos hlive, List.singleton_append, List.nodup_middle,
    List.nodup_cons] at hnot
  refine hnot.1 ?_
  rw [← heq, ← live_append]
  refine List.mem_map_of_mem (List.mem_filter.mpr ⟨?_, hother'⟩)
  rw [hset, List.mem_append, List.mem_cons] at hother
  rcases hother with hother | heq' | hother
  · exact List.mem_append_left _ hother
  · rw [heq'] at hother'
    simp [isLive] at hother'
  · exact List.mem_append_right _ hother

theorem StoreSound.written (h : StoreSound digest sizes budget s) {i : Nat} {t : BaseWrite}
    {held : HeldText} (ht : s.writes[i]? = some t) (hready : s.ready = true)
    (hheld : t.held = some held) (hstage : t.stage = .file)
    (hgeneration : t.generation = s.generation) :
    StoreSound digest sizes budget { ({ s with
        index := s.index.set t.sha256 held.bytes, used := s.used + held.bytes
        dirty := true }.evict budget).scheduleSave with
      writes := s.writes.set i { t with stage := .settled } } := by
  have hlive : isLive s.generation t = true := by simp [isLive, hgeneration, hstage]
  have hnone : s.index.get t.sha256 = none :=
    h.absent t (List.mem_of_getElem? ht) hlive (.inr hstage)
  have hbytes := h.writes t (List.mem_of_getElem? ht) held hheld
  have hsettled := h.setStage ht hready (by simp [hstage]) .settled nofun
  have hothers := h.alone ht hlive
  obtain ⟨index, used, removals, removing, next, heq, hused, hcap, hsub⟩ := evict_spec
    budget (s := { s with
      index := s.index.set t.sha256 held.bytes, used := s.used + held.bytes, dirty := true }) (by
      show s.used + held.bytes = ((s.index.set t.sha256 held.bytes).total id : Nat)
      rw [Record.total_set_new hnone, h.used]
      rfl)
  rw [heq]
  exact { hsettled with
    used := hused
    cap := hcap
    index := by
      intro name bytes hget
      have hset := hsub name bytes hget
      rw [Record.get_set] at hset
      split at hset
      · next hname =>
          cases hset
          rw [hname]
          exact hbytes
      · exact h.index name bytes hset
    absent := by
      intro other hother hlive' hstage'
      have hold := hsettled.absent other hother hlive' hstage'
      show index.get other.sha256 = none
      cases hget : index.get other.sha256 with
      | none => rfl
      | some bytes =>
          have hset := hsub _ _ hget
          rw [Record.get_set, if_neg (hothers other hother hlive')] at hset
          rw [show s.index.get other.sha256 = none from hold] at hset
          cases hset }

theorem StoreSound.finishWrite (h : StoreSound digest sizes budget s) {i : Nat} {t : BaseWrite}
    (ht : s.writes[i]? = some t) : StoreSound digest sizes budget (s.finishWrite i t.sha256) := by
  obtain ⟨before, after, hwrites, herase, -⟩ := split_at ht
  have herased : Accounts digest sizes budget
      { s with writes := s.writes.eraseIdx i, active := s.active - 1 } :=
    { h with
      writes := fun other hother => h.writes other (List.mem_of_mem_eraseIdx hother)
      generations := fun other hother => h.generations other (List.mem_of_mem_eraseIdx hother)
      distinct := by
        have hsub : (s.writes.eraseIdx i).Sublist s.writes := List.eraseIdx_sublist ..
        exact h.distinct.sublist (((hsub.filter _).map _).append_right _)
      absent := fun other hother => h.absent other (List.mem_of_mem_eraseIdx hother)
      loading := fun hready other hother =>
        h.loading hready other (List.mem_of_mem_eraseIdx hother)
      active := by
        show s.active - 1 = (s.writes.eraseIdx i).length
        rw [h.active, herase, hwrites]
        simp only [List.length_append, List.length_cons]
        omega }
  have hdropped : ∀ held, s.pending.get t.sha256 = some held → Accounts digest sizes budget
      { s with
        writes := s.writes.eraseIdx i, active := s.active - 1
        pending := s.pending.delete t.sha256, pendingBytes := s.pendingBytes - held.bytes } :=
    fun held hget => { herased with
      pendingBytes := by
        have htotal := Record.total_delete (f := HeldText.bytes) hget
        have hsame := h.pendingBytes
        show s.pendingBytes - held.bytes = ((s.pending.delete t.sha256).total _ : Nat)
        omega
      pending := by
        intro n other hother
        rw [Record.get_delete] at hother
        split at hother
        · cases hother
        · exact h.pending n other hother }
  have hused : ∀ s' : TurnBaseStore, s'.pump.wake.used = s'.used :=
    fun s' => (pump_same (s := s')).2.2.1
  have hresult : ∀ s' : TurnBaseStore, Accounts digest sizes budget s' → s'.used = s.used →
      StoreSound digest sizes budget s'.pump.wake := by
    intro s' hs' hsame
    exact { hs'.pump.wake with
      cap := by rw [hused, hsame]; exact h.cap
      busy := pump_busy
      waiters := wake_waiters }
  simp only [TurnBaseStore.finishWrite]
  split
  · next held hget => exact hresult _ (hdropped held hget) rfl
  · exact hresult _ herased rfl

/-- Two states of the store that differ in the writes, the queue and what is pending only. -/
def SameIndex (s s' : TurnBaseStore) : Prop :=
  s'.ready = s.ready ∧ s'.index = s.index ∧ s'.generation = s.generation ∧ s'.dirty = s.dirty ∧
    s'.saveTimer = s.saveTimer ∧ s'.saves = s.saves

theorem finishWrite_same (i : Nat) (name : String) : SameIndex s (s.finishWrite i name) := by
  have hresult : ∀ after, SameIndex s after → SameIndex s after.pump.wake := by
    intro after hsame
    obtain ⟨hready, hindex, -, -, hgeneration, hdirty, htimer, hsaves⟩ := pump_same (s := after)
    exact ⟨hready.trans hsame.1, hindex.trans hsame.2.1, hgeneration.trans hsame.2.2.1,
      hdirty.trans hsame.2.2.2.1, htimer.trans hsame.2.2.2.2.1, hsaves.trans hsame.2.2.2.2.2⟩
  simp only [TurnBaseStore.finishWrite]
  refine hresult _ ?_
  split <;> exact ⟨rfl, rfl, rfl, rfl, rfl, rfl⟩

/-! ## Saves, a sign-out, and the load -/

theorem StoreSound.save (h : StoreSound digest sizes budget s) :
    StoreSound digest sizes budget s.save :=
  { h with
    saves := by
      intro job hjob
      rcases List.mem_append.mp hjob with hold | hnew
      · exact h.saves job hold
      · rw [List.mem_singleton.mp hnew]
        constructor
        · intro entry hentry
          obtain ⟨⟨name, bytes⟩, hin, rfl⟩ := List.mem_map.mp hentry
          exact congrArg _ (h.index name bytes (Record.get_eq_some.mpr hin))
        · have hsum : ∀ entries : List (String × Nat),
              ((entries.map fun (name, bytes) => (name, (bytes : Int))).map Prod.snd).sum =
                ((entries.map fun entry => id entry.2).sum : Nat) := by
            intro entries
            induction entries with
            | nil => rfl
            | cons entry entries ih =>
                simp only [List.map_cons, List.sum_cons, ih, Int.natCast_add]
                rfl
          have hcap := h.cap
          rw [h.used] at hcap
          exact Int.le_trans (Int.le_of_eq (hsum s.index.entries)) hcap }

theorem live_old {generation : Nat} {writes : List BaseWrite}
    (h : ∀ t ∈ writes, t.generation < generation) : live generation writes = [] := by
  simp only [live, List.map_eq_nil_iff, List.filter_eq_nil_iff]
  intro t ht
  have hne : t.generation ≠ generation := Nat.ne_of_lt (h t ht)
  simp [isLive, hne]

theorem StoreSound.beginClear (h : StoreSound digest sizes budget s) :
    StoreSound digest sizes budget s.beginClear := by
  have hold : ∀ t ∈ s.writes, t.generation < s.generation + 1 :=
    fun t ht => Nat.lt_succ_of_le (h.generations t ht)
  exact { h with
    generations := fun t ht => Nat.le_of_lt (hold t ht)
    distinct := by
      show (live (s.generation + 1) s.writes ++ []).Nodup
      rw [live_old hold]
      exact List.nodup_nil
    absent := by
      intro t ht hlive
      have hne : t.generation ≠ s.generation + 1 := Nat.ne_of_lt (hold t ht)
      have hsame : t.generation = s.generation + 1 := by
        have hboth : isLive (s.generation + 1) t = true := hlive
        simp only [isLive, Bool.and_eq_true, decide_eq_true_eq] at hboth
        exact hboth.1
      exact absurd hsame hne
    busy := fun hne => absurd rfl hne
    waiters := by
      intro waiter hin
      have hless := h.waiters waiter hin
      simp only [outstanding] at hless ⊢
      by_cases hactive : 0 < s.active
      · rw [if_pos (.inl hactive)] at hless
        rw [if_pos (.inl hactive)]
        exact hless
      · have hqueue : s.queue = [] := by
          by_contra hne
          exact hactive (Nat.lt_of_lt_of_le (by decide) (h.busy hne))
        rw [if_neg (by simp [hactive, hqueue])] at hless
        omega }

theorem StoreSound.forget (h : StoreSound digest sizes budget s) :
    StoreSound digest sizes budget s.forget :=
  { h with
    used := rfl
    cap := Int.natCast_nonneg _
    index := nofun
    pendingBytes := rfl
    pending := nofun
    absent := fun _ _ _ _ => rfl
    waiters := wake_waiters }

theorem accept_spec (entries : List (String × Int))
    (hsizes : ∀ entry ∈ entries, entry.2 = sizes entry.1) (hused : s.used = s.index.total id)
    (hindex : ∀ name bytes, s.index.get name = some bytes → bytes = sizes name) :
    ∃ index used, accept entries s = { s with index, used } ∧ used = index.total id ∧
      used ≤ s.used + (entries.map Prod.snd).sum ∧
      ∀ name bytes, index.get name = some bytes → bytes = sizes name := by
  induction entries generalizing s with
  | nil => exact ⟨s.index, s.used, rfl, hused, by simp, hindex⟩
  | cons entry rest ih =>
      obtain ⟨name, bytes⟩ := entry
      obtain ⟨hbytes, hrest⟩ := List.forall_mem_cons.mp hsizes
      dsimp only at hbytes
      rw [accept, List.map_cons, List.sum_cons]
      split
      · next htaken =>
          obtain ⟨-, hpos, -, hnone⟩ := htaken
          obtain ⟨index, used, heq, hused', hle, hindex'⟩ := ih (s := { s with
            index := s.index.set name bytes.toNat, used := s.used + bytes }) hrest (by
              show s.used + bytes = ((s.index.set name bytes.toNat).total id : Nat)
              rw [Record.total_set_new hnone, hused]
              simp only [id_eq]
              omega) (by
              intro n b hb
              rw [Record.get_set] at hb
              split at hb
              · next hname =>
                  cases hb
                  rw [hname, hbytes]
                  rfl
              · exact hindex n b hb)
          refine ⟨index, used, heq, hused', ?_, hindex'⟩
          simp only at hle ⊢
          omega
      · obtain ⟨index, used, heq, hused', hle, hindex'⟩ := ih hrest hused hindex
        refine ⟨index, used, heq, hused', ?_, hindex'⟩
        dsimp only
        omega

theorem StoreSound.accept (h : StoreSound digest sizes budget s) (hempty : s.index = .empty)
    (hready : s.ready = false) {entries : List (String × Int)}
    (hsaved : SavedSound sizes budget entries) :
    StoreSound digest sizes budget (accept entries s) := by
  obtain ⟨index, used, heq, hused, hle, hindex⟩ := accept_spec entries hsaved.1 h.used h.index
  have hzero : s.used = 0 := by
    rw [h.used, hempty]
    rfl
  rw [heq]
  exact { h with
    used := hused
    cap := by
      have hcap := hsaved.2
      show used ≤ budget
      omega
    index := hindex
    absent := by
      intro t ht _ hstage
      rw [h.loading hready t ht] at hstage
      rcases hstage with hstage | hstage <;> cases hstage }

theorem StoreSound.finishLoad (h : StoreSound digest sizes budget s) :
    StoreSound digest sizes budget { s.evict budget with ready := true } := by
  obtain ⟨index, used, removals, removing, next, heq, -, hcap, -⟩ := evict_spec budget h.used
  have haccounts := h.toAccounts.evict
  rw [heq] at haccounts ⊢
  exact { haccounts with
    loading := nofun
    cap := hcap
    busy := h.busy
    waiters := h.waiters }

end

end OmniRush.Server
