import Mathlib.Data.List.Nodup
import Mathlib.Data.List.Perm.Basic
import OmniRush.Lib.Machine
import OmniRush.Server.WorkQueue

/-!
# What a coalescing queue promises

One invariant, `LatestTrailingWorkQueue.Ok`. It ties the map of active work to the drains (a key
has an entry just when a drain of it awaits a run), each run in flight to its drain, each
promise to one place (it is settled, or it is in a batch that runs or waits), and the latest
value of a key to the batch that waits or to a run that was started since. A step is one of
four: a value joins a batch (`Ok.joined`) or starts a drain (`Ok.opened`), a run ends and the
batch behind it is run (`Ok.handedOver`), or there is none and the entry goes (`Ok.closed`).
-/

namespace OmniRush.Server

open OmniRush

variable {Key Value Err : Type}

/-! ## The log -/

/-- The values put in for a key. -/
def enqueuedValues [DecidableEq Key] (key : Key) (log : List (WorkEvent Key Value Err)) :
    List Value :=
  log.filterMap fun
    | .enqueued _ k v => if k = key then some v else none
    | _ => none

/-- The latest value put in for a key. -/
def latestValue [DecidableEq Key] (key : Key) (log : List (WorkEvent Key Value Err)) :
    Option Value :=
  (enqueuedValues key log).getLast?

/-- A run of the key was started, and nothing was put in for it since. -/
def RanLatest [DecidableEq Key] (key : Key) (log : List (WorkEvent Key Value Err)) : Prop :=
  ∃ before run value after, log = before ++ .started run key value :: after ∧
    enqueuedValues key after = []

def settledWaiters (log : List (WorkEvent Key Value Err)) : List Nat :=
  log.filterMap fun
    | .settled waiter _ _ => some waiter
    | _ => none

/-- What may come next: a run starts with the latest value put in for its key, and a promise is
settled with the outcome of a run that started after it was asked for. -/
def WorkEvent.Follows [DecidableEq Key] (log : List (WorkEvent Key Value Err)) :
    WorkEvent Key Value Err → Prop
  | .started _ key value => latestValue key log = some value
  | .settled waiter run outcome =>
      ∃ key value value', [.enqueued waiter key value, .started run key value',
        .ended run outcome].Sublist log
  | _ => True

section

variable {log log' : List (WorkEvent Key Value Err)}

@[simp] theorem settledWaiters_append :
    settledWaiters (log ++ log') = settledWaiters log ++ settledWaiters log' :=
  List.filterMap_append ..

theorem settledWaiters_settled (waiters : List Nat) (run : Nat) (outcome : Option Err) :
    settledWaiters (waiters.map fun waiter =>
      (.settled waiter run outcome : WorkEvent Key Value Err)) = waiters := by
  simp [settledWaiters, List.filterMap_map]

variable [DecidableEq Key] {key : Key}

@[simp] theorem enqueuedValues_append :
    enqueuedValues key (log ++ log') = enqueuedValues key log ++ enqueuedValues key log' :=
  List.filterMap_append ..

theorem latestValue_append (h : enqueuedValues key log' = []) :
    latestValue key (log ++ log') = latestValue key log := by
  rw [latestValue, enqueuedValues_append, h, List.append_nil, latestValue]

theorem latestValue_enqueued (waiter : Nat) (value : Value) :
    latestValue key (log ++ [.enqueued waiter key value]) = some value := by
  rw [latestValue, enqueuedValues_append]
  simp [enqueuedValues]

theorem enqueuedValues_ended (waiters : List Nat) (run : Nat) (outcome : Option Err) :
    enqueuedValues key ([.ended run outcome] ++ waiters.map fun waiter =>
      (.settled waiter run outcome : WorkEvent Key Value Err)) = [] := by
  simp [enqueuedValues, List.filterMap_map]

theorem RanLatest.append (h : RanLatest key log) (hnone : enqueuedValues key log' = []) :
    RanLatest key (log ++ log') := by
  obtain ⟨before, run, value, after, rfl, hafter⟩ := h
  refine ⟨before, run, value, after ++ log', by simp, ?_⟩
  rw [enqueuedValues_append, hafter, hnone]
  rfl

end

/-! ## The invariant -/

namespace LatestTrailingWorkQueue

section

variable (q : LatestTrailingWorkQueue Key Value Err)

/-- The promises that wait for a run, or for the run after it. -/
def pending : List Nat :=
  q.drains.flatMap fun d =>
    d.batch.waiters ++ (q.trailing d.active).elim [] WorkBatch.waiters

structure Ok [DecidableEq Key] : Prop where
  keys : (q.drains.map (·.key)).Nodup
  runIds : (q.drains.map (·.run)).Nodup
  entry : ∀ key active, q.activeByKey key = some active ↔
    ∃ d ∈ q.drains, d.key = key ∧ d.active = active
  owner : ∀ d ∈ q.drains, ∀ d' ∈ q.drains, d.active = d'.active → d.key = d'.key
  fresh : ∀ d ∈ q.drains, d.active < q.actives ∧ d.run < q.runs
  idle : ∀ active batch, q.trailing active = some batch → ∃ d ∈ q.drains, d.active = active
  /-- A run that was started has ended, or a drain awaits it. -/
  flight : ∀ run key value, .started run key value ∈ q.log →
    (∃ outcome, .ended run outcome ∈ q.log) ∨ ∃ d ∈ q.drains, d.run = run ∧ d.key = key
  running : ∀ d ∈ q.drains, ∀ waiter ∈ d.batch.waiters, ∃ value,
    [.enqueued waiter d.key value, .started d.run d.key d.batch.value].Sublist q.log
  waiting : ∀ d ∈ q.drains, ∀ batch, q.trailing d.active = some batch →
    latestValue d.key q.log = some batch.value ∧
      ∀ waiter ∈ batch.waiters, ∃ value, .enqueued waiter d.key value ∈ q.log
  /-- The latest value of a key waits behind a run, or was run. -/
  latest : ∀ key, enqueuedValues key q.log ≠ [] →
    (∃ d ∈ q.drains, d.key = key ∧ (q.trailing d.active).isSome) ∨ RanLatest key q.log
  asked : ∀ waiter key value, .enqueued waiter key value ∈ q.log → waiter < q.waiters ∧
    ∀ key' value', .enqueued waiter key' value' ∈ q.log → key' = key
  promises : (settledWaiters q.log ++ q.pending).Perm (List.range q.waiters)
  follows : Throughout WorkEvent.Follows q.log

end

variable [DecidableEq Key] {q t : LatestTrailingWorkQueue Key Value Err} {key : Key}
  {d d' : WorkDrain Key Value} {outcome : Option Err}

theorem Ok.eq_of_key (h : q.Ok) (hd : d ∈ q.drains) (hd' : d' ∈ q.drains) (hkey : d.key = d'.key) :
    d = d' := List.inj_on_of_nodup_map h.keys hd hd' hkey

theorem Ok.eq_of_run (h : q.Ok) (hd : d ∈ q.drains) (hd' : d' ∈ q.drains) (hrun : d.run = d'.run) :
    d = d' := List.inj_on_of_nodup_map h.runIds hd hd' hrun

theorem Ok.drains_perm (h : q.Ok) (hd : d ∈ q.drains) :
    q.drains.Perm (d :: q.drains.filter fun other => other.run ≠ d.run) := by
  obtain ⟨left, right, heq⟩ := List.append_of_mem hd
  have hnodup := h.runIds
  rw [heq, List.map_append, List.map_cons] at hnodup
  have hleft : ∀ other ∈ left, other.run ≠ d.run := fun other hother hsame =>
    (List.nodup_append.mp hnodup).2.2 _ (List.mem_map_of_mem hother) _ (List.mem_cons_self ..) hsame
  have hright : ∀ other ∈ right, other.run ≠ d.run := fun other hother hsame =>
    (List.nodup_cons.mp (List.nodup_append.mp hnodup).2.1).1 (hsame ▸ List.mem_map_of_mem hother)
  have hfilter : (q.drains.filter fun other => other.run ≠ d.run) = left ++ right := by
    rw [heq, List.filter_append, List.filter_cons_of_neg (by simp),
      List.filter_eq_self.mpr fun other hother => decide_eq_true (hleft other hother),
      List.filter_eq_self.mpr fun other hother => decide_eq_true (hright other hother)]
  rw [hfilter, heq]
  exact List.perm_middle

omit [DecidableEq Key] in
theorem pending_other {drains : List (WorkDrain Key Value)} {active : Nat}
    {trailing : Nat → Option (WorkBatch Value)} {batch : Option (WorkBatch Value)}
    (hother : ∀ d ∈ drains, d.active ≠ active) :
    (drains.flatMap fun d => d.batch.waiters ++
      (Function.update trailing active batch d.active).elim [] WorkBatch.waiters) =
    drains.flatMap fun d => d.batch.waiters ++ (trailing d.active).elim [] WorkBatch.waiters :=
  List.flatMap_congr fun d hd => by rw [Function.update_of_ne (hother d hd)]

omit [DecidableEq Key] in
theorem joined_waiters (trailing : Option (WorkBatch Value)) (value : Value) (waiter : Nat) :
    (joined trailing value waiter).waiters = trailing.elim [] WorkBatch.waiters ++ [waiter] := by
  cases trailing with
  | none => rfl
  | some batch => rfl

omit [DecidableEq Key] in
theorem joined_value (trailing : Option (WorkBatch Value)) (value : Value) (waiter : Nat) :
    (joined trailing value waiter).value = value := by
  cases trailing with
  | none => rfl
  | some batch => rfl

theorem Ok.other_active (h : q.Ok) (hd : d ∈ q.drains) :
    ∀ d' ∈ q.drains.filter fun other => other.run ≠ d.run, d'.active ≠ d.active := by
  intro d' hd' hsame
  obtain ⟨hd', hrun⟩ := List.mem_filter.mp hd'
  obtain rfl := h.eq_of_key hd' hd (h.owner d' hd' d hd hsame)
  simp at hrun

theorem Ok.asked_snoc (h : q.Ok) (key : Key) (value : Value) {waiter : Nat} {k : Key} {v : Value}
    (hin : .enqueued waiter k v ∈ q.log ++ [.enqueued q.waiters key value]) :
    waiter < q.waiters + 1 ∧ ∀ k' v',
      .enqueued waiter k' v' ∈ q.log ++ [.enqueued q.waiters key value] → k' = k := by
  have hcases : ∀ {waiter k v}, .enqueued waiter k v ∈ q.log ++ [.enqueued q.waiters key value] →
      (.enqueued waiter k v ∈ q.log ∧ waiter < q.waiters) ∨ (waiter = q.waiters ∧ k = key) := by
    intro waiter k v hin
    rcases List.mem_append.mp hin with hold | hnew
    · exact .inl ⟨hold, (h.asked waiter k v hold).1⟩
    · obtain ⟨rfl, rfl, -⟩ := WorkEvent.enqueued.inj (List.mem_singleton.mp hnew)
      exact .inr ⟨rfl, rfl⟩
  rcases hcases hin with ⟨hold, hlt⟩ | ⟨hwaiter, rfl⟩
  · refine ⟨Nat.lt_succ_of_lt hlt, fun k' v' hin' => ?_⟩
    rcases hcases hin' with ⟨hold', -⟩ | ⟨hwaiter, -⟩
    · exact (h.asked waiter k v hold).2 k' v' hold'
    · exact absurd hlt (hwaiter ▸ Nat.lt_irrefl _)
  · refine ⟨hwaiter ▸ Nat.lt_succ_self _, fun k' v' hin' => ?_⟩
    rcases hcases hin' with ⟨-, hlt⟩ | ⟨-, hkey⟩
    · exact absurd hlt (hwaiter ▸ Nat.lt_irrefl _)
    · exact hkey

theorem Ok.joined (h : q.Ok) {active : Nat} (hactive : q.activeByKey key = some active)
    (value : Value) : (q.enqueue key value).Ok := by
  obtain ⟨d, hd, rfl, rfl⟩ := (h.entry key active).mp hactive
  have hstep : q.enqueue d.key value = { q with
      waiters := q.waiters + 1
      log := q.log ++ [.enqueued q.waiters d.key value]
      trailing := Function.update q.trailing d.active
        (some (LatestTrailingWorkQueue.joined (q.trailing d.active) value q.waiters)) } := by
    simp only [enqueue, hactive]
    rfl
  have hactiveNe : ∀ d' ∈ q.drains, d'.key ≠ d.key → d'.active ≠ d.active :=
    fun d' hd' hne hsame => hne (h.owner d' hd' d hd hsame)
  rw [hstep]
  refine { h with
    idle := ?_
    flight := ?_
    running := ?_
    waiting := ?_
    latest := ?_
    asked := fun _ _ _ hin => h.asked_snoc d.key value hin
    promises := ?_
    follows := h.follows.snoc trivial }
  all_goals dsimp only
  · intro active batch hbatch
    by_cases hsame : active = d.active
    · exact ⟨d, hd, hsame.symm⟩
    · rw [Function.update_of_ne hsame] at hbatch
      exact h.idle active batch hbatch
  · intro run k v hmem
    rcases List.mem_append.mp hmem with hmem | hmem
    · refine (h.flight run k v hmem).imp_left fun ⟨outcome, hended⟩ => ?_
      exact ⟨outcome, List.mem_append_left _ hended⟩
    · simp at hmem
  · intro d' hd' waiter hwaiter
    obtain ⟨v, hsub⟩ := h.running d' hd' waiter hwaiter
    exact ⟨v, hsub.trans (List.sublist_append_left ..)⟩
  · intro d' hd' batch hbatch
    by_cases hkey : d'.key = d.key
    · obtain rfl := h.eq_of_key hd' hd hkey
      rw [Function.update_self] at hbatch
      obtain rfl := Option.some.inj hbatch
      refine ⟨?_, fun waiter hwaiter => ?_⟩
      · rw [latestValue_enqueued, joined_value]
      · cases htrailing : q.trailing d'.active with
        | none =>
            rw [htrailing] at hwaiter
            obtain rfl := List.mem_singleton.mp hwaiter
            exact ⟨value, List.mem_append_right _ (List.mem_singleton_self _)⟩
        | some batch =>
            rw [htrailing] at hwaiter
            rcases List.mem_append.mp hwaiter with hold | hnew
            · obtain ⟨v, hmem⟩ := (h.waiting d' hd' batch htrailing).2 waiter hold
              exact ⟨v, List.mem_append_left _ hmem⟩
            · obtain rfl := List.mem_singleton.mp hnew
              exact ⟨value, List.mem_append_right _ (List.mem_singleton_self _)⟩
    · rw [Function.update_of_ne (hactiveNe d' hd' hkey)] at hbatch
      obtain ⟨hlatest, hwaiters⟩ := h.waiting d' hd' batch hbatch
      refine ⟨?_, fun waiter hwaiter => ?_⟩
      · rw [latestValue_append (by simp [enqueuedValues, Ne.symm hkey])]
        exact hlatest
      · obtain ⟨v, hmem⟩ := hwaiters waiter hwaiter
        exact ⟨v, List.mem_append_left _ hmem⟩
  · intro k hsome
    by_cases hkey : k = d.key
    · exact .inl ⟨d, hd, hkey.symm, by rw [Function.update_self]; rfl⟩
    · have hnone : enqueuedValues k [(.enqueued q.waiters d.key value : WorkEvent Key Value Err)]
          = [] := by simp [enqueuedValues, Ne.symm hkey]
      rw [enqueuedValues_append, hnone, List.append_nil] at hsome
      rcases h.latest k hsome with ⟨d', hd', hown, htrailing⟩ | hran
      · refine .inl ⟨d', hd', hown, ?_⟩
        rw [Function.update_of_ne (hactiveNe d' hd' (hown ▸ hkey))]
        exact htrailing
      · exact .inr (hran.append hnone)
  · have hother := h.other_active hd
    have hbefore := (h.drains_perm hd).flatMap_right fun d' =>
      d'.batch.waiters ++ (q.trailing d'.active).elim [] WorkBatch.waiters
    have hafter := (h.drains_perm hd).flatMap_right fun d' =>
      d'.batch.waiters ++ (Function.update q.trailing d.active
        (some (LatestTrailingWorkQueue.joined (q.trailing d.active) value q.waiters))
        d'.active).elim [] WorkBatch.waiters
    rw [List.flatMap_cons] at hbefore hafter
    rw [pending_other hother, Function.update_self] at hafter
    have hold := h.promises
    unfold pending at hold ⊢
    dsimp only
    rw [List.range_succ, settledWaiters_append]
    rw [List.perm_iff_count] at hbefore hafter hold ⊢
    intro waiter
    have h1 := hbefore waiter
    have h2 := hafter waiter
    have h3 := hold waiter
    simp only [List.count_append, Option.elim_some, joined_waiters] at h1 h2 h3 ⊢
    simp only [settledWaiters, List.filterMap_cons, List.filterMap_nil, List.count_nil] at h3 ⊢
    omega

theorem Ok.opened (h : q.Ok) (hactive : q.activeByKey key = none) (value : Value) :
    (q.enqueue key value).Ok := by
  have hnoKey : ∀ d ∈ q.drains, d.key ≠ key := by
    rintro d hd rfl
    have hentry := (h.entry d.key d.active).mpr ⟨d, hd, rfl, rfl⟩
    rw [hactive] at hentry
    cases hentry
  have hactiveNe : ∀ d ∈ q.drains, d.active ≠ q.actives := fun d hd =>
    Nat.ne_of_lt (h.fresh d hd).1
  have hstep : q.enqueue key value = { q with
      activeByKey := Function.update q.activeByKey key (some q.actives)
      trailing := Function.update q.trailing q.actives none
      drains := q.drains ++ [⟨key, q.actives, q.runs, ⟨value, [q.waiters]⟩⟩]
      actives := q.actives + 1
      runs := q.runs + 1
      waiters := q.waiters + 1
      log := q.log ++ [.enqueued q.waiters key value] ++ [.started q.runs key value] } := by
    simp only [enqueue, hactive]
    rfl
  have hmem : ∀ d, d ∈ q.drains ++ [⟨key, q.actives, q.runs, ⟨value, [q.waiters]⟩⟩] →
      d ∈ q.drains ∨ d = ⟨key, q.actives, q.runs, ⟨value, [q.waiters]⟩⟩ := fun d hd =>
    (List.mem_append.mp hd).imp_right List.mem_singleton.mp
  rw [hstep]
  constructor
  all_goals dsimp only
  case keys =>
    rw [List.map_append, List.nodup_append]
    refine ⟨h.keys, List.nodup_singleton _, fun k hk k' hk' => ?_⟩
    obtain ⟨d, hd, rfl⟩ := List.mem_map.mp hk
    obtain rfl := List.mem_singleton.mp hk'
    exact hnoKey d hd
  case runIds =>
    rw [List.map_append, List.nodup_append]
    refine ⟨h.runIds, List.nodup_singleton _, fun k hk k' hk' => ?_⟩
    obtain ⟨d, hd, rfl⟩ := List.mem_map.mp hk
    obtain rfl := List.mem_singleton.mp hk'
    exact Nat.ne_of_lt (h.fresh d hd).2
  case entry =>
    intro k active
    by_cases hkey : k = key
    · subst hkey
      rw [Function.update_self]
      constructor
      · intro heq
        exact ⟨_, List.mem_append_right _ (List.mem_singleton_self _), rfl, Option.some.inj heq⟩
      · rintro ⟨d, hd, hown, rfl⟩
        rcases hmem d hd with hd | rfl
        · exact absurd hown (hnoKey d hd)
        · rfl
    · rw [Function.update_of_ne hkey, h.entry]
      constructor
      · rintro ⟨d, hd, hown⟩
        exact ⟨d, List.mem_append_left _ hd, hown⟩
      · rintro ⟨d, hd, hown⟩
        rcases hmem d hd with hd | rfl
        · exact ⟨d, hd, hown⟩
        · exact absurd hown.1.symm hkey
  case owner =>
    intro d hd d' hd' hsame
    rcases hmem d hd with hd | rfl <;> rcases hmem d' hd' with hd' | rfl
    · exact h.owner d hd d' hd' hsame
    · exact absurd hsame (hactiveNe d hd)
    · exact absurd hsame.symm (hactiveNe d' hd')
    · rfl
  case fresh =>
    intro d hd
    rcases hmem d hd with hd | rfl
    · have hfresh := h.fresh d hd
      omega
    · exact ⟨Nat.lt_succ_self _, Nat.lt_succ_self _⟩
  case idle =>
    intro active batch hbatch
    by_cases hsame : active = q.actives
    · rw [hsame, Function.update_self] at hbatch
      cases hbatch
    · rw [Function.update_of_ne hsame] at hbatch
      obtain ⟨d, hd, hown⟩ := h.idle active batch hbatch
      exact ⟨d, List.mem_append_left _ hd, hown⟩
  case flight =>
    intro run k v hstarted
    simp only [List.mem_append, List.mem_singleton, reduceCtorEq, or_false] at hstarted ⊢
    rcases hstarted with hstarted | hstarted
    · rcases h.flight run k v hstarted with ⟨outcome, hended⟩ | ⟨d, hd, hown⟩
      · exact .inl ⟨outcome, hended⟩
      · exact .inr ⟨d, .inl hd, hown⟩
    · obtain ⟨rfl, rfl, -⟩ := WorkEvent.started.inj hstarted
      exact .inr ⟨_, .inr rfl, rfl, rfl⟩
  case running =>
    intro d hd waiter hwaiter
    rcases hmem d hd with hd | rfl
    · obtain ⟨v, hsub⟩ := h.running d hd waiter hwaiter
      exact ⟨v, hsub.trans ((List.sublist_append_left ..).trans (List.sublist_append_left ..))⟩
    · obtain rfl := List.mem_singleton.mp hwaiter
      refine ⟨value, ?_⟩
      rw [List.append_assoc]
      exact List.sublist_append_right ..
  case waiting =>
    intro d hd batch hbatch
    rcases hmem d hd with hd | rfl
    · rw [Function.update_of_ne (hactiveNe d hd)] at hbatch
      obtain ⟨hlatest, hwaiters⟩ := h.waiting d hd batch hbatch
      refine ⟨?_, fun waiter hwaiter => ?_⟩
      · rw [List.append_assoc, latestValue_append
          (by simp [enqueuedValues, Ne.symm (hnoKey d hd)])]
        exact hlatest
      · obtain ⟨v, hin⟩ := hwaiters waiter hwaiter
        exact ⟨v, List.mem_append_left _ (List.mem_append_left _ hin)⟩
    · rw [Function.update_self] at hbatch
      cases hbatch
  case latest =>
    intro k hsome
    by_cases hkey : k = key
    · subst hkey
      exact .inr ⟨_, q.runs, value, [], rfl, rfl⟩
    · have hnone : enqueuedValues k ([.enqueued q.waiters key value] ++
          [(.started q.runs key value : WorkEvent Key Value Err)]) = [] := by
        simp [enqueuedValues, Ne.symm hkey]
      rw [List.append_assoc, enqueuedValues_append, hnone, List.append_nil] at hsome
      rcases h.latest k hsome with ⟨d, hd, hown, htrailing⟩ | hran
      · refine .inl ⟨d, List.mem_append_left _ hd, hown, ?_⟩
        rw [Function.update_of_ne (hactiveNe d hd)]
        exact htrailing
      · rw [List.append_assoc]
        exact .inr (hran.append hnone)
  case asked =>
    intro waiter k v hin
    obtain ⟨hlt, hsame⟩ := h.asked_snoc key value (by simpa using hin)
    exact ⟨hlt, fun k' v' hin' => hsame k' v' (by simpa using hin')⟩
  case promises =>
    have hold := h.promises
    unfold pending at hold ⊢
    dsimp only
    rw [List.flatMap_append, pending_other hactiveNe, List.flatMap_singleton, Function.update_self,
      List.range_succ, settledWaiters_append, settledWaiters_append]
    have hnone : settledWaiters [(.enqueued q.waiters key value : WorkEvent Key Value Err)] = [] ∧
        settledWaiters [(.started q.runs key value : WorkEvent Key Value Err)] = [] := ⟨rfl, rfl⟩
    rw [hnone.1, hnone.2, List.append_nil, List.append_nil, Option.elim_none, List.append_nil,
      ← List.append_assoc]
    exact hold.append_right _
  case follows =>
    have hfollows : Throughout WorkEvent.Follows (q.log ++ [.enqueued q.waiters key value]) :=
      h.follows.snoc trivial
    exact hfollows.snoc (latestValue_enqueued q.waiters value)

/-! ### The end of a run -/

/-- What the log gets at the end of a run. -/
abbrev endLog (d : WorkDrain Key Value) (outcome : Option Err) : List (WorkEvent Key Value Err) :=
  [.ended d.run outcome] ++ d.batch.waiters.map fun waiter => .settled waiter d.run outcome

theorem Ok.follows_end (h : q.Ok) (hd : d ∈ q.drains) (outcome : Option Err) :
    Throughout WorkEvent.Follows (q.log ++ endLog d outcome) := by
  rw [endLog, ← List.append_assoc]
  have hended : Throughout WorkEvent.Follows (q.log ++ [.ended d.run outcome]) :=
    h.follows.snoc trivial
  refine hended.append fun e he before hprefix => ?_
  obtain ⟨waiter, hwaiter, rfl⟩ := List.mem_map.mp he
  obtain ⟨value, hsub⟩ := h.running d hd waiter hwaiter
  refine ⟨d.key, value, d.batch.value, ?_⟩
  exact (hsub.append (List.Sublist.refl [.ended d.run outcome])).trans hprefix.sublist

theorem Ok.left (h : q.Ok) (hd : d ∈ q.drains) {d' : WorkDrain Key Value} :
    d' ∈ (q.drains.filter fun other => other.run ≠ d.run) ↔ d' ∈ q.drains ∧ d'.key ≠ d.key := by
  rw [List.mem_filter, decide_eq_true_eq]
  refine and_congr_right fun hd' => not_congr ⟨fun hrun => ?_, fun hkey => ?_⟩
  · rw [h.eq_of_run hd' hd hrun]
  · rw [h.eq_of_key hd' hd hkey]

theorem Ok.flight_end (h : q.Ok) (outcome : Option Err) {run : Nat} {k : Key}
    {v : Value} (hstarted : .started run k v ∈ q.log ++ endLog d outcome) :
    (∃ o, .ended run o ∈ q.log ++ endLog d outcome) ∨
      ∃ d' ∈ (q.drains.filter fun other => other.run ≠ d.run), d'.run = run ∧ d'.key = k := by
  have hin : .started run k v ∈ q.log := by simpa using hstarted
  rcases h.flight run k v hin with ⟨o, hended⟩ | ⟨d', hd', rfl, rfl⟩
  · exact .inl ⟨o, List.mem_append_left _ hended⟩
  · by_cases hrun : d'.run = d.run
    · refine .inl ⟨outcome, List.mem_append_right _ ?_⟩
      rw [hrun]
      exact List.mem_cons_self ..
    · exact .inr ⟨d', List.mem_filter.mpr ⟨hd', decide_eq_true hrun⟩, rfl, rfl⟩

theorem Ok.closed (h : q.Ok) (hd : d ∈ q.drains) (hnone : q.trailing d.active = none)
    (outcome : Option Err) : (q.finish d outcome).Ok := by
  have hentry := (h.entry d.key d.active).mpr ⟨d, hd, rfl, rfl⟩
  have hstep : q.finish d outcome = { q with
      activeByKey := Function.update q.activeByKey d.key none
      drains := q.drains.filter fun other => other.run ≠ d.run
      log := q.log ++ endLog d outcome } := by
    simp only [finish, hnone, hentry, if_pos, setActive, endLog, List.append_assoc]
  have hquiet : ∀ k, enqueuedValues k (endLog d outcome) = [] := fun k =>
    enqueuedValues_ended d.batch.waiters d.run outcome
  rw [hstep]
  constructor
  all_goals dsimp only
  case keys => exact h.keys.sublist ((List.filter_sublist ..).map _)
  case runIds => exact h.runIds.sublist ((List.filter_sublist ..).map _)
  case entry =>
    intro k active
    by_cases hkey : k = d.key
    · rw [hkey, Function.update_self]
      refine ⟨fun heq => (nomatch heq), ?_⟩
      rintro ⟨d', hd', hown, -⟩
      exact absurd hown ((h.left hd).mp hd').2
    · rw [Function.update_of_ne hkey, h.entry]
      constructor
      · rintro ⟨d', hd', hown, hactive⟩
        exact ⟨d', (h.left hd).mpr ⟨hd', hown ▸ hkey⟩, hown, hactive⟩
      · rintro ⟨d', hd', hown⟩
        exact ⟨d', ((h.left hd).mp hd').1, hown⟩
  case owner =>
    exact fun d' hd' d'' hd'' =>
      h.owner d' ((h.left hd).mp hd').1 d'' ((h.left hd).mp hd'').1
  case fresh => exact fun d' hd' => h.fresh d' ((h.left hd).mp hd').1
  case idle =>
    intro active batch hbatch
    obtain ⟨d', hd', rfl⟩ := h.idle active batch hbatch
    refine ⟨d', (h.left hd).mpr ⟨hd', fun hkey => ?_⟩, rfl⟩
    rw [h.eq_of_key hd' hd hkey, hnone] at hbatch
    cases hbatch
  case flight => exact fun run k v hstarted => h.flight_end outcome hstarted
  case running =>
    intro d' hd' waiter hwaiter
    obtain ⟨v, hsub⟩ := h.running d' ((h.left hd).mp hd').1 waiter hwaiter
    exact ⟨v, hsub.trans (List.sublist_append_left ..)⟩
  case waiting =>
    intro d' hd' batch hbatch
    obtain ⟨hlatest, hwaiters⟩ := h.waiting d' ((h.left hd).mp hd').1 batch hbatch
    refine ⟨(latestValue_append (hquiet _)).trans hlatest, fun waiter hwaiter => ?_⟩
    obtain ⟨v, hin⟩ := hwaiters waiter hwaiter
    exact ⟨v, List.mem_append_left _ hin⟩
  case latest =>
    intro k hsome
    rw [enqueuedValues_append, hquiet, List.append_nil] at hsome
    rcases h.latest k hsome with ⟨d', hd', hown, htrailing⟩ | hran
    · refine .inl ⟨d', (h.left hd).mpr ⟨hd', fun hkey => ?_⟩, hown, htrailing⟩
      rw [h.eq_of_key hd' hd hkey, hnone] at htrailing
      cases htrailing
    · exact .inr (hran.append (hquiet k))
  case asked =>
    intro waiter k v hin
    obtain ⟨hlt, hsame⟩ := h.asked waiter k v (by simpa using hin)
    exact ⟨hlt, fun k' v' hin' => hsame k' v' (by simpa using hin')⟩
  case promises =>
    have hold := h.promises
    have hbefore := (h.drains_perm hd).flatMap_right fun d' =>
      d'.batch.waiters ++ (q.trailing d'.active).elim [] WorkBatch.waiters
    unfold pending at hold ⊢
    rw [List.flatMap_cons, hnone] at hbefore
    dsimp only
    rw [settledWaiters_append, settledWaiters_append, settledWaiters_settled]
    rw [List.perm_iff_count] at hbefore hold ⊢
    intro waiter
    have h1 := hbefore waiter
    have h2 := hold waiter
    simp only [List.count_append, Option.elim_none, List.count_nil, settledWaiters,
      List.filterMap_cons, List.filterMap_nil] at h1 h2 ⊢
    omega
  case follows => exact h.follows_end hd outcome

theorem Ok.handedOver (h : q.Ok) (hd : d ∈ q.drains) {batch : WorkBatch Value}
    (hbatch : q.trailing d.active = some batch) (outcome : Option Err) :
    (q.finish d outcome).Ok := by
  have hstep : q.finish d outcome = { q with
      trailing := Function.update q.trailing d.active none
      drains := (q.drains.filter fun other => other.run ≠ d.run) ++
        [⟨d.key, d.active, q.runs, batch⟩]
      runs := q.runs + 1
      log := q.log ++ endLog d outcome ++ [.started q.runs d.key batch.value] } := by
    simp only [finish, hbatch, setTrailing, start, endLog, List.append_assoc]
  have hquiet : ∀ k, enqueuedValues k (endLog d outcome) = [] := fun k =>
    enqueuedValues_ended d.batch.waiters d.run outcome
  have hquiet' : ∀ k, enqueuedValues k [(.started q.runs d.key batch.value :
      WorkEvent Key Value Err)] = [] := fun _ => rfl
  have hother := h.other_active hd
  have hmem : ∀ d', d' ∈ (q.drains.filter fun other => other.run ≠ d.run) ++
      [⟨d.key, d.active, q.runs, batch⟩] →
      (d' ∈ (q.drains.filter fun other => other.run ≠ d.run) ∧ d' ∈ q.drains ∧ d'.key ≠ d.key) ∨
        d' = ⟨d.key, d.active, q.runs, batch⟩ := fun d' hd' =>
    (List.mem_append.mp hd').imp (fun hin => ⟨hin, (h.left hd).mp hin⟩) List.mem_singleton.mp
  obtain ⟨hlatest, hwaiters⟩ := h.waiting d hd batch hbatch
  rw [hstep]
  constructor
  all_goals dsimp only
  case keys =>
    rw [List.map_append, List.nodup_append]
    refine ⟨h.keys.sublist ((List.filter_sublist ..).map _), List.nodup_singleton _,
      fun k hk k' hk' => ?_⟩
    obtain ⟨d', hd', rfl⟩ := List.mem_map.mp hk
    obtain rfl := List.mem_singleton.mp hk'
    exact ((h.left hd).mp hd').2
  case runIds =>
    rw [List.map_append, List.nodup_append]
    refine ⟨h.runIds.sublist ((List.filter_sublist ..).map _), List.nodup_singleton _,
      fun k hk k' hk' => ?_⟩
    obtain ⟨d', hd', rfl⟩ := List.mem_map.mp hk
    obtain rfl := List.mem_singleton.mp hk'
    exact Nat.ne_of_lt (h.fresh d' ((h.left hd).mp hd').1).2
  case entry =>
    intro k active
    rw [h.entry]
    constructor
    · rintro ⟨d', hd', hown, hactive⟩
      by_cases hkey : d'.key = d.key
      · obtain rfl := h.eq_of_key hd' hd hkey
        exact ⟨_, List.mem_append_right _ (List.mem_singleton_self _), hown, hactive⟩
      · exact ⟨d', List.mem_append_left _ ((h.left hd).mpr ⟨hd', hkey⟩), hown, hactive⟩
    · rintro ⟨d', hd', hown⟩
      rcases hmem d' hd' with ⟨-, hd', -⟩ | rfl
      · exact ⟨d', hd', hown⟩
      · exact ⟨d, hd, hown⟩
  case owner =>
    intro d' hd' d'' hd'' hsame
    rcases hmem d' hd' with ⟨hin', hd', -⟩ | rfl <;>
      rcases hmem d'' hd'' with ⟨hin'', hd'', -⟩ | rfl
    · exact h.owner d' hd' d'' hd'' hsame
    · exact absurd hsame (hother d' hin')
    · exact absurd hsame.symm (hother d'' hin'')
    · rfl
  case fresh =>
    intro d' hd'
    rcases hmem d' hd' with ⟨-, hd', -⟩ | rfl
    · have hfresh := h.fresh d' hd'
      omega
    · exact ⟨(h.fresh d hd).1, Nat.lt_succ_self _⟩
  case idle =>
    intro active b hb
    by_cases hsame : active = d.active
    · rw [hsame, Function.update_self] at hb
      cases hb
    · rw [Function.update_of_ne hsame] at hb
      obtain ⟨d', hd', rfl⟩ := h.idle active b hb
      refine ⟨d', List.mem_append_left _ ((h.left hd).mpr ⟨hd', fun hkey => hsame ?_⟩), rfl⟩
      rw [h.eq_of_key hd' hd hkey]
  case flight =>
    intro run k v hstarted
    rcases List.mem_append.mp hstarted with hstarted | hstarted
    · rcases h.flight_end outcome hstarted with ⟨o, hended⟩ | ⟨d', hd', hown⟩
      · exact .inl ⟨o, List.mem_append_left _ hended⟩
      · exact .inr ⟨d', List.mem_append_left _ hd', hown⟩
    · obtain ⟨rfl, rfl, -⟩ := WorkEvent.started.inj (List.mem_singleton.mp hstarted)
      exact .inr ⟨_, List.mem_append_right _ (List.mem_singleton_self _), rfl, rfl⟩
  case running =>
    intro d' hd' waiter hwaiter
    rcases hmem d' hd' with ⟨-, hd', -⟩ | rfl
    · obtain ⟨v, hsub⟩ := h.running d' hd' waiter hwaiter
      exact ⟨v, hsub.trans ((List.sublist_append_left ..).trans (List.sublist_append_left ..))⟩
    · obtain ⟨v, hin⟩ := hwaiters waiter hwaiter
      have hsub := List.singleton_sublist.mpr (List.mem_append_left (endLog d outcome) hin)
      exact ⟨v, hsub.append (List.Sublist.refl [WorkEvent.started q.runs d.key batch.value])⟩
  case waiting =>
    intro d' hd' b hb
    rcases hmem d' hd' with ⟨hin', hd', -⟩ | rfl
    · rw [Function.update_of_ne (hother d' hin')] at hb
      obtain ⟨hlatest', hwaiters'⟩ := h.waiting d' hd' b hb
      refine ⟨?_, fun waiter hwaiter => ?_⟩
      · rw [latestValue_append (hquiet' _), latestValue_append (hquiet _)]
        exact hlatest'
      · obtain ⟨v, hin⟩ := hwaiters' waiter hwaiter
        exact ⟨v, List.mem_append_left _ (List.mem_append_left _ hin)⟩
    · rw [Function.update_self] at hb
      cases hb
  case latest =>
    intro k hsome
    rw [enqueuedValues_append, enqueuedValues_append, hquiet, hquiet', List.append_nil,
      List.append_nil] at hsome
    by_cases hkey : k = d.key
    · subst hkey
      exact .inr ⟨_, q.runs, batch.value, [], rfl, rfl⟩
    · rcases h.latest k hsome with ⟨d', hd', hown, htrailing⟩ | hran
      · have hin := (h.left hd).mpr ⟨hd', hown ▸ hkey⟩
        refine .inl ⟨d', List.mem_append_left _ hin, hown, ?_⟩
        rw [Function.update_of_ne (hother d' hin)]
        exact htrailing
      · exact .inr ((hran.append (hquiet k)).append (hquiet' k))
  case asked =>
    intro waiter k v hin
    obtain ⟨hlt, hsame⟩ := h.asked waiter k v (by simpa using hin)
    exact ⟨hlt, fun k' v' hin' => hsame k' v' (by simpa using hin')⟩
  case promises =>
    have hold := h.promises
    have hbefore := (h.drains_perm hd).flatMap_right fun d' =>
      d'.batch.waiters ++ (q.trailing d'.active).elim [] WorkBatch.waiters
    unfold pending at hold ⊢
    rw [List.flatMap_cons, hbatch] at hbefore
    dsimp only
    rw [List.flatMap_append, pending_other hother, List.flatMap_singleton, Function.update_self,
      settledWaiters_append, settledWaiters_append, settledWaiters_append, settledWaiters_settled]
    rw [List.perm_iff_count] at hbefore hold ⊢
    intro waiter
    have h1 := hbefore waiter
    have h2 := hold waiter
    simp only [List.count_append, Option.elim_none, Option.elim_some, List.count_nil,
      settledWaiters, List.filterMap_cons, List.filterMap_nil] at h1 h2 ⊢
    omega
  case follows =>
    refine (h.follows_end hd outcome).snoc ?_
    exact (latestValue_append (hquiet _)).trans hlatest

theorem ok_start : ({} : LatestTrailingWorkQueue Key Value Err).Ok where
  keys := List.nodup_nil
  runIds := List.nodup_nil
  entry := fun _ _ => ⟨fun heq => (nomatch heq), fun ⟨_, hd, _⟩ => nomatch hd⟩
  owner := fun _ hd => nomatch hd
  fresh := fun _ hd => nomatch hd
  idle := fun _ _ heq => nomatch heq
  flight := fun _ _ _ hin => nomatch hin
  running := fun _ hd => nomatch hd
  waiting := fun _ hd => nomatch hd
  latest := fun _ hsome => absurd rfl hsome
  asked := fun _ _ _ hin => nomatch hin
  promises := List.Perm.refl []
  follows := .nil

theorem Ok.step (h : q.Ok) {act : WorkAct Key Value Err} (hstep : q.step act = some t) : t.Ok := by
  cases act with
  | enqueue key value =>
      cases hstep
      cases hactive : q.activeByKey key with
      | none => exact h.opened hactive value
      | some active => exact h.joined hactive value
  | finish run outcome =>
      obtain ⟨d, hd, rfl⟩ := Option.map_eq_some_iff.mp hstep
      have hin := List.mem_of_find?_eq_some hd
      cases hbatch : q.trailing d.active with
      | none => exact h.closed hin hbatch outcome
      | some batch => exact h.handedOver hin hbatch outcome

theorem reach_ok (h : Reach LatestTrailingWorkQueue.step (fun _ _ => True) {} q) : q.Ok :=
  h.invariant (fun _ _ _ (hok : Ok _) _ hstep => hok.step hstep) ok_start

/-- In every state, whatever the order: at most one run of a key has not ended; what a run starts
with is the latest value put in for its key; a promise is settled once at most, with the outcome
of a run that started after it was asked for, and one that is not settled waits for the run of
its key that is under way or for the one after it; the latest value put in for a key has been
run or waits behind a run; and a key has an entry just when a run of it is under way. The end
of a run settles all who waited for it, and starts the value that waits behind it. -/
theorem work_coalesces (h : Reach LatestTrailingWorkQueue.step (fun _ _ => True) {} q) :
    (∀ run run' key value value', .started run key value ∈ q.log →
      .started run' key value' ∈ q.log → (∀ outcome, .ended run outcome ∉ q.log) →
      (∀ outcome, .ended run' outcome ∉ q.log) → run = run') ∧
    Throughout WorkEvent.Follows q.log ∧
    (settledWaiters q.log).Nodup ∧
    (∀ waiter key value, .enqueued waiter key value ∈ q.log →
      waiter ∈ settledWaiters q.log ∨ ∃ d ∈ q.drains, d.key = key ∧
        waiter ∈ d.batch.waiters ++ (q.trailing d.active).elim [] WorkBatch.waiters) ∧
    (∀ key, enqueuedValues key q.log ≠ [] → RanLatest key q.log ∨
      ∃ d ∈ q.drains, d.key = key ∧ ∃ batch, q.trailing d.active = some batch ∧
        latestValue key q.log = some batch.value) ∧
    (∀ key, q.activeByKey key = none ↔ ∀ d ∈ q.drains, d.key ≠ key) ∧
    ∀ d ∈ q.drains, ∀ outcome, ∃ t, q.step (.finish d.run outcome) = some t ∧
      (∀ waiter ∈ d.batch.waiters, .settled waiter d.run outcome ∈ t.log) ∧
      ∀ batch, q.trailing d.active = some batch →
        .started q.runs d.key batch.value ∈ t.log ∧
        ∃ d' ∈ t.drains, d'.key = d.key ∧ d'.batch = batch := by
  have hok := reach_ok h
  have hnodup := hok.promises.nodup_iff.mpr List.nodup_range
  refine ⟨fun run run' key value value' hrun hrun' hopen hopen' => ?_, hok.follows,
    (List.nodup_append.mp hnodup).1, fun waiter key value hin => ?_, fun key hsome => ?_,
    fun key => ?_, fun d hd outcome => ?_⟩
  · rcases hok.flight run key value hrun with ⟨o, hended⟩ | ⟨d, hd, rfl, hkey⟩
    · exact absurd hended (hopen o)
    · rcases hok.flight run' key value' hrun' with ⟨o, hended⟩ | ⟨d', hd', rfl, hkey'⟩
      · exact absurd hended (hopen' o)
      · rw [hok.eq_of_key hd hd' (hkey.trans hkey'.symm)]
  · obtain ⟨hlt, hsame⟩ := hok.asked waiter key value hin
    rcases List.mem_append.mp (hok.promises.mem_iff.mpr (List.mem_range.mpr hlt)) with hin | hin
    · exact .inl hin
    · obtain ⟨d, hd, hwaiter⟩ := List.mem_flatMap.mp hin
      refine .inr ⟨d, hd, ?_, hwaiter⟩
      rcases List.mem_append.mp hwaiter with hrunning | hwaiting
      · obtain ⟨v, hsub⟩ := hok.running d hd waiter hrunning
        exact hsame d.key v (hsub.subset (List.mem_cons_self ..))
      · cases hbatch : q.trailing d.active with
        | none =>
            rw [hbatch] at hwaiting
            cases hwaiting
        | some batch =>
            rw [hbatch] at hwaiting
            obtain ⟨v, hasked⟩ := (hok.waiting d hd batch hbatch).2 waiter hwaiting
            exact hsame d.key v hasked
  · rcases hok.latest key hsome with ⟨d, hd, rfl, htrailing⟩ | hran
    · obtain ⟨batch, hbatch⟩ := Option.isSome_iff_exists.mp htrailing
      exact .inr ⟨d, hd, rfl, batch, hbatch, (hok.waiting d hd batch hbatch).1⟩
    · exact .inl hran
  · rw [Option.eq_none_iff_forall_ne_some]
    refine ⟨fun hnone d hd hkey => ?_, fun hnone active hactive => ?_⟩
    · exact hnone d.active ((hok.entry key d.active).mpr ⟨d, hd, hkey, rfl⟩)
    · obtain ⟨d, hd, hkey, -⟩ := (hok.entry key active).mp hactive
      exact hnone d hd hkey
  · obtain ⟨d', hfind⟩ : ∃ d', q.drains.find? (fun other => other.run = d.run) = some d' :=
      Option.isSome_iff_exists.mp (List.find?_isSome.mpr ⟨d, hd, decide_eq_true rfl⟩)
    have hrun : d'.run = d.run := by simpa using List.find?_some hfind
    obtain rfl := hok.eq_of_run (List.mem_of_find?_eq_some hfind) hd hrun
    refine ⟨q.finish d' outcome, by rw [step, hfind]; rfl, fun waiter hwaiter => ?_,
      fun batch hbatch => ?_⟩
    · have hsettled : .settled waiter d'.run outcome ∈ q.log ++ [.ended d'.run outcome]
          ++ d'.batch.waiters.map fun waiter => .settled waiter d'.run outcome :=
        List.mem_append_right _ (List.mem_map_of_mem hwaiter)
      unfold finish
      dsimp only
      split
      · exact List.mem_append_left _ hsettled
      · split
        · exact hsettled
        · exact hsettled
    · simp only [finish, hbatch]
      exact ⟨List.mem_append_right _ (List.mem_singleton_self _), _,
        List.mem_append_right _ (List.mem_singleton_self _), rfl, rfl⟩

/-- Three values for one key while the first is run, and the run fails. -/
theorem work_coalesces_run : ∃ q : LatestTrailingWorkQueue String Nat String,
    q.log = [.enqueued 0 "a" 1, .started 0 "a" 1, .enqueued 1 "a" 2, .enqueued 2 "a" 3,
      .ended 0 (some "no"), .settled 0 0 (some "no"), .started 1 "a" 3] ∧
    Throughout WorkEvent.Follows q.log := by
  have hrun : (runActions step [.enqueue "a" 1, .enqueue "a" 2, .enqueue "a" 3,
      .finish 0 (some "no")] ({} : LatestTrailingWorkQueue String Nat String)).any (fun q =>
        q.log = [.enqueued 0 "a" 1, .started 0 "a" 1, .enqueued 1 "a" 2, .enqueued 2 "a" 3,
          .ended 0 (some "no"), .settled 0 0 (some "no"), .started 1 "a" 3]) = true := by decide
  obtain ⟨q, hq, hlog⟩ := exists_of_any hrun
  exact ⟨q, of_decide_eq_true hlog, (work_coalesces (reach_of_run (fun _ _ _ => trivial) hq)).2.1⟩

end LatestTrailingWorkQueue

end OmniRush.Server
