import Mathlib.Data.Set.Card
import OmniRush.Proofs.Occurrences

/-!
# The latest missed occurrence

`recoverableAutomationOccurrence` takes the first five occurrences after the lower bound and of
these the last that is not later than now. That is the latest missed one exactly when no more
than five of those it can see were missed and the latest is among them
(`latest_of_first_iff`): with six it returns the fifth.
-/

namespace OmniRush.Automations

/-! ## The last of the first few -/

section

variable {α : Type} [LinearOrder α] {found : List α} {missed : Set α} {n : Nat} {t : α}

/-- The greatest element, or none of the empty set. -/
def IsLatest (missed : Set α) : Option α → Prop
  | some t => IsGreatest missed t
  | none => missed = ∅

theorem le_getLast (hsorted : found.Pairwise (· < ·)) (hlast : found.getLast? = some t) {x : α}
    (hx : x ∈ found) : x ≤ t := by
  obtain ⟨front, rfl⟩ := List.getLast?_eq_some_iff.mp hlast
  rcases List.mem_append.mp hx with hx | hx
  · exact le_of_lt ((List.pairwise_append.mp hsorted).2.2 x hx t (List.mem_singleton_self t))
  · exact le_of_eq (List.mem_singleton.mp hx)

/-- Of an increasing list, the last of the first `n` elements is the greatest of a set that the
list is part of, exactly when these are all and the greatest is one of them. -/
theorem latest_of_first_iff (hn : 0 < n) (hsorted : found.Pairwise (· < ·))
    (hsub : ∀ x ∈ found, x ∈ missed) (hmax : missed.Nonempty → ∃ t, IsGreatest missed t) :
    IsLatest missed (found.take n).getLast? ↔
      found.length ≤ n ∧ ∀ t, IsGreatest missed t → t ∈ found := by
  constructor
  · intro h
    cases hlast : (found.take n).getLast? with
    | some t =>
        rw [hlast] at h
        have hin : t ∈ found := List.mem_of_mem_take (List.mem_of_getLast? hlast)
        refine ⟨?_, fun t' ht' => IsGreatest.unique h ht' ▸ hin⟩
        by_contra hlong
        have hmore : 0 < (found.drop n).length := by
          rw [List.length_drop]
          omega
        obtain ⟨x, hx⟩ := List.exists_mem_of_length_pos hmore
        rw [← List.take_append_drop n found] at hsorted
        have hlt := (List.pairwise_append.mp hsorted).2.2 t (List.mem_of_getLast? hlast) x hx
        exact absurd (h.2 (hsub x (List.mem_of_mem_drop hx))) (not_le_of_gt hlt)
    | none =>
        rw [hlast] at h
        have hempty : found = [] := by
          rcases List.take_eq_nil_iff.mp (List.getLast?_eq_none_iff.mp hlast) with hzero | hempty
          · omega
          · exact hempty
        rw [hempty]
        exact ⟨Nat.zero_le _, fun t ht => absurd ht.1 (Set.eq_empty_iff_forall_notMem.mp h t)⟩
  · rintro ⟨hshort, hin⟩
    rw [List.take_of_length_le hshort]
    cases hlast : found.getLast? with
    | some t =>
        have ht := hsub t (List.mem_of_getLast? hlast)
        obtain ⟨t', ht'⟩ := hmax ⟨t, ht⟩
        have heq : t' = t := le_antisymm (le_getLast hsorted hlast (hin t' ht')) (ht'.2 ht)
        exact heq ▸ ht'
    | none =>
        refine Set.eq_empty_iff_forall_notMem.mpr fun x hx => ?_
        obtain ⟨t, ht⟩ := hmax ⟨x, hx⟩
        have hmem := hin t ht
        rw [List.getLast?_eq_none_iff.mp hlast] at hmem
        cases hmem

/-- What is kept of the first few is the first few of what is kept, from below. -/
theorem filter_le_take (hsorted : found.Pairwise (· < ·)) (now : α) (n : Nat) :
    (found.take n).filter (· ≤ now) = (found.filter (· ≤ now)).take n := by
  induction found generalizing n with
  | nil => rw [List.take_nil, List.filter_nil, List.take_nil]
  | cons t found ih =>
      cases n with
      | zero => rw [List.take_zero, List.take_zero, List.filter_nil]
      | succ n =>
          obtain ⟨hfirst, hrest⟩ := List.pairwise_cons.mp hsorted
          rw [List.take_succ_cons]
          by_cases ht : t ≤ now
          · rw [List.filter_cons_of_pos (by simpa using ht),
              List.filter_cons_of_pos (by simpa using ht), List.take_succ_cons, ih hrest]
          · have hnone : ∀ x ∈ t :: found, ¬ (decide (x ≤ now) = true) := fun x hx hle => by
              refine ht (le_trans ?_ (of_decide_eq_true hle))
              rcases List.mem_cons.mp hx with rfl | hx
              · exact le_refl x
              · exact le_of_lt (hfirst x hx)
            rw [List.filter_eq_nil_iff.mpr hnone, List.take_nil, List.filter_eq_nil_iff]
            intro x hx
            rcases List.mem_cons.mp hx with rfl | hx
            · exact hnone x (List.mem_cons_self ..)
            · exact hnone x (List.mem_cons_of_mem _ (List.mem_of_mem_take hx))

end

/-! ## What was missed -/

def AutomationSchedule.timezone : AutomationSchedule → String
  | .once timezone _ | .daily timezone _ _ | .weekly timezone _ _ _ => timezone

/-- The bounds the schema checks. -/
def AutomationSchedule.Valid : AutomationSchedule → Prop
  | .once _ _ => True
  | .daily _ hour minute | .weekly _ _ hour minute =>
      (0 ≤ hour ∧ hour < 24) ∧ 0 ≤ minute ∧ minute < 60

/-- The instant is the schedule's on the day. -/
def AutomationSchedule.OccursOn (schedule : AutomationSchedule) (local' : Int → LocalDateTime)
    (days t : Int) : Prop :=
  match schedule with
  | .once _ «at» => t = «at»
  | .daily _ hour minute | .weekly _ _ hour minute =>
      schedule.Fires days ∧ IsResolved local' (localDateOfDays days) hour minute t

def AutomationSchedule.missed (schedule : AutomationSchedule) (local' : Int → LocalDateTime)
    (after now : Int) : Set Int :=
  {t | after < t ∧ t ≤ now ∧ ∃ days, schedule.OccursOn local' days t}

/-- The 370 days from a date on that a search looks at, as `Date.UTC` counts them. -/
def AutomationSchedule.Searches (schedule : AutomationSchedule) (start : LocalDate) (days : Int) :
    Prop :=
  match schedule with
  | .once _ _ => True
  | .daily _ _ _ | .weekly _ _ _ _ =>
      utcDays start ≤ days ∧ days < utcDays start + 370 ∧ UtcKnows days

/-- The occurrences on the days that are looked at. -/
def AutomationSchedule.searched (schedule : AutomationSchedule) (local' : Int → LocalDateTime)
    (start : LocalDate) : Set Int :=
  {t | ∃ days, schedule.Searches start days ∧ schedule.OccursOn local' days t}

section

variable {c : Clock} {zones : TimeZones} {schedule : AutomationSchedule} {timezone : String}
  {hour minute after now : Int}

theorem recoverable_recurring (hc : c.Retraces) (hzone : ∀ t, zones timezone t = localOf c t)
    (hs : schedule.Recurs timezone hour minute) :
    ∃ found : List Int, found.Pairwise (· < ·) ∧
      (∀ t, t ∈ found ↔ t ∈ schedule.missed (localOf c) after now ∩
        schedule.searched (localOf c) (zones timezone after).toLocalDate) ∧
      recoverableAutomationOccurrence zones schedule after now = (found.take 5).getLast? := by
  obtain ⟨dates, hdates⟩ : ∃ dates, dates = searchedOccurrences zones schedule timezone hour minute
      (zones timezone after).toLocalDate := ⟨_, rfl⟩
  have hsorted : dates.Pairwise (· < ·) := hdates ▸ searchedOccurrences_sorted hc hzone hs
  refine ⟨(dates.filter (after < ·)).filter (· ≤ now), (hsorted.filter _).filter _, fun t => ?_, ?_⟩
  · have hseen : t ∈ dates ↔
        t ∈ schedule.searched (localOf c) (zones timezone after).toLocalDate := by
      rw [hdates, mem_searchedOccurrences hc hzone hs]
      rcases hs.kind with rfl | ⟨daysOfWeek, rfl⟩ <;> rfl
    rw [List.mem_filter, List.mem_filter, hseen, decide_eq_true_eq, decide_eq_true_eq]
    constructor
    · rintro ⟨⟨⟨days, hsearches, hoccurs⟩, hlate⟩, hpast⟩
      exact ⟨⟨hlate, hpast, days, hoccurs⟩, days, hsearches, hoccurs⟩
    · rintro ⟨⟨hlate, hpast, -⟩, hsearched⟩
      exact ⟨⟨hsearched, hlate⟩, hpast⟩
  · rw [recoverableAutomationOccurrence, automationOccurrences_eq hs (le_refl 5), ← hdates,
      filter_le_take (hsorted.filter _)]

theorem recoverable_eq (after now : Int) (hc : c.Retraces)
    (hzone : ∀ t, zones schedule.timezone t = localOf c t) (hvalid : schedule.Valid) :
    ∃ found : List Int, found.Pairwise (· < ·) ∧
      (∀ t, t ∈ found ↔ t ∈ schedule.missed (localOf c) after now ∩
        schedule.searched (localOf c) (zones schedule.timezone after).toLocalDate) ∧
      recoverableAutomationOccurrence zones schedule after now = (found.take 5).getLast? := by
  cases schedule with
  | once timezone «at» =>
      refine ⟨if after < «at» ∧ «at» ≤ now then [«at»] else [], ?_, fun t => ?_, ?_⟩
      · split
        · exact List.pairwise_singleton ..
        · exact List.Pairwise.nil
      · have hmem : t ∈ (AutomationSchedule.once timezone «at»).missed (localOf c) after now ∩
            (AutomationSchedule.once timezone «at»).searched (localOf c)
              (zones timezone after).toLocalDate ↔ t = «at» ∧ after < «at» ∧ «at» ≤ now := by
          constructor
          · rintro ⟨⟨hlate, hpast, days, rfl⟩, -⟩
            exact ⟨rfl, hlate, hpast⟩
          · rintro ⟨rfl, hlate, hpast⟩
            exact ⟨⟨hlate, hpast, 0, rfl⟩, 0, trivial, rfl⟩
        rw [AutomationSchedule.timezone, hmem]
        split
        · next h => rw [List.mem_singleton, and_iff_left h]
        · next h => simp [h]
      · have hfound : automationOccurrences zones (.once timezone «at») after 5 =
            if after < «at» then [«at»] else [] := rfl
        rw [recoverableAutomationOccurrence, hfound]
        by_cases hlate : after < «at»
        · by_cases hpast : «at» ≤ now <;> simp [hlate, hpast]
        · simp [hlate]
  | daily timezone hour minute =>
      exact recoverable_recurring hc hzone ⟨.inl rfl, hvalid.1, hvalid.2⟩
  | weekly timezone daysOfWeek hour minute =>
      exact recoverable_recurring hc hzone ⟨.inr ⟨daysOfWeek, rfl⟩, hvalid.1, hvalid.2⟩

/-- The latest missed occurrence is returned, and none if none was missed, exactly when at most
five were missed on the days the search looks at and the latest is one of these. -/
theorem recovers_latest_iff (hc : c.Retraces)
    (hzone : ∀ t, zones schedule.timezone t = localOf c t) (hvalid : schedule.Valid) :
    IsLatest (schedule.missed (localOf c) after now)
        (recoverableAutomationOccurrence zones schedule after now) ↔
      (schedule.missed (localOf c) after now ∩
        schedule.searched (localOf c) (zones schedule.timezone after).toLocalDate).encard ≤ 5 ∧
      ∀ t, IsGreatest (schedule.missed (localOf c) after now) t →
        t ∈ schedule.searched (localOf c) (zones schedule.timezone after).toLocalDate := by
  obtain ⟨found, hsorted, hmem, heq⟩ := recoverable_eq after now hc hzone hvalid
  have hmax : (schedule.missed (localOf c) after now).Nonempty →
      ∃ t, IsGreatest (schedule.missed (localOf c) after now) t := by
    rintro ⟨t, ht⟩
    obtain ⟨t, ht, hgreatest⟩ := Int.exists_greatest_of_bdd ⟨now, fun t ht => ht.2.1⟩ ⟨t, ht⟩
    exact ⟨t, ht, fun t' ht' => hgreatest t' ht'⟩
  have hcard : (schedule.missed (localOf c) after now ∩
      schedule.searched (localOf c) (zones schedule.timezone after).toLocalDate).encard =
        found.length := by
    rw [← List.toFinset_card_of_nodup (hsorted.imp ne_of_lt), ← Set.encard_coe_eq_coe_finsetCard]
    congr 1
    ext t
    rw [← hmem, Finset.mem_coe, List.mem_toFinset]
  rw [heq, latest_of_first_iff (by omega) hsorted (fun t ht => ((hmem t).mp ht).1) hmax, hcard]
  refine and_congr (Nat.cast_le (α := ℕ∞)).symm (forall₂_congr fun t ht => ?_)
  rw [hmem, Set.mem_inter_iff, and_iff_right ht.1]

end

theorem no_offset (_ : Int) : -840 ≤ (0 : Int) ∧ (0 : Int) ≤ 840 := by omega

theorem no_jump (_ : Int) : (0 : Int) - 0 ≤ 1440 ∧ (0 : Int) - 0 ≤ 1440 := by omega

/-- The local time is universal time. -/
def utcClock : Clock where
  offset _ := 0
  offset_le := no_offset
  jump_le := no_jump

theorem utcClock_retraces : utcClock.Retraces := by
  intro m m' hlt hback
  simp only [Clock.wall, utcClock] at hback
  omega

theorem isResolved_utc (days : Int) :
    IsResolved (localOf utcClock) (localDateOfDays days) 0 1 (days * 86400000 + 60000) := by
  have hshows : ∀ t, localOf utcClock t = { localDateOfDays days with hour := 0, minute := 1 } ↔
      t / 60000 + 0 = (days * 24 + 0) * 60 + 1 :=
    fun t => localOf_eq_iff (c := utcClock) (by decide) (by decide)
  refine .inl ⟨(hshows _).mpr (by omega), fun t ht => ?_⟩
  have hminute := (hshows t).mp ht
  omega

theorem searchedOccurrences_utc :
    searchedOccurrences (fun _ => localOf utcClock) (.daily "UTC" 0 1) "UTC" 0 1
        (localOf utcClock 0).toLocalDate =
      (List.range 370).map fun day : Nat => (day : Int) * 86400000 + 60000 := by
  have hstart : utcDays (localOf utcClock 0).toLocalDate = 0 := by decide
  have hday : ∀ day : Nat, occurrenceOf (fun _ => localOf utcClock) (.daily "UTC" 0 1) "UTC" 0 1
      (localOf utcClock 0).toLocalDate day = some ((day : Int) * 86400000 + 60000) := by
    intro day
    refine (occurrenceOf_iff utcClock_retraces (fun _ => rfl) (by decide) (by decide) day).mpr ?_
    rw [hstart, Int.zero_add]
    have hfirst : civilDays ⟨100, 1, 1⟩ ≤ 0 := by decide
    exact ⟨utcKnows_of_year ((year_le_iff day).mpr (by omega)), rfl, isResolved_utc day⟩
  unfold searchedOccurrences
  rw [funext hday]
  exact congrFun List.filterMap_eq_map _

/-- Two daily occurrences of a minute past midnight were missed. -/
theorem recovers_second_day :
    IsLatest (AutomationSchedule.missed (.daily "UTC" 0 1) (localOf utcClock) 0 100000000)
        (recoverableAutomationOccurrence (fun _ => localOf utcClock) (.daily "UTC" 0 1) 0
          100000000) ↔
      (AutomationSchedule.missed (.daily "UTC" 0 1) (localOf utcClock) 0 100000000 ∩
        AutomationSchedule.searched (.daily "UTC" 0 1) (localOf utcClock)
          (localOf utcClock 0).toLocalDate).encard ≤ 5 ∧
      ∀ t, IsGreatest (AutomationSchedule.missed (.daily "UTC" 0 1) (localOf utcClock) 0
          100000000) t →
        t ∈ AutomationSchedule.searched (.daily "UTC" 0 1) (localOf utcClock)
          (localOf utcClock 0).toLocalDate :=
  recovers_latest_iff utcClock_retraces (fun _ => rfl) ⟨by decide, by decide⟩

/-- Of six missed days it is the fifth. -/
theorem recovers_fifth :
    recoverableAutomationOccurrence (fun _ => localOf utcClock) (.daily "UTC" 0 1) 0 500000000 =
        some 345660000 ∧
      432060000 ∈ AutomationSchedule.missed (.daily "UTC" 0 1) (localOf utcClock) 0 500000000 ∧
      ¬ IsLatest (AutomationSchedule.missed (.daily "UTC" 0 1) (localOf utcClock) 0 500000000)
        (some 345660000) := by
  have hsixth :
      432060000 ∈ AutomationSchedule.missed (.daily "UTC" 0 1) (localOf utcClock) 0 500000000 :=
    ⟨by decide, by decide, 5, rfl, isResolved_utc 5⟩
  have hrecurs : AutomationSchedule.Recurs (.daily "UTC" 0 1) "UTC" 0 1 :=
    ⟨.inl rfl, by decide, by decide⟩
  refine ⟨?_, hsixth, fun h => absurd (h.2 hsixth) (by decide)⟩
  rw [recoverableAutomationOccurrence, automationOccurrences_eq hrecurs (Nat.le_refl 5),
    searchedOccurrences_utc]
  decide +kernel

end OmniRush.Automations
