import Mathlib.Data.List.Sort
import OmniRush.Automations.Schedule
import OmniRush.Lib.Clock

/-!
# The occurrences of a schedule

`automationOccurrences` goes through the dates from the local date of `after` on, and asks for
each of them when its wall time is shown. On a clock that skips the end of a date and then
goes back to it, that date comes after a later one has been seen, and the search does not look
at it any more (`skipped_evening`).

On a clock that retraces the instants of the dates grow with the dates, so the dates before
that of `after` are over, and what is found is what comes first (`occurrences_exact`). The
search looks at 370 dates.
-/

namespace OmniRush.Automations

/-! ## The calendar -/

theorem yearOfEra_spec {dayOfEra : Int} (h0 : 0 ≤ dayOfEra) (h1 : dayOfEra < 146097) :
    let yearOfEra := (dayOfEra - dayOfEra / 1460 + dayOfEra / 36524 - dayOfEra / 146096) / 365
    0 ≤ yearOfEra ∧ yearOfEra ≤ 399 ∧
      0 ≤ dayOfEra - (365 * yearOfEra + yearOfEra / 4 - yearOfEra / 100) ∧
      dayOfEra - (365 * yearOfEra + yearOfEra / 4 - yearOfEra / 100) ≤ 365 := by
  intro yearOfEra
  rcases Int.lt_or_le dayOfEra 146096 with hlt | hge
  · have hlast : dayOfEra / 146096 = 0 := by omega
    -- the century, the day of it, the leap cycles and the years that are over
    obtain ⟨c, hc⟩ : ∃ c, c = dayOfEra / 36524 := ⟨_, rfl⟩
    obtain ⟨r, hr⟩ : ∃ r, r = dayOfEra - 36524 * c := ⟨_, rfl⟩
    obtain ⟨q, hq⟩ : ∃ q, q = (24 * c + r) / 1460 := ⟨_, rfl⟩
    obtain ⟨k, hk⟩ : ∃ k, k = (r - q) / 365 := ⟨_, rfl⟩
    have hcycles : dayOfEra / 1460 = 25 * c + q := by omega
    have hyear : yearOfEra = 100 * c + k := by
      show (dayOfEra - dayOfEra / 1460 + dayOfEra / 36524 - dayOfEra / 146096) / 365 = _
      rw [hlast, ← hc, hcycles]
      omega
    have hkbound : 0 ≤ k ∧ k ≤ 99 := by omega
    have hfour : yearOfEra / 4 = 25 * c + k / 4 := by omega
    have hhundred : yearOfEra / 100 = c := by omega
    have hday : 0 ≤ r - (365 * k + k / 4) ∧ r - (365 * k + k / 4) ≤ 365 := by
      have hc4 : 0 ≤ c ∧ c ≤ 3 := by omega
      have hcycle : 1460 * q ≤ 24 * c + r ∧ 24 * c + r ≤ 1460 * q + 1459 := by omega
      have hyears : 365 * k ≤ r - q ∧ r - q ≤ 365 * k + 364 := by omega
      have hparts : 4 * (k / 4) ≤ k ∧ k ≤ 4 * (k / 4) + 3 := by omega
      have hr0 : 0 ≤ r := by omega
      clear hfour hhundred hyear hcycles hk hq hr hc h0 h1 hlt hlast
      generalize k / 4 = j at *
      clear yearOfEra
      omega
    omega
  · obtain rfl : dayOfEra = 146096 := by omega
    decide

/-- The date of a day: the era, the year of it counted from March, and the day of that year. -/
theorem localDateOfDays_parts (days : Int) : ∃ era yearOfEra dayOfYear marchMonth : Int,
    days + 719468 =
        era * 146097 + (365 * yearOfEra + yearOfEra / 4 - yearOfEra / 100) + dayOfYear ∧
      (0 ≤ yearOfEra ∧ yearOfEra ≤ 399) ∧ (0 ≤ dayOfYear ∧ dayOfYear ≤ 365) ∧
      marchMonth = (5 * dayOfYear + 2) / 153 ∧
      localDateOfDays days =
        { year := yearOfEra + era * 400 + if marchMonth < 10 then 0 else 1
          month := if marchMonth < 10 then marchMonth + 3 else marchMonth - 9
          day := dayOfYear - (153 * marchMonth + 2) / 5 + 1 } := by
  have hera : 0 ≤ days + 719468 - (days + 719468) / 146097 * 146097 ∧
      days + 719468 - (days + 719468) / 146097 * 146097 < 146097 := by omega
  obtain ⟨hy0, hy1, hd0, hd1⟩ := yearOfEra_spec hera.1 hera.2
  refine ⟨(days + 719468) / 146097, _, _, _, ?_, ⟨hy0, hy1⟩, ⟨hd0, hd1⟩, rfl, ?_⟩
  · omega
  · unfold localDateOfDays
    dsimp only
    generalize hm : (5 * (days + 719468 - (days + 719468) / 146097 * 146097 - _) + 2) / 153 = m
    have hmonth : (if (if m < 10 then m + 3 else m - 9) ≤ 2 then (1 : Int) else 0) =
        if m < 10 then 0 else 1 := by omega
    rw [hmonth]

theorem civilDays_localDateOfDays (days : Int) : civilDays (localDateOfDays days) = days := by
  obtain ⟨era, yearOfEra, dayOfYear, m, hdays, hyear, hday, hmonth, heq⟩ :=
    localDateOfDays_parts days
  rw [heq, civilDays]
  dsimp only
  split <;> omega

theorem localDateOfDays_inj {days days' : Int} (h : localDateOfDays days = localDateOfDays days') :
    days = days' := by
  rw [← civilDays_localDateOfDays days, h, civilDays_localDateOfDays]

theorem year_le_iff (days : Int) :
    100 ≤ (localDateOfDays days).year ↔ civilDays ⟨100, 1, 1⟩ ≤ days := by
  obtain ⟨era, yearOfEra, dayOfYear, m, hdays, hyear, hday, hmonth, heq⟩ :=
    localDateOfDays_parts days
  have hfirst : civilDays ⟨100, 1, 1⟩ = -683003 := by decide
  rw [heq, hfirst]
  dsimp only
  rcases Int.lt_trichotomy era 0 with hera | rfl | hera
  · split <;> omega
  · split <;> omega
  · split <;> omega

/-- `Date.UTC` takes the year for what it is. -/
def UtcKnows (days : Int) : Prop :=
  utcYear (localDateOfDays days).year = (localDateOfDays days).year

theorem utcKnows_of_year {days : Int} (h : 100 ≤ (localDateOfDays days).year) : UtcKnows days := by
  rw [UtcKnows, utcYear, if_neg (by omega)]

theorem utcDays_localDateOfDays {days : Int} (h : UtcKnows days) :
    utcDays (localDateOfDays days) = days := by
  rw [utcDays, h]
  exact civilDays_localDateOfDays days

theorem civilDays_1900 {date : LocalDate} (h : 0 ≤ date.year ∧ date.year ≤ 99) :
    civilDays date + 600000 < civilDays { date with year := 1900 + date.year } := by
  obtain ⟨year, month, day⟩ := date
  dsimp only [civilDays] at h ⊢
  split <;> omega

theorem lt_utcDays {days : Int} (h : ¬ UtcKnows days) :
    days + 600000 < utcDays (localDateOfDays days) := by
  have hyear : 0 ≤ (localDateOfDays days).year ∧ (localDateOfDays days).year ≤ 99 := by
    by_contra hout
    exact h (if_neg hout)
  have hlater := civilDays_1900 hyear
  rw [civilDays_localDateOfDays] at hlater
  rwa [utcDays, utcYear, if_pos hyear]

/-- Days added one after the other are their sum added at once, unless the date between is of a
year that `Date.UTC` takes for another. -/
theorem addLocalDays_add (date : LocalDate) (days more : Nat) :
    addLocalDays (addLocalDays date days) more = addLocalDays date (days + more) ↔
      UtcKnows (utcDays date + days) := by
  have hsum : addLocalDays date (days + more) =
      localDateOfDays (utcDays date + days + more) := by
    rw [addLocalDays]
    push_cast
    rw [Int.add_assoc]
  rw [hsum, addLocalDays, addLocalDays]
  constructor
  · intro h
    by_contra hunknown
    have hlater := lt_utcDays hunknown
    have hdays := localDateOfDays_inj h
    omega
  · intro h
    rw [utcDays_localDateOfDays h]

/-! ## What the clock shows -/

/-- The local time of an instant on a clock. -/
def localOf (c : Clock) (t : Int) : LocalDateTime :=
  { localDateOfDays (c.wall (t / 60000) / 1440) with
    hour := c.wall (t / 60000) % 1440 / 60
    minute := c.wall (t / 60000) % 60 }

/-- The instant of a wall time on a date: the first to show it, else the first to show a later
time of the date, else none. -/
def IsResolved (local' : Int → LocalDateTime) (date : LocalDate) (hour minute t : Int) : Prop :=
  IsLeast {t | local' t = { date with hour, minute }} t ∨
    (∀ t', local' t' ≠ { date with hour, minute }) ∧
      IsLeast {t | (local' t).toLocalDate = date ∧
        hour * 60 + minute < (local' t).hour * 60 + (local' t).minute} t

section

variable {c : Clock} {zones : TimeZones} {timezone : String} {date : LocalDate}
  {days hour minute time m t : Int}

theorem localOf_eq_iff (hhour : 0 ≤ hour ∧ hour < 24) (hminute : 0 ≤ minute ∧ minute < 60) :
    localOf c t = { localDateOfDays days with hour, minute } ↔
      c.wall (t / 60000) = (days * 24 + hour) * 60 + minute := by
  rw [localOf, LocalDateTime.mk.injEq]
  constructor
  · rintro ⟨hdate, hh, hm⟩
    have hdays := localDateOfDays_inj hdate
    omega
  · intro hwall
    rw [hwall]
    refine ⟨congrArg localDateOfDays ?_, ?_, ?_⟩ <;> omega

theorem localOf_later_iff :
    ((localOf c t).toLocalDate = localDateOfDays days ∧
        hour * 60 + minute < (localOf c t).hour * 60 + (localOf c t).minute) ↔
      c.wall (t / 60000) / 1440 = days ∧
        (days * 24 + hour) * 60 + minute < c.wall (t / 60000) := by
  have hdate : (localOf c t).toLocalDate = localDateOfDays days ↔
      c.wall (t / 60000) / 1440 = days := ⟨localDateOfDays_inj, congrArg localDateOfDays⟩
  rw [hdate]
  refine and_congr_right fun hdays => ?_
  rw [localOf]
  dsimp only
  omega

/-- The first instant of a minute is the first one in which something holds of the minute. -/
theorem isLeast_instant {P : Int → Prop} (h : IsLeast {m | P m} m) :
    IsLeast {t | P (t / 60000)} (m * 60000) := by
  refine ⟨?_, fun t' ht' => ?_⟩
  · show P (m * 60000 / 60000)
    rw [Int.mul_ediv_cancel _ (by decide)]
    exact h.1
  · have hle : m ≤ t' / 60000 := h.2 ht'
    omega

/-- On a clock that retraces a date has an instant if the first minute that shows the time, or
a later one, is of the date; and that minute is it. -/
theorem isResolved_iff (hc : c.Retraces) (hhour : 0 ≤ hour ∧ hour < 24)
    (hminute : 0 ≤ minute ∧ minute < 60) (h : c.IsFirst ((days * 24 + hour) * 60 + minute) m) :
    IsResolved (localOf c) (localDateOfDays days) hour minute t ↔
      c.wall m / 1440 = days ∧ t = m * 60000 := by
  have hexact : {t | localOf c t = { localDateOfDays days with hour, minute }} =
      {t | c.wall (t / 60000) = (days * 24 + hour) * 60 + minute} :=
    Set.ext fun t' => localOf_eq_iff hhour hminute
  have hlater : {t | (localOf c t).toLocalDate = localDateOfDays days ∧
        hour * 60 + minute < (localOf c t).hour * 60 + (localOf c t).minute} =
      {t | c.wall (t / 60000) / 1440 = days ∧
        (days * 24 + hour) * 60 + minute < c.wall (t / 60000)} :=
    Set.ext fun t' => localOf_later_iff
  have hnone : (∀ t', localOf c t' ≠ { localDateOfDays days with hour, minute }) ↔
      ∀ t' : Int, c.wall (t' / 60000) ≠ (days * 24 + hour) * 60 + minute :=
    forall_congr' fun t' => not_congr (localOf_eq_iff hhour hminute)
  rw [IsResolved, hexact, hlater, hnone]
  have hshows := h.shows
  rcases Int.lt_or_eq_of_le hshows with hskipped | hshown
  · have habsent : ∀ m', c.wall m' ≠ (days * 24 + hour) * 60 + minute :=
      fun m' => h.skips hc (Int.le_refl _) hskipped m'
    constructor
    · rintro (hleast | ⟨-, hleast⟩)
      · exact absurd hleast.1 (habsent _)
      · obtain ⟨hdays, hlate⟩ := hleast.1
        have hdate : c.wall m / 1440 = days := by
          by_contra hne
          have hpast : c.wall (t / 60000) < c.wall m := by omega
          exact h.skips hc (Int.le_of_lt hlate) hpast _ rfl
        refine ⟨hdate, hleast.unique (isLeast_instant (P := fun m => c.wall m / 1440 = days ∧
          (days * 24 + hour) * 60 + minute < c.wall m) ⟨⟨hdate, hskipped⟩, fun m' hm' => ?_⟩)⟩
        exact h.2 (Int.le_of_lt hm'.2)
    · rintro ⟨hdate, rfl⟩
      refine .inr ⟨fun t' => habsent _, isLeast_instant (P := fun m => c.wall m / 1440 = days ∧
        (days * 24 + hour) * 60 + minute < c.wall m) ⟨⟨hdate, hskipped⟩, fun m' hm' => ?_⟩⟩
      exact h.2 (Int.le_of_lt hm'.2)
  · have hleast : IsLeast {t | c.wall (t / 60000) = (days * 24 + hour) * 60 + minute}
        (m * 60000) :=
      isLeast_instant (P := fun m => c.wall m = (days * 24 + hour) * 60 + minute)
        ⟨hshown.symm, fun m' hm' => h.2 (Int.le_of_eq (Eq.symm hm'))⟩
    constructor
    · rintro (hleast' | ⟨habsent, -⟩)
      · exact ⟨by omega, hleast'.unique hleast⟩
      · exact absurd hleast.1 (habsent _)
    · rintro ⟨-, rfl⟩
      exact .inl hleast

/-! ## What the search finds -/

/-- The candidates in their order: the first that shows the time, else the first that shows a
later one. -/
theorem resolveFrom_eq (targetKey : Int) {candidates : List Int} (shifted : Option Int)
    (hsorted : candidates.Pairwise (· < ·)) (hshifted : ∀ s ∈ shifted, ∀ t ∈ candidates, s < t) :
    resolveFrom zones date targetKey timezone candidates shifted =
      ((candidates.find? fun t => (zones timezone t).toLocalDate = date &&
          localKey (zones timezone t) = targetKey).map fun t => (t, false)).or
        ((shifted.or (candidates.find? fun t => (zones timezone t).toLocalDate = date &&
          targetKey < localKey (zones timezone t))).map fun t => (t, true)) := by
  induction candidates generalizing shifted with
  | nil => simp [resolveFrom]
  | cons t candidates ih =>
      obtain ⟨hfirst, hrest⟩ := List.pairwise_cons.mp hsorted
      have hkeep : ∀ s ∈ shifted, ∀ t' ∈ candidates, s < t' := fun s hs t' ht' =>
        hshifted s hs t' (List.mem_cons_of_mem _ ht')
      rw [resolveFrom]
      split
      · next hdate => rw [ih shifted hrest hkeep, List.find?_cons, List.find?_cons]; simp [hdate]
      · next hdate =>
          have hdate' : (zones timezone t).toLocalDate = date := not_not.mp hdate
          split
          · next hkey => simp [hdate', hkey]
          · next hkey =>
              split
              · next hlate =>
                  have hempty : shifted = none := by
                    cases shifted with
                    | none => rfl
                    | some s =>
                        have hearlier := hshifted s rfl t (List.mem_cons_self ..)
                        have hall : t < s := by simpa using hlate.2
                        omega
                  subst hempty
                  rw [ih (some t) hrest fun s hs t' ht' => by cases hs; exact hfirst t' ht']
                  simp [hdate', hkey, hlate.1]
              · next hlate =>
                  rw [ih shifted hrest hkeep]
                  cases shifted with
                  | some s => simp [List.find?_cons, hdate', hkey]
                  | none =>
                      have hearly : ¬targetKey < localKey (zones timezone t) := fun h =>
                        hlate ⟨h, rfl⟩
                      simp [hdate', hkey, hearly]

theorem find?_window {P : Int → Bool} {start : Int} {i n : Nat} (hi : i < n)
    (hP : P (start + Int.ofNat i * 60000) = true)
    (hbefore : ∀ j < i, P (start + Int.ofNat j * 60000) = false) :
    ((List.range n).map fun i => start + Int.ofNat i * 60000).find? P =
      some (start + Int.ofNat i * 60000) := by
  have hfind : (List.range n).find? (P ∘ fun i => start + Int.ofNat i * 60000) = some i :=
    List.find?_range_eq_some.mpr
      ⟨hP, List.mem_range.mpr hi, fun j hj => by simpa using hbefore j hj⟩
  rw [List.find?_map, hfind]
  rfl

theorem localKey_localOf (hknows : UtcKnows days)
    (hdate : c.wall (t / 60000) / 1440 = days) :
    localKey (localOf c t) = c.wall (t / 60000) * 60000 := by
  rw [localKey, localOf, dateUtc]
  dsimp only
  rw [hdate, utcDays_localDateOfDays hknows]
  omega

theorem dateUtc_localDateOfDays (hknows : UtcKnows days) :
    dateUtc (localDateOfDays days) hour minute = ((days * 24 + hour) * 60 + minute) * 60000 := by
  rw [dateUtc, utcDays_localDateOfDays hknows]

/-- The search of a date, in a window that reaches 14 hours to both sides, finds the first
minute that shows the time or a later one, if that is of the date. -/
theorem resolveFrom_window (hc : c.Retraces) (hzone : ∀ t, zones timezone t = localOf c t)
    (hknows : UtcKnows days) (hdays : time / 1440 = days) (h : c.IsFirst time m) {n : Nat}
    (hn : 1921 ≤ n) :
    resolveFrom zones (localDateOfDays days) (time * 60000) timezone
        ((List.range n).map fun i =>
          time * 60000 - searchWindowHours * 60 * 60 * 1000 + Int.ofNat i * 60000) none =
      if c.wall m / 1440 = days then some (m * 60000, decide (c.wall m ≠ time)) else none := by
  have hdate : ∀ t, (zones timezone t).toLocalDate = localDateOfDays days ↔
      c.wall (t / 60000) / 1440 = days := fun t => by
    rw [hzone]
    exact ⟨localDateOfDays_inj, congrArg localDateOfDays⟩
  have hkey : ∀ t, c.wall (t / 60000) / 1440 = days →
      localKey (zones timezone t) = c.wall (t / 60000) * 60000 := fun t ht => by
    rw [hzone]
    exact localKey_localOf hknows ht
  have hexact : (fun t => decide ((zones timezone t).toLocalDate = localDateOfDays days) &&
      decide (localKey (zones timezone t) = time * 60000)) =
      fun t => decide (c.wall (t / 60000) = time) := by
    funext t
    rw [← Bool.decide_and, decide_eq_decide, hdate]
    constructor
    · rintro ⟨hd, hk⟩
      rw [hkey t hd] at hk
      omega
    · intro hwall
      have hd : c.wall (t / 60000) / 1440 = days := by rw [hwall, hdays]
      exact ⟨hd, by rw [hkey t hd, hwall]⟩
  have hlater : (fun t => decide ((zones timezone t).toLocalDate = localDateOfDays days) &&
      decide (time * 60000 < localKey (zones timezone t))) =
      fun t => decide (c.wall (t / 60000) / 1440 = days ∧ time < c.wall (t / 60000)) := by
    funext t
    rw [← Bool.decide_and, decide_eq_decide, hdate]
    refine and_congr_right fun hd => ?_
    rw [hkey t hd]
    omega
  have hbounds := h.bounds
  -- the candidate of the first minute
  obtain ⟨i, hi⟩ : ∃ i : Nat, Int.ofNat i = m - time + 1080 :=
    ⟨(m - time + 1080).toNat, Int.toNat_of_nonneg (by omega)⟩
  have hi' : i < n := by
    have hofNat : Int.ofNat i = (i : Int) := rfl
    omega
  have hcandidate : ∀ j : Nat, (time * 60000 - searchWindowHours * 60 * 60 * 1000 +
      Int.ofNat j * 60000) / 60000 = time - 1080 + Int.ofNat j := fun j => by
    rw [searchWindowHours]
    omega
  have hfirst : time * 60000 - searchWindowHours * 60 * 60 * 1000 + Int.ofNat i * 60000 =
      m * 60000 := by
    rw [hi, searchWindowHours]
    omega
  have hbefore : ∀ j < i, c.wall (time - 1080 + Int.ofNat j) < time := fun j hj =>
    h.before (by
      have hlt : Int.ofNat j < Int.ofNat i := Int.ofNat_lt.mpr hj
      omega)
  have hsorted : ((List.range n).map fun i =>
      time * 60000 - searchWindowHours * 60 * 60 * 1000 +
        Int.ofNat i * 60000).Pairwise (· < ·) := by
    rw [List.pairwise_map]
    refine List.pairwise_lt_range.imp fun hlt => ?_
    have hlt' := Int.ofNat_lt.mpr hlt
    simp only [Int.ofNat_eq_natCast]
    omega
  rw [resolveFrom_eq _ none hsorted (fun s hs => by cases hs), hexact, hlater, Option.none_or]
  have hshows := h.shows
  rcases Int.lt_or_eq_of_le hshows with hskipped | hshown
  · have hnone : ((List.range n).map fun i =>
        time * 60000 - searchWindowHours * 60 * 60 * 1000 + Int.ofNat i * 60000).find?
          (fun t => decide (c.wall (t / 60000) = time)) = none := by
      refine List.find?_eq_none.mpr fun t _ => ?_
      simpa using h.skips hc (Int.le_refl _) hskipped (t / 60000)
    rw [hnone, Option.map_none, Option.none_or]
    split
    · next hd =>
        rw [find?_window hi' ?_ ?_, hfirst]
        · simp [Int.ne_of_gt hskipped]
        · rw [hcandidate, hi, show time - 1080 + (m - time + 1080) = m by omega]
          exact decide_eq_true ⟨hd, hskipped⟩
        · intro j hj
          rw [hcandidate]
          have hearly := hbefore j hj
          exact decide_eq_false fun hlate => by omega
    · next hd =>
        have hpast : days * 1440 + 1440 ≤ c.wall m := by omega
        rw [List.find?_eq_none.mpr]
        · rfl
        · intro t _ hlate
          obtain ⟨hd', hlate⟩ := of_decide_eq_true hlate
          exact h.skips hc (Int.le_of_lt hlate) (by omega) _ rfl
  · have hd : c.wall m / 1440 = days := by rw [← hshown, hdays]
    rw [find?_window hi' ?_ ?_, hfirst, if_pos hd]
    · simp [hshown]
    · rw [hcandidate, hi, show time - 1080 + (m - time + 1080) = m by omega]
      exact decide_eq_true hshown.symm
    · intro j hj
      rw [hcandidate]
      exact decide_eq_false (Int.ne_of_lt (hbefore j hj))

theorem resolveLocalOccurrence_eq (hc : c.Retraces) (hzone : ∀ t, zones timezone t = localOf c t)
    (hknows : UtcKnows days) (htime : time = (days * 24 + hour) * 60 + minute) (hdays : time / 1440 = days)
    (h : c.IsFirst time m) :
    resolveLocalOccurrence zones (localDateOfDays days) hour minute timezone =
      if c.wall m / 1440 = days then some (m * 60000, decide (c.wall m ≠ time)) else none := by
  unfold resolveLocalOccurrence
  generalize hn : 2161 = n
  rw [dateUtc_localDateOfDays hknows, ← htime]
  exact resolveFrom_window hc hzone hknows hdays h (by omega)

theorem resolveFrom_none {targetKey : Int} {candidates : List Int}
    (h : ∀ candidate ∈ candidates, (zones timezone candidate).toLocalDate ≠ date) :
    resolveFrom zones date targetKey timezone candidates none = none := by
  induction candidates with
  | nil => rfl
  | cons candidate candidates ih =>
      rw [resolveFrom, if_pos (h candidate (List.mem_cons_self ..))]
      exact ih fun other hother => h other (List.mem_cons_of_mem _ hother)

theorem resolveLocalOccurrence_unknown (hzone : ∀ t, zones timezone t = localOf c t)
    (hhour : 0 ≤ hour) (hminute : 0 ≤ minute) (hknows : ¬ UtcKnows days) :
    resolveLocalOccurrence zones (localDateOfDays days) hour minute timezone = none := by
  unfold resolveLocalOccurrence
  refine resolveFrom_none fun candidate hmem hdate => ?_
  obtain ⟨i, -, rfl⟩ := List.mem_map.mp hmem
  rw [hzone] at hdate
  have hdays := localDateOfDays_inj hdate
  have hfar := lt_utcDays hknows
  have hoffset := (c.offset_le ((dateUtc (localDateOfDays days) hour minute -
    searchWindowHours * 60 * 60 * 1000 + Int.ofNat i * 60000) / 60000)).1
  rw [Clock.wall] at hdays
  rw [dateUtc, searchWindowHours, Int.ofNat_eq_natCast] at hdays hoffset
  omega

/-! ## The occurrences -/

/-- The day is one of the schedule's. Day 0 was a Thursday. -/
def AutomationSchedule.Fires (schedule : AutomationSchedule) (days : Int) : Prop :=
  schedule.isScheduledDay ((days + 4) % 7) = true

/-- A daily or weekly schedule at a wall time. -/
structure AutomationSchedule.Recurs (schedule : AutomationSchedule) (timezone : String)
    (hour minute : Int) : Prop where
  kind : schedule = .daily timezone hour minute ∨
    ∃ daysOfWeek, schedule = .weekly timezone daysOfWeek hour minute
  hour : 0 ≤ hour ∧ hour < 24
  minute : 0 ≤ minute ∧ minute < 60

variable {schedule : AutomationSchedule} {after days' t' : Int} {start : LocalDate}

theorem isResolved_lt (hc : c.Retraces) (hhour : 0 ≤ hour ∧ hour < 24)
    (hminute : 0 ≤ minute ∧ minute < 60) (hlt : days < days')
    (h : IsResolved (localOf c) (localDateOfDays days) hour minute t)
    (h' : IsResolved (localOf c) (localDateOfDays days') hour minute t') : t < t' := by
  obtain ⟨m, hm⟩ := c.exists_first ((days * 24 + hour) * 60 + minute)
  obtain ⟨m', hm'⟩ := c.exists_first ((days' * 24 + hour) * 60 + minute)
  obtain ⟨hdate, rfl⟩ := (isResolved_iff hc hhour hminute hm).mp h
  obtain ⟨hdate', rfl⟩ := (isResolved_iff hc hhour hminute hm').mp h'
  have hle : m ≤ m' := hm.mono hm' (by omega)
  have hne : m ≠ m' := by
    rintro rfl
    omega
  omega

theorem isResolved_le (hc : c.Retraces) (hhour : 0 ≤ hour ∧ hour < 24)
    (hminute : 0 ≤ minute ∧ minute < 60) (hlt : days < c.wall (after / 60000) / 1440)
    (h : IsResolved (localOf c) (localDateOfDays days) hour minute t) : t ≤ after := by
  obtain ⟨m, hm⟩ := c.exists_first ((days * 24 + hour) * 60 + minute)
  obtain ⟨-, rfl⟩ := (isResolved_iff hc hhour hminute hm).mp h
  have hle : m ≤ after / 60000 := hm.2 (by
    show (days * 24 + hour) * 60 + minute ≤ c.wall (after / 60000)
    omega)
  omega

/-- What the day loop takes of a date. -/
def occurrenceOf (zones : TimeZones) (schedule : AutomationSchedule) (timezone : String)
    (hour minute : Int) (start : LocalDate) (offset : Nat) : Option Int :=
  if schedule.isScheduledDay (utcWeekday (addLocalDays start offset)) then
    (resolveLocalOccurrence zones (addLocalDays start offset) hour minute timezone).map (·.1)
  else none

theorem occurrencesFrom_eq (offsets : List Nat) (count : Nat) :
    occurrencesFrom zones schedule timezone hour minute after start offsets count =
      ((offsets.filterMap (occurrenceOf zones schedule timezone hour minute start)).filter
        (after < ·)).take count := by
  induction offsets generalizing count with
  | nil => rw [occurrencesFrom, List.filterMap_nil, List.filter_nil, List.take_nil]
  | cons offset offsets ih =>
      cases count with
      | zero => rw [occurrencesFrom, List.take_zero]; exact fun h => by cases h
      | succ count =>
          rw [occurrencesFrom, List.filterMap_cons, occurrenceOf]
          split
          · cases resolveLocalOccurrence zones (addLocalDays start offset) hour minute timezone with
            | none => exact ih _
            | some found =>
                obtain ⟨t, shifted⟩ := found
                dsimp only [Option.map_some]
                by_cases hlate : t ≤ after
                · rw [if_pos hlate, List.filter_cons_of_neg (by simpa using hlate)]
                  exact ih _
                · rw [if_neg hlate, List.filter_cons_of_pos (by simpa using hlate),
                    List.take_succ_cons, ih]
          · exact ih _

theorem occurrenceOf_iff (hc : c.Retraces) (hzone : ∀ t, zones timezone t = localOf c t)
    (hhour : 0 ≤ hour ∧ hour < 24) (hminute : 0 ≤ minute ∧ minute < 60) (offset : Nat) :
    occurrenceOf zones schedule timezone hour minute start offset = some t ↔
      UtcKnows (utcDays start + offset) ∧ schedule.Fires (utcDays start + offset) ∧
        IsResolved (localOf c) (localDateOfDays (utcDays start + offset)) hour minute t := by
  rw [occurrenceOf, addLocalDays]
  generalize utcDays start + offset = days
  by_cases hknows : UtcKnows days
  · obtain ⟨m, hm⟩ := c.exists_first ((days * 24 + hour) * 60 + minute)
    rw [resolveLocalOccurrence_eq hc hzone hknows rfl (by omega) hm, utcWeekday,
      utcDays_localDateOfDays hknows, isResolved_iff hc hhour hminute hm, AutomationSchedule.Fires]
    split
    · next hday =>
        split
        · next hdate => simp [hknows, hday, hdate, eq_comm]
        · next hdate => simp [hdate]
    · next hday => simp [hday]
  · rw [resolveLocalOccurrence_unknown hzone hhour.1 hminute.1 hknows]
    simp [hknows]

/-- The instants of the dates that are looked at. -/
def searchedOccurrences (zones : TimeZones) (schedule : AutomationSchedule) (timezone : String)
    (hour minute : Int) (start : LocalDate) : List Int :=
  (List.range 370).filterMap (occurrenceOf zones schedule timezone hour minute start)

theorem mem_searchedOccurrences (hc : c.Retraces) (hzone : ∀ t, zones timezone t = localOf c t)
    (hs : schedule.Recurs timezone hour minute) :
    t ∈ searchedOccurrences zones schedule timezone hour minute start ↔
      ∃ days, (utcDays start ≤ days ∧ days < utcDays start + 370 ∧ UtcKnows days) ∧
        schedule.Fires days ∧ IsResolved (localOf c) (localDateOfDays days) hour minute t := by
  rw [searchedOccurrences, List.mem_filterMap]
  constructor
  · rintro ⟨offset, hoffset, hfound⟩
    have hlt := List.mem_range.mp hoffset
    obtain ⟨hknows, hfires, hresolved⟩ :=
      (occurrenceOf_iff hc hzone hs.hour hs.minute offset).mp hfound
    exact ⟨_, ⟨by omega, by omega, hknows⟩, hfires, hresolved⟩
  · rintro ⟨days, ⟨hle, hlt, hknows⟩, hfires, hresolved⟩
    obtain ⟨offset, rfl⟩ : ∃ offset : Nat, days = utcDays start + offset :=
      ⟨(days - utcDays start).toNat, by omega⟩
    exact ⟨offset, List.mem_range.mpr (by omega),
      (occurrenceOf_iff hc hzone hs.hour hs.minute offset).mpr ⟨hknows, hfires, hresolved⟩⟩

theorem searchedOccurrences_sorted (hc : c.Retraces)
    (hzone : ∀ t, zones timezone t = localOf c t) (hs : schedule.Recurs timezone hour minute) :
    (searchedOccurrences zones schedule timezone hour minute start).Pairwise (· < ·) := by
  rw [searchedOccurrences, List.pairwise_filterMap]
  refine List.pairwise_lt_range.imp fun {k k'} hlt t ht t' ht' => ?_
  obtain ⟨-, -, h⟩ := (occurrenceOf_iff hc hzone hs.hour hs.minute k).mp ht
  obtain ⟨-, -, h'⟩ := (occurrenceOf_iff hc hzone hs.hour hs.minute k').mp ht'
  exact isResolved_lt hc hs.hour hs.minute (by omega) h h'

theorem take_filter_first {l : List Int} (hl : l.Pairwise (· < ·)) {p : Int → Bool} {count : Nat}
    (ht : t ∈ l) (hp : p t = true) :
    t ∈ (l.filter p).take count ∨
      (∀ x ∈ (l.filter p).take count, x < t) ∧ ((l.filter p).take count).length = count := by
  have hmem : t ∈ l.filter p := List.mem_filter.mpr ⟨ht, hp⟩
  have hsorted := hl.filter p
  rw [← List.take_append_drop count (l.filter p)] at hmem hsorted
  rcases List.mem_append.mp hmem with hmem | hmem
  · exact .inl hmem
  · refine .inr ⟨fun x hx => (List.pairwise_append.mp hsorted).2.2 x hx t hmem, ?_⟩
    rw [List.length_take]
    have hlength := List.length_pos_of_mem hmem
    rw [List.length_drop] at hlength
    omega

theorem automationOccurrences_eq (hs : schedule.Recurs timezone hour minute) {count : Nat}
    (hcount : count ≤ 5) :
    automationOccurrences zones schedule after count =
      ((searchedOccurrences zones schedule timezone hour minute
        (zones timezone after).toLocalDate).filter (after < ·)).take count := by
  have hmin : min count 5 = count := Nat.min_eq_left hcount
  unfold automationOccurrences searchedOccurrences
  generalize List.range 370 = offsets
  dsimp only
  rw [hmin]
  split
  · next h => rw [h, List.take_zero]
  · rcases hs.kind with rfl | ⟨daysOfWeek, rfl⟩ <;> exact occurrencesFrom_eq offsets count

/-- On a clock that retraces, the occurrences of a daily or weekly schedule increase strictly,
are later than `after` and each the instant of one of the schedule's dates; and an instant of
such a date that is later than `after` is one of them, or comes after all of them, and then
there are `count` of them or the date is beyond the 370 that are looked at. -/
theorem occurrences_exact (hc : c.Retraces) (hzone : ∀ t, zones timezone t = localOf c t)
    (hs : schedule.Recurs timezone hour minute) (hyear : 100 ≤ (zones timezone after).year)
    {count : Nat} (hcount : count ≤ 5) :
    let found := automationOccurrences zones schedule after count
    found.Pairwise (· < ·) ∧ found.length ≤ count ∧
      (∀ t ∈ found, after < t ∧ ∃ days, schedule.Fires days ∧
        IsResolved (localOf c) (localDateOfDays days) hour minute t) ∧
      ∀ days t, schedule.Fires days →
        IsResolved (localOf c) (localDateOfDays days) hour minute t → after < t →
        t ∈ found ∨ (∀ x ∈ found, x < t) ∧
          (found.length = count ∨ c.wall (after / 60000) / 1440 + 370 ≤ days) := by
  intro found
  obtain ⟨today, htoday⟩ : ∃ today, today = c.wall (after / 60000) / 1440 := ⟨_, rfl⟩
  have hstart : (zones timezone after).toLocalDate = localDateOfDays today := by
    rw [hzone, htoday]
    rfl
  have hyear' : 100 ≤ (localDateOfDays today).year := by rwa [← hstart]
  have hknows : ∀ days, today ≤ days → UtcKnows days := fun days hle => by
    rw [year_le_iff] at hyear'
    exact utcKnows_of_year ((year_le_iff days).mpr (by omega))
  obtain ⟨dates, hdates⟩ : ∃ dates, dates = searchedOccurrences zones schedule timezone hour minute
      (localDateOfDays today) := ⟨_, rfl⟩
  have hfound : found = (dates.filter (after < ·)).take count := by
    rw [show found = _ from automationOccurrences_eq hs hcount, hstart, hdates]
  have hmem : ∀ t, t ∈ dates ↔ ∃ days, (today ≤ days ∧ days < today + 370 ∧ UtcKnows days) ∧
      schedule.Fires days ∧ IsResolved (localOf c) (localDateOfDays days) hour minute t := by
    intro t
    rw [hdates, mem_searchedOccurrences hc hzone hs, utcDays_localDateOfDays (hknows today le_rfl)]
  have hsorted : dates.Pairwise (· < ·) := hdates ▸ searchedOccurrences_sorted hc hzone hs
  have hsub : ∀ t ∈ found, t ∈ dates ∧ after < t := by
    intro t ht
    rw [hfound] at ht
    obtain ⟨hdate, hlate⟩ := List.mem_filter.mp (List.mem_of_mem_take ht)
    exact ⟨hdate, of_decide_eq_true hlate⟩
  rw [← htoday]
  refine ⟨?_, ?_, fun t ht => ?_, fun days t hfires hresolved hlate => ?_⟩
  · rw [hfound]
    exact (hsorted.filter _).sublist (List.take_sublist ..)
  · rw [hfound]
    exact List.length_take_le ..
  · obtain ⟨hdate, hlate⟩ := hsub t ht
    obtain ⟨days, -, hdays⟩ := (hmem t).mp hdate
    exact ⟨hlate, days, hdays⟩
  · have hnotBefore : today ≤ days := by
      by_contra hlt
      have hle := isResolved_le hc hs.hour hs.minute (htoday ▸ Int.not_le.mp hlt) hresolved
      omega
    rcases Int.lt_or_le days (today + 370) with hin | hout
    · have hdate : t ∈ dates :=
        (hmem t).mpr ⟨days, ⟨hnotBefore, hin, hknows days hnotBefore⟩, hfires, hresolved⟩
      rw [hfound]
      exact (take_filter_first hsorted hdate (decide_eq_true hlate)).imp_right
        (And.imp_right .inl)
    · refine .inr ⟨fun x hx => ?_, .inr hout⟩
      obtain ⟨days', ⟨-, hk, -⟩, -, hx'⟩ := (hmem x).mp (hsub x hx).1
      exact isResolved_lt hc hs.hour hs.minute (by omega) hx' hresolved

end

/-- Put forward by an hour at minute 87,840 (1970-03-03) and back at minute 263,520. -/
def summerClock : Clock where
  offset m := if 87840 ≤ m ∧ m < 263520 then 60 else 0
  offset_le m := by split <;> omega
  jump_le m := by
    constructor
    all_goals
      split <;> split <;> omega

theorem summerClock_retraces : summerClock.Retraces := by
  intro m m' hlt hback
  simp only [Clock.wall, summerClock] at hback ⊢
  -- the times of the last hour of summer are shown again
  have hsummer : (87840 ≤ m ∧ m < 263520) ∧ 263520 ≤ m' ∧ m' < m + 60 := by
    split at hback <;> split at hback <;> omega
  refine ⟨m' - 60, by omega, ?_⟩
  rw [if_pos (by omega), if_neg (by omega)]
  omega

theorem summerClock_occurrences :
    let found := automationOccurrences (fun _ => localOf summerClock)
      (.weekly "Zone" [2, 3] 0 30) 0 2
    found.Pairwise (· < ·) ∧ found.length ≤ 2 ∧
      (∀ t ∈ found, 0 < t ∧ ∃ days, AutomationSchedule.Fires (.weekly "Zone" [2, 3] 0 30) days ∧
        IsResolved (localOf summerClock) (localDateOfDays days) 0 30 t) ∧
      ∀ days t, AutomationSchedule.Fires (.weekly "Zone" [2, 3] 0 30) days →
        IsResolved (localOf summerClock) (localDateOfDays days) 0 30 t → 0 < t →
        t ∈ found ∨ (∀ x ∈ found, x < t) ∧
          (found.length = 2 ∨ summerClock.wall (0 / 60000) / 1440 + 370 ≤ days) :=
  occurrences_exact summerClock_retraces (fun _ => rfl)
    ⟨.inr ⟨_, rfl⟩, by decide, by decide⟩ (by decide) (by decide)

/-- Put forward from 23:00 on 1970-01-01 to 01:00 on the next day, and ten minutes later back
to 23:10. -/
def skippingClock : Clock where
  offset m := if 1380 ≤ m ∧ m < 1390 then 120 else 0
  offset_le m := by split <;> omega
  jump_le m := by
    constructor
    all_goals
      split <;> split <;> omega

/-- Five minutes into the next day, the daily 23:30 that is 25 minutes off is not looked for:
the first occurrence found is that of the day after. -/
theorem skipped_evening :
    automationOccurrences (fun _ => localOf skippingClock) (.daily "Zone" 23 30) (1385 * 60000) 1 =
        [2850 * 60000] ∧
      AutomationSchedule.Fires (.daily "Zone" 23 30) 0 ∧
      IsResolved (localOf skippingClock) (localDateOfDays 0) 23 30 (1410 * 60000) ∧
      (1385 : Int) * 60000 < 1410 * 60000 ∧ (1410 : Int) * 60000 < 2850 * 60000 := by
  refine ⟨by decide +kernel, rfl, .inl ?_, by decide, by decide⟩
  have hexact :
      {t | localOf skippingClock t = { localDateOfDays 0 with hour := 23, minute := 30 }} =
      {t | skippingClock.wall (t / 60000) = 1410} :=
    Set.ext fun t => localOf_eq_iff (by decide) (by decide)
  rw [hexact]
  refine isLeast_instant (P := fun m => skippingClock.wall m = 1410) ⟨by decide, fun m hm => ?_⟩
  have hwall : m + (if 1380 ≤ m ∧ m < 1390 then 120 else 0) = 1410 := hm
  split at hwall <;> omega

end OmniRush.Automations
