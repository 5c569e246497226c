/-!
# Schedules and their occurrences

`schedule.ts`. A recurring schedule is a wall-clock time in a time zone. Its next
occurrence is searched day by day: the day's local time is looked up minute by minute
around the nominal instant, and where a daylight-saving change skips it, the first
later minute of that day stands in.

What the local time of an instant is comes from the runtime's time zone data, which is
a parameter. Instants are milliseconds; the calendar is the proleptic Gregorian one.
-/

namespace OmniRush.Automations

structure LocalDate where
  year : Int
  month : Int
  day : Int
  deriving DecidableEq, Repr

structure LocalDateTime extends LocalDate where
  hour : Int
  minute : Int
  deriving DecidableEq, Repr

/-- The local time of an instant in a time zone. -/
abbrev TimeZones := String → Int → LocalDateTime

/-! ## The calendar -/

/-- Days since 1970-01-01, years beginning in March. -/
def civilDays (date : LocalDate) : Int :=
  let year := if date.month ≤ 2 then date.year - 1 else date.year
  let era := year / 400
  let yearOfEra := year - era * 400
  let dayOfYear := (153 * ((date.month + 9) % 12) + 2) / 5 + date.day - 1
  era * 146097 + yearOfEra * 365 + yearOfEra / 4 - yearOfEra / 100 + dayOfYear - 719468

def localDateOfDays (days : Int) : LocalDate :=
  let shifted := days + 719468
  let era := shifted / 146097
  let dayOfEra := shifted - era * 146097
  let yearOfEra := (dayOfEra - dayOfEra / 1460 + dayOfEra / 36524 - dayOfEra / 146096) / 365
  let dayOfYear := dayOfEra - (365 * yearOfEra + yearOfEra / 4 - yearOfEra / 100)
  let marchMonth := (5 * dayOfYear + 2) / 153
  let month := if marchMonth < 10 then marchMonth + 3 else marchMonth - 9
  { year := yearOfEra + era * 400 + if month ≤ 2 then 1 else 0
    month := month
    day := dayOfYear - (153 * marchMonth + 2) / 5 + 1 }

/-- `Date.UTC` takes a year of two digits for one of the 1900s. -/
def utcYear (year : Int) : Int := if 0 ≤ year ∧ year ≤ 99 then 1900 + year else year

/-- The day `Date.UTC` finds. -/
def utcDays (date : LocalDate) : Int := civilDays { date with year := utcYear date.year }

example : utcDays ⟨2024, 2, 29⟩ = 19782 ∧ localDateOfDays 19782 = ⟨2024, 2, 29⟩ := by decide

/-- `Date.UTC`. -/
def dateUtc (date : LocalDate) (hour minute : Int) : Int :=
  ((utcDays date * 24 + hour) * 60 + minute) * 60000

def addLocalDays (date : LocalDate) (days : Nat) : LocalDate :=
  localDateOfDays (utcDays date + days)

/-- `getUTCDay`: Sunday is 0. -/
def utcWeekday (date : LocalDate) : Int := (utcDays date + 4) % 7

def localKey (value : LocalDateTime) : Int := dateUtc value.toLocalDate value.hour value.minute

/-! ## Occurrences -/

inductive AutomationSchedule where
  | once (timezone : String) («at» : Int)
  | daily (timezone : String) (hour minute : Int)
  | weekly (timezone : String) (daysOfWeek : List Int) (hour minute : Int)
  deriving DecidableEq, Repr

def searchWindowHours : Int := 18

section

variable (zones : TimeZones)

/-- The loop of `resolveLocalOccurrence` over the candidate minutes. -/
def resolveFrom (date : LocalDate) (targetKey : Int) (timezone : String) :
    List Int → Option Int → Option (Int × Bool)
  | [], shifted => shifted.map fun timestamp => (timestamp, true)
  | candidate :: candidates, shifted =>
      let value := zones timezone candidate
      if value.toLocalDate ≠ date then resolveFrom date targetKey timezone candidates shifted
      else if localKey value = targetKey then some (candidate, false)
      else if localKey value > targetKey ∧ shifted.all (candidate < ·) then
        resolveFrom date targetKey timezone candidates (some candidate)
      else resolveFrom date targetKey timezone candidates shifted

/-- The instant of a wall-clock time on a day, and whether it had to be shifted. -/
@[irreducible] def resolveLocalOccurrence (date : LocalDate) (hour minute : Int) (timezone : String) :
    Option (Int × Bool) :=
  let nominal := dateUtc date hour minute
  let start := nominal - searchWindowHours * 60 * 60 * 1000
  let candidates := (List.range 2161).map fun i => start + Int.ofNat i * 60000
  resolveFrom zones date nominal timezone candidates none

def AutomationSchedule.isScheduledDay : AutomationSchedule → Int → Bool
  | .once _ _, _ => false
  | .daily _ _ _, _ => true
  | .weekly _ daysOfWeek _ _, weekday => daysOfWeek.contains weekday

/-- The day loop of `automationOccurrences`, until `count` are found. -/
def occurrencesFrom (schedule : AutomationSchedule) (timezone : String) (hour minute after : Int)
    (start : LocalDate) : List Nat → Nat → List Int
  | [], _ => []
  | _, 0 => []
  | offset :: offsets, count + 1 =>
      let date := addLocalDays start offset
      if schedule.isScheduledDay (utcWeekday date) then
        match resolveLocalOccurrence zones date hour minute timezone with
        | none => occurrencesFrom schedule timezone hour minute after start offsets (count + 1)
        | some (timestamp, _) =>
            if timestamp ≤ after then
              occurrencesFrom schedule timezone hour minute after start offsets (count + 1)
            else timestamp :: occurrencesFrom schedule timezone hour minute after start offsets count
      else occurrencesFrom schedule timezone hour minute after start offsets (count + 1)

/-- `automationOccurrences` without its warnings, which only the preview shows. -/
def automationOccurrences (schedule : AutomationSchedule) (after : Int) (count : Nat) : List Int :=
  let count := min count 5
  if count = 0 then []
  else
    match schedule with
    | .once _ «at» => if «at» > after then [«at»] else []
    | .daily timezone hour minute | .weekly timezone _ hour minute =>
        occurrencesFrom zones schedule timezone hour minute after
          (zones timezone after).toLocalDate (List.range 370) count

def nextAutomationOccurrence (schedule : AutomationSchedule) (after : Int) : Option Int :=
  (automationOccurrences zones schedule after 1).head?

def recoverableAutomationOccurrence (schedule : AutomationSchedule) (after now : Int) :
    Option Int :=
  ((automationOccurrences zones schedule after 5).filter (· ≤ now)).getLast?

/-! ## What an occurrence is -/

/-- An instant the schedule names: its one instant, or its time on one of its days. -/
def AutomationSchedule.Occurs : AutomationSchedule → Int → Prop
  | .once _ «at», t => t = «at»
  | .daily timezone hour minute, t =>
      ∃ date shifted, resolveLocalOccurrence zones date hour minute timezone = some (t, shifted)
  | .weekly timezone daysOfWeek hour minute, t =>
      ∃ date shifted, utcWeekday date ∈ daysOfWeek ∧
        resolveLocalOccurrence zones date hour minute timezone = some (t, shifted)

theorem occurrencesFrom_mem {schedule : AutomationSchedule} {timezone : String}
    {hour minute after : Int} {start : LocalDate} {offsets : List Nat} {count : Nat} {t : Int}
    (h : t ∈ occurrencesFrom zones schedule timezone hour minute after start offsets count) :
    after < t ∧ ∃ date shifted, schedule.isScheduledDay (utcWeekday date) = true ∧
      resolveLocalOccurrence zones date hour minute timezone = some (t, shifted) := by
  induction offsets generalizing count with
  | nil => cases h
  | cons offset offsets ih =>
      cases count with
      | zero => cases h
      | succ count =>
          rw [occurrencesFrom] at h
          split at h
          · next hday =>
              split at h
              · exact ih h
              · next timestamp shifted hresolved =>
                  split at h
                  · exact ih h
                  · next hlate =>
                      rcases List.mem_cons.mp h with rfl | h
                      · exact ⟨by omega, _, _, hday, hresolved⟩
                      · exact ih h
          · exact ih h

theorem automationOccurrences_mem {schedule : AutomationSchedule} {after t : Int} {count : Nat}
    (h : t ∈ automationOccurrences zones schedule after count) :
    after < t ∧ schedule.Occurs zones t := by
  unfold automationOccurrences at h
  generalize List.range 370 = days at h
  dsimp only at h
  by_cases hcount : min count 5 = 0
  · rw [if_pos hcount] at h
    cases h
  · rw [if_neg hcount] at h
    cases schedule with
    | once timezone «at» =>
        dsimp only at h
        split at h
        · next hlate =>
            obtain rfl := List.mem_singleton.mp h
            exact ⟨hlate, rfl⟩
        · cases h
    | daily timezone hour minute =>
        obtain ⟨hlate, date, shifted, -, hresolved⟩ := occurrencesFrom_mem zones h
        exact ⟨hlate, date, shifted, hresolved⟩
    | weekly timezone daysOfWeek hour minute =>
        obtain ⟨hlate, date, shifted, hday, hresolved⟩ := occurrencesFrom_mem zones h
        exact ⟨hlate, date, shifted, List.contains_iff_mem.mp hday, hresolved⟩

theorem nextAutomationOccurrence_spec {schedule : AutomationSchedule} {after t : Int}
    (h : nextAutomationOccurrence zones schedule after = some t) :
    after < t ∧ schedule.Occurs zones t := by
  unfold nextAutomationOccurrence at h
  exact automationOccurrences_mem zones (List.mem_of_head? h)

end

end OmniRush.Automations
