import Mathlib.Order.Bounds.Basic
import Mathlib.Data.Int.LeastGreatest

/-!
# Wall clocks

A wall clock shows a number of minutes that is off from the true one by an offset of at most
14 hours, which may change from one minute to the next. Clocks that are put forward skip
some wall times, clocks that are put back show some of them again. A clock retraces when it
is put back over times it has shown only, as for daylight saving, and not over times that it
skipped before.

The first minute that shows a wall time or a later one is what a schedule goes by. It grows
with the time, and on a clock that retraces nothing between the time and what that minute
shows is ever shown (`Clock.IsFirst.skips`).
-/

namespace OmniRush

structure Clock where
  /-- How far ahead it is in each minute. -/
  offset : Int → Int
  offset_le : ∀ m, -840 ≤ offset m ∧ offset m ≤ 840
  /-- It is put forward or back by a day at most. -/
  jump_le : ∀ m, offset (m + 1) - offset m ≤ 1440 ∧ offset m - offset (m + 1) ≤ 1440

namespace Clock

variable {c : Clock} {time time' m m' : Int}

def wall (c : Clock) (m : Int) : Int := m + c.offset m

/-- It goes back only over times it has shown. -/
def Retraces (c : Clock) : Prop :=
  ∀ m m', m < m' → c.wall m' < c.wall m → ∃ m₀ ≤ m, c.wall m₀ = c.wall m'

/-- The first minute that shows the time or a later one. -/
def IsFirst (c : Clock) (time m : Int) : Prop := IsLeast {m | time ≤ c.wall m} m

theorem exists_first (c : Clock) (time : Int) : ∃ m, c.IsFirst time m := by
  have hbound : ∃ b, ∀ m, time ≤ c.wall m → b ≤ m := by
    refine ⟨time - 840, fun m hm => ?_⟩
    have hoffset := (c.offset_le m).2
    rw [wall] at hm
    omega
  have hshown : ∃ m, time ≤ c.wall m := by
    refine ⟨time + 840, ?_⟩
    have hoffset := (c.offset_le (time + 840)).1
    rw [wall]
    omega
  obtain ⟨m, hm, hleast⟩ := Int.exists_least_of_bdd hbound hshown
  exact ⟨m, hm, fun m' hm' => hleast m' hm'⟩

theorem IsFirst.shows (h : c.IsFirst time m) : time ≤ c.wall m := h.1

theorem IsFirst.before (h : c.IsFirst time m) (hlt : m' < m) : c.wall m' < time := by
  by_contra hle
  exact absurd (h.2 (Int.not_lt.mp hle)) (Int.not_le.mpr hlt)

theorem IsFirst.bounds (h : c.IsFirst time m) : time - 840 ≤ m ∧ m ≤ time + 840 := by
  constructor
  · have hshows := h.shows
    have hoffset := (c.offset_le m).2
    rw [wall] at hshows
    omega
  · refine h.2 ?_
    have hoffset := (c.offset_le (time + 840)).1
    show time ≤ c.wall (time + 840)
    rw [wall]
    omega

theorem IsFirst.mono (h : c.IsFirst time m) (h' : c.IsFirst time' m') (hle : time ≤ time') :
    m ≤ m' := h.2 (Int.le_trans hle h'.1)

theorem IsFirst.skips (h : c.IsFirst time m) (hc : c.Retraces) (hle : time ≤ time')
    (hlt : time' < c.wall m) (m' : Int) : c.wall m' ≠ time' := by
  rintro rfl
  have hafter : m < m' := by
    rcases Int.lt_trichotomy m m' with hm | rfl | hm
    · exact hm
    · exact absurd hlt (Int.lt_irrefl _)
    · exact absurd (h.before hm) (Int.not_lt.mpr hle)
  obtain ⟨m₀, hm₀, hwall⟩ := hc m m' hafter hlt
  rcases Int.lt_or_eq_of_le hm₀ with hbefore | rfl
  · have hearly := h.before hbefore
    rw [hwall] at hearly
    exact absurd hearly (Int.not_lt.mpr hle)
  · rw [hwall] at hlt
    exact Int.lt_irrefl _ hlt

end Clock

end OmniRush
