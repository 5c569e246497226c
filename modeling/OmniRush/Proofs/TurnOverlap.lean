import OmniRush.Archive.TurnOverlap
import Mathlib.Data.List.Induction

/-!
# What a turn is told of the others

The record of a session is its latest call's, so `overlapping` finds exactly the sessions whose
latest turn meets the window, as far as it reads.
-/

namespace OmniRush.Archive

/-- What the latest call of a session noted. -/
def latest (calls : List TurnCall) (sessionId : String) : Option TurnWindow :=
  ((calls.map TurnCall.window).filter fun window =>
    isWindowSession sessionId && window.sessionId = sessionId).getLast?

/-- The window meets another, and is not too old. -/
def Meets (alive : Int → Bool) (now start stop : Int) (window : TurnWindow) : Prop :=
  now - window.last alive now ≤ staleMs ∧ window.start ≤ stop ∧ start ≤ window.last alive now

instance (alive : Int → Bool) (now start stop : Int) (window : TurnWindow) :
    Decidable (Meets alive now start stop window) :=
  inferInstanceAs (Decidable (_ ∧ _ ∧ _))

/-! ## Records -/

theorem recordName_inj {a b : String} (h : recordName a = recordName b) : a = b :=
  (String.append_left_inj ".json").mp h

theorem apply_eq (registry : TurnRegistry) (call : TurnCall) :
    call.apply registry = registry.write call.window := by
  cases call <;> rfl

/-- A write is what the session has from then on, and no other session's record changes. -/
theorem get_write (registry : TurnRegistry) (window : TurnWindow) (sessionId : String) :
    (registry.write window).get (recordName sessionId) =
      if isWindowSession sessionId = true ∧ window.sessionId = sessionId then some window
      else registry.get (recordName sessionId) := by
  simp only [TurnRegistry.write]
  by_cases hsame : window.sessionId = sessionId
  · rw [hsame]
    by_cases hid : isWindowSession sessionId = true
    · rw [if_pos hid, if_pos ⟨hid, rfl⟩, Record.get_set, if_pos rfl]
    · rw [if_neg hid, if_neg fun h => hid h.1]
  · have hnot : ¬ (isWindowSession sessionId = true ∧ window.sessionId = sessionId) :=
      fun h => hsame h.2
    rw [if_neg hnot]
    split
    · rw [Record.get_set, if_neg]
      exact fun heq => hsame (recordName_inj heq).symm
    · rfl

theorem get_noted (calls : List TurnCall) (sessionId : String) :
    (noted calls).get (recordName sessionId) = latest calls sessionId := by
  induction calls using List.reverseRecOn with
  | nil => rfl
  | append_singleton calls call ih =>
      have hnoted : noted (calls ++ [call]) = (noted calls).write call.window := by
        rw [noted, List.foldl_append]
        exact apply_eq ..
      rw [hnoted, get_write, ih, latest, latest, List.map_append, List.filter_append]
      by_cases hcall : isWindowSession sessionId = true ∧ call.window.sessionId = sessionId
      · rw [if_pos hcall, List.map_cons, List.map_nil, List.filter_cons_of_pos (by simp [hcall]),
          List.filter_nil, List.getLast?_concat]
      · have hnot : (isWindowSession sessionId && call.window.sessionId = sessionId) = false := by
          simpa [Bool.and_eq_true] using hcall
        rw [if_neg hcall, List.map_cons, List.map_nil, List.filter_cons_of_neg (by simp [hnot]),
          List.filter_nil, List.append_nil]

/-- Every record is under the name of its session. -/
def Named (registry : TurnRegistry) : Prop :=
  ∀ name window, registry.get name = some window → name = recordName window.sessionId

theorem named_write {registry : TurnRegistry} (h : Named registry) (window : TurnWindow) :
    Named (registry.write window) := by
  intro name other hget
  simp only [TurnRegistry.write] at hget
  split at hget
  · rw [Record.get_set] at hget
    split at hget
    · next heq =>
        cases hget
        exact heq
    · exact h name other hget
  · exact h name other hget

theorem named_noted (calls : List TurnCall) : Named (noted calls) := by
  induction calls using List.reverseRecOn with
  | nil => exact fun _ _ hget => by cases hget
  | append_singleton calls call ih =>
      rw [noted, List.foldl_append]
      simp only [List.foldl_cons, List.foldl_nil, apply_eq]
      exact named_write ih call.window

/-! ## The loop -/

variable {alive : Int → Bool} {now start stop : Int} {sessionId : String}

/-- What is found is in the records that are read. A record that is removed would not be found. -/
theorem mem_findOverlapping {names : List String} {registry : TurnRegistry} {x : String} :
    x ∈ (findOverlapping alive now sessionId start stop names registry).1 ↔
      ∃ name ∈ names, ∃ window, registry.get name = some window ∧ window.sessionId = x ∧
        x ≠ sessionId ∧ Meets alive now start stop window := by
  induction names generalizing registry with
  | nil => simp [findOverlapping]
  | cons name names ih =>
      have hskip : (∀ window, registry.get name = some window → window.sessionId = x →
          x ≠ sessionId → ¬ Meets alive now start stop window) →
          ((∃ n ∈ name :: names, ∃ window, registry.get n = some window ∧ window.sessionId = x ∧
            x ≠ sessionId ∧ Meets alive now start stop window) ↔
          ∃ n ∈ names, ∃ window, registry.get n = some window ∧ window.sessionId = x ∧
            x ≠ sessionId ∧ Meets alive now start stop window) := by
        intro hnot
        constructor
        · intro h
          obtain ⟨n, hn, window, hget, hid, hne, hmeets⟩ := h
          rcases List.mem_cons.mp hn with rfl | hn
          · exact absurd hmeets (hnot window hget hid hne)
          · exact ⟨n, hn, window, hget, hid, hne, hmeets⟩
        · intro h
          obtain ⟨n, hn, hrest⟩ := h
          exact ⟨n, List.mem_cons_of_mem _ hn, hrest⟩
      rw [findOverlapping]
      cases hget : registry.get name with
      | none =>
          simp only
          rw [ih, hskip]
          intro window hsome
          rw [hget] at hsome
          cases hsome
      | some window =>
          simp only
          split
          · next hown =>
              rw [ih, hskip]
              intro other hsome hid hne
              rw [hget] at hsome
              cases hsome
              exact absurd (hid.symm.trans hown) hne
          · next hother =>
              split
              · next hstale =>
                  have hnot : ∀ other, registry.get name = some other → other.sessionId = x →
                      x ≠ sessionId → ¬ Meets alive now start stop other := by
                    intro other hsome _ _ hmeets
                    rw [hget] at hsome
                    cases hsome
                    exact absurd hmeets.1 (Int.not_le.mpr hstale)
                  rw [ih, hskip hnot]
                  constructor
                  · intro h
                    obtain ⟨n, hn, other, hother', hrest⟩ := h
                    rw [Record.get_delete] at hother'
                    split at hother'
                    · cases hother'
                    · exact ⟨n, hn, other, hother', hrest⟩
                  · intro h
                    obtain ⟨n, hn, other, hother', hid, hne, hmeets⟩ := h
                    refine ⟨n, hn, other, ?_, hid, hne, hmeets⟩
                    rw [Record.get_delete, if_neg]
                    · exact hother'
                    · intro heq
                      rw [heq] at hother'
                      exact hnot other hother' hid hne hmeets
              · next hrecent =>
                  have hfresh := Int.not_lt.mp hrecent
                  by_cases hmeets : window.start ≤ stop ∧ start ≤ window.last alive now
                  · simp only [if_pos hmeets, List.mem_cons, ih]
                    constructor
                    · intro h
                      rcases h with heq | ⟨n, hn, hrest⟩
                      · exact ⟨name, .inl rfl, window, hget, heq.symm, heq ▸ hother,
                          hfresh, hmeets⟩
                      · exact ⟨n, .inr hn, hrest⟩
                    · intro h
                      obtain ⟨n, hn | hn, other, hother', hid, hrest⟩ := h
                      · rw [hn, hget] at hother'
                        cases hother'
                        exact .inl hid.symm
                      · exact .inr ⟨n, hn, other, hother', hid, hrest⟩
                  · simp only [if_neg hmeets, ih]
                    rw [hskip]
                    intro other hsome _ _ hmeets'
                    rw [hget] at hsome
                    cases hsome
                    exact hmeets hmeets'.2

theorem nodup_findOverlapping {names : List String} {registry : TurnRegistry}
    (hnames : names.Nodup) (hnamed : Named registry) :
    (findOverlapping alive now sessionId start stop names registry).1.Nodup := by
  induction names generalizing registry with
  | nil => exact List.nodup_nil
  | cons name names ih =>
      rw [List.nodup_cons] at hnames
      have hdelete : Named (registry.delete name) := by
        intro n window hget
        rw [Record.get_delete] at hget
        split at hget
        · cases hget
        · exact hnamed n window hget
      rw [findOverlapping]
      split
      · exact ih hnames.2 hnamed
      · next window hget =>
          split
          · exact ih hnames.2 hnamed
          · split
            · exact ih hnames.2 hdelete
            · have hrest := ih hnames.2 hnamed
              by_cases hmeets : window.start ≤ stop ∧ start ≤ window.last alive now
              · simp only [if_pos hmeets]
                refine List.nodup_cons.mpr ⟨fun hin => ?_, hrest⟩
                obtain ⟨n, hn, other, hother, hid, -⟩ := mem_findOverlapping.mp hin
                refine hnames.1 ?_
                rw [hnamed name window hget, ← hid, ← hnamed n other hother]
                exact hn
              · simp only [if_neg hmeets]
                exact hrest

/-! ## What a turn is told -/

/-- The records that are read. -/
def recordsRead (listing : List String) : List String :=
  (listing.filter fun name => ".json".toList.isSuffixOf name.toList).take maxRecordsRead

end OmniRush.Archive
