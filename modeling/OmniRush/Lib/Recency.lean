import Mathlib.Data.List.Induction
import Mathlib.Data.List.Nodup
import OmniRush.Lib.Lists

/-!
# The most recent of a bounded number

Entries are kept by key in the order they were last put in, at most so many of them: one that is
put in again goes to the end, and what is over the bound goes from the front. What is kept of a
key is what was last put in for it, and a key is kept as long as no more keys than the bound
were put in since.
-/

namespace OmniRush

variable {κ β : Type} [DecidableEq κ] {cap : Nat} {entries : List (κ × β)} {k : κ} {v : β}

/-- A key is put in, with its value. -/
def touch (cap : Nat) (entries : List (κ × β)) (put : κ × β) : List (κ × β) :=
  let all := entries.filter (fun entry => entry.1 ≠ put.1) ++ [put]
  all.drop (all.length - cap)

def touchAll (cap : Nat) (puts : List (κ × β)) : List (κ × β) := puts.foldl (touch cap) []

/-- The value a key was last put in with. -/
def LastPut (puts : List (κ × β)) (k : κ) (v : β) : Prop :=
  ∃ before after, puts = before ++ (k, v) :: after ∧ k ∉ after.map (·.1)

theorem touchAll_concat (puts : List (κ × β)) (put : κ × β) :
    touchAll cap (puts ++ [put]) = touch cap (touchAll cap puts) put := by
  rw [touchAll, List.foldl_append]
  rfl

omit [DecidableEq κ] in
theorem LastPut.concat {puts : List (κ × β)} (h : LastPut puts k v) {put : κ × β}
    (hne : k ≠ put.1) : LastPut (puts ++ [put]) k v := by
  obtain ⟨before, after, rfl, hafter⟩ := h
  refine ⟨before, after ++ [put], by simp, ?_⟩
  rw [List.map_append, List.mem_append]
  rintro (hin | hin)
  · exact hafter hin
  · exact hne (List.mem_singleton.mp hin)

omit [DecidableEq κ] in
theorem lastPut_concat (puts : List (κ × β)) (put : κ × β) :
    LastPut (puts ++ [put]) put.1 put.2 := ⟨puts, [], rfl, fun hin => nomatch hin⟩

theorem nodup_put (h : (entries.map (·.1)).Nodup) (put : κ × β) :
    ((entries.filter (fun entry => entry.1 ≠ put.1) ++ [put]).map (·.1)).Nodup := by
  rw [List.map_append, List.nodup_append]
  refine ⟨h.sublist ((List.filter_sublist ..).map _), List.nodup_singleton _, fun x hx y hy => ?_⟩
  obtain ⟨entry, hentry, rfl⟩ := List.mem_map.mp hx
  obtain rfl := List.mem_singleton.mp hy
  exact of_decide_eq_true (List.mem_filter.mp hentry).2

theorem nodup_touchAll (cap : Nat) (puts : List (κ × β)) : ((touchAll cap puts).map (·.1)).Nodup := by
  induction puts using List.reverseRecOn with
  | nil => exact List.nodup_nil
  | append_singleton puts put ih =>
      rw [touchAll_concat, touch]
      exact (nodup_put ih put).sublist ((List.drop_sublist ..).map _)

theorem lastPut_of_mem {puts : List (κ × β)} (h : (k, v) ∈ touchAll cap puts) :
    LastPut puts k v := by
  induction puts using List.reverseRecOn with
  | nil => cases h
  | append_singleton puts put ih =>
      rw [touchAll_concat, touch] at h
      rcases List.mem_append.mp (List.mem_of_mem_drop h) with hold | hnew
      · obtain ⟨hold, hne⟩ := List.mem_filter.mp hold
        exact (ih hold).concat (of_decide_eq_true hne)
      · obtain rfl := List.mem_singleton.mp hnew
        exact lastPut_concat puts (k, v)

/-- What is over the bound goes from the front, before a key that is followed by few others. -/
theorem drop_before {front back : List (κ × β)} {keys : List κ}
    (hnodup : ((front ++ (k, v) :: back).map (·.1)).Nodup)
    (hback : ∀ entry ∈ back, entry.1 ∈ keys) (hfew : (k :: keys).eraseDups.length ≤ cap) :
    ∃ front', (front ++ (k, v) :: back).drop ((front ++ (k, v) :: back).length - cap) =
      front' ++ (k, v) :: back := by
  have hshort : ((k, v) :: back).length ≤ cap := by
    rw [List.map_append] at hnodup
    have hsub : ((k, v) :: back).map (·.1) ⊆ k :: keys := by
      intro x hx
      rcases List.mem_cons.mp hx with rfl | hx
      · exact List.mem_cons_self ..
      · obtain ⟨entry, hentry, rfl⟩ := List.mem_map.mp hx
        exact List.mem_cons_of_mem _ (hback entry hentry)
    have hle := length_le_eraseDups (List.nodup_append.mp hnodup).2.1 hsub
    rw [List.length_map] at hle
    exact Nat.le_trans hle hfew
  refine ⟨front.drop ((front ++ (k, v) :: back).length - cap), ?_⟩
  rw [List.drop_append_of_le_length]
  rw [List.length_append]
  omega

/-- What is kept behind a key was put in since, so the key stays while that is not too much. -/
theorem touchAll_split (before after : List (κ × β)) (hafter : k ∉ after.map (·.1))
    (hfew : (k :: after.map (·.1)).eraseDups.length ≤ cap) :
    ∃ front back, touchAll cap (before ++ (k, v) :: after) = front ++ (k, v) :: back ∧
      ∀ entry ∈ back, entry.1 ∈ after.map (·.1) := by
  induction after using List.reverseRecOn with
  | nil =>
      have hall := nodup_put (nodup_touchAll cap before) (k, v)
      obtain ⟨front, hfront⟩ := drop_before hall (fun _ hin => nomatch hin) hfew
      exact ⟨front, [], by rw [touchAll_concat, touch, hfront], fun _ hin => nomatch hin⟩
  | append_singleton after put ih =>
      rw [List.map_append, List.mem_append, not_or] at hafter
      have hne : k ≠ put.1 := fun heq => hafter.2 (heq ▸ List.mem_singleton_self _)
      have hfewer : (k :: after.map (·.1)).eraseDups.length ≤ cap := by
        refine Nat.le_trans (length_le_eraseDups (nodup_eraseDups _) fun x hx => ?_) hfew
        rw [List.map_append]
        rcases List.mem_cons.mp (List.mem_eraseDups.mp hx) with rfl | hx
        · exact List.mem_cons_self ..
        · exact List.mem_cons_of_mem _ (List.mem_append_left _ hx)
      obtain ⟨front, back, hsplit, hback⟩ := ih hafter.1 hfewer
      have hrest : ∀ entry ∈ back.filter (fun entry => entry.1 ≠ put.1) ++ [put],
          entry.1 ∈ (after ++ [put]).map (·.1) := by
        intro entry hentry
        rw [List.map_append]
        rcases List.mem_append.mp hentry with hold | hnew
        · exact List.mem_append_left _ (hback entry (List.mem_of_mem_filter hold))
        · exact List.mem_append_right _ (List.mem_map_of_mem hnew)
      have hall := nodup_put (nodup_touchAll cap (before ++ (k, v) :: after)) put
      have hput : (front ++ (k, v) :: back).filter (fun entry => entry.1 ≠ put.1) ++ [put] =
          front.filter (fun entry => entry.1 ≠ put.1) ++
            (k, v) :: (back.filter (fun entry => entry.1 ≠ put.1) ++ [put]) := by
        rw [List.filter_append, List.filter_cons_of_pos (by simpa using hne), List.append_assoc,
          List.cons_append]
      rw [hsplit, hput] at hall
      obtain ⟨front', hfront⟩ := drop_before hall hrest hfew
      refine ⟨front', _, ?_, hrest⟩
      rw [← List.cons_append, ← List.append_assoc, touchAll_concat, touch, hsplit, hput, hfront]

theorem mem_touchAll_of_recent {before after : List (κ × β)} (hafter : k ∉ after.map (·.1))
    (hfew : (k :: after.map (·.1)).eraseDups.length ≤ cap) :
    (k, v) ∈ touchAll cap (before ++ (k, v) :: after) := by
  obtain ⟨front, back, hsplit, -⟩ := touchAll_split (v := v) before after hafter hfew
  rw [hsplit]
  exact List.mem_append_right _ (List.mem_cons_self ..)

end OmniRush
