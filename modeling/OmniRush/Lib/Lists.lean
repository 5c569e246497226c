import Mathlib.Data.List.Basic
import Mathlib.Data.List.Perm.Subperm

/-!
# Lists in groups, without repetitions, with pieces put in

A list is grouped by a key when the entries of each key stand together. What skips entries
by their key then takes all of a key's entries that are ahead, or none of them.
-/

namespace OmniRush

variable {α κ : Type} (key : α → κ)

inductive Grouped : List α → Prop where
  | nil : Grouped []
  | group {k : κ} {l rest : List α} (hgroup : ∀ a ∈ l, key a = k) (hrest : ∀ a ∈ rest, key a ≠ k)
      (h : Grouped rest) : Grouped (l ++ rest)

variable {key} {l rest : List α} {keys : List κ} {group : κ → List α}

theorem Grouped.tail (h : Grouped key l) : Grouped key l.tail := by
  induction h with
  | nil => exact .nil
  | @group k l rest hgroup hrest h ih =>
      cases l with
      | nil => exact ih
      | cons a l => exact .group (fun b hb => hgroup b (List.mem_cons_of_mem _ hb)) hrest h

theorem grouped_flatMap (hnodup : keys.Nodup) (hgroup : ∀ k, ∀ a ∈ group k, key a = k) :
    Grouped key (keys.flatMap group) := by
  induction keys with
  | nil => exact .nil
  | cons k keys ih =>
      obtain ⟨hk, hrest⟩ := List.nodup_cons.mp hnodup
      rw [List.flatMap_cons]
      refine .group (hgroup k) (fun a ha => ?_) (ih hrest)
      obtain ⟨k', hk', ha⟩ := List.mem_flatMap.mp ha
      rintro rfl
      exact hk (hgroup k' a ha ▸ hk')

/-! ## The entries of a key -/

variable [DecidableEq κ] {k : κ} {a : α}

/-- The entries of a key. -/
def ofKey (key : α → κ) (k : κ) (l : List α) : List α := l.filter fun a => key a = k

@[simp] theorem ofKey_append : ofKey key k (l ++ rest) = ofKey key k l ++ ofKey key k rest :=
  List.filter_append ..

theorem ofKey_cons :
    ofKey key k (a :: l) = if key a = k then a :: ofKey key k l else ofKey key k l := by
  simp only [ofKey, List.filter_cons, decide_eq_true_eq]

theorem ofKey_eq_self (h : ∀ a ∈ l, key a = k) : ofKey key k l = l :=
  List.filter_eq_self.mpr fun a ha => decide_eq_true (h a ha)

theorem ofKey_eq_nil (h : ∀ a ∈ l, key a ≠ k) : ofKey key k l = [] :=
  List.filter_eq_nil_iff.mpr fun a ha => by simpa using h a ha

theorem Grouped.dropWhile (h : Grouped key l) {skip : α → Bool}
    (hskip : ∀ a b, key a = key b → skip a = skip b) :
    Grouped key (l.dropWhile skip) ∧ ∀ k,
      ofKey key k (l.dropWhile skip) = ofKey key k l ∨ ofKey key k (l.dropWhile skip) = [] := by
  induction h with
  | nil => exact ⟨.nil, fun _ => .inl rfl⟩
  | @group own l rest hgroup hrest h ih =>
      cases l with
      | nil => exact ih
      | cons a l =>
          cases ha : skip a with
          | false =>
              have hsame : (a :: l ++ rest).dropWhile skip = a :: l ++ rest := by
                rw [List.cons_append, List.dropWhile_cons_of_neg (by simp [ha])]
              rw [hsame]
              exact ⟨.group hgroup hrest h, fun _ => .inl rfl⟩
          | true =>
              have hall : ∀ b ∈ a :: l, skip b = true := fun b hb => by
                rw [hskip b a ((hgroup b hb).trans (hgroup a (List.mem_cons_self ..)).symm), ha]
              rw [List.dropWhile_append_of_pos hall]
              refine ⟨ih.1, fun k => ?_⟩
              by_cases hown : k = own
              · right
                refine ofKey_eq_nil fun b hb => ?_
                rw [hown]
                exact hrest b ((List.dropWhile_sublist _).subset hb)
              · have hnone : ofKey key k (a :: l) = [] :=
                  ofKey_eq_nil fun b hb heq => hown (heq.symm.trans (hgroup b hb))
                rw [ofKey_append, hnone, List.nil_append]
                exact ih.2 k

theorem ofKey_flatMap (hnodup : keys.Nodup) (hgroup : ∀ k, ∀ a ∈ group k, key a = k) (k : κ) :
    ofKey key k (keys.flatMap group) = if k ∈ keys then group k else [] := by
  induction keys with
  | nil => rfl
  | cons k' keys ih =>
      obtain ⟨hk', hrest⟩ := List.nodup_cons.mp hnodup
      rw [List.flatMap_cons, ofKey_append, ih hrest]
      by_cases hk : k = k'
      · subst hk
        rw [if_neg hk', if_pos (List.mem_cons_self ..), ofKey_eq_self (hgroup k), List.append_nil]
      · have hnone : ofKey key k (group k') = [] :=
          ofKey_eq_nil fun a ha heq => hk (heq.symm.trans (hgroup k' a ha))
        simp only [hnone, List.nil_append, List.mem_cons, or_iff_right hk]

end OmniRush

/-!
## Lists without their repetitions

What `eraseDups` leaves has no entry twice, and its length counts the distinct ones.
-/

namespace OmniRush

variable {κ : Type} [DecidableEq κ] {l keys : List κ}

theorem nodup_eraseDups (keys : List κ) : keys.eraseDups.Nodup := by
  induction hn : keys.length using Nat.strongRecOn generalizing keys with
  | ind n ih =>
      cases keys with
      | nil => exact List.nodup_nil
      | cons k keys =>
          rw [List.eraseDups_cons, List.nodup_cons]
          refine ⟨fun hmem => ?_, ih _ ?_ _ rfl⟩
          · simpa using (List.mem_filter.mp (List.mem_eraseDups.mp hmem)).2
          · rw [← hn]
            exact Nat.lt_succ_of_le (List.length_filter_le _ _)

theorem eraseDups_of_nodup (h : l.Nodup) : l.eraseDups = l := by
  induction l with
  | nil => rfl
  | cons a l ih =>
      obtain ⟨hnot, hrest⟩ := List.nodup_cons.mp h
      have hfilter : (l.filter fun b => !b == a) = l := by
        rw [List.filter_eq_self]
        intro b hb
        have hne : b ≠ a := fun heq => hnot (heq ▸ hb)
        simp [hne]
      rw [List.eraseDups_cons, hfilter, ih hrest]

/-- No list of distinct entries of another is longer than what is left of that. -/
theorem length_le_eraseDups (h : l.Nodup) (hsub : l ⊆ keys) : l.length ≤ keys.eraseDups.length :=
  (List.subperm_of_subset h fun _ ha => List.mem_eraseDups.mpr (hsub ha)).length_le

theorem length_eraseDups_le (l : List κ) : l.eraseDups.length ≤ l.length :=
  (List.subperm_of_subset (nodup_eraseDups l) fun _ ha => List.mem_eraseDups.mp ha).length_le

end OmniRush

/-!
## Pieces put in

A piece is put into a list in front of the elements at some positions. Put in one by one from the
last position to the first, no position is moved before its turn.
-/

namespace OmniRush

variable {α : Type} {piece text : List α} {p q : Nat → Bool} {i : Nat}

/-- The list from position `i` on, with the piece in front of the chosen ones. -/
def inserted (piece : List α) (p : Nat → Bool) : Nat → List α → List α
  | _, [] => []
  | i, c :: rest => (if p i then piece else []) ++ c :: inserted piece p (i + 1) rest

theorem inserted_append (a b : List α) :
    inserted piece p i (a ++ b) = inserted piece p i a ++ inserted piece p (i + a.length) b := by
  induction a generalizing i with
  | nil => rfl
  | cons c a ih =>
      rw [List.cons_append, inserted, inserted, ih, List.length_cons, Nat.add_right_comm,
        Nat.add_assoc, List.append_assoc]
      rfl

theorem inserted_congr (h : ∀ j, i ≤ j → j < i + text.length → p j = q j) :
    inserted piece p i text = inserted piece q i text := by
  induction text generalizing i with
  | nil => rfl
  | cons c text ih =>
      rw [inserted, inserted, h i (Nat.le_refl i) (by simp), ih fun j hle hlt =>
        h j (by omega) (by simp only [List.length_cons]; omega)]

theorem inserted_none (h : ∀ j, i ≤ j → p j = false) : inserted piece p i text = text := by
  induction text generalizing i with
  | nil => rfl
  | cons c text ih =>
      rw [inserted, h i (Nat.le_refl i), ih fun j hle => h j (by omega)]
      rfl

/-- The piece is put in at each of the positions in turn, the last one first. -/
theorem foldl_inserted {offsets : List Nat} (hsorted : offsets.Pairwise (· > ·))
    (hin : ∀ o ∈ offsets, o < text.length) :
    offsets.foldl (fun text o => text.take o ++ (piece ++ text.drop o)) text =
      inserted piece (fun j => offsets.contains j) 0 text := by
  induction offsets generalizing text with
  | nil => exact (inserted_none fun _ _ => rfl).symm
  | cons o offsets ih =>
      obtain ⟨hlast, hrest⟩ := List.pairwise_cons.mp hsorted
      have ho := hin o (List.mem_cons_self ..)
      have htake : (text.take o).length = o := List.length_take_of_le (Nat.le_of_lt ho)
      have hlater : ∀ j, o ≤ j → offsets.contains j = false := fun j hle => by
        rw [List.contains_eq_mem, decide_eq_false_iff_not]
        intro hmem
        exact absurd (hlast j hmem) (Nat.not_lt.mpr hle)
      obtain ⟨c, rest, hdrop⟩ : ∃ c rest, text.drop o = c :: rest :=
        List.exists_cons_of_ne_nil (by simpa using ho)
      rw [List.foldl_cons, ih hrest fun o' ho' => ?_]
      · rw [inserted_append, htake, Nat.zero_add, inserted_none hlater]
        conv => rhs; rw [← List.take_append_drop o text]
        rw [inserted_append, htake, Nat.zero_add, hdrop, inserted]
        have hhere : (o :: offsets).contains o = true := by simp
        have hafter : ∀ j, o + 1 ≤ j → (o :: offsets).contains j = false := fun j hle => by
          rw [List.contains_cons, hlater j (by omega), Bool.or_false, beq_eq_false_iff_ne]
          omega
        have hbefore : inserted piece (fun j => (o :: offsets).contains j) 0 (text.take o) =
            inserted piece (fun j => offsets.contains j) 0 (text.take o) := by
          refine inserted_congr fun j _ hlt => ?_
          rw [htake] at hlt
          rw [List.contains_cons, beq_eq_false_iff_ne.mpr (by omega), Bool.false_or]
        rw [inserted_none hafter, hbefore, hhere]
        rfl
      · have hlt := hlast o' ho'
        rw [List.length_append, htake]
        omega

end OmniRush
