import Mathlib.Data.List.Basic
import Mathlib.Data.List.Infix

/-!
# Cutting a list at a separator, and trimming it

A list is cut at the first or the last place where a separator stands. What is cut off is found
again in any list that has a separator at the same place, so a printer that joins with separators
is undone piece by piece.

Trimming takes words of a given table off an end as long as one of them stands there.
-/

namespace OmniRush

variable {α : Type}

/-! ## Words at an end -/

theorem prefix_of_not_mem {c : α} {word a b : List α} (h : word <+: a ++ c :: b) (hc : c ∉ word) :
    word <+: a := by
  obtain ⟨rest, heq⟩ := h
  rcases List.append_eq_append_iff.mp heq with ⟨more, ha, -⟩ | ⟨more, hword, hrest⟩
  · exact ⟨more, ha.symm⟩
  · cases more with
    | nil => exact ⟨[], by rw [hword]; simp⟩
    | cons x more =>
        obtain ⟨rfl, -⟩ := List.cons.inj hrest
        rw [hword] at hc
        exact absurd (List.mem_append_right _ List.mem_cons_self) hc

theorem suffix_of_not_mem {c : α} {word a b : List α} (h : word <:+ a ++ c :: b) (hc : c ∉ word) :
    word <:+ b := by
  rw [← List.reverse_prefix] at h ⊢
  rw [List.reverse_append, List.reverse_cons, List.append_assoc, List.singleton_append] at h
  exact prefix_of_not_mem h (by rwa [List.mem_reverse])

/-! ## Cuts -/

variable [DecidableEq α]

/-- What is before the first `c`, and what is after it. -/
def cutFirst (c : α) : List α → Option (List α × List α)
  | [] => none
  | x :: xs => if x = c then some ([], xs) else (cutFirst c xs).map fun (a, b) => (x :: a, b)

/-- What is before the last `c`, and what is after it. -/
def cutLast (c : α) (xs : List α) : Option (List α × List α) :=
  (cutFirst c xs.reverse).map fun (a, b) => (b.reverse, a.reverse)

theorem cutFirst_eq_none {c : α} {xs : List α} : cutFirst c xs = none ↔ c ∉ xs := by
  induction xs with
  | nil => simp [cutFirst]
  | cons x xs ih =>
      simp only [cutFirst]
      split
      · next heq => simp [heq]
      · next hne => simp [ih, Ne.symm hne]

theorem cutFirst_append {c : α} {a b : List α} (h : c ∉ a) :
    cutFirst c (a ++ c :: b) = some (a, b) := by
  induction a with
  | nil => simp [cutFirst]
  | cons x a ih =>
      rw [List.mem_cons, not_or] at h
      rw [List.cons_append, cutFirst, if_neg (Ne.symm h.1), ih h.2]
      rfl

theorem cutFirst_eq_some {c : α} {xs a b : List α} :
    cutFirst c xs = some (a, b) ↔ xs = a ++ c :: b ∧ c ∉ a := by
  constructor
  · intro h
    induction xs generalizing a with
    | nil => cases h
    | cons x xs ih =>
        simp only [cutFirst] at h
        split at h
        · next heq =>
            cases h
            exact ⟨congrArg (· :: _) heq, List.not_mem_nil⟩
        · next hne =>
            obtain ⟨⟨a', b'⟩, hcut, heq⟩ := Option.map_eq_some_iff.mp h
            cases heq
            obtain ⟨hxs, ha⟩ := ih hcut
            refine ⟨congrArg (x :: ·) hxs, ?_⟩
            rw [List.mem_cons, not_or]
            exact ⟨Ne.symm hne, ha⟩
  · intro h
    rw [h.1]
    exact cutFirst_append h.2

theorem cutLast_eq_none {c : α} {xs : List α} : cutLast c xs = none ↔ c ∉ xs := by
  rw [cutLast, Option.map_eq_none_iff, cutFirst_eq_none, List.mem_reverse]

theorem cutLast_eq_some {c : α} {xs a b : List α} :
    cutLast c xs = some (a, b) ↔ xs = a ++ c :: b ∧ c ∉ b := by
  rw [cutLast, Option.map_eq_some_iff]
  constructor
  · intro h
    obtain ⟨⟨b', a'⟩, hcut, heq⟩ := h
    cases heq
    obtain ⟨hxs, hb⟩ := cutFirst_eq_some.mp hcut
    rw [List.reverse_eq_iff] at hxs
    rw [hxs, List.mem_reverse]
    exact ⟨by simp, hb⟩
  · intro h
    refine ⟨(b.reverse, a.reverse), cutFirst_eq_some.mpr ⟨?_, ?_⟩, by simp⟩
    · rw [h.1]
      simp
    · rw [List.mem_reverse]
      exact h.2

theorem cutLast_append {c : α} {a b : List α} (h : c ∉ b) :
    cutLast c (a ++ c :: b) = some (a, b) := cutLast_eq_some.mpr ⟨rfl, h⟩

/-! ## Trimming -/

/-- What is left after the first word of the table that stands at the start. -/
def dropWord (words : List (List α)) (xs : List α) : Option (List α) :=
  words.findSome? fun word => if word <+: xs then some (xs.drop word.length) else none

def trimFrom (words : List (List α)) : Nat → List α → List α
  | 0, xs => xs
  | fuel + 1, xs =>
      match dropWord words xs with
      | none => xs
      | some rest => trimFrom words fuel rest

def trimStart (words : List (List α)) (xs : List α) : List α := trimFrom words xs.length xs

def trimEnd (words : List (List α)) (xs : List α) : List α :=
  (trimStart (words.map List.reverse) xs.reverse).reverse

def trim (words : List (List α)) (xs : List α) : List α := trimEnd words (trimStart words xs)

/-- No word of the table stands at an end. -/
structure Trimmed (words : List (List α)) (xs : List α) : Prop where
  start : ∀ word ∈ words, ¬ word <+: xs
  stop : ∀ word ∈ words, ¬ word <:+ xs

variable {words : List (List α)} {xs : List α}

theorem dropWord_eq_none : dropWord words xs = none ↔ ∀ word ∈ words, ¬ word <+: xs := by
  simp only [dropWord, List.findSome?_eq_none_iff, ite_eq_right_iff, reduceCtorEq, imp_false]

theorem dropWord_eq_some {rest : List α} (h : dropWord words xs = some rest) :
    ∃ word ∈ words, xs = word ++ rest := by
  obtain ⟨word, hword, hrest⟩ := List.exists_of_findSome?_eq_some h
  split at hrest
  · next hhead =>
      obtain ⟨rest', rfl⟩ := hhead
      cases hrest
      exact ⟨word, hword, by simp⟩
  · cases hrest

theorem trimFrom_spec (hwords : ∀ word ∈ words, word ≠ []) {fuel : Nat} (h : xs.length ≤ fuel) :
    trimFrom words fuel xs <:+ xs ∧ ∀ word ∈ words, ¬ word <+: trimFrom words fuel xs := by
  induction fuel generalizing xs with
  | zero =>
      have hnil : xs = [] := List.length_eq_zero_iff.mp (Nat.le_zero.mp h)
      rw [hnil]
      refine ⟨List.suffix_refl _, fun word hword hhead => ?_⟩
      exact hwords word hword (List.prefix_nil.mp hhead)
  | succ fuel ih =>
      simp only [trimFrom]
      split
      · next hnone => exact ⟨List.suffix_refl _, dropWord_eq_none.mp hnone⟩
      · next rest hsome =>
          obtain ⟨word, hword, heq⟩ := dropWord_eq_some hsome
          have hpos : 0 < word.length := List.length_pos_iff.mpr (hwords word hword)
          have hlength : rest.length ≤ fuel := by
            rw [heq, List.length_append] at h
            omega
          obtain ⟨hsuffix, hstart⟩ := ih hlength
          exact ⟨hsuffix.trans ⟨word, heq.symm⟩, hstart⟩

theorem trimStart_of_none (h : ∀ word ∈ words, ¬ word <+: xs) : trimStart words xs = xs := by
  rw [trimStart]
  cases hlength : xs.length with
  | zero => rfl
  | succ fuel => rw [trimFrom, dropWord_eq_none.mpr h]

theorem trim_trimmed (hwords : ∀ word ∈ words, word ≠ []) : Trimmed words (trim words xs) := by
  have hreversed : ∀ word ∈ words.map List.reverse, word ≠ [] := by
    intro word hword
    obtain ⟨word', hword', rfl⟩ := List.mem_map.mp hword
    rw [ne_eq, List.reverse_eq_nil_iff]
    exact hwords word' hword'
  obtain ⟨-, hstart⟩ := trimFrom_spec hwords (Nat.le_refl xs.length)
  obtain ⟨hsuffix, hstop⟩ :=
    trimFrom_spec hreversed (Nat.le_refl (trimStart words xs).reverse.length)
  constructor
  · intro word hword hhead
    refine hstart word hword (hhead.trans ?_)
    rw [← List.reverse_suffix] at *
    rw [trim, trimEnd, List.reverse_reverse]
    exact hsuffix
  · intro word hword hend
    refine hstop word.reverse (List.mem_map_of_mem hword) ?_
    rw [trim, trimEnd, ← List.reverse_prefix, List.reverse_reverse] at hend
    exact hend

theorem trim_of_trimmed (h : Trimmed words xs) : trim words xs = xs := by
  have hstop : ∀ word ∈ words.map List.reverse, ¬ word <+: xs.reverse := by
    intro word hword hhead
    obtain ⟨word', hword', rfl⟩ := List.mem_map.mp hword
    exact h.stop word' hword' (List.reverse_prefix.mp hhead)
  rw [trim, trimStart_of_none h.start, trimEnd, trimStart_of_none hstop, List.reverse_reverse]

end OmniRush
