import Mathlib.Algebra.Order.Ring.Int
import Mathlib.Data.Char
import Mathlib.Data.List.Lex
import OmniRush.Lib.Utf8
import OmniRush.Lib.Utf16

/-!
# Codes that keep the order

A code writes each letter as a list. When the lists of two letters differ at some place, and there
the smaller letter has the smaller item, texts are ordered as what they are written as
(`flatMap_lt_iff`): at the first letters that differ so do their lists, and what comes before is
the same. UTF-8 is such a code of the scalar values.
-/

namespace OmniRush

variable {α β : Type} [LinearOrder α] [LinearOrder β]

/-- Of two lists, the first is smaller at the first place where they differ. -/
def Splits (xs ys : List β) : Prop :=
  ∃ before x y, x < y ∧ (∃ rest, xs = before ++ x :: rest) ∧ ∃ rest, ys = before ++ y :: rest

theorem Splits.head {x y : β} {xs ys : List β} (h : x < y) : Splits (x :: xs) (y :: ys) :=
  ⟨[], x, y, h, ⟨xs, rfl⟩, ys, rfl⟩

theorem Splits.cons {x : β} {xs ys : List β} (h : Splits xs ys) : Splits (x :: xs) (x :: ys) := by
  obtain ⟨before, y, z, hlt, ⟨rest, rfl⟩, rest', rfl⟩ := h
  exact ⟨x :: before, y, z, hlt, ⟨rest, rfl⟩, rest', rfl⟩

theorem Splits.lt_append {xs ys : List β} (h : Splits xs ys) (l r : List β) :
    xs ++ l < ys ++ r := by
  obtain ⟨before, x, y, hlt, ⟨rest, rfl⟩, rest', rfl⟩ := h
  rw [List.append_assoc, List.append_assoc]
  exact List.append_left_lt (List.cons_lt_cons_iff.mpr (.inl hlt))

/-- A code whose letters differ where the smaller one is smaller. -/
structure OrderedCode (encode : α → List β) : Prop where
  nonempty : ∀ a, encode a ≠ []
  splits : ∀ a b, a < b → Splits (encode a) (encode b)

namespace OrderedCode

variable {encode : α → List β}

theorem flatMap_lt (h : OrderedCode encode) {as bs : List α} (hlt : as < bs) :
    as.flatMap encode < bs.flatMap encode := by
  induction as generalizing bs with
  | nil =>
      cases bs with
      | nil => exact absurd hlt (List.lt_irrefl _)
      | cons b bs =>
          rw [List.flatMap_nil, List.flatMap_cons]
          cases hb : encode b with
          | nil => exact absurd hb (h.nonempty b)
          | cons x xs => exact List.nil_lt_cons ..
  | cons a as ih =>
      cases bs with
      | nil => exact absurd hlt (List.not_lt_nil _)
      | cons b bs =>
          rw [List.flatMap_cons, List.flatMap_cons]
          rcases List.cons_lt_cons_iff.mp hlt with hab | ⟨rfl, hrest⟩
          · exact (h.splits a b hab).lt_append _ _
          · exact List.append_left_lt (ih hrest)

/-- **Texts are ordered as what they are written as.** -/
theorem flatMap_lt_iff (h : OrderedCode encode) (as bs : List α) :
    as.flatMap encode < bs.flatMap encode ↔ as < bs := by
  refine ⟨fun hlt => ?_, h.flatMap_lt⟩
  rcases lt_trichotomy as bs with hab | rfl | hba
  · exact hab
  · exact absurd hlt (lt_irrefl _)
  · exact absurd (hlt.trans (h.flatMap_lt hba)) (lt_irrefl _)

end OrderedCode

/-! ## UTF-8 -/

/-- The bytes of a character, as numbers. -/
def utf8Bytes (c : Char) : List Nat := (String.utf8EncodeChar c).map UInt8.toNat

theorem utf8Bytes_eq (c : Char) : utf8Bytes c =
    if c.toNat ≤ 0x7f then [c.toNat]
    else if c.toNat ≤ 0x7ff then [0xc0 + c.toNat / 0x40, 0x80 + c.toNat % 0x40]
    else if c.toNat ≤ 0xffff then
      [0xe0 + c.toNat / 0x1000, 0x80 + c.toNat / 0x40 % 0x40, 0x80 + c.toNat % 0x40]
    else
      [0xf0 + c.toNat / 0x40000, 0x80 + c.toNat / 0x1000 % 0x40, 0x80 + c.toNat / 0x40 % 0x40,
        0x80 + c.toNat % 0x40] := by
  have hvalid := char_bounds c
  have hv : c.val.toNat = c.toNat := rfl
  simp only [utf8Bytes, String.utf8EncodeChar, hv]
  split
  · rw [List.map_singleton, toNat_byte (by omega)]
  split
  · simp only [List.map_cons, List.map_nil, List.cons.injEq, and_true]
    refine ⟨?_, ?_⟩ <;> rw [toNat_byte (by omega)] <;> omega
  split
  · simp only [List.map_cons, List.map_nil, List.cons.injEq, and_true]
    refine ⟨?_, ?_, ?_⟩ <;> rw [toNat_byte (by omega)] <;> omega
  · simp only [List.map_cons, List.map_nil, List.cons.injEq, and_true]
    refine ⟨?_, ?_, ?_, ?_⟩ <;> rw [toNat_byte (by omega)] <;> omega

theorem Splits.head_or {x y : Nat} {xs ys : List Nat} (hle : x ≤ y) (h : x = y → Splits xs ys) :
    Splits (x :: xs) (y :: ys) := by
  rcases Nat.lt_or_eq_of_le hle with hlt | rfl
  · exact .head hlt
  · exact .cons (h rfl)

theorem utf8Bytes_splits {c d : Char} (h : c.toNat < d.toNat) :
    Splits (utf8Bytes c) (utf8Bytes d) := by
  have hd := char_bounds d
  rw [utf8Bytes_eq, utf8Bytes_eq]
  generalize c.toNat = m at *
  generalize d.toNat = n at *
  -- a longer code begins with a greater byte
  split
  · split
    · exact .head h
    split
    · exact .head (by omega)
    split <;> exact .head (by omega)
  split
  · rw [if_neg (by omega)]
    split
    · refine .head_or (by omega) fun _ => ?_
      exact .head (by omega)
    split <;> exact .head (by omega)
  split
  · rw [if_neg (by omega), if_neg (by omega)]
    split
    · refine .head_or (by omega) fun _ => .head_or (by omega) fun _ => ?_
      exact .head (by omega)
    · exact .head (by omega)
  · rw [if_neg (by omega), if_neg (by omega), if_neg (by omega)]
    refine .head_or (by omega) fun _ => .head_or (by omega) fun _ => .head_or (by omega) fun _ => ?_
    exact .head (by omega)

theorem utf8_ordered : OrderedCode utf8Bytes where
  nonempty c := by
    rw [utf8Bytes_eq]
    split
    · simp
    split
    · simp
    split <;> simp
  splits _ _ h := utf8Bytes_splits h

end OmniRush
