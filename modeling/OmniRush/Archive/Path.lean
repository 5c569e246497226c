import OmniRush.Lib.Utf16

/-!
# Archive paths and their order

`compareArchivePaths` of `manifest.ts` orders paths by their UTF-8 bytes
without encoding them. It walks the UTF-16 units of both, and at the first two
that differ it moves the surrogates above `U+E000..U+FFFF` before it subtracts.

The delta merge and every sorted list of the archiver lean on three facts
about it, proved here from one: the comparison is negative exactly when the
list of moved units is smaller, so it is a strict total order on paths.
-/

namespace OmniRush.Archive

/-- The remapping of one unit: the two ranges above `0xd800` change places. -/
def remapUnit (a : Nat) : Nat :=
  if a ≥ 0xd800 then (if a ≥ 0xe000 then a - 0x800 else a + 0x2000) else a

def compareUnits : List Nat → List Nat → Int
  | a :: left, b :: right =>
      if a = b then compareUnits left right else (remapUnit a : Int) - remapUnit b
  | left, right => (left.length : Int) - right.length

/-- `compareArchivePaths`: negative, zero or positive, as `Array.sort` wants. -/
def compareArchivePaths (left right : String) : Int :=
  compareUnits (utf16 left.toList) (utf16 right.toList)

theorem remapUnit_inj {a b : Nat} (ha : a < 0x10000) (hb : b < 0x10000)
    (h : remapUnit a = remapUnit b) : a = b := by
  unfold remapUnit at h
  split at h <;> split at h <;> (try split at h) <;> (try split at h) <;> omega

theorem compareUnits_cons (a b : Nat) (left right : List Nat) :
    compareUnits (a :: left) (b :: right) =
      if a = b then compareUnits left right else (remapUnit a : Int) - remapUnit b := rfl

theorem compareUnits_nil_left (right : List Nat) :
    compareUnits [] right = -(right.length : Int) := by
  cases right <;> exact Int.zero_sub _

theorem compareUnits_nil_right (left : List Nat) : compareUnits left [] = left.length := by
  cases left <;> exact Int.sub_zero _

theorem compareUnits_self (l : List Nat) : compareUnits l l = 0 := by
  induction l with
  | nil => rfl
  | cons a l ih => rw [compareUnits_cons, if_pos rfl, ih]

theorem compareUnits_lt_iff {left right : List Nat} (hl : ∀ a ∈ left, a < 0x10000)
    (hr : ∀ b ∈ right, b < 0x10000) :
    compareUnits left right < 0 ↔ left.map remapUnit < right.map remapUnit := by
  induction left generalizing right with
  | nil =>
      cases right with
      | nil => simp [compareUnits_nil_left]
      | cons b right =>
          have hlt : compareUnits [] (b :: right) < 0 := by
            show (([] : List Nat).length : Int) - (b :: right).length < 0
            rw [List.length_nil, List.length_cons]
            omega
          exact iff_of_true hlt (List.nil_lt_cons ..)
  | cons a left ih =>
      cases right with
      | nil => simp [compareUnits_nil_right]; omega
      | cons b right =>
          have ha := hl a (by simp)
          have hb := hr b (by simp)
          rw [compareUnits_cons, List.map_cons, List.map_cons, List.cons_lt_cons_iff]
          split
          · next heq =>
              subst heq
              rw [ih (fun x hx => hl x (by simp [hx])) (fun x hx => hr x (by simp [hx]))]
              simp
          · next hne =>
              have hm : remapUnit a ≠ remapUnit b := fun h => hne (remapUnit_inj ha hb h)
              constructor
              · intro h; exact Or.inl (by omega)
              · rintro (h | ⟨h, -⟩)
                · omega
                · exact absurd h hm

theorem compareUnits_eq_zero {left right : List Nat} (hl : ∀ a ∈ left, a < 0x10000)
    (hr : ∀ b ∈ right, b < 0x10000) (h : compareUnits left right = 0) : left = right := by
  induction left generalizing right with
  | nil =>
      cases right with
      | nil => rfl
      | cons b right => simp [compareUnits_nil_left] at h; omega
  | cons a left ih =>
      cases right with
      | nil => simp [compareUnits_nil_right] at h; omega
      | cons b right =>
          rw [compareUnits_cons] at h
          split at h
          · next heq =>
              subst heq
              rw [ih (fun x hx => hl x (by simp [hx])) (fun x hx => hr x (by simp [hx])) h]
          · next hne =>
              exact absurd (remapUnit_inj (hl a (by simp)) (hr b (by simp)) (by omega)) hne

theorem compareUnits_neg (left right : List Nat) :
    compareUnits right left = -compareUnits left right := by
  induction left generalizing right with
  | nil => rw [compareUnits_nil_left, compareUnits_nil_right, Int.neg_neg]
  | cons a left ih =>
      cases right with
      | nil => rw [compareUnits_nil_left, compareUnits_nil_right]
      | cons b right =>
          rw [compareUnits_cons, compareUnits_cons]
          by_cases h : a = b
          · rw [if_pos h, if_pos h.symm, ih]
          · rw [if_neg h, if_neg (Ne.symm h)]; omega

/-- The key the order is the order of. -/
def pathKey (path : String) : List Nat := (utf16 path.toList).map remapUnit

theorem compareArchivePaths_lt_iff (a b : String) :
    compareArchivePaths a b < 0 ↔ pathKey a < pathKey b :=
  compareUnits_lt_iff (fun _ h => utf16_lt h) (fun _ h => utf16_lt h)

theorem compareArchivePaths_neg (a b : String) :
    compareArchivePaths b a = -compareArchivePaths a b := compareUnits_neg _ _

@[simp] theorem compareArchivePaths_self (a : String) : compareArchivePaths a a = 0 :=
  compareUnits_self _

theorem compareArchivePaths_eq_zero {a b : String} :
    compareArchivePaths a b = 0 ↔ a = b := by
  constructor
  · intro h
    have hu := compareUnits_eq_zero (fun _ h => utf16_lt h) (fun _ h => utf16_lt h) h
    exact String.toList_inj.mp (utf16_injective hu)
  · rintro rfl
    exact compareArchivePaths_self a

theorem compareArchivePaths_pos_iff (a b : String) :
    0 < compareArchivePaths a b ↔ pathKey b < pathKey a := by
  rw [← compareArchivePaths_lt_iff b a, compareArchivePaths_neg a b]
  omega

theorem compareArchivePaths_trans {a b c : String} (hab : compareArchivePaths a b < 0)
    (hbc : compareArchivePaths b c < 0) : compareArchivePaths a c < 0 := by
  rw [compareArchivePaths_lt_iff] at hab hbc ⊢
  exact List.lt_trans hab hbc

end OmniRush.Archive
