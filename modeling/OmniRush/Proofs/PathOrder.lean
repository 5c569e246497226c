import OmniRush.Archive.Path
import OmniRush.Lib.OrderedCode

/-!
# The order of archive paths is that of their bytes

The moved units of a path are an ordered code of its characters: below the surrogates a unit is
left as it is, from `U+E000` on it is moved down, and a surrogate is moved above both. UTF-8 is
another one. So both order paths as their characters do.
-/

namespace OmniRush.Archive

/-- The moved units of a character. -/
def charKey (c : Char) : List Nat := (charUnits c).map remapUnit

theorem charKey_eq (c : Char) : charKey c =
    if c.toNat < 0xd800 then [c.toNat]
    else if c.toNat < 0x10000 then [c.toNat - 0x800]
    else [0xf800 + (c.toNat - 0x10000) / 0x400, 0xfc00 + (c.toNat - 0x10000) % 0x400] := by
  have hvalid := toNat_valid c
  simp only [charKey, charUnits]
  split
  · next hlow =>
      simp only [List.map_cons, List.map_nil, remapUnit]
      by_cases hbelow : c.toNat < 0xd800
      · rw [if_pos hbelow, if_neg (by omega)]
      · rw [if_neg hbelow, if_pos (by omega), if_pos (by omega)]
  · next hhigh =>
      rw [if_neg (by omega)]
      simp only [List.map_cons, List.map_nil, remapUnit]
      rw [if_pos (by omega), if_neg (by omega), if_pos (by omega), if_neg (by omega)]
      simp only [List.cons.injEq, and_true]
      omega

theorem charKey_splits {c d : Char} (h : c.toNat < d.toNat) : Splits (charKey c) (charKey d) := by
  have hc := toNat_valid c
  have hd := toNat_valid d
  rw [charKey_eq, charKey_eq]
  split
  · split
    · exact .head h
    split <;> exact .head (by omega)
  split
  · rw [if_neg (by omega)]
    split <;> exact .head (by omega)
  · rw [if_neg (by omega), if_neg (by omega)]
    refine .head_or (by omega) fun _ => ?_
    exact .head (by omega)

theorem charKey_ordered : OrderedCode charKey where
  nonempty c := by
    rw [charKey_eq]
    split
    · simp
    split <;> simp
  splits _ _ h := charKey_splits h

theorem pathKey_eq (path : String) : pathKey path = path.toList.flatMap charKey := by
  simp only [pathKey, utf16, List.map_flatMap]
  rfl

/-- The UTF-8 bytes of a path. -/
def pathBytes (path : String) : List Nat := path.toList.flatMap utf8Bytes

theorem pathKey_lt_iff (left right : String) :
    pathKey left < pathKey right ↔ pathBytes left < pathBytes right := by
  rw [pathKey_eq, pathKey_eq, charKey_ordered.flatMap_lt_iff, pathBytes, pathBytes,
    utf8_ordered.flatMap_lt_iff]

theorem compareArchivePaths_strictTotal :
    IsStrictTotalOrder String fun left right => compareArchivePaths left right < 0 where
  irrefl path h := by
    rw [compareArchivePaths_self] at h
    exact absurd h (Int.lt_irrefl 0)
  trans _ _ _ := compareArchivePaths_trans
  trichotomous left right hleft hright := by
    rw [compareArchivePaths_neg left right] at hright
    exact compareArchivePaths_eq_zero.mp (by omega)

/-- **Paths are ordered by their bytes.** The comparison has the sign of the lexicographic order of
the bytes, for every pair, and so it is a strict total order of the paths. -/
theorem compareArchivePaths_bytes :
    (∀ left right : String,
      (compareArchivePaths left right < 0 ↔ pathBytes left < pathBytes right) ∧
      (compareArchivePaths left right = 0 ↔ pathBytes left = pathBytes right) ∧
      (0 < compareArchivePaths left right ↔ pathBytes right < pathBytes left)) ∧
    IsStrictTotalOrder String fun left right => compareArchivePaths left right < 0 := by
  refine ⟨fun left right => ?_, compareArchivePaths_strictTotal⟩
  have hneg : compareArchivePaths left right < 0 ↔ pathBytes left < pathBytes right := by
    rw [compareArchivePaths_lt_iff, pathKey_lt_iff]
  have hpos : 0 < compareArchivePaths left right ↔ pathBytes right < pathBytes left := by
    rw [compareArchivePaths_pos_iff, pathKey_lt_iff]
  refine ⟨hneg, ⟨fun hzero => ?_, fun hbytes => ?_⟩, hpos⟩
  · rw [compareArchivePaths_eq_zero.mp hzero]
  · rw [hbytes] at hneg hpos
    have hnot := mt hneg.mp (lt_irrefl _)
    have hnot' := mt hpos.mp (lt_irrefl _)
    omega

end OmniRush.Archive
