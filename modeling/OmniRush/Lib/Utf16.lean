/-!
# UTF-16 code units

A JavaScript string is a sequence of 16-bit units, and code that compares or
cuts strings by index works on those. Here a string is the sequence of Unicode
scalar values it encodes, which is all a string decoded from UTF-8 can be, and
`utf16` is the sequence of units the program sees.

The encoding is injective because it is a prefix code: the first unit says
whether a second one follows.
-/

namespace OmniRush

/-- The code units of one scalar value: itself below `0x10000`, else a
surrogate pair. -/
def charUnits (c : Char) : List Nat :=
  if c.toNat < 0x10000 then [c.toNat]
  else [0xd800 + (c.toNat - 0x10000) / 0x400, 0xdc00 + (c.toNat - 0x10000) % 0x400]

def utf16 (cs : List Char) : List Nat := cs.flatMap charUnits

theorem toNat_valid (c : Char) :
    c.toNat < 0xd800 ∨ 0xdfff < c.toNat ∧ c.toNat < 0x110000 := by
  have h := c.valid
  simp only [UInt32.isValidChar, Nat.isValidChar] at h
  exact h

theorem utf16_cons (c : Char) (cs : List Char) :
    utf16 (c :: cs) = charUnits c ++ utf16 cs := rfl

theorem charUnits_lt {c : Char} {u : Nat} (h : u ∈ charUnits c) : u < 0x10000 := by
  have hv := toNat_valid c
  unfold charUnits at h
  split at h
  · next hlt =>
      simp only [List.mem_singleton] at h
      omega
  · next hge =>
      simp only [List.mem_cons, List.not_mem_nil, or_false] at h
      rcases h with h | h <;> omega

theorem utf16_lt {cs : List Char} {u : Nat} (h : u ∈ utf16 cs) : u < 0x10000 := by
  obtain ⟨c, -, hc⟩ := List.mem_flatMap.mp h
  exact charUnits_lt hc

theorem charUnits_ne_nil (c : Char) : charUnits c ≠ [] := by
  unfold charUnits
  split <;> simp

/-- A unit sequence decodes in one way: the first character can be read off,
and what follows it. -/
theorem charUnits_append_inj {c d : Char} {l r : List Nat}
    (h : charUnits c ++ l = charUnits d ++ r) : c = d ∧ l = r := by
  have hc := toNat_valid c
  have hd := toNat_valid d
  unfold charUnits at h
  split at h <;> split at h <;>
    simp only [List.cons_append, List.nil_append, List.cons.injEq] at h
  · exact ⟨Char.toNat_inj.mp h.1, h.2⟩
  · omega
  · omega
  · exact ⟨Char.toNat_inj.mp (by omega), h.2.2⟩

theorem utf16_injective {cs ds : List Char} (h : utf16 cs = utf16 ds) : cs = ds := by
  induction cs generalizing ds with
  | nil =>
      cases ds with
      | nil => rfl
      | cons d ds =>
          rw [utf16_cons] at h
          have := List.append_eq_nil_iff.mp h.symm
          exact absurd this.1 (charUnits_ne_nil d)
  | cons c cs ih =>
      cases ds with
      | nil =>
          rw [utf16_cons] at h
          have := List.append_eq_nil_iff.mp h
          exact absurd this.1 (charUnits_ne_nil c)
      | cons d ds =>
          rw [utf16_cons, utf16_cons] at h
          obtain ⟨rfl, htail⟩ := charUnits_append_inj h
          rw [ih htail]

end OmniRush
