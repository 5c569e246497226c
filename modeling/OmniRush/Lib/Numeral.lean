import Mathlib.Algebra.Order.Ring.Int
import Mathlib.Data.List.Basic
import Mathlib.Data.List.Induction
import Mathlib.Data.List.Shortlex
import OmniRush.Lib.Utf16

/-!
# Numerals without a zero

In base `b` with the digits from 1 to `b` every number has one numeral, and zero has the empty one.
A longer numeral is of a greater number, and of two that are as long the one that is greater at the
first place where they differ.
-/

namespace OmniRush

/-- The number of a numeral, its first digit the greatest. -/
def numeralValue (b : Nat) (digits : List Nat) : Nat := digits.foldl (fun v d => v * b + d) 0

def numeral (b : Nat) : Nat → List Nat
  | 0 => []
  | n + 1 => numeral b (n / b) ++ [n % b + 1]
termination_by n => n
decreasing_by exact Nat.lt_succ_of_le (Nat.div_le_self n b)

section

variable {b : Nat}

theorem numeralValue_concat (digits : List Nat) (d : Nat) :
    numeralValue b (digits ++ [d]) = numeralValue b digits * b + d := by
  rw [numeralValue, List.foldl_append]
  rfl

theorem numeral_zero : numeral b 0 = [] := by rw [numeral]

theorem numeral_succ (n : Nat) : numeral b (n + 1) = numeral b (n / b) ++ [n % b + 1] := by
  rw [numeral]

/-- A digit of base `b`. -/
def IsDigit (b d : Nat) : Prop := 1 ≤ d ∧ d ≤ b

theorem isDigit_numeral (hb : 0 < b) (n : Nat) : ∀ d ∈ numeral b n, IsDigit b d := by
  fun_induction numeral b n with
  | case1 => exact fun d hd => by cases hd
  | case2 n ih =>
      intro d hd
      rcases List.mem_append.mp hd with hd | hd
      · exact ih d hd
      · rw [List.mem_singleton.mp hd]
        exact ⟨Nat.le_add_left .., Nat.mod_lt n hb⟩

theorem numeralValue_numeral (n : Nat) : numeralValue b (numeral b n) = n := by
  fun_induction numeral b n with
  | case1 => rfl
  | case2 n ih =>
      rw [numeralValue_concat, ih, ← Nat.add_assoc, Nat.mul_comm, Nat.div_add_mod]

theorem numeral_numeralValue {digits : List Nat} (h : ∀ d ∈ digits, IsDigit b d) :
    numeral b (numeralValue b digits) = digits := by
  induction digits using List.reverseRecOn with
  | nil => exact numeral_zero
  | append_singleton digits d ih =>
      obtain ⟨hlow, hhigh⟩ := h d (List.mem_append_right _ (List.mem_singleton.mpr rfl))
      have hrest := ih fun d hd => h d (List.mem_append_left _ hd)
      obtain ⟨r, rfl⟩ := Nat.exists_eq_add_of_le' hlow
      have hdiv : (numeralValue b digits * b + r) / b = numeralValue b digits := by
        rw [Nat.add_comm, Nat.add_mul_div_right _ _ (by omega), Nat.div_eq_of_lt hhigh,
          Nat.zero_add]
      have hmod : (numeralValue b digits * b + r) % b = r := by
        rw [Nat.add_comm, Nat.add_mul_mod_self_right, Nat.mod_eq_of_lt hhigh]
      rw [numeralValue_concat, ← Nat.add_assoc, numeral_succ, hdiv, hmod, hrest]

theorem length_numeral_pos (n : Nat) : 0 < (numeral b (n + 1)).length := by
  rw [numeral_succ, List.length_append]
  exact Nat.succ_pos _

theorem lex_append {s t : List Nat} (hlength : s.length = t.length) (h : List.Lex (· < ·) s t)
    (s' t' : List Nat) : List.Lex (· < ·) (s ++ s') (t ++ t') := by
  induction h with
  | nil => cases hlength
  | cons _ ih => exact .cons (ih (Nat.succ.inj hlength))
  | rel hlt => exact .rel hlt

/-- **Greater numbers have later numerals.** -/
theorem numeral_shortlex {m n : Nat} (h : m < n) :
    List.Shortlex (· < ·) (numeral b m) (numeral b n) := by
  induction n using Nat.strongRecOn generalizing m with
  | ind n ih =>
      cases n with
      | zero => exact absurd h (Nat.not_lt_zero m)
      | succ n =>
          cases m with
          | zero =>
              rw [numeral_zero]
              exact .of_length_lt (length_numeral_pos n)
          | succ m =>
              have hmn : m < n := Nat.lt_of_succ_lt_succ h
              rw [numeral_succ, numeral_succ]
              rcases Nat.lt_or_eq_of_le (Nat.div_le_div_right (c := b) (Nat.le_of_lt hmn)) with
                hlt | heq
              · have hbefore := ih _ (Nat.lt_succ_of_le (Nat.div_le_self n b)) hlt
                rcases List.shortlex_def.mp hbefore with hlength | ⟨hlength, hlex⟩
                · exact .of_length_lt (by simpa using hlength)
                · exact .of_lex (by simpa using hlength) (lex_append hlength hlex _ _)
              · have hdigit : m % b < n % b := by
                  have hm := Nat.div_add_mod m b
                  have hn := Nat.div_add_mod n b
                  rw [heq] at hm
                  omega
                rw [heq]
                refine .of_lex (by simp) (List.Lex.append_left _ (.rel ?_) _)
                exact Nat.succ_lt_succ hdigit

end

/-!
## Whole numbers as doubles

A double holds 53 significant bits, so whole numbers up to 2^53 are held as they are. A greater
result is rounded to the nearest number that is held, of two that are as near to the one whose last
bit is zero, and from about 2^1024 on it is infinite.
-/

/-- The multiple of `unit` that is nearest to `n`, divided by `unit`. -/
def roundHalfEven (n unit : Nat) : Nat :=
  if 2 * (n % unit) < unit then n / unit
  else if unit < 2 * (n % unit) then n / unit + 1
  else n / unit + n / unit % 2

/-- A result as a double, `none` if it is infinite. -/
def toDouble (n : Nat) : Option Nat :=
  if n < 2 ^ 53 then some n
  else
    let unit := 2 ^ (n.log2 - 52)
    let rounded := roundHalfEven n unit * unit
    if rounded < 2 ^ 1024 then some rounded else none

/-- `Math.floor(n / d)` of two doubles, the second one less than 2^52. The quotient is rounded to a
multiple of a power of two: a negative one if the quotient is less than 2^52. -/
def floorDiv (n d : Nat) : Nat :=
  let bits := (n / d).log2
  if bits ≤ 52 then roundHalfEven (n * 2 ^ (52 - bits)) d / 2 ^ (52 - bits)
  else roundHalfEven n (d * 2 ^ (bits - 52)) * 2 ^ (bits - 52)

theorem toDouble_le {n : Nat} (h : n ≤ 2 ^ 53) : toDouble n = some n := by
  rcases Nat.lt_or_eq_of_le h with hlt | rfl
  · exact if_pos hlt
  · decide +kernel

theorem roundHalfEven_bounds (n unit : Nat) :
    n / unit ≤ roundHalfEven n unit ∧
      (roundHalfEven n unit = n / unit ∨
        roundHalfEven n unit = n / unit + 1 ∧ unit ≤ 2 * (n % unit)) := by
  have hbit := Nat.mod_lt (n / unit) (Nat.succ_pos 1)
  simp only [roundHalfEven]
  split
  · exact ⟨Nat.le_refl _, .inl rfl⟩
  split
  · exact ⟨Nat.le_succ _, .inr ⟨rfl, by omega⟩⟩
  · refine ⟨Nat.le_add_right .., ?_⟩
    rcases Nat.eq_zero_or_pos (n / unit % 2) with heven | hodd
    · exact .inl (by omega)
    · exact .inr ⟨by omega, by omega⟩

/-- A quotient is not rounded up to the next whole number, if the steps between doubles are small
there. -/
theorem floorDiv_exact {n d : Nat} (hd : 0 < d) (hbits : (n / d).log2 ≤ 52)
    (h : d < 2 * 2 ^ (52 - (n / d).log2)) : floorDiv n d = n / d := by
  simp only [floorDiv, if_pos hbits]
  generalize 2 ^ (52 - (n / d).log2) = unit at h
  have hunit : 0 < unit := by omega
  obtain ⟨hlow, hround⟩ := roundHalfEven_bounds (n * unit) d
  have hn := Nat.div_add_mod n d
  have hmod := Nat.mod_lt n hd
  have hscaled := Nat.div_add_mod (n * unit) d
  refine Nat.div_eq_of_lt_le ?_ ?_
  · refine Nat.le_trans ?_ hlow
    rw [Nat.le_div_iff_mul_le hd, Nat.mul_right_comm]
    exact Nat.mul_le_mul_right _ (Nat.div_mul_le_self n d)
  · -- the next whole number is at least one `n`-th of a step away
    have hnext : (n + 1) * unit ≤ d * ((n / d + 1) * unit) := by
      rw [← Nat.mul_assoc, Nat.mul_add]
      exact Nat.mul_le_mul_right _ (by omega)
    rw [Nat.add_mul, Nat.one_mul] at hnext
    refine Nat.lt_of_mul_lt_mul_left (a := d) ?_
    rcases hround with heq | ⟨heq, hhalf⟩
    · rw [heq]
      omega
    · rw [heq, Nat.mul_add, Nat.mul_one]
      omega

/-!
## Decimal ordinals

A number written with zeros before it, up to a width. As long as the width is enough, the
written numbers have one length, and in the order of their characters they are in the order
of the numbers.
-/

/-- The digits of a number, filled with zeros up to a width. -/
def padDigits (width n : Nat) : List Char := (Nat.toDigits 10 n).leftpad width '0'

theorem padDigits_eq (width n : Nat) : padDigits width n =
    List.replicate (width - (Nat.toDigits 10 n).length) '0' ++ Nat.toDigits 10 n := rfl

theorem padDigits_value (width n : Nat) : Nat.ofDigitChars 10 (padDigits width n) 0 = n := by
  rw [padDigits_eq, Nat.ofDigitChars_append, Nat.ofDigitChars_replicate_zero, Nat.mul_zero]
  exact Nat.ofDigitChars_ten_toDigits

theorem padDigits_inj {width m n : Nat} (h : padDigits width m = padDigits width n) : m = n := by
  rw [← padDigits_value width m, h, padDigits_value]

theorem padDigits_isDigit {width n : Nat} {c : Char} (h : c ∈ padDigits width n) :
    c.isDigit = true := by
  rw [padDigits_eq] at h
  rcases List.mem_append.mp h with h | h
  · rw [(List.mem_replicate.mp h).2]
    rfl
  · exact Nat.isDigit_of_mem_toDigits (by decide) (by decide) h

theorem padDigits_length {width n : Nat} (hwidth : 0 < width) (h : n < 10 ^ width) :
    (padDigits width n).length = width := by
  have hle : (Nat.toDigits 10 n).length ≤ width :=
    (Nat.length_toDigits_le_iff (by decide) hwidth).mpr h
  rw [padDigits_eq, List.length_append, List.length_replicate]
  omega

theorem digit_range {c : Char} (h : c.isDigit = true) : 48 ≤ c.toNat ∧ c.toNat ≤ 57 := by
  simp only [Char.isDigit, Bool.and_eq_true, decide_eq_true_eq] at h
  exact h

theorem value_cons (c : Char) (cs : List Char) : Nat.ofDigitChars 10 (c :: cs) 0
    = (c.toNat - 48) * 10 ^ cs.length + Nat.ofDigitChars 10 cs 0 := by
  rw [Nat.ofDigitChars_cons, Nat.ofDigitChars_eq_ofDigitChars_zero, Nat.mul_zero, Nat.zero_add,
    Nat.mul_comm]
  rfl

theorem value_lt {cs : List Char} (h : ∀ c ∈ cs, c.isDigit = true) :
    Nat.ofDigitChars 10 cs 0 < 10 ^ cs.length := by
  induction cs with
  | nil => simp
  | cons c cs ih =>
      have hrest := ih fun d hd => h d (List.mem_cons_of_mem _ hd)
      obtain ⟨-, hc⟩ := digit_range (h c List.mem_cons_self)
      have hhead : (c.toNat - 48) * 10 ^ cs.length ≤ 9 * 10 ^ cs.length :=
        Nat.mul_le_mul_right _ (by omega)
      rw [value_cons, List.length_cons, Nat.pow_succ]
      omega

theorem digits_lt {cs ds : List Char} (hlength : cs.length = ds.length)
    (hcs : ∀ c ∈ cs, c.isDigit = true) (hds : ∀ d ∈ ds, d.isDigit = true)
    (h : Nat.ofDigitChars 10 cs 0 < Nat.ofDigitChars 10 ds 0) :
    cs.map Char.toNat < ds.map Char.toNat := by
  induction cs generalizing ds with
  | nil =>
      rw [List.length_eq_zero_iff.mp hlength.symm] at h
      exact absurd h (Nat.lt_irrefl _)
  | cons c cs ih =>
      cases ds with
      | nil => cases hlength
      | cons d ds =>
          have hlength : cs.length = ds.length := Nat.succ.inj hlength
          have hcs' := fun e he => hcs e (List.mem_cons_of_mem _ he)
          have hds' := fun e he => hds e (List.mem_cons_of_mem _ he)
          obtain ⟨hc, -⟩ := digit_range (hcs c List.mem_cons_self)
          obtain ⟨hd, -⟩ := digit_range (hds d List.mem_cons_self)
          have hlt := value_lt hds'
          rw [value_cons, value_cons, hlength] at h
          rw [List.map_cons, List.map_cons, List.cons_lt_cons_iff]
          rcases Nat.lt_trichotomy c.toNat d.toNat with hless | heq | hgreater
          · exact .inl hless
          · rw [heq] at h
            exact .inr ⟨heq, ih hlength hcs' hds' (by omega)⟩
          · have hhead : (d.toNat - 48 + 1) * 10 ^ ds.length ≤ (c.toNat - 48) * 10 ^ ds.length :=
              Nat.mul_le_mul_right _ (by omega)
            rw [Nat.add_mul, Nat.one_mul] at hhead
            omega

theorem padDigits_lt {width m n : Nat} (hwidth : 0 < width) (h : m < n) (hn : n < 10 ^ width) :
    (padDigits width m).map Char.toNat < (padDigits width n).map Char.toNat := by
  refine digits_lt ?_ (fun _ hc => padDigits_isDigit hc) (fun _ hd => padDigits_isDigit hd) ?_
  · rw [padDigits_length hwidth (Nat.lt_trans h hn), padDigits_length hwidth hn]
  · rw [padDigits_value, padDigits_value]
    exact h

/-! ## As code units -/

theorem utf16_append (cs ds : List Char) : utf16 (cs ++ ds) = utf16 cs ++ utf16 ds :=
  List.flatMap_append

theorem utf16_digits {cs : List Char} (h : ∀ c ∈ cs, c.isDigit = true) :
    utf16 cs = cs.map Char.toNat := by
  induction cs with
  | nil => rfl
  | cons c cs ih =>
      obtain ⟨-, hc⟩ := digit_range (h c List.mem_cons_self)
      have hunit : charUnits c = [c.toNat] := by
        unfold charUnits
        rw [if_pos (by omega)]
      rw [utf16_cons, hunit, ih fun d hd => h d (List.mem_cons_of_mem _ hd)]
      rfl

theorem append_cons_inj {α : Type} {c : α} {as as' bs bs' : List α} (ha : c ∉ as') (hb : c ∉ bs')
    (h : as ++ c :: as' = bs ++ c :: bs') : as = bs ∧ as' = bs' := by
  have hlength : as.length = bs.length := by
    by_contra hne
    rcases Nat.lt_or_gt_of_ne hne with hlt | hgt
    · obtain ⟨mid, hmid⟩ := List.prefix_of_prefix_length_le (List.prefix_append as (c :: as'))
        (h ▸ List.prefix_append bs (c :: bs')) (Nat.le_of_lt hlt)
      rw [← hmid, List.append_assoc, List.append_cancel_left_eq] at h
      cases mid with
      | nil => simp [← hmid] at hlt
      | cons x mid =>
          obtain ⟨-, hrest⟩ := List.cons.inj h
          exact ha (hrest ▸ List.mem_append_right _ List.mem_cons_self)
    · obtain ⟨mid, hmid⟩ := List.prefix_of_prefix_length_le (List.prefix_append bs (c :: bs'))
        (h ▸ List.prefix_append as (c :: as')) (Nat.le_of_lt hgt)
      rw [← hmid, List.append_assoc, List.append_cancel_left_eq] at h
      cases mid with
      | nil => simp [← hmid] at hgt
      | cons x mid =>
          obtain ⟨-, hrest⟩ := List.cons.inj h
          exact hb (hrest ▸ List.mem_append_right _ List.mem_cons_self)
  obtain ⟨rfl, hcons⟩ := List.append_inj h hlength
  exact ⟨rfl, (List.cons.inj hcons).2⟩

end OmniRush
