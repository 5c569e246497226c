import OmniRush.Lib.Numeral
import OmniRush.Workbook.Columns

/-!
# Letters and indexes of columns

The letters of a column are its numeral in base 26 with the digits from 1 to 26, and the index of
letters is the number of the numeral they are. Doubles count so up to 2^53; a longer reference has
an index that is rounded.
-/

namespace OmniRush.Workbook

def letter (digit : Nat) : Char := Char.ofNat (64 + digit)

def digitOf (c : Char) : Nat := c.toNat - 64

/-- A letter from A to Z. -/
def IsLetter (c : Char) : Prop := 'A' ≤ c ∧ c ≤ 'Z'

/-- The column that letters stand for. -/
def columnNumber (letters : String) : Nat := numeralValue 26 (letters.toList.map digitOf)

/-! ## Letters and digits -/

theorem letters_digits : ∀ digit < 27, 0 < digit → digitOf (letter digit) = digit ∧
    (letter digit).toNat = 64 + digit ∧ upperCase (letter digit) = [letter digit] ∧
    'A' ≤ letter digit ∧ letter digit ≤ 'Z' := by decide

theorem letters_ordered : ∀ d < 27, ∀ e < 27, d < e → letter d < letter e := by decide +kernel

theorem exists_digit {c : Char} (h : IsLetter c) :
    ∃ digit, IsDigit 26 digit ∧ c = letter digit := by
  have hlow : 65 ≤ c.toNat := h.1
  have hhigh : c.toNat ≤ 90 := h.2
  refine ⟨digitOf c, ⟨?_, ?_⟩, ?_⟩
  · simp only [digitOf]
    omega
  · simp only [digitOf]
    omega
  · rw [letter, digitOf, show 64 + (c.toNat - 64) = c.toNat by omega, Char.ofNat_toNat]

theorem isLetter_letter {digit : Nat} (h : IsDigit 26 digit) : IsLetter (letter digit) :=
  (letters_digits digit (Nat.lt_succ_of_le h.2) h.1).2.2.2

theorem digitOf_letter {digit : Nat} (h : IsDigit 26 digit) : digitOf (letter digit) = digit :=
  (letters_digits digit (Nat.lt_succ_of_le h.2) h.1).1

/-! ## Letters -/

theorem floorDiv_26 {n : Nat} (h : n < 2 ^ 53) : floorDiv n 26 = n / 26 := by
  have hbits : (n / 26).log2 < 49 := by
    rcases Nat.eq_zero_or_pos (n / 26) with hzero | hpos
    · rw [hzero]
      decide
    · rw [Nat.log2_lt (by omega)]
      omega
  refine floorDiv_exact (by decide) (by omega) ?_
  have hstep : 2 ^ 4 ≤ 2 ^ (52 - (n / 26).log2) := Nat.pow_le_pow_right (by decide) (by omega)
  omega

theorem columnLettersFrom_eq {rounds value : Nat} (hvalue : value ≤ 2 ^ 53)
    (hrounds : value ≤ rounds) :
    columnLettersFrom rounds value = (numeral 26 value).map letter := by
  induction rounds generalizing value with
  | zero =>
      rw [Nat.le_zero.mp hrounds, numeral_zero]
      rfl
  | succ rounds ih =>
      cases value with
      | zero =>
          rw [numeral_zero]
          rfl
      | succ value =>
          have hdiv := Nat.div_le_self value 26
          simp only [columnLettersFrom, Nat.succ_pos, if_true, Nat.add_sub_cancel,
            toDouble_le (Nat.le_of_succ_le hvalue), Option.getD_some]
          rw [floorDiv_26 hvalue, ih (by omega) (by omega), numeral_succ, List.map_append,
            List.map_singleton, letter, Nat.add_comm (value % 26), ← Nat.add_assoc]

theorem columnLetters_eq {n : Nat} (h : n ≤ 2 ^ 53) :
    (columnLetters n).toList = (numeral 26 n).map letter := by
  rw [columnLetters, String.toList_ofList, columnLettersFrom_eq h (Nat.le_refl n)]

/-! ## Indexes -/

theorem numeralValue_le (b : Nat) (hb : 0 < b) (v : Nat) (digits : List Nat) :
    v ≤ digits.foldl (fun v d => v * b + d) v := by
  induction digits generalizing v with
  | nil => exact Nat.le_refl v
  | cons d digits ih =>
      refine Nat.le_trans ?_ (ih (v * b + d))
      exact Nat.le_trans (Nat.le_mul_of_pos_right v hb) (Nat.le_add_right ..)

theorem columnIndexFrom_eq {letters : List Char} (hletters : ∀ c ∈ letters, IsLetter c)
    {value : Nat} (h : (letters.map digitOf).foldl (fun v d => v * 26 + d) value ≤ 2 ^ 53) :
    columnIndexFrom (some value) letters =
      some ((letters.map digitOf).foldl (fun v d => v * 26 + d) value) := by
  induction letters generalizing value with
  | nil => rfl
  | cons c letters ih =>
      obtain ⟨digit, hdigit, rfl⟩ := exists_digit (hletters c List.mem_cons_self)
      obtain ⟨-, hcode, -⟩ := letters_digits digit (Nat.lt_succ_of_le hdigit.2) hdigit.1
      have hin : ((letter digit).toNat < 65 || (letter digit).toNat > 90) = false := by
        obtain ⟨hlow, hhigh⟩ := hdigit
        rw [hcode, Bool.or_eq_false_iff, decide_eq_false_iff_not, decide_eq_false_iff_not]
        omega
      rw [List.map_cons, List.foldl_cons] at h ⊢
      have hnext := Nat.le_trans (numeralValue_le 26 (by decide) _ _) h
      have hstep : nextIndex (some value) ((letter digit).toNat - 64) =
          some (value * 26 + digitOf (letter digit)) := by
        simp only [nextIndex, Option.bind_some]
        rw [toDouble_le (Nat.le_trans (Nat.le_add_right ..) hnext), Option.bind_some]
        exact toDouble_le hnext
      simp only [columnIndexFrom, hin, Bool.false_eq_true, if_false, hstep]
      exact ih (fun c hc => hletters c (List.mem_cons_of_mem _ hc)) h

theorem upperCase_letters {letters : List Char} (h : ∀ c ∈ letters, IsLetter c) :
    letters.flatMap upperCase = letters := by
  induction letters with
  | nil => rfl
  | cons c letters ih =>
      obtain ⟨digit, hdigit, rfl⟩ := exists_digit (h c List.mem_cons_self)
      rw [List.flatMap_cons, ih fun c hc => h c (List.mem_cons_of_mem _ hc),
        (letters_digits digit (Nat.lt_succ_of_le hdigit.2) hdigit.1).2.2.1]
      rfl

theorem columnIndex_eq {letters : String} (h : ∀ c ∈ letters.toList, IsLetter c)
    (hnumber : columnNumber letters ≤ 2 ^ 53) :
    columnIndex letters = some (columnNumber letters) := by
  rw [columnIndex, upperCase_letters h]
  exact columnIndexFrom_eq h hnumber

/-! ## Both ways -/

theorem columnNumber_columnLetters {n : Nat} (h : n ≤ 2 ^ 53) :
    columnNumber (columnLetters n) = n := by
  have hdigits : ((numeral 26 n).map letter).map digitOf = numeral 26 n := by
    rw [List.map_map]
    refine (List.map_congr_left fun digit hdigit => ?_).trans (List.map_id _)
    exact digitOf_letter (isDigit_numeral (by decide) n digit hdigit)
  rw [columnNumber, columnLetters_eq h, hdigits, numeralValue_numeral]

theorem isLetter_columnLetters {n : Nat} (h : n ≤ 2 ^ 53) :
    ∀ c ∈ (columnLetters n).toList, IsLetter c := by
  intro c hc
  rw [columnLetters_eq h] at hc
  obtain ⟨digit, hdigit, rfl⟩ := List.mem_map.mp hc
  exact isLetter_letter (isDigit_numeral (by decide) n digit hdigit)

theorem isDigit_digitOf {letters : List Char} (h : ∀ c ∈ letters, IsLetter c) :
    ∀ d ∈ letters.map digitOf, IsDigit 26 d := by
  intro d hd
  obtain ⟨c, hc, rfl⟩ := List.mem_map.mp hd
  obtain ⟨digit, hdigit, rfl⟩ := exists_digit (h c hc)
  rwa [digitOf_letter hdigit]

theorem columnLetters_columnNumber {letters : String} (h : ∀ c ∈ letters.toList, IsLetter c)
    (hnumber : columnNumber letters ≤ 2 ^ 53) :
    columnLetters (columnNumber letters) = letters := by
  have hletters : (letters.toList.map digitOf).map letter = letters.toList := by
    rw [List.map_map]
    refine (List.map_congr_left fun c hc => ?_).trans (List.map_id _)
    obtain ⟨digit, hdigit, rfl⟩ := exists_digit (h c hc)
    exact congrArg letter (digitOf_letter hdigit)
  rw [← String.toList_inj, columnLetters_eq hnumber, columnNumber,
    numeral_numeralValue (isDigit_digitOf h), hletters]

theorem letters_lex {s t : List Nat} (hs : ∀ d ∈ s, IsDigit 26 d) (ht : ∀ d ∈ t, IsDigit 26 d)
    (h : List.Lex (· < ·) s t) : List.Lex (· < ·) (s.map letter) (t.map letter) := by
  induction h with
  | nil => exact .nil
  | cons _ ih =>
      exact .cons (ih (fun d hd => hs d (List.mem_cons_of_mem _ hd))
        (fun d hd => ht d (List.mem_cons_of_mem _ hd)))
  | rel hlt =>
      obtain ⟨-, hd⟩ := hs _ List.mem_cons_self
      obtain ⟨-, he⟩ := ht _ List.mem_cons_self
      exact .rel (letters_ordered _ (Nat.lt_succ_of_le hd) _ (Nat.lt_succ_of_le he) hlt)

theorem columnLetters_shortlex {m n : Nat} (hmn : m < n) (hn : n ≤ 2 ^ 53) :
    List.Shortlex (· < ·) (columnLetters m).toList (columnLetters n).toList := by
  rw [columnLetters_eq hn, columnLetters_eq (Nat.le_trans (Nat.le_of_lt hmn) hn)]
  rcases List.shortlex_def.mp (numeral_shortlex (b := 26) hmn) with hlength | ⟨hlength, hlex⟩
  · exact .of_length_lt (by simpa using hlength)
  · refine .of_lex (by simpa using hlength) ?_
    exact letters_lex (isDigit_numeral (by decide) m) (isDigit_numeral (by decide) n) hlex

/-- **Letters and indexes of columns are inverse.** Up to 2^53 a column has letters of its own, in
order of length and then of letters, and their index is the column; letters whose number is no
greater have that number as their index, and it has them as its letters. -/
theorem columns_bijective :
    (∀ n, 1 ≤ n → n ≤ 2 ^ 53 → columnIndex (columnLetters n) = some n) ∧
      (∀ letters : String, letters ≠ "" → (∀ c ∈ letters.toList, IsLetter c) →
        columnNumber letters ≤ 2 ^ 53 →
        columnIndex letters = some (columnNumber letters) ∧ 1 ≤ columnNumber letters ∧
          columnLetters (columnNumber letters) = letters) ∧
      ∀ m n, 1 ≤ m → m < n → n ≤ 2 ^ 53 →
        List.Shortlex (· < ·) (columnLetters m).toList (columnLetters n).toList := by
  refine ⟨fun n _ hn => ?_, fun letters hne hletters hnumber => ?_, fun m n _ hmn hn => ?_⟩
  · have hnumber := columnNumber_columnLetters hn
    rw [columnIndex_eq (isLetter_columnLetters hn) (by rwa [hnumber]), hnumber]
  · have hback := columnLetters_columnNumber hletters hnumber
    refine ⟨columnIndex_eq hletters hnumber, Nat.pos_of_ne_zero fun hzero => hne ?_, hback⟩
    rw [hzero] at hback
    exact hback.symm
  · exact columnLetters_shortlex hmn hn

/-- Twelve letters have an index that is rounded. -/
theorem columns_rounded :
    columnIndex "ZZZZZZZZZZZZ" = some 99246114928149472 ∧
      columnLetters 99246114928149472 ≠ "ZZZZZZZZZZZZ" := by
  decide +kernel

end OmniRush.Workbook
