import OmniRush.Lib.Json

/-!
# Reading back what was written

The reader is run on the text of a value with an arbitrary text behind it, and
answers the value and that text. The text behind may be anything for a string,
a list or an object, whose last character closes them; behind a number it must
not go on with the number, which `endsNumber` says and every separator
satisfies.

A second fact is about the text alone: a value's text has no line break in it,
so a document may keep one value a line.
-/

namespace OmniRush.Json

/-! ## Strings -/

theorem hexValue_digitChar : ∀ d, d < 16 → hexValue (Nat.digitChar d) = some d := by
  decide

theorem hexScalar_low {n : Nat} (h : n < 32) :
    hexScalar '0' '0' (Nat.digitChar (n / 16)) (Nat.digitChar (n % 16))
      = some (Char.ofNat n) := by
  have h0 : hexValue '0' = some 0 := rfl
  have h1 := hexValue_digitChar (n / 16) (by omega)
  have h2 := hexValue_digitChar (n % 16) (by omega)
  simp only [hexScalar, h0, h1, h2, Option.bind_eq_bind, Option.bind_some]
  have hn : ((0 * 16 + 0) * 16 + n / 16) * 16 + n % 16 = n := by omega
  rw [hn, if_pos (Or.inl (by omega))]

theorem parseString_escapeChar (c : Char) (rest : List Char) :
    parseString (escapeChar c ++ rest)
      = (parseString rest).map fun r => (c :: r.1, r.2) := by
  unfold escapeChar
  split
  · next h => subst h; simp [parseString]
  split
  · next h => subst h; simp [parseString]
  split
  · next h => subst h; simp [parseString]
  split
  · next h => subst h; simp [parseString]
  split
  · next h => subst h; simp [parseString]
  split
  · next h =>
      have hc : Char.ofNat 8 = c := by rw [← h]; exact Char.ofNat_toNat c
      simp only [List.cons_append, List.nil_append]
      rw [parseString, hc]
  split
  · next h =>
      have hc : Char.ofNat 12 = c := by rw [← h]; exact Char.ofNat_toNat c
      simp only [List.cons_append, List.nil_append]
      rw [parseString, hc]
  split
  · next h =>
      simp only [List.cons_append, List.nil_append]
      rw [parseString, hexScalar_low h, Char.ofNat_toNat]
  · next hquote hslash _ _ _ _ _ hlow =>
      simp only [List.cons_append, List.nil_append]
      rw [parseString, if_neg hlow]
      · exact hquote
      all_goals
        intros
        exact absurd ‹c = '\\'› hslash

theorem parseString_escape (cs rest : List Char) :
    parseString (escape cs ++ '"' :: rest) = some (cs, rest) := by
  induction cs with
  | nil => simp [escape, parseString]
  | cons c cs ih =>
      have hcons : escape (c :: cs) = escapeChar c ++ escape cs := rfl
      rw [hcons, List.append_assoc, parseString_escapeChar, ih]
      rfl

/-! ## Numbers -/

theorem parseDigits_append {ds rest : List Char} (hd : ∀ c ∈ ds, c.isDigit = true)
    (hrest : endsNumber rest = true) : parseDigits (ds ++ rest) = (ds, rest) := by
  induction ds with
  | nil =>
      cases rest with
      | nil => rfl
      | cons c rest =>
          have hc : c.isDigit = false := by
            simp only [endsNumber, Bool.not_eq_true', Bool.or_eq_false_iff] at hrest
            exact hrest.1.1.1
          simp [parseDigits, hc]
  | cons c ds ih =>
      have hc := hd c (by simp)
      have htail := ih fun x hx => hd x (by simp [hx])
      simp [parseDigits, hc, htail]

theorem natChars_isDigit {n : Nat} {c : Char} (h : c ∈ natChars n) : c.isDigit = true :=
  Nat.isDigit_of_mem_toDigits (by decide) (by decide) h

theorem natChars_ne_nil (n : Nat) : natChars n ≠ [] := Nat.toDigits_ne_nil

theorem natChars_head {n : Nat} {c d : Char} {cs : List Char}
    (h : natChars n = c :: d :: cs) : c ≠ '0' := by
  induction n using Nat.strongRecOn generalizing c d cs with
  | ind n ih =>
      rw [natChars, Nat.toDigits_eq_if (by decide)] at h
      split at h
      · simp at h
      · next hn =>
          cases hq : Nat.toDigits 10 (n / 10) with
          | nil => exact absurd hq Nat.toDigits_ne_nil
          | cons a as =>
              rw [hq] at h
              simp only [List.cons_append, List.cons.injEq] at h
              obtain ⟨rfl, h⟩ := h
              cases as with
              | cons b bs => exact ih (n / 10) (by omega) hq
              | nil =>
                  have hlen : (Nat.toDigits 10 (n / 10)).length ≤ 1 := by rw [hq]; simp
                  have hlt : n / 10 < 10 := by
                    have := (Nat.length_toDigits_le_iff (n := n / 10) (k := 1)
                      (b := 10) (by decide) (by decide)).mp hlen
                    simpa using this
                  rw [Nat.toDigits_of_lt_base hlt] at hq
                  simp only [List.cons.injEq, and_true] at hq
                  intro h0
                  rw [h0] at hq
                  have hall : ∀ m, m < 10 → m ≠ 0 → Nat.digitChar m ≠ '0' := by decide
                  exact hall (n / 10) hlt (by omega) hq

theorem parseNat_natChars (n : Nat) {rest : List Char} (hrest : endsNumber rest = true) :
    parseNat (natChars n ++ rest) = some (n, rest) := by
  have hp := parseDigits_append (fun c hc => natChars_isDigit (n := n) hc) hrest
  have hv : Nat.ofDigitChars 10 (natChars n) 0 = n := Nat.ofDigitChars_ten_toDigits
  unfold parseNat
  rw [hp]
  split
  · next heq => simp only [Prod.mk.injEq] at heq; exact absurd heq.1 (natChars_ne_nil n)
  · next heq => simp only [Prod.mk.injEq] at heq; exact absurd rfl (natChars_head heq.1)
  · next heq =>
      simp only [Prod.mk.injEq] at heq
      obtain ⟨rfl, rfl⟩ := heq
      rw [if_pos hrest, hv]

theorem natChars_cons (n : Nat) : ∃ c cs, natChars n = c :: cs ∧ c.isDigit = true := by
  cases h : natChars n with
  | nil => exact absurd h (natChars_ne_nil n)
  | cons c cs => exact ⟨c, cs, rfl, natChars_isDigit (by rw [h]; simp)⟩

theorem parseNumber_intChars (n : Int) {rest : List Char} (hrest : endsNumber rest = true) :
    parseNumber (intChars n ++ rest) = some (.num n, rest) := by
  cases n with
  | ofNat n =>
      obtain ⟨c, cs, hcs, hc⟩ := natChars_cons n
      have hne : c ≠ '-' := by rintro rfl; simp at hc
      have hp := parseNat_natChars n hrest
      simp only [intChars]
      rw [hcs] at hp ⊢
      simp only [List.cons_append] at hp ⊢
      rw [parseNumber.eq_2 _ (by simp [hne]), hp]
      rfl
  | negSucc n =>
      simp only [intChars, List.cons_append]
      rw [parseNumber, parseNat_natChars (n + 1) hrest]
      rfl

/-! ## Values

The reader looks at one character to know what it reads, so the walk needs of
every text only how it starts: with no space, and not with a bracket that
closes something. -/

/-- A character a value may start with. -/
def startsValue (c : Char) : Bool :=
  !(isSpace c) && c != ']' && c != '}'

theorem isDigit_starts {c : Char} (h : c.isDigit = true) :
    startsValue c = true ∧ c ≠ '"' ∧ c ≠ '[' ∧ c ≠ '{' ∧ c ≠ 'n' ∧ c ≠ 't' ∧ c ≠ 'f'
      ∧ c ≠ '-' := by
  refine ⟨?_, ?_, ?_, ?_, ?_, ?_, ?_, ?_⟩
  · have hne : ∀ d : Char, d.isDigit = false → c ≠ d := by
      rintro d hd rfl; rw [h] at hd; exact absurd hd (by decide)
    simp [startsValue, isSpace, hne]
  all_goals rintro rfl; exact absurd h (by decide)

theorem chars_cons (v : Json) : ∃ c cs, chars v = c :: cs ∧ startsValue c = true := by
  cases v with
  | null => exact ⟨'n', _, by rw [chars], by decide⟩
  | bool b => cases b <;> exact ⟨_, _, by rw [chars], by decide⟩
  | str s => exact ⟨'"', _, by rw [chars, quote], by decide⟩
  | arr items => exact ⟨'[', _, by rw [chars], by decide⟩
  | obj fields => exact ⟨'{', _, by rw [chars], by decide⟩
  | num n =>
      rw [chars]
      cases n with
      | ofNat n =>
          obtain ⟨c, cs, hcs, hc⟩ := natChars_cons n
          exact ⟨c, cs, hcs, (isDigit_starts hc).1⟩
      | negSucc n => exact ⟨'-', _, rfl, by decide⟩

theorem skipSpace_cons {c : Char} {cs : List Char} (h : isSpace c = false) :
    skipSpace (c :: cs) = c :: cs := by simp [skipSpace, h]

theorem startsValue_isSpace {c : Char} (h : startsValue c = true) : isSpace c = false := by
  simp only [startsValue, Bool.and_eq_true, Bool.not_eq_true'] at h
  exact h.1.1

theorem skipSpace_chars (v : Json) (rest : List Char) :
    skipSpace (chars v ++ rest) = chars v ++ rest := by
  obtain ⟨c, cs, hcs, hc⟩ := chars_cons v
  rw [hcs, List.cons_append, skipSpace_cons (startsValue_isSpace hc)]

theorem chars_length_pos (v : Json) : 0 < (chars v).length := by
  obtain ⟨c, cs, hcs, -⟩ := chars_cons v
  rw [hcs]
  simp

theorem parseValue_intChars (n : Int) (fuel : Nat) {rest : List Char}
    (hrest : endsNumber rest = true) :
    parseValue (fuel + 1) (intChars n ++ rest) = some (.num n, rest) := by
  have hp := parseNumber_intChars n hrest
  have hskip := skipSpace_chars (.num n) rest
  simp only [chars] at hskip
  rw [parseValue, hskip]
  cases n with
  | ofNat n =>
      obtain ⟨c, cs, hcs, hc⟩ := natChars_cons n
      obtain ⟨-, h1, h2, h3, h4, h5, h6, -⟩ := isDigit_starts hc
      simp only [intChars] at hp ⊢
      rw [hcs, List.cons_append] at hp ⊢
      split <;> simp_all
  | negSucc n =>
      simp only [intChars, List.cons_append] at hp ⊢
      exact hp

mutual

theorem parseValue_chars : ∀ (v : Json) (fuel : Nat) (rest : List Char),
    (chars v).length ≤ fuel → endsNumber rest = true →
    parseValue fuel (chars v ++ rest) = some (v, rest)
  | v, 0, rest, hf, _ => absurd hf (by have := chars_length_pos v; omega)
  | .null, fuel + 1, rest, _, _ => by
      simp [chars, parseValue, skipSpace, isSpace]
  | .bool true, fuel + 1, rest, _, _ => by
      simp [chars, parseValue, skipSpace, isSpace]
  | .bool false, fuel + 1, rest, _, _ => by
      simp [chars, parseValue, skipSpace, isSpace]
  | .num n, fuel + 1, rest, _, hrest => by
      rw [chars]
      exact parseValue_intChars n fuel hrest
  | .str s, fuel + 1, rest, _, _ => by
      rw [chars, quote, List.cons_append, List.append_assoc, List.singleton_append,
        parseValue, skipSpace_cons (by decide)]
      simp only [parseString_escape, Option.map_some, String.ofList_toList]
  | .arr items, fuel + 1, rest, hf, _ => by
      rw [chars, List.length_cons] at hf
      rw [chars, List.cons_append, parseValue, skipSpace_cons (by decide)]
      match items, hf with
      | [], _ => simp [itemChars, skipSpace, isSpace]
      | v :: vs, hf =>
          have hitems := parseItems_itemChars v vs fuel rest (by omega)
          obtain ⟨c, cs, hcs, hc⟩ := chars_cons v
          have hstart : ∃ tl, itemChars (v :: vs) ++ rest = c :: tl := by
            cases vs <;> simp [itemChars, hcs]
          obtain ⟨tl, htl⟩ := hstart
          rw [htl] at hitems ⊢
          have hne : c ≠ ']' := by rintro rfl; exact absurd hc (by decide)
          simp only [skipSpace_cons (startsValue_isSpace hc)]
          split
          · next heq => simp only [List.cons.injEq] at heq; exact absurd heq.1 hne
          · rw [hitems]; rfl
  | .obj fields, fuel + 1, rest, hf, _ => by
      rw [chars, List.length_cons] at hf
      rw [chars, List.cons_append, parseValue, skipSpace_cons (by decide)]
      match fields, hf with
      | [], _ => simp [fieldChars, skipSpace, isSpace]
      | (k, v) :: fs, hf =>
          have hfields := parseFields_fieldChars k v fs fuel rest (by omega)
          have hstart : ∃ tl, fieldChars ((k, v) :: fs) ++ rest = '"' :: tl := by
            cases fs <;> simp [fieldChars, quote]
          obtain ⟨tl, htl⟩ := hstart
          rw [htl] at hfields ⊢
          simp only [skipSpace_cons (show isSpace '"' = false by decide)]
          split
          · next heq => simp only [List.cons.injEq] at heq; exact absurd heq.1 (by decide)
          · rw [hfields]; rfl

theorem parseItems_itemChars : ∀ (v : Json) (vs : List Json) (fuel : Nat)
    (rest : List Char), (itemChars (v :: vs)).length ≤ fuel →
    parseItems fuel (itemChars (v :: vs) ++ rest) = some (v :: vs, rest)
  | v, [], 0, rest, hf => absurd hf (by simp [itemChars])
  | v, w :: vs, 0, rest, hf => absurd hf (by simp [itemChars])
  | v, [], fuel + 1, rest, hf => by
      simp only [itemChars, List.length_append, List.length_singleton] at hf
      have hv := parseValue_chars v fuel (']' :: rest) (by omega) (by rfl)
      rw [itemChars, List.append_assoc, List.singleton_append, parseItems, hv]
      simp only [skipSpace_cons (show isSpace ']' = false by decide)]
  | v, w :: vs, fuel + 1, rest, hf => by
      simp only [itemChars, List.length_append, List.length_cons] at hf
      have hv := parseValue_chars v fuel (',' :: (itemChars (w :: vs) ++ rest))
        (by omega) (by rfl)
      have hvs := parseItems_itemChars w vs fuel rest (by omega)
      rw [itemChars, List.append_assoc, List.cons_append, parseItems, hv]
      simp only [skipSpace_cons (show isSpace ',' = false by decide)]
      rw [hvs]
      rfl

theorem parseFields_fieldChars : ∀ (k : String) (v : Json) (fs : List (String × Json))
    (fuel : Nat) (rest : List Char), (fieldChars ((k, v) :: fs)).length ≤ fuel →
    parseFields fuel (fieldChars ((k, v) :: fs) ++ rest) = some ((k, v) :: fs, rest)
  | k, v, [], 0, rest, hf => absurd hf (by simp [fieldChars, quote])
  | k, v, f :: fs, 0, rest, hf => absurd hf (by simp [fieldChars, quote])
  | k, v, [], fuel + 1, rest, hf => by
      simp only [fieldChars, quote, List.length_append, List.length_cons,
        List.length_nil] at hf
      have hv := parseValue_chars v fuel ('}' :: rest) (by omega) (by rfl)
      simp only [fieldChars, quote, List.cons_append, List.append_assoc, List.nil_append,
        parseFields, skipSpace_cons (show isSpace '"' = false by decide)]
      rw [parseString_escape]
      simp only [skipSpace_cons (show isSpace ':' = false by decide)]
      rw [hv]
      simp only [skipSpace_cons (show isSpace '}' = false by decide),
        String.ofList_toList]
  | k, v, (k', v') :: fs, fuel + 1, rest, hf => by
      simp only [fieldChars, quote, List.length_append, List.length_cons,
        List.length_nil] at hf
      have hv := parseValue_chars v fuel (',' :: (fieldChars ((k', v') :: fs) ++ rest))
        (by omega) (by rfl)
      have hfs := parseFields_fieldChars k' v' fs fuel rest (by omega)
      simp only [fieldChars, quote, List.cons_append, List.append_assoc, List.nil_append,
        parseFields, skipSpace_cons (show isSpace '"' = false by decide)]
      rw [parseString_escape]
      simp only [skipSpace_cons (show isSpace ':' = false by decide)]
      rw [hv]
      simp only [skipSpace_cons (show isSpace ',' = false by decide),
        String.ofList_toList]
      rw [hfs]
      rfl

end

/-- Reading a written value gives it back, also with white space behind it (a
document ends in a line break). -/
theorem parseChars_chars (v : Json) (tail : List Char) (htail : skipSpace tail = [])
    (hend : endsNumber tail = true) : parseChars (chars v ++ tail) = some v := by
  have hlen : (chars v).length ≤ (chars v ++ tail).length + 1 := by
    rw [List.length_append]; omega
  rw [parseChars, parseValue_chars v _ tail hlen hend]
  simp only [htail, if_true]

theorem parse_stringify (v : Json) : parse (stringify v) = some v := by
  have h := parseChars_chars v [] rfl rfl
  rw [List.append_nil] at h
  rw [parse, stringify, String.toList_ofList, h]

/-! ## One value a line -/

theorem digitChar_ne_newline : ∀ d, d < 16 → Nat.digitChar d ≠ '\n' := by decide

theorem newline_notMem_escapeChar (c : Char) : '\n' ∉ escapeChar c := by
  unfold escapeChar
  repeat' split
  case isFalse.isFalse.isFalse.isFalse.isFalse.isFalse.isFalse.isTrue =>
    have h1 := digitChar_ne_newline (c.toNat / 16) (by omega)
    have h2 := digitChar_ne_newline (c.toNat % 16) (by omega)
    simp [h1.symm, h2.symm]
  case isFalse.isFalse.isFalse.isFalse.isFalse.isFalse.isFalse.isFalse =>
    next h _ _ _ _ _ => simpa using fun hc => h hc.symm
  all_goals decide

theorem newline_notMem_quote (s : String) : '\n' ∉ quote s := by
  simp [quote, escape, newline_notMem_escapeChar]

theorem newline_notMem_natChars (n : Nat) : '\n' ∉ natChars n :=
  fun h => absurd (natChars_isDigit h) (by decide)

theorem newline_notMem_intChars (n : Int) : '\n' ∉ intChars n := by
  cases n with
  | ofNat n => exact newline_notMem_natChars n
  | negSucc n => simp [intChars, newline_notMem_natChars]

mutual

theorem newline_notMem_chars : ∀ v : Json, '\n' ∉ chars v
  | .null => by simp [chars]
  | .bool true => by simp [chars]
  | .bool false => by simp [chars]
  | .num n => by rw [chars]; exact newline_notMem_intChars n
  | .str s => by rw [chars]; exact newline_notMem_quote s
  | .arr items => by simp [chars, newline_notMem_itemChars items]
  | .obj fields => by simp [chars, newline_notMem_fieldChars fields]

theorem newline_notMem_itemChars : ∀ vs : List Json, '\n' ∉ itemChars vs
  | [] => by simp [itemChars]
  | [v] => by simp [itemChars, newline_notMem_chars v]
  | v :: w :: vs => by
      simp [itemChars, newline_notMem_chars v, newline_notMem_itemChars (w :: vs)]

theorem newline_notMem_fieldChars : ∀ fs : List (String × Json), '\n' ∉ fieldChars fs
  | [] => by simp [fieldChars]
  | [(k, v)] => by simp [fieldChars, newline_notMem_quote k, newline_notMem_chars v]
  | (k, v) :: f :: fs => by
      simp [fieldChars, newline_notMem_quote k, newline_notMem_chars v,
        newline_notMem_fieldChars (f :: fs)]

end

theorem fieldChars_getLast? (fields : List (String × Json)) :
    (fieldChars fields).getLast? = some '}' := by
  induction fields with
  | nil => rfl
  | cons f fields ih =>
      cases fields with
      | nil => simp [fieldChars, List.getLast?_cons]
      | cons g fields =>
          simp [fieldChars, List.getLast?_cons, ih]

end OmniRush.Json
