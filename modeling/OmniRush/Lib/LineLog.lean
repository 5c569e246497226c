import OmniRush.Lib.Utf8
import OmniRush.Lib.JsonRoundTrip

/-!
# Files of one entry a line, appended to and cut anywhere

A file holds one entry a line in UTF-8. A write of some lines may stop after any of its
bytes, in the middle of a line or of a character. What is left decodes to whole lines and a
part of one more, maybe with the replacement character behind it (`decodeUtf8From_take`), and
a part of a JSON string or of an object with one string is no JSON (`parseChars_torn_str`,
`parseChars_torn_obj`).

So a file whose last line is whole, or that is given a line break first, holds after such a
write its entries and some first ones of those written (`LineFormat.appended_whole`,
`LineFormat.appended_break`). A write behind a torn line is not covered: its first line
becomes part of the torn one.
-/

namespace OmniRush

/-! ## Text cut anywhere -/

theorem decodeUtf8From_part (c : Char) {k : Nat} (hpos : 0 < k)
    (hk : k < (String.utf8EncodeChar c).length) :
    decodeUtf8From none ((String.utf8EncodeChar c).take k) = [replacement] := by
  have hvalid := char_bounds c
  have hv : c.val.toNat = c.toNat := rfl
  unfold String.utf8EncodeChar at hk ⊢
  dsimp only at hk ⊢
  rw [hv] at hk ⊢
  split at hk
  · exact absurd hk (by simp only [List.length_singleton]; omega)
  split at hk
  · next h1 h2 =>
      obtain rfl : k = 1 := by simp only [List.length_cons, List.length_nil] at hk; omega
      rw [if_neg h1, if_pos h2, List.take_succ_cons, List.take_zero, decodeUtf8From,
        toNat_byte (by omega), utf8Lead, if_neg (by omega), if_pos (by omega)]
      rfl
  split at hk
  · next h1 h2 h3 =>
      simp only [List.length_cons, List.length_nil] at hk
      rw [if_neg h1, if_neg h2, if_pos h3]
      obtain rfl | rfl : k = 1 ∨ k = 2 := by omega
      · rw [List.take_succ_cons, List.take_zero, decodeUtf8From, toNat_byte (by omega), utf8Lead,
          if_neg (by omega), if_neg (by omega), if_pos (by omega)]
        rfl
      · rw [List.take_succ_cons, List.take_succ_cons, List.take_zero, decodeUtf8From,
          toNat_byte (by omega), utf8Lead, if_neg (by omega), if_neg (by omega),
          if_pos (by omega)]
        dsimp only
        rw [decodeUtf8From_more (by omega) (by dsimp only; split <;> omega)
          (by dsimp only; split <;> omega), if_neg (by dsimp only; omega)]
        rfl
  · next h1 h2 h3 =>
      simp only [List.length_cons, List.length_nil] at hk
      rw [if_neg h1, if_neg h2, if_neg h3]
      obtain rfl | rfl | rfl : k = 1 ∨ k = 2 ∨ k = 3 := by omega
      · rw [List.take_succ_cons, List.take_zero, decodeUtf8From, toNat_byte (by omega), utf8Lead,
          if_neg (by omega), if_neg (by omega), if_neg (by omega), if_pos (by omega)]
        rfl
      all_goals
        rw [List.take_succ_cons, List.take_succ_cons, decodeUtf8From,
          toNat_byte (by omega), utf8Lead, if_neg (by omega), if_neg (by omega),
          if_neg (by omega), if_pos (by omega)]
        dsimp only
        rw [decodeUtf8From_more (by omega) (by dsimp only; split <;> omega)
          (by dsimp only; split <;> omega), if_neg (by dsimp only; omega)]
      · rfl
      · dsimp only
        rw [List.take_succ_cons, List.take_zero, decodeUtf8From_more (by omega)
          (by dsimp only; omega) (by dsimp only; omega), if_neg (by dsimp only; omega)]
        rfl

/-- The text of a file that was cut: its first characters, and maybe one cut in the middle. -/
def TornText (whole cs : List Char) : Prop :=
  ∃ m, m < whole.length ∧ (cs = whole.take m ∨ cs = whole.take m ++ [replacement])

theorem decodeUtf8From_take {cs : List Char} {k : Nat}
    (hk : k < (cs.flatMap String.utf8EncodeChar).length) :
    TornText cs (decodeUtf8From none ((cs.flatMap String.utf8EncodeChar).take k)) := by
  induction cs generalizing k with
  | nil => cases hk
  | cons c cs ih =>
      rw [List.flatMap_cons, List.length_append] at hk
      rw [List.flatMap_cons, List.take_append]
      rcases Nat.lt_or_ge k (String.utf8EncodeChar c).length with hlt | hge
      · rw [Nat.sub_eq_zero_of_le (Nat.le_of_lt hlt), List.take_zero, List.append_nil]
        refine ⟨0, Nat.succ_pos _, ?_⟩
        rcases Nat.eq_zero_or_pos k with rfl | hpos
        · exact .inl rfl
        · exact .inr (decodeUtf8From_part c hpos hlt)
      · rw [List.take_of_length_le hge, decodeUtf8From_char]
        obtain ⟨m, hm, hcut⟩ := ih (k := k - (String.utf8EncodeChar c).length) (by omega)
        refine ⟨m + 1, Nat.succ_lt_succ hm, ?_⟩
        rw [List.take_succ_cons]
        rcases hcut with hcut | hcut <;> rw [hcut]
        · exact .inl rfl
        · exact .inr rfl

theorem TornText.ne {whole cs : List Char} (h : TornText whole cs)
    (hlast : whole.getLast? ≠ some replacement) : cs ≠ whole := by
  obtain ⟨m, hm, rfl | rfl⟩ := h
  · intro heq
    have hlength := congrArg List.length heq
    rw [List.length_take] at hlength
    omega
  · intro heq
    rw [← heq, List.getLast?_append] at hlast
    exact hlast rfl

/-! ### Line breaks -/

/-- A character begun, as the decoder begins them: no byte it takes is a line break, and it
does not become one. -/
def Utf8Pending.Begun (p : Utf8Pending) : Prop :=
  0x80 ≤ p.lower ∧ p.upper ≤ 0xbf ∧ 11 ≤ p.bits * 0x40 + (p.lower - 0x80)

theorem begun_of_lead {b : Nat} {p : Utf8Pending} (h : utf8Lead b = .inr p) : p.Begun := by
  unfold utf8Lead at h
  split at h
  · cases h
  split at h
  · cases h
    exact ⟨Nat.le_refl _, Nat.le_refl _, by dsimp only; omega⟩
  split at h
  · cases h
    refine ⟨?_, ?_, ?_⟩ <;> dsimp only <;> split <;> omega
  split at h
  · cases h
    refine ⟨?_, ?_, ?_⟩ <;> dsimp only <;> split <;> omega
  · cases h

theorem Utf8Pending.Begun.more {p : Utf8Pending} (h : p.Begun) {b : Nat} (hlow : p.lower ≤ b)
    (hhigh : b ≤ p.upper) :
    (⟨p.needed - 1, 0x80, 0xbf, p.bits * 0x40 + b % 0x40⟩ : Utf8Pending).Begun := by
  obtain ⟨hlower, hupper, hbits⟩ := h
  exact ⟨Nat.le_refl _, Nat.le_refl _, by dsimp only; omega⟩

theorem ofNat_ne_newline {n : Nat} (h : 11 ≤ n) : Char.ofNat n ≠ '\n' := by
  intro heq
  by_cases hvalid : n.isValidChar
  · have hnat : (Char.ofNat n).toNat = n := by
      show (if h : n.isValidChar then Char.ofNatAux n h else _).toNat = n
      rw [dif_pos hvalid]
      rfl
    have hten : (Char.ofNat n).toNat = 10 := congrArg Char.toNat heq
    omega
  · have hzero : Char.ofNat n = Char.ofNat 0 := by
      show (if h : n.isValidChar then Char.ofNatAux n h else _) = _
      rw [dif_neg hvalid]
      rfl
    rw [hzero] at heq
    cases heq

theorem lead_newline {b : UInt8} {c : Char} (h : utf8Lead b.toNat = .inl c) (hc : c = '\n') :
    b = 10 := by
  subst hc
  unfold utf8Lead at h
  split at h
  · have hchar : Char.ofNat b.toNat = '\n' := Sum.inl.inj h
    rcases Nat.lt_or_ge b.toNat 11 with hlt | hge
    · have hsmall : ∀ n < 11, Char.ofNat n = '\n' → n = 10 := by decide
      exact UInt8.toNat_inj.mp (hsmall _ hlt hchar)
    · exact absurd hchar (ofNat_ne_newline hge)
  split at h
  · cases h
  split at h
  · cases h
  split at h
  · cases h
  · exact absurd (Sum.inl.inj h) (by decide)

theorem decodeUtf8From_cons (pending : Option Utf8Pending) (hp : ∀ p ∈ pending, p.Begun)
    (b : UInt8) : ∃ cs pending', (∀ p ∈ pending', p.Begun) ∧ ('\n' ∈ cs → b = 10) ∧
      (pending' = none → cs ≠ []) ∧
        ∀ bytes, decodeUtf8From pending (b :: bytes) = cs ++ decodeUtf8From pending' bytes := by
  have hnone : ∀ p ∈ (none : Option Utf8Pending), p.Begun := fun p hp => by cases hp
  cases pending with
  | none =>
      cases hlead : utf8Lead b.toNat with
      | inl c =>
          refine ⟨[c], none, hnone, fun h => lead_newline hlead (List.mem_singleton.mp h).symm,
            fun _ => List.cons_ne_nil _ _, ?_⟩
          intro bytes
          rw [decodeUtf8From, hlead]
          rfl
      | inr p =>
          refine ⟨[], some p, fun q hq => by cases hq; exact begun_of_lead hlead, by simp,
            by simp, ?_⟩
          intro bytes
          rw [decodeUtf8From, hlead]
          rfl
  | some p =>
      by_cases hrange : p.lower ≤ b.toNat ∧ b.toNat ≤ p.upper
      · have hmore := (hp p rfl).more hrange.1 hrange.2
        by_cases hneeded : p.needed = 1
        · refine ⟨[Char.ofNat (p.bits * 0x40 + b.toNat % 0x40)], none, hnone, ?_,
            fun _ => List.cons_ne_nil _ _, ?_⟩
          · intro h
            have hbits : 11 ≤ p.bits * 0x40 + b.toNat % 0x40 := by
              obtain ⟨hlower, hupper, hbits⟩ := hp p rfl
              omega
            exact absurd (List.mem_singleton.mp h).symm (ofNat_ne_newline hbits)
          · intro bytes
            rw [decodeUtf8From, if_pos hrange]
            dsimp only
            rw [if_pos hneeded]
            rfl
        · refine ⟨[], some _, fun q hq => by cases hq; exact hmore, by simp, by simp, ?_⟩
          intro bytes
          rw [decodeUtf8From, if_pos hrange]
          dsimp only
          rw [if_neg hneeded]
          rfl
      · have hreplacement : '\n' ≠ replacement := by decide
        cases hlead : utf8Lead b.toNat with
        | inl c =>
            refine ⟨[replacement, c], none, hnone, fun h => lead_newline hlead ?_,
              fun _ => List.cons_ne_nil _ _, ?_⟩
            · exact (List.mem_singleton.mp (List.mem_of_ne_of_mem hreplacement h)).symm
            · intro bytes
              rw [decodeUtf8From, if_neg hrange, hlead]
              rfl
        | inr p' =>
            refine ⟨[replacement], some p', fun q hq => by cases hq; exact begun_of_lead hlead,
              fun h => absurd (List.mem_singleton.mp h) hreplacement, by simp, ?_⟩
            intro bytes
            rw [decodeUtf8From, if_neg hrange, hlead]
            rfl

theorem decodeUtf8From_newline (pending : Option Utf8Pending) (hp : ∀ p ∈ pending, p.Begun)
    (bytes rest : List UInt8) :
    decodeUtf8From pending (bytes ++ 10 :: rest) =
      decodeUtf8From pending bytes ++ '\n' :: decodeUtf8From none rest := by
  induction bytes generalizing pending with
  | nil =>
      cases pending with
      | none => rfl
      | some p =>
          obtain ⟨hlower, -, -⟩ := hp p rfl
          have h10 : ¬(p.lower ≤ 10 ∧ 10 ≤ p.upper) := by omega
          rw [List.nil_append, decodeUtf8From, decodeUtf8From,
            show (10 : UInt8).toNat = 10 from rfl, if_neg h10]
          rfl
  | cons b bytes ih =>
      obtain ⟨cs, pending', hp', -, -, hcons⟩ := decodeUtf8From_cons pending hp b
      rw [List.cons_append, hcons, hcons, ih pending' hp', List.append_assoc]

theorem decodeUtf8From_eq_nil {pending : Option Utf8Pending} (hp : ∀ p ∈ pending, p.Begun)
    {bytes : List UInt8} (h : decodeUtf8From pending bytes = []) : pending = none ∧ bytes = [] := by
  induction bytes generalizing pending with
  | nil =>
      cases pending with
      | none => exact ⟨rfl, rfl⟩
      | some p => cases h
  | cons b bytes ih =>
      obtain ⟨cs, pending', hp', -, hne, hcons⟩ := decodeUtf8From_cons pending hp b
      rw [hcons, List.append_eq_nil_iff] at h
      exact absurd h.1 (hne (ih hp' h.2).1)

theorem decodeUtf8From_getLast? (pending : Option Utf8Pending) (hp : ∀ p ∈ pending, p.Begun)
    {bytes : List UInt8} (h : (decodeUtf8From pending bytes).getLast? = some '\n') :
    bytes.getLast? = some 10 := by
  induction bytes generalizing pending with
  | nil =>
      cases pending with
      | none => cases h
      | some p => exact absurd (Option.some.inj h) (by decide)
  | cons b bytes ih =>
      obtain ⟨cs, pending', hp', hbreak, -, hcons⟩ := decodeUtf8From_cons pending hp b
      rw [hcons, List.getLast?_append] at h
      cases hlast : (decodeUtf8From pending' bytes).getLast? with
      | some c =>
          rw [hlast, Option.some_or] at h
          cases h
          have hbytes := ih pending' hp' hlast
          rw [List.getLast?_cons, hbytes]
          rfl
      | none =>
          rw [hlast, Option.none_or] at h
          obtain ⟨-, rfl⟩ := decodeUtf8From_eq_nil hp' (List.getLast?_eq_none_iff.mp hlast)
          rw [ hbreak (List.mem_of_getLast? h)]
          rfl

/-! ## JSON cut anywhere -/

theorem TornText.append {a b xs : List Char} (h : TornText (a ++ b) xs) :
    TornText a xs ∨ ∃ ys, xs = a ++ ys ∧ TornText b ys := by
  obtain ⟨m, hm, hxs⟩ := h
  rw [List.length_append] at hm
  rw [List.take_append] at hxs
  rcases Nat.lt_or_ge m a.length with hlt | hge
  · rw [Nat.sub_eq_zero_of_le (Nat.le_of_lt hlt), List.take_zero, List.append_nil] at hxs
    exact .inl ⟨m, hlt, hxs⟩
  · rw [List.take_of_length_le hge] at hxs
    refine .inr ?_
    rcases hxs with rfl | rfl
    · exact ⟨_, rfl, m - a.length, by omega, .inl rfl⟩
    · exact ⟨_, List.append_assoc .., m - a.length, by omega, .inr rfl⟩

theorem TornText.singleton {c : Char} {xs : List Char} (h : TornText [c] xs) :
    xs = [] ∨ xs = [replacement] := by
  obtain ⟨m, hm, hxs⟩ := h
  obtain rfl : m = 0 := Nat.lt_one_iff.mp hm
  exact hxs

theorem TornText.cons {c : Char} {cs xs : List Char} (h : TornText (c :: cs) xs) :
    xs = [] ∨ xs = [replacement] ∨ ∃ ys, xs = c :: ys ∧ TornText cs ys := by
  rcases TornText.append (a := [c]) h with h | h
  · exact h.singleton.imp id .inl
  · exact .inr (.inr h)

namespace Json

theorem parseString_torn_char {c : Char} {xs : List Char} (h : TornText (escapeChar c) xs) :
    parseString xs = none := by
  have hshort : ∀ x, TornText ['\\', x] xs → parseString xs = none := by
    intro x h
    rcases h.cons with rfl | rfl | ⟨ys, rfl, hys⟩
    · rfl
    · rfl
    rcases hys.singleton with rfl | rfl <;> rfl
  unfold escapeChar at h
  split at h
  · exact hshort _ h
  split at h
  · exact hshort _ h
  split at h
  · exact hshort _ h
  split at h
  · exact hshort _ h
  split at h
  · exact hshort _ h
  split at h
  · exact hshort _ h
  split at h
  · exact hshort _ h
  split at h
  · -- four digits: where the last is cut, the replacement character is none
    rcases h.cons with rfl | rfl | ⟨ys, rfl, h1⟩
    · rfl
    · rfl
    rcases h1.cons with rfl | rfl | ⟨ys, rfl, h2⟩
    · rfl
    · rfl
    rcases h2.cons with rfl | rfl | ⟨ys, rfl, h3⟩
    · rfl
    · rfl
    rcases h3.cons with rfl | rfl | ⟨ys, rfl, h4⟩
    · rfl
    · rfl
    rcases h4.cons with rfl | rfl | ⟨ys, rfl, h5⟩
    · rfl
    · rfl
    rcases h5.singleton with rfl | rfl
    · rfl
    · have hdigit : hexScalar '0' '0' (Nat.digitChar (c.toNat / 16)) replacement = none := by
        rw [hexScalar]
        cases hexValue (Nat.digitChar (c.toNat / 16)) <;> rfl
      rw [parseString, hdigit]
  · rcases h.singleton with rfl | rfl <;> rfl

theorem parseString_torn {cs xs : List Char} (h : TornText (escape cs ++ ['"']) xs) :
    parseString xs = none := by
  induction cs generalizing xs with
  | nil => rcases h.singleton with rfl | rfl <;> rfl
  | cons c cs ih =>
      have hcons : escape (c :: cs) ++ ['"'] = escapeChar c ++ (escape cs ++ ['"']) :=
        List.append_assoc ..
      rw [hcons] at h
      rcases h.append with hchar | ⟨ys, rfl, hys⟩
      · exact parseString_torn_char hchar
      · rw [parseString_escapeChar, ih hys]
        rfl

theorem parseValue_quote (s : String) (fuel : Nat) (rest : List Char) :
    parseValue (fuel + 1) (quote s ++ rest) = some (.str s, rest) := by
  have hquote : quote s ++ rest = '"' :: (escape s.toList ++ '"' :: rest) := by
    rw [quote, List.cons_append, List.append_assoc]
    rfl
  simp only [hquote, parseValue, skipSpace_cons (c := '"') rfl, parseString_escape,
    Option.map_some, String.ofList_toList]

theorem parseValue_torn_quote {s : String} {xs : List Char} (h : TornText (quote s) xs) (fuel : Nat) :
    parseValue fuel xs = none := by
  cases fuel with
  | zero => rfl
  | succ fuel =>
      rcases h.cons with rfl | rfl | ⟨ys, rfl, hys⟩
      · rfl
      · rfl
      · have hstring := parseString_torn hys
        simp only [parseValue, skipSpace_cons (c := '"') rfl, hstring, Option.map_none]

theorem parseFields_torn {k s : String} {xs : List Char}
    (h : TornText (fieldChars [(k, .str s)]) xs) (fuel : Nat) : parseFields fuel xs = none := by
  cases fuel with
  | zero => rfl
  | succ fuel =>
      rw [fieldChars] at h
      rcases h.append with hkey | ⟨ys, rfl, hys⟩
      · rcases hkey.cons with rfl | rfl | ⟨ys, rfl, hys⟩
        · rfl
        · rfl
        · have hstring := parseString_torn hys
          simp only [parseFields, skipSpace_cons (c := '"') rfl, hstring]
      · have hquote : quote k ++ ys = '"' :: (escape k.toList ++ '"' :: ys) := by
          rw [quote, List.cons_append, List.append_assoc]
          rfl
        simp only [hquote, parseFields, skipSpace_cons (c := '"') rfl, parseString_escape]
        rcases hys.cons with rfl | rfl | ⟨zs, rfl, hzs⟩
        · rfl
        · rfl
        simp only [skipSpace_cons (c := ':') rfl]
        rw [chars] at hzs
        rcases hzs.append with hvalue | ⟨ws, rfl, hws⟩
        · rw [parseValue_torn_quote hvalue]
        · cases fuel with
          | zero => rfl
          | succ fuel =>
              rw [parseValue_quote]
              rcases hws.singleton with rfl | rfl <;> rfl

theorem parseChars_torn_str {s : String} {xs : List Char} (h : TornText (chars (.str s)) xs) :
    parseChars xs = none := by
  rw [chars] at h
  rw [parseChars, parseValue_torn_quote h]

theorem parseChars_torn_obj {k s : String} {xs : List Char}
    (h : TornText (chars (.obj [(k, .str s)])) xs) : parseChars xs = none := by
  have hvalue : ∀ fuel, parseValue fuel xs = none := by
    intro fuel
    cases fuel with
    | zero => rfl
    | succ fuel =>
        rw [chars] at h
        rcases h.cons with rfl | rfl | ⟨ys, rfl, hys⟩
        · rfl
        · rfl
        have hfields := parseFields_torn hys fuel
        rw [fieldChars] at hys
        rcases hys.cons with rfl | rfl | ⟨zs, rfl, -⟩
        · simp [parseValue, skipSpace, isSpace, hfields]
        · rw [replacement] at hfields ⊢
          simp [parseValue, skipSpace, isSpace, hfields]
        · simp [parseValue, skipSpace, isSpace, hfields]
  rw [parseChars, hvalue]

end Json

/-! ## Files of lines -/

def encodeText (cs : List Char) : List UInt8 := cs.flatMap String.utf8EncodeChar

theorem encodeText_append (cs ds : List Char) :
    encodeText (cs ++ ds) = encodeText cs ++ encodeText ds := List.flatMap_append

/-- The lines of a file, the empty one behind a last line break too. -/
def textLines (bytes : List UInt8) : List (List Char) := (decodeUtf8From none bytes).splitOn '\n'

theorem textLines_encode {cs : List Char} (h : '\n' ∉ cs) : textLines (encodeText cs) = [cs] := by
  rw [textLines, encodeText, decodeUtf8From_encode, List.splitOn_eq_singleton h]

theorem textLines_newline (bytes rest : List UInt8) :
    textLines (bytes ++ 10 :: rest) = textLines bytes ++ textLines rest := by
  rw [textLines, decodeUtf8From_newline none (fun p hp => by cases hp),
    List.splitOn_append_cons_self]
  rfl

theorem textLines_take {cs : List Char} {k : Nat} (hk : k < (encodeText cs).length)
    (h : '\n' ∉ cs) : ∃ line, textLines ((encodeText cs).take k) = [line] ∧ TornText cs line := by
  have htorn := decodeUtf8From_take hk
  refine ⟨_, ?_, htorn⟩
  refine List.splitOn_eq_singleton fun hmem => ?_
  obtain ⟨m, -, hcut⟩ := htorn
  have hchars : '\n' ∈ cs.take m ++ [replacement] := by
    rcases hcut with hcut | hcut
    · exact List.mem_append_left _ (hcut ▸ hmem)
    · exact hcut ▸ hmem
  rcases List.mem_append.mp hchars with hmem | hmem
  · exact h (List.mem_of_mem_take hmem)
  · exact absurd (List.mem_singleton.mp hmem) (by decide)

/-- How a kind of entry is written on a line and read from one. A line is read back, and no
part of one is taken for an entry. -/
structure LineFormat (α : Type) where
  Entry : α → Prop
  line : α → List Char
  read : List Char → Option α
  read_line : ∀ a, Entry a → read (line a) = some a
  newline_notMem : ∀ a, '\n' ∉ line a
  read_torn : ∀ a xs, TornText (line a) xs → read xs = none
  read_nil : read [] = none

namespace LineFormat

variable {α : Type} (f : LineFormat α)

/-- The text of some entries, each line with its break. -/
def text (entries : List α) : List Char := entries.flatMap fun a => f.line a ++ ['\n']

/-- The entries of a file, whatever lines are no entry. -/
def entries (bytes : List UInt8) : List α := (textLines bytes).filterMap f.read

theorem text_cons (a : α) (l : List α) :
    encodeText (f.text (a :: l)) = encodeText (f.line a) ++ 10 :: encodeText (f.text l) := by
  rw [text, List.flatMap_cons, encodeText_append, encodeText_append, List.append_assoc]
  rfl

theorem entries_newline (bytes rest : List UInt8) :
    f.entries (bytes ++ 10 :: rest) = f.entries bytes ++ f.entries rest := by
  rw [entries, textLines_newline, List.filterMap_append]
  rfl

theorem entries_nil : f.entries [] = [] := by
  show [[]].filterMap f.read = []
  rw [List.filterMap_cons, f.read_nil]
  rfl

theorem entries_take {l : List α} (hl : ∀ a ∈ l, f.Entry a) (k : Nat) :
    ∃ j, f.entries ((encodeText (f.text l)).take k) = l.take j ∧
      ((encodeText (f.text l)).length ≤ k → l.length ≤ j) := by
  induction l generalizing k with
  | nil =>
      refine ⟨0, ?_, fun _ => Nat.le_refl _⟩
      have hnil : encodeText (f.text []) = [] := rfl
      rw [hnil, List.take_nil, f.entries_nil, List.take_zero]
  | cons a l ih =>
      have hline := f.read_line a (hl a (List.mem_cons_self ..))
      rw [text_cons, List.take_append]
      rcases Nat.lt_trichotomy k (encodeText (f.line a)).length with hlt | heq | hgt
      · -- the cut is in the first line
        obtain ⟨line, hlines, htorn⟩ := textLines_take hlt (f.newline_notMem a)
        refine ⟨0, ?_, fun hk => absurd hk (by rw [List.length_append]; omega)⟩
        rw [Nat.sub_eq_zero_of_le (Nat.le_of_lt hlt), List.take_zero, List.append_nil, entries,
          hlines, List.filterMap_cons, f.read_torn a line htorn]
        rfl
      · refine ⟨1, ?_, fun hk => absurd hk (by rw [List.length_append, List.length_cons]; omega)⟩
        rw [heq, Nat.sub_self, List.take_zero, List.append_nil, List.take_length, entries,
          textLines_encode (f.newline_notMem a), List.filterMap_cons, hline]
        rfl
      · obtain ⟨j, hj, hall⟩ := ih (fun b hb => hl b (List.mem_cons_of_mem _ hb))
          (k - (encodeText (f.line a)).length - 1)
        refine ⟨j + 1, ?_, fun hk => Nat.succ_le_succ (hall ?_)⟩
        · rw [List.take_of_length_le (Nat.le_of_lt hgt),
            show k - (encodeText (f.line a)).length =
              (k - (encodeText (f.line a)).length - 1) + 1 by omega,
            List.take_succ_cons, entries_newline, hj, entries,
            textLines_encode (f.newline_notMem a), List.filterMap_cons, hline]
          rfl
        · rw [List.length_append, List.length_cons] at hk
          omega

/-- The lines of a file that was appended to. -/
structure Appended (bytes bytes' : List UInt8) (l : List α) (j : Nat) : Prop where
  head : (textLines bytes').head? = (textLines bytes).head?
  entries : f.entries bytes' = f.entries bytes ++ l.take j

theorem textLines_head? (bytes rest : List UInt8) :
    (textLines (bytes ++ 10 :: rest)).head? = (textLines bytes).head? := by
  rw [textLines_newline, List.head?_append]
  obtain ⟨line, lines, hlines⟩ := List.exists_cons_of_ne_nil
    (List.splitOn_ne_nil '\n' (decodeUtf8From none bytes))
  rw [textLines, hlines]
  rfl

theorem appended_whole {bytes : List UInt8} (hend : bytes.getLast? = some 10) {l : List α}
    (hl : ∀ a ∈ l, f.Entry a) (k : Nat) :
    ∃ j, f.Appended bytes (bytes ++ (encodeText (f.text l)).take k) l j ∧
      ((encodeText (f.text l)).length ≤ k → l.length ≤ j) := by
  obtain ⟨above, rfl⟩ := List.getLast?_eq_some_iff.mp hend
  obtain ⟨j, hj, hall⟩ := f.entries_take hl k
  refine ⟨j, ⟨?_, ?_⟩, hall⟩
  · rw [List.append_assoc, List.singleton_append, textLines_head?, textLines_head?]
  · rw [List.append_assoc, List.singleton_append, entries_newline, entries_newline, hj,
      entries_nil, List.append_nil]

theorem appended_break (bytes : List UInt8) {l : List α} (hl : ∀ a ∈ l, f.Entry a) (k : Nat) :
    ∃ j, f.Appended bytes (bytes ++ (10 :: encodeText (f.text l)).take k) l j ∧
      ((encodeText (f.text l)).length < k → l.length ≤ j) := by
  cases k with
  | zero => exact ⟨0, ⟨by rw [List.take_zero, List.append_nil],
      by rw [List.take_zero, List.append_nil, List.take_zero, List.append_nil]⟩,
      fun h => absurd h (Nat.not_lt_zero _)⟩
  | succ k =>
      obtain ⟨j, hj, hall⟩ := f.entries_take hl k
      refine ⟨j, ⟨?_, ?_⟩, fun h => hall (Nat.le_of_lt_succ h)⟩
      · rw [List.take_succ_cons, textLines_head?]
      · rw [List.take_succ_cons, entries_newline, hj]

end LineFormat

end OmniRush
