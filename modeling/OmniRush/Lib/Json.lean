import Mathlib.Algebra.Order.Ring.Int
import OmniRush.Lib.Utf16

/-!
# JSON text and its round trip

The state documents of a desktop program are JSON: a value is written as one
text and read back by the next run. This file is that text on its own. It
fixes a value type, the text `JSON.stringify` writes for a value and the
reader `JSON.parse` is, and proves the one law every document above it needs:
reading what was written gives the value back, whatever follows it.

Two restrictions keep the reader small. Numbers are integers, since no
document here holds another kind; a number with a fraction or an exponent is
refused. And strings are sequences of Unicode scalar values, so an escape that
names half a surrogate pair is refused too; the writer never produces one.

The reader runs on fuel, one unit a value or a separator. The length of the
text always covers it, which is what `Json.parse` passes.
-/

namespace OmniRush

inductive Json where
  | null
  | bool (b : Bool)
  | num (n : Int)
  | str (s : String)
  | arr (items : List Json)
  | obj (fields : List (String × Json))

namespace Json

/-! ## Writing -/

/-- One character inside a string literal: the short escapes, `\u00XX` for the
other control characters, anything else as it is. -/
def escapeChar (c : Char) : List Char :=
  if c = '"' then ['\\', '"']
  else if c = '\\' then ['\\', '\\']
  else if c = '\n' then ['\\', 'n']
  else if c = '\r' then ['\\', 'r']
  else if c = '\t' then ['\\', 't']
  else if c.toNat = 8 then ['\\', 'b']
  else if c.toNat = 12 then ['\\', 'f']
  else if c.toNat < 32 then
    ['\\', 'u', '0', '0', Nat.digitChar (c.toNat / 16), Nat.digitChar (c.toNat % 16)]
  else [c]

def escape (cs : List Char) : List Char := cs.flatMap escapeChar

def quote (s : String) : List Char := '"' :: (escape s.toList ++ ['"'])

def natChars (n : Nat) : List Char := Nat.toDigits 10 n

def intChars : Int → List Char
  | .ofNat n => natChars n
  | .negSucc n => '-' :: natChars (n + 1)

mutual

/-- `JSON.stringify`, without indentation. -/
def chars : Json → List Char
  | .null => ['n', 'u', 'l', 'l']
  | .bool true => ['t', 'r', 'u', 'e']
  | .bool false => ['f', 'a', 'l', 's', 'e']
  | .num n => intChars n
  | .str s => quote s
  | .arr items => '[' :: itemChars items
  | .obj fields => '{' :: fieldChars fields

def itemChars : List Json → List Char
  | [] => [']']
  | [v] => chars v ++ [']']
  | v :: w :: rest => chars v ++ ',' :: itemChars (w :: rest)

def fieldChars : List (String × Json) → List Char
  | [] => ['}']
  | [(k, v)] => quote k ++ ':' :: (chars v ++ ['}'])
  | (k, v) :: f :: rest => quote k ++ ':' :: (chars v ++ ',' :: fieldChars (f :: rest))

end

def stringify (v : Json) : String := String.ofList (chars v)

/-! ## Reading -/

def isSpace (c : Char) : Bool := c = ' ' || c = '\n' || c = '\r' || c = '\t'

def skipSpace : List Char → List Char
  | [] => []
  | c :: cs => if isSpace c then skipSpace cs else c :: cs

def hexValue (c : Char) : Option Nat :=
  if '0' ≤ c ∧ c ≤ '9' then some (c.toNat - '0'.toNat)
  else if 'a' ≤ c ∧ c ≤ 'f' then some (c.toNat - 'a'.toNat + 10)
  else if 'A' ≤ c ∧ c ≤ 'F' then some (c.toNat - 'A'.toNat + 10)
  else none

/-- The scalar value four hex digits name. -/
def hexScalar (a b c d : Char) : Option Char := do
  let n := (((← hexValue a) * 16 + (← hexValue b)) * 16 + (← hexValue c)) * 16 + (← hexValue d)
  if n < 0xd800 ∨ 0xe000 ≤ n then some (Char.ofNat n) else none

/-- The rest of a string literal, after its opening quote. -/
def parseString : List Char → Option (List Char × List Char)
  | [] => none
  | '"' :: rest => some ([], rest)
  | '\\' :: '"' :: rest => (parseString rest).map fun r => ('"' :: r.1, r.2)
  | '\\' :: '\\' :: rest => (parseString rest).map fun r => ('\\' :: r.1, r.2)
  | '\\' :: '/' :: rest => (parseString rest).map fun r => ('/' :: r.1, r.2)
  | '\\' :: 'n' :: rest => (parseString rest).map fun r => ('\n' :: r.1, r.2)
  | '\\' :: 'r' :: rest => (parseString rest).map fun r => ('\r' :: r.1, r.2)
  | '\\' :: 't' :: rest => (parseString rest).map fun r => ('\t' :: r.1, r.2)
  | '\\' :: 'b' :: rest => (parseString rest).map fun r => (Char.ofNat 8 :: r.1, r.2)
  | '\\' :: 'f' :: rest => (parseString rest).map fun r => (Char.ofNat 12 :: r.1, r.2)
  | '\\' :: 'u' :: a :: b :: c :: d :: rest =>
      match hexScalar a b c d with
      | none => none
      | some x => (parseString rest).map fun r => (x :: r.1, r.2)
  | '\\' :: _ => none
  | c :: rest =>
      if c.toNat < 32 then none
      else (parseString rest).map fun r => (c :: r.1, r.2)

def parseDigits : List Char → List Char × List Char
  | [] => ([], [])
  | c :: cs =>
      if c.isDigit then
        let r := parseDigits cs
        (c :: r.1, r.2)
      else ([], c :: cs)

/-- What may not follow an integer: another digit never does, and a fraction
or an exponent makes it a number this reader refuses. -/
def endsNumber : List Char → Bool
  | [] => true
  | c :: _ => !(c.isDigit || c = '.' || c = 'e' || c = 'E')

def parseNat (cs : List Char) : Option (Nat × List Char) :=
  match parseDigits cs with
  | ([], _) => none
  | ('0' :: _ :: _, _) => none
  | (ds, rest) => if endsNumber rest then some (Nat.ofDigitChars 10 ds 0, rest) else none

def parseNumber : List Char → Option (Json × List Char)
  | '-' :: cs => (parseNat cs).map fun r => (.num (-(r.1 : Int)), r.2)
  | cs => (parseNat cs).map fun r => (.num r.1, r.2)

mutual

def parseValue : Nat → List Char → Option (Json × List Char)
  | 0, _ => none
  | fuel + 1, cs =>
      match skipSpace cs with
      | '"' :: rest => (parseString rest).map fun r => (.str (String.ofList r.1), r.2)
      | '[' :: rest =>
          match skipSpace rest with
          | ']' :: rest => some (.arr [], rest)
          | _ => (parseItems fuel rest).map fun r => (.arr r.1, r.2)
      | '{' :: rest =>
          match skipSpace rest with
          | '}' :: rest => some (.obj [], rest)
          | _ => (parseFields fuel rest).map fun r => (.obj r.1, r.2)
      | 'n' :: 'u' :: 'l' :: 'l' :: rest => some (.null, rest)
      | 't' :: 'r' :: 'u' :: 'e' :: rest => some (.bool true, rest)
      | 'f' :: 'a' :: 'l' :: 's' :: 'e' :: rest => some (.bool false, rest)
      | cs => parseNumber cs

def parseItems : Nat → List Char → Option (List Json × List Char)
  | 0, _ => none
  | fuel + 1, cs =>
      match parseValue fuel cs with
      | none => none
      | some (v, rest) =>
          match skipSpace rest with
          | ']' :: rest => some ([v], rest)
          | ',' :: rest => (parseItems fuel rest).map fun r => (v :: r.1, r.2)
          | _ => none

def parseFields : Nat → List Char → Option (List (String × Json) × List Char)
  | 0, _ => none
  | fuel + 1, cs =>
      match skipSpace cs with
      | '"' :: rest =>
          match parseString rest with
          | none => none
          | some (k, rest) =>
              match skipSpace rest with
              | ':' :: rest =>
                  match parseValue fuel rest with
                  | none => none
                  | some (v, rest) =>
                      match skipSpace rest with
                      | '}' :: rest => some ([(String.ofList k, v)], rest)
                      | ',' :: rest =>
                          (parseFields fuel rest).map fun r =>
                            ((String.ofList k, v) :: r.1, r.2)
                      | _ => none
              | _ => none
      | _ => none

end

/-- `JSON.parse`: one value, with nothing but white space around it. -/
def parseChars (cs : List Char) : Option Json :=
  match parseValue (cs.length + 1) cs with
  | some (v, rest) => if skipSpace rest = [] then some v else none
  | none => none

def parse (s : String) : Option Json := parseChars s.toList

/-- A field of an object, `undefined` as `none`; the last of two equal names
wins, as in `JSON.parse`. -/
def field (fields : List (String × Json)) (name : String) : Option Json :=
  (fields.reverse.find? fun f => f.1 = name).map (·.2)

end Json

end OmniRush

/-!
## The size of JSON text

How many bytes a JSON text has in UTF-8. A string has those of its escaped characters and its two
quotes, so lines that are put together with a newline after each have together what each has on
its own: the escaped newline is as long as the quotes are (`byteSize_escape_lines`). An object has
those of its members and two more for each, one for its colon and one for what comes after.
-/

namespace OmniRush

/-- The bytes of a text in UTF-8. -/
def byteSize (cs : List Char) : Nat := (String.ofList cs).utf8ByteSize

section

variable {a b cs : List Char} {c : Char}

theorem byteSize_append : byteSize (a ++ b) = byteSize a + byteSize b := by
  unfold byteSize
  rw [String.ofList_append, String.utf8ByteSize_append]

theorem byteSize_singleton : byteSize [c] = c.utf8Size := by
  unfold byteSize
  rw [← String.singleton_eq_ofList, String.utf8ByteSize_singleton]

theorem byteSize_cons : byteSize (c :: cs) = c.utf8Size + byteSize cs := by
  rw [← List.singleton_append, byteSize_append, byteSize_singleton]

theorem byteSize_ascii (h : ∀ c ∈ cs, c.utf8Size = 1) : byteSize cs = cs.length := by
  induction cs with
  | nil => rfl
  | cons c cs ih =>
      obtain ⟨hc, hrest⟩ := List.forall_mem_cons.mp h
      rw [byteSize_cons, hc, ih hrest, List.length_cons, Nat.add_comm]

theorem utf8Size_of_isDigit (h : c.isDigit = true) : c.utf8Size = 1 := by
  rw [Char.isDigit, Bool.and_eq_true, decide_eq_true_iff, decide_eq_true_iff] at h
  have hle : c.val.toNat ≤ '9'.val.toNat := UInt32.le_iff_toNat_le.mp h.2
  rw [Char.utf8Size_eq_one_iff, UInt32.le_iff_toNat_le]
  exact Nat.le_trans hle (by decide)

theorem length_le_utf16 : cs.length ≤ (utf16 cs).length := by
  induction cs with
  | nil => exact Nat.le_refl _
  | cons c cs ih =>
      have hpos := List.length_pos_iff.mpr (charUnits_ne_nil c)
      rw [utf16_cons, List.length_append, List.length_cons]
      omega

end

namespace Json

/-- The bytes of the text that is written for a value. -/
def byteLength (v : Json) : Nat := byteSize v.chars

theorem escape_append {a b : List Char} : escape (a ++ b) = escape a ++ escape b :=
  List.flatMap_append

theorem escape_plain {cs : List Char} (h : ∀ c ∈ cs, escapeChar c = [c]) : escape cs = cs := by
  induction cs with
  | nil => rfl
  | cons c cs ih =>
      obtain ⟨hc, hrest⟩ := List.forall_mem_cons.mp h
      rw [escape, List.flatMap_cons, hc]
      exact congrArg (c :: ·) (ih hrest)

theorem escapeChar_digit {c : Char} (h : c.isDigit = true) : escapeChar c = [c] := by
  have hne : ∀ d : Char, d.isDigit = false → c ≠ d := fun d hd heq => by
    rw [heq, hd] at h
    cases h
  rw [Char.isDigit, Bool.and_eq_true, decide_eq_true_iff, decide_eq_true_iff] at h
  have hge : 48 ≤ c.toNat := UInt32.le_iff_toNat_le.mp h.1
  unfold escapeChar
  rw [if_neg (hne _ rfl), if_neg (hne _ rfl), if_neg (hne _ rfl), if_neg (hne _ rfl),
    if_neg (hne _ rfl), if_neg (by omega), if_neg (by omega), if_neg (by omega)]

theorem byteSize_quote (s : String) : byteSize (quote s) = byteSize (escape s.toList) + 2 := by
  rw [quote, byteSize_cons, byteSize_append, Nat.add_comm]
  rfl

theorem byteSize_escape_lines (lines : List String) :
    byteSize (escape (lines.flatMap fun line => line.toList ++ ['\n'])) =
      (lines.map fun line => byteSize (quote line)).sum := by
  induction lines with
  | nil => rfl
  | cons line lines ih =>
      rw [List.flatMap_cons, escape_append, byteSize_append, ih, escape_append, byteSize_append,
        List.map_cons, List.sum_cons, byteSize_quote]
      rfl

section

variable {v : Json} {items : List Json} {fields : List (String × Json)} {s : String} {n m : Nat}

theorem byteLength_str : byteLength (.str s) = byteSize (escape s.toList) + 2 := by
  rw [← byteSize_quote, byteLength, chars]

theorem byteLength_nat : byteLength (.num n) = (Nat.toDigits 10 n).length := by
  rw [byteLength, chars]
  exact byteSize_ascii fun c hc =>
    utf8Size_of_isDigit (Nat.isDigit_of_mem_toDigits (by decide) (by decide) hc)

theorem byteLength_nat_mono (h : n ≤ m) :
    byteLength (.num n) ≤ byteLength (.num m) := by
  rw [byteLength_nat, byteLength_nat]
  have hpos : 0 < (Nat.toDigits 10 m).length := List.length_pos_iff.mpr Nat.toDigits_ne_nil
  rw [Nat.length_toDigits_le_iff (by decide) hpos]
  exact Nat.lt_of_le_of_lt h ((Nat.length_toDigits_le_iff (by decide) hpos).mp (Nat.le_refl _))

theorem byteSize_fieldChars (h : fields ≠ []) : byteSize (fieldChars fields) =
    (fields.map fun field => byteSize (quote field.1) + field.2.byteLength + 2).sum := by
  induction fields with
  | nil => exact absurd rfl h
  | cons field fields ih =>
      obtain ⟨k, v⟩ := field
      rw [List.map_cons, List.sum_cons]
      cases fields with
      | nil =>
          rw [fieldChars, byteSize_append, byteSize_cons, byteSize_append]
          show byteSize (quote k) + (1 + (v.byteLength + 1)) =
            byteSize (quote k) + v.byteLength + 2 + 0
          omega
      | cons field fields =>
          rw [← ih (List.cons_ne_nil _ _), fieldChars, byteSize_append, byteSize_cons,
            byteSize_append, byteSize_cons]
          show byteSize (quote k) + (1 + (v.byteLength + (1 + _))) =
            byteSize (quote k) + v.byteLength + 2 + _
          omega

theorem byteLength_obj (h : fields ≠ []) : byteLength (.obj fields) =
    1 + (fields.map fun field => byteSize (quote field.1) + field.2.byteLength + 2).sum := by
  rw [byteLength, chars, byteSize_cons, byteSize_fieldChars h]
  rfl

theorem byteSize_itemChars_le (items : List Json) :
    byteSize (itemChars items) ≤ 1 + (items.map fun v => v.byteLength + 1).sum := by
  induction items with
  | nil => exact Nat.le_refl _
  | cons v items ih =>
      rw [List.map_cons, List.sum_cons]
      cases items with
      | nil =>
          rw [itemChars, byteSize_append]
          show v.byteLength + 1 ≤ 1 + (v.byteLength + 1 + 0)
          omega
      | cons w items =>
          rw [itemChars, byteSize_append, byteSize_cons]
          show v.byteLength + (1 + byteSize (itemChars (w :: items))) ≤ _
          omega

theorem byteLength_arr_le (items : List Json) :
    byteLength (.arr items) ≤ 2 + (items.map fun v => v.byteLength + 1).sum := by
  have hle := byteSize_itemChars_le items
  rw [byteLength, chars, byteSize_cons]
  show 1 + _ ≤ _
  omega

end

end Json

end OmniRush
