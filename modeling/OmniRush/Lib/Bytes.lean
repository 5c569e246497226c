import Mathlib.Algebra.Group.Nat.Defs
import Mathlib.Data.List.Induction

/-!
# Numbers and texts as bytes

The three encodings a binary header needs: a number as big-endian bytes, bytes as
lowercase hex, bytes as base64. Each comes with the law that reading gives back
what was written, and with the shape of what is written, since readers check the
shape before they decode.

Base64 goes by groups of three bytes. The sextets of a group do not depend on the
padding, so writing is split into `sextets` and the padding, and reading inverts
the sextets alone.
-/

namespace OmniRush

abbrev Bytes := List UInt8

/-! ## Big-endian numbers -/

/-- The `width` lowest bytes of a number, the highest first. -/
def beBytes : Nat → Nat → Bytes
  | 0, _ => []
  | width + 1, n => beBytes width (n / 256) ++ [UInt8.ofNat (n % 256)]

def beNat (bytes : Bytes) : Nat := bytes.foldl (fun acc b => acc * 256 + b.toNat) 0

@[simp] theorem beBytes_length (width n : Nat) : (beBytes width n).length = width := by
  induction width generalizing n with
  | zero => rfl
  | succ width ih => rw [beBytes, List.length_append, ih]; rfl

theorem beNat_beBytes {width n : Nat} (h : n < 256 ^ width) : beNat (beBytes width n) = n := by
  induction width generalizing n with
  | zero =>
      rw [Nat.pow_zero] at h
      have hn : n = 0 := by omega
      rw [hn]
      rfl
  | succ width ih =>
      rw [Nat.pow_succ] at h
      have hdiv : n / 256 < 256 ^ width := Nat.div_lt_of_lt_mul (by rwa [Nat.mul_comm] at h)
      have hrest := ih hdiv
      unfold beNat at hrest ⊢
      rw [beBytes, List.foldl_append, hrest]
      have hbyte : (UInt8.ofNat (n % 256)).toNat = n % 256 :=
        UInt8.toNat_ofNat_of_lt' (Nat.mod_lt _ (by decide))
      rw [List.foldl_cons, List.foldl_nil, hbyte]
      omega

theorem beBytes_beNat (bytes : Bytes) : beBytes bytes.length (beNat bytes) = bytes := by
  induction bytes using List.reverseRecOn with
  | nil => rfl
  | append_singleton bytes b ih =>
      have hlt : b.toNat < 256 := b.toNat_lt
      have hnat : beNat (bytes ++ [b]) = beNat bytes * 256 + b.toNat := by
        unfold beNat
        rw [List.foldl_append]
        rfl
      have hdiv : (beNat bytes * 256 + b.toNat) / 256 = beNat bytes := by omega
      have hmod : (beNat bytes * 256 + b.toNat) % 256 = b.toNat := by omega
      rw [hnat, List.length_append, List.length_singleton, beBytes, hdiv, hmod, ih,
        UInt8.ofNat_toNat]

theorem beBytes_inj {width m n : Nat} (hm : m < 256 ^ width) (hn : n < 256 ^ width)
    (h : beBytes width m = beBytes width n) : m = n := by
  rw [← beNat_beBytes hm, h, beNat_beBytes hn]

/-! ## Hex -/

def hexByte (b : UInt8) : List Char :=
  [Nat.digitChar (b.toNat / 16), Nat.digitChar (b.toNat % 16)]

def toHex (bytes : Bytes) : List Char := bytes.flatMap hexByte

def isLowerHex (c : Char) : Bool := ('0' ≤ c && c ≤ '9') || ('a' ≤ c && c ≤ 'f')

theorem toHex_length (bytes : Bytes) : (toHex bytes).length = 2 * bytes.length := by
  induction bytes with
  | nil => rfl
  | cons b bytes ih =>
      have hcons : toHex (b :: bytes) = hexByte b ++ toHex bytes := List.flatMap_cons
      have hbyte : (hexByte b).length = 2 := rfl
      rw [hcons, List.length_append, ih, hbyte, List.length_cons]
      omega

theorem isLowerHex_digitChar : ∀ d, d < 16 → isLowerHex (Nat.digitChar d) = true := by decide

theorem isLowerHex_of_mem_toHex {bytes : Bytes} {c : Char} (h : c ∈ toHex bytes) :
    isLowerHex c = true := by
  obtain ⟨b, -, hc⟩ := List.mem_flatMap.mp h
  have hlt := b.toNat_lt
  rcases List.mem_cons.mp hc with hc | hc
  · rw [hc]
    exact isLowerHex_digitChar _ (by omega)
  · rw [List.mem_singleton.mp hc]
    exact isLowerHex_digitChar _ (by omega)

/-! ## Base64 -/

def b64Char (n : Nat) : Char :=
  if n < 26 then Char.ofNat ('A'.toNat + n)
  else if n < 52 then Char.ofNat ('a'.toNat + (n - 26))
  else if n < 62 then Char.ofNat ('0'.toNat + (n - 52))
  else if n = 62 then '+'
  else '/'

def b64Value (c : Char) : Option Nat :=
  if 'A' ≤ c ∧ c ≤ 'Z' then some (c.toNat - 'A'.toNat)
  else if 'a' ≤ c ∧ c ≤ 'z' then some (c.toNat - 'a'.toNat + 26)
  else if '0' ≤ c ∧ c ≤ '9' then some (c.toNat - '0'.toNat + 52)
  else if c = '+' then some 62
  else if c = '/' then some 63
  else none

theorem b64Value_b64Char : ∀ n, n < 64 → b64Value (b64Char n) = some n := by decide

def sextets : Bytes → List Nat
  | [] => []
  | [a] => [a.toNat / 4, a.toNat % 4 * 16]
  | [a, b] => [a.toNat / 4, a.toNat % 4 * 16 + b.toNat / 16, b.toNat % 16 * 4]
  | a :: b :: c :: rest =>
      a.toNat / 4 :: (a.toNat % 4 * 16 + b.toNat / 16) :: (b.toNat % 16 * 4 + c.toNat / 64)
        :: c.toNat % 64 :: sextets rest

/-- The bytes of a sextet list; the bits left over at the end are dropped. -/
def ofSextets : List Nat → Bytes
  | w :: x :: y :: z :: rest =>
      UInt8.ofNat (w * 4 + x / 16) :: UInt8.ofNat (x % 16 * 16 + y / 4)
        :: UInt8.ofNat (y % 4 * 64 + z) :: ofSextets rest
  | [w, x, y] => [UInt8.ofNat (w * 4 + x / 16), UInt8.ofNat (x % 16 * 16 + y / 4)]
  | [w, x] => [UInt8.ofNat (w * 4 + x / 16)]
  | _ => []

def toBase64 (bytes : Bytes) : List Char :=
  (sextets bytes).map b64Char ++ List.replicate ((3 - bytes.length % 3) % 3) '='

/-- What stands before the padding, read. -/
def ofBase64 (cs : List Char) : Bytes := ofSextets (cs.filterMap b64Value)

theorem sextets_lt {bytes : Bytes} {n : Nat} (h : n ∈ sextets bytes) : n < 64 := by
  induction bytes using sextets.induct with
  | case1 => cases h
  | case2 a =>
      have ha := a.toNat_lt
      simp only [sextets, List.mem_cons, List.not_mem_nil, or_false] at h
      omega
  | case3 a b =>
      have ha := a.toNat_lt
      have hb := b.toNat_lt
      simp only [sextets, List.mem_cons, List.not_mem_nil, or_false] at h
      omega
  | case4 a b c rest ih =>
      have ha := a.toNat_lt
      have hb := b.toNat_lt
      have hc := c.toNat_lt
      simp only [sextets, List.mem_cons] at h
      rcases h with h | h | h | h | h
      · omega
      · omega
      · omega
      · omega
      · exact ih h

theorem sextets_length (bytes : Bytes) : (sextets bytes).length = (4 * bytes.length + 2) / 3 := by
  induction bytes using sextets.induct with
  | case1 => rfl
  | case2 a => simp [sextets]
  | case3 a b => simp [sextets]
  | case4 a b c rest ih =>
      simp only [sextets, List.length_cons, ih]
      omega

theorem ofNat_eq_of_toNat {n : Nat} {b : UInt8} (h : n = b.toNat) : UInt8.ofNat n = b := by
  rw [h]
  exact UInt8.ofNat_toNat

theorem ofSextets_sextets (bytes : Bytes) : ofSextets (sextets bytes) = bytes := by
  induction bytes using sextets.induct with
  | case1 => rfl
  | case2 a =>
      have ha := a.toNat_lt
      simp only [sextets, ofSextets, List.cons.injEq, and_true]
      exact ofNat_eq_of_toNat (by omega)
  | case3 a b =>
      have ha := a.toNat_lt
      have hb := b.toNat_lt
      simp only [sextets, ofSextets, List.cons.injEq, and_true]
      exact ⟨ofNat_eq_of_toNat (by omega), ofNat_eq_of_toNat (by omega)⟩
  | case4 a b c rest ih =>
      have ha := a.toNat_lt
      have hb := b.toNat_lt
      have hc := c.toNat_lt
      simp only [sextets, ofSextets, List.cons.injEq, ih, and_true]
      exact ⟨ofNat_eq_of_toNat (by omega), ofNat_eq_of_toNat (by omega),
        ofNat_eq_of_toNat (by omega)⟩

theorem filterMap_b64Value {ns : List Nat} (h : ∀ n ∈ ns, n < 64) :
    (ns.map b64Char).filterMap b64Value = ns := by
  induction ns with
  | nil => rfl
  | cons n ns ih =>
      rw [List.map_cons, List.filterMap_cons, b64Value_b64Char n (h n (by simp)),
        ih fun m hm => h m (List.mem_cons_of_mem _ hm)]

theorem filterMap_padding (n : Nat) : (List.replicate n '=').filterMap b64Value = [] := by
  induction n with
  | zero => rfl
  | succ n ih =>
      rw [List.replicate_succ, List.filterMap_cons]
      exact ih

theorem ofBase64_toBase64 (bytes : Bytes) : ofBase64 (toBase64 bytes) = bytes := by
  rw [ofBase64, toBase64, List.filterMap_append, filterMap_padding, List.append_nil,
    filterMap_b64Value fun n hn => sextets_lt hn, ofSextets_sextets]

theorem toBase64_of_length {bytes : Bytes} (h : bytes.length = 32) :
    ∃ body : List Char, toBase64 bytes = body ++ ['='] ∧ body.length = 43 ∧
      ∀ c ∈ body, (b64Value c).isSome := by
  refine ⟨(sextets bytes).map b64Char, ?_, ?_, fun c hc => ?_⟩
  · rw [toBase64, h]
    rfl
  · rw [List.length_map, sextets_length, h]
  · obtain ⟨n, hn, rfl⟩ := List.mem_map.mp hc
    rw [b64Value_b64Char n (sextets_lt hn)]
    rfl

end OmniRush
