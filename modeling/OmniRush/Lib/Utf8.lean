/-!
# UTF-8 text

The platform's text encoder and decoder. A string is a sequence of 16-bit units, and a
unit of a surrogate pair that stands alone is written as the replacement character. The
decoder never fails: where the bytes are not UTF-8 it answers the replacement character
and goes on with the first byte that could not belong to the character it was reading.
-/

namespace OmniRush

def replacement : Char := Char.ofNat 0xfffd

def isHighSurrogate (u : Nat) : Bool := 0xd800 ≤ u && u ≤ 0xdbff

def isLowSurrogate (u : Nat) : Bool := 0xdc00 ≤ u && u ≤ 0xdfff

/-- The scalar values of a unit sequence. -/
def scalars : List Nat → List Char
  | [] => []
  | [u] => [if isHighSurrogate u || isLowSurrogate u then replacement else Char.ofNat u]
  | u :: v :: rest =>
      if isHighSurrogate u && isLowSurrogate v then
        Char.ofNat (0x10000 + (u - 0xd800) * 0x400 + (v - 0xdc00)) :: scalars rest
      else if isHighSurrogate u || isLowSurrogate u then replacement :: scalars (v :: rest)
      else Char.ofNat u :: scalars (v :: rest)

def encodeUtf8 (units : List Nat) : List UInt8 := (scalars units).flatMap String.utf8EncodeChar

/-- A character begun: how many bytes it still needs, the range the next of them must
be in, and the bits so far. -/
structure Utf8Pending where
  needed : Nat
  lower : Nat
  upper : Nat
  bits : Nat

/-- What a byte does between two characters. -/
def utf8Lead (b : Nat) : Char ⊕ Utf8Pending :=
  if b ≤ 0x7f then .inl (Char.ofNat b)
  else if 0xc2 ≤ b ∧ b ≤ 0xdf then .inr ⟨1, 0x80, 0xbf, b % 0x20⟩
  else if 0xe0 ≤ b ∧ b ≤ 0xef then
    .inr ⟨2, if b = 0xe0 then 0xa0 else 0x80, if b = 0xed then 0x9f else 0xbf, b % 0x10⟩
  else if 0xf0 ≤ b ∧ b ≤ 0xf4 then
    .inr ⟨3, if b = 0xf0 then 0x90 else 0x80, if b = 0xf4 then 0x8f else 0xbf, b % 0x8⟩
  else .inl replacement

def decodeUtf8From : Option Utf8Pending → List UInt8 → List Char
  | none, [] => []
  | some _, [] => [replacement]
  | none, b :: rest =>
      match utf8Lead b.toNat with
      | .inl c => c :: decodeUtf8From none rest
      | .inr pending => decodeUtf8From (some pending) rest
  | some pending, b :: rest =>
      if pending.lower ≤ b.toNat ∧ b.toNat ≤ pending.upper then
        let bits := pending.bits * 0x40 + b.toNat % 0x40
        if pending.needed = 1 then Char.ofNat bits :: decodeUtf8From none rest
        else decodeUtf8From (some ⟨pending.needed - 1, 0x80, 0xbf, bits⟩) rest
      else
        match utf8Lead b.toNat with
        | .inl c => replacement :: c :: decodeUtf8From none rest
        | .inr pending => replacement :: decodeUtf8From (some pending) rest

/-- The text of some bytes, without a byte order mark in front. -/
def decodeUtf8Text (bytes : List UInt8) : List Char :=
  match decodeUtf8From none bytes with
  | c :: rest => if c = Char.ofNat 0xfeff then rest else c :: rest
  | [] => []

/-! ## Plain text -/

theorem scalars_ascii {units : List Nat} (h : ∀ u ∈ units, u < 0x80) :
    scalars units = units.map Char.ofNat := by
  induction units using scalars.induct with
  | case1 => rfl
  | case2 u =>
      have hu := h u List.mem_cons_self
      have hpair : (isHighSurrogate u || isLowSurrogate u) = false := by
        simp only [isHighSurrogate, isLowSurrogate, Bool.or_eq_false_iff, Bool.and_eq_false_iff,
          decide_eq_false_iff_not]
        omega
      rw [scalars, hpair]
      rfl
  | case3 u v rest hpair _ =>
      have hu := h u List.mem_cons_self
      simp only [isHighSurrogate, Bool.and_eq_true, decide_eq_true_eq] at hpair
      omega
  | case4 u v rest _ hpair _ =>
      have hu := h u List.mem_cons_self
      simp only [isHighSurrogate, isLowSurrogate, Bool.or_eq_true, Bool.and_eq_true,
        decide_eq_true_eq] at hpair
      omega
  | case5 u v rest hboth hone ih =>
      rw [scalars, if_neg hboth, if_neg hone, ih fun w hw => h w (List.mem_cons_of_mem _ hw)]
      rfl

theorem encodeUtf8_ascii_length {units : List Nat} (h : ∀ u ∈ units, u < 0x80) :
    (encodeUtf8 units).length = units.length := by
  have hbyte : ∀ u, u < 0x80 → (String.utf8EncodeChar (Char.ofNat u)).length = 1 := by decide
  rw [encodeUtf8, scalars_ascii h]
  induction units with
  | nil => rfl
  | cons u units ih =>
      have hrest := ih fun w hw => h w (List.mem_cons_of_mem _ hw)
      rw [List.map_cons, List.flatMap_cons, List.length_append, hbyte u (h u List.mem_cons_self),
        hrest, List.length_cons, Nat.add_comm]

/-! ## Any text -/

theorem toNat_byte {n : Nat} (h : n < 256) : (UInt8.ofNat n).toNat = n :=
  UInt8.toNat_ofNat_of_lt' h

theorem char_bounds (c : Char) : c.toNat < 0xd800 ∨ 0xdfff < c.toNat ∧ c.toNat < 0x110000 :=
  c.valid

theorem decodeUtf8From_more {pending : Utf8Pending} {b : Nat} (hb : b < 256)
    (hlow : pending.lower ≤ b) (hhigh : b ≤ pending.upper) (rest : List UInt8) :
    decodeUtf8From (some pending) (UInt8.ofNat b :: rest) =
      if pending.needed = 1 then Char.ofNat (pending.bits * 0x40 + b % 0x40) ::
        decodeUtf8From none rest
      else decodeUtf8From (some ⟨pending.needed - 1, 0x80, 0xbf, pending.bits * 0x40 + b % 0x40⟩)
        rest := by
  rw [decodeUtf8From, toNat_byte hb, if_pos ⟨hlow, hhigh⟩]

theorem decodeUtf8From_char (c : Char) (rest : List UInt8) :
    decodeUtf8From none (String.utf8EncodeChar c ++ rest) = c :: decodeUtf8From none rest := by
  have hvalid := char_bounds c
  have hback : ∀ n, n = c.toNat → Char.ofNat n = c := fun n hn => by rw [hn, Char.ofNat_toNat]
  unfold String.utf8EncodeChar
  have hv : c.val.toNat = c.toNat := rfl
  dsimp only
  rw [hv]
  split
  · next h =>
      rw [List.singleton_append, decodeUtf8From, toNat_byte (by omega), utf8Lead,
        if_pos h, hback _ rfl]
  split
  · next h1 h2 =>
      rw [List.cons_append, decodeUtf8From, toNat_byte (by omega), utf8Lead, if_neg (by omega),
        if_pos (by omega)]
      dsimp only
      rw [List.singleton_append, decodeUtf8From_more (by omega) (by dsimp only; omega)
        (by dsimp only; omega), if_pos rfl, hback _ (by dsimp only; omega)]
  split
  · next h1 h2 h3 =>
      rw [List.cons_append, decodeUtf8From, toNat_byte (by omega), utf8Lead, if_neg (by omega),
        if_neg (by omega), if_pos (by omega)]
      dsimp only
      rw [List.cons_append, decodeUtf8From_more (by omega) (by dsimp only; split <;> omega)
        (by dsimp only; split <;> omega), if_neg (by dsimp only; omega)]
      dsimp only
      rw [List.singleton_append, decodeUtf8From_more (by omega) (by dsimp only; omega)
        (by dsimp only; omega), if_pos rfl, hback _ (by dsimp only; omega)]
  · next h1 h2 h3 =>
      rw [List.cons_append, decodeUtf8From, toNat_byte (by omega), utf8Lead, if_neg (by omega),
        if_neg (by omega), if_neg (by omega), if_pos (by omega)]
      dsimp only
      rw [List.cons_append, decodeUtf8From_more (by omega) (by dsimp only; split <;> omega)
        (by dsimp only; split <;> omega), if_neg (by dsimp only; omega)]
      dsimp only
      rw [List.cons_append, decodeUtf8From_more (by omega) (by dsimp only; omega)
        (by dsimp only; omega), if_neg (by dsimp only; omega)]
      dsimp only
      rw [List.singleton_append, decodeUtf8From_more (by omega) (by dsimp only; omega)
        (by dsimp only; omega), if_pos rfl, hback _ (by dsimp only; omega)]

theorem decodeUtf8From_encode (cs : List Char) :
    decodeUtf8From none (cs.flatMap String.utf8EncodeChar) = cs := by
  induction cs with
  | nil => rfl
  | cons c cs ih => rw [List.flatMap_cons, decodeUtf8From_char, ih]

theorem mem_utf8EncodeChar {c : Char} {b : Nat} (hb : b < 0x80)
    (h : UInt8.ofNat b ∈ String.utf8EncodeChar c) : c = Char.ofNat b := by
  have hvalid := char_bounds c
  have hne : ∀ n, 0x80 ≤ n → n < 256 → UInt8.ofNat b ≠ UInt8.ofNat n := by
    intro n hlow hhigh heq
    have hnat := congrArg UInt8.toNat heq
    rw [toNat_byte (by omega), toNat_byte hhigh] at hnat
    omega
  unfold String.utf8EncodeChar at h
  have hv : c.val.toNat = c.toNat := rfl
  dsimp only at h
  rw [hv] at h
  split at h
  · have hnat := congrArg UInt8.toNat (List.mem_singleton.mp h)
    rw [toNat_byte (by omega), toNat_byte (by omega)] at hnat
    rw [hnat, Char.ofNat_toNat]
  split at h
  · simp only [List.mem_cons, List.not_mem_nil, or_false] at h
    rcases h with h | h <;> exact absurd h (hne _ (by omega) (by omega))
  split at h
  · simp only [List.mem_cons, List.not_mem_nil, or_false] at h
    rcases h with h | h | h <;> exact absurd h (hne _ (by omega) (by omega))
  · simp only [List.mem_cons, List.not_mem_nil, or_false] at h
    rcases h with h | h | h | h <;> exact absurd h (hne _ (by omega) (by omega))

end OmniRush

/-!
## UTF-8 that comes in chunks

A decoder that is told that more will come keeps a character that a chunk ends in, and goes on with
it in the next. It drops a byte order mark once, before the first character. What it answers for
some chunks is, one after the other, what it answers for all their bytes.
-/

namespace OmniRush

/-- The characters of a chunk, and the one that it ends in. -/
def decodeUtf8Chunk : Option Utf8Pending → List UInt8 → List Char × Option Utf8Pending
  | pending, [] => ([], pending)
  | none, b :: rest =>
      match utf8Lead b.toNat with
      | .inl c =>
          let (chars, pending) := decodeUtf8Chunk none rest
          (c :: chars, pending)
      | .inr pending => decodeUtf8Chunk (some pending) rest
  | some pending, b :: rest =>
      if pending.lower ≤ b.toNat ∧ b.toNat ≤ pending.upper then
        let bits := pending.bits * 0x40 + b.toNat % 0x40
        if pending.needed = 1 then
          let (chars, pending) := decodeUtf8Chunk none rest
          (Char.ofNat bits :: chars, pending)
        else decodeUtf8Chunk (some ⟨pending.needed - 1, 0x80, 0xbf, bits⟩) rest
      else
        match utf8Lead b.toNat with
        | .inl c =>
            let (chars, pending) := decodeUtf8Chunk none rest
            (replacement :: c :: chars, pending)
        | .inr pending =>
            let (chars, pending) := decodeUtf8Chunk (some pending) rest
            (replacement :: chars, pending)

theorem decodeUtf8Chunk_append (pending : Option Utf8Pending) (bytes more : List UInt8) :
    decodeUtf8Chunk pending (bytes ++ more) =
      ((decodeUtf8Chunk pending bytes).1 ++
          (decodeUtf8Chunk (decodeUtf8Chunk pending bytes).2 more).1,
        (decodeUtf8Chunk (decodeUtf8Chunk pending bytes).2 more).2) := by
  fun_induction decodeUtf8Chunk pending bytes with
  | case1 pending => rfl
  | case2 b rest c hlead chars pending hrest ih =>
      rw [List.cons_append, decodeUtf8Chunk, hlead]
      simp only [ih, hrest, List.cons_append]
  | case3 b rest next hlead ih =>
      rw [List.cons_append, decodeUtf8Chunk, hlead]
      exact ih
  | case4 pending b rest hin bits hlast chars next hrest ih =>
      rw [List.cons_append, decodeUtf8Chunk, if_pos hin, if_pos hlast]
      simp only [ih, hrest, List.cons_append]
      rfl
  | case5 pending b rest hin bits hmore ih =>
      rw [List.cons_append, decodeUtf8Chunk, if_pos hin, if_neg hmore]
      exact ih
  | case6 pending b rest hout c hlead chars next hrest ih =>
      rw [List.cons_append, decodeUtf8Chunk, if_neg hout, hlead]
      simp only [ih, hrest, List.cons_append]
  | case7 pending b rest hout later hlead chars next hrest ih =>
      rw [List.cons_append, decodeUtf8Chunk, if_neg hout, hlead]
      simp only [ih, hrest, List.cons_append]

/-- A decoder with `stream: true`. -/
structure TextDecoder where
  pending : Option Utf8Pending
  /-- A character was decoded, so a byte order mark is one of the text. -/
  begun : Bool

namespace TextDecoder

def new : TextDecoder := ⟨none, false⟩

/-- A mark before the first character is dropped. -/
def dropMark (begun : Bool) : List Char → List Char × Bool
  | [] => ([], begun)
  | c :: chars => (if !begun && c = Char.ofNat 0xfeff then chars else c :: chars, true)

def decode (decoder : TextDecoder) (chunk : List UInt8) : List Char × TextDecoder :=
  let (chars, pending) := decodeUtf8Chunk decoder.pending chunk
  let (chars, begun) := dropMark decoder.begun chars
  (chars, ⟨pending, begun⟩)

theorem dropMark_append (begun : Bool) (chars more : List Char) :
    dropMark begun (chars ++ more) =
      ((dropMark begun chars).1 ++ (dropMark (dropMark begun chars).2 more).1,
        (dropMark (dropMark begun chars).2 more).2) := by
  have hbegun : ∀ chars, dropMark true chars = (chars, true) := by
    intro chars
    cases chars <;> rfl
  cases chars with
  | nil => rfl
  | cons c chars =>
      have hcons : ∀ chars, dropMark begun (c :: chars) =
          (if !begun && c = Char.ofNat 0xfeff then chars else c :: chars, true) := fun _ => rfl
      rw [List.cons_append, hcons, hcons, hbegun]
      split <;> rfl

/-- **Two chunks are decoded as one.** -/
theorem decode_append (decoder : TextDecoder) (chunk more : List UInt8) :
    decoder.decode (chunk ++ more) =
      ((decoder.decode chunk).1 ++ ((decoder.decode chunk).2.decode more).1,
        ((decoder.decode chunk).2.decode more).2) := by
  simp only [decode, decodeUtf8Chunk_append, dropMark_append]

end TextDecoder

end OmniRush
