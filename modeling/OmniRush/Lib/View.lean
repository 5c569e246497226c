import OmniRush.Lib.Bytes

/-!
# Views over byte arrays

Binary formats keep their numbers little-endian at fixed offsets of a header, and a
view reads and writes them there. A read that does not fit is an error of its own
(`none`), so that code can be shown never to make one.

`StandsAt bytes offset part` says where a part of an array is. What is read inside
the part does not depend on the rest, and a part that is put together of others gives
each of them its place, so a reader's walk over what a writer made is a chain of such
steps.
-/

namespace OmniRush

/-! ## Little-endian numbers -/

/-- The `width` lowest bytes of a number, the lowest first. -/
def leBytes : Nat → Nat → Bytes
  | 0, _ => []
  | width + 1, n => UInt8.ofNat (n % 256) :: leBytes width (n / 256)

def leNat : Bytes → Nat
  | [] => 0
  | b :: bytes => b.toNat + 256 * leNat bytes

@[simp] theorem leBytes_length (width n : Nat) : (leBytes width n).length = width := by
  induction width generalizing n with
  | zero => rfl
  | succ width ih => rw [leBytes, List.length_cons, ih]

theorem leNat_leBytes (width n : Nat) : leNat (leBytes width n) = n % 256 ^ width := by
  induction width generalizing n with
  | zero => rw [Nat.pow_zero, Nat.mod_one]; rfl
  | succ width ih =>
      have hbyte : (UInt8.ofNat (n % 256)).toNat = n % 256 :=
        UInt8.toNat_ofNat_of_lt' (Nat.mod_lt _ (by decide))
      rw [leBytes, leNat, hbyte, ih, Nat.pow_succ', Nat.mod_mul]

theorem leNat_lt (bytes : Bytes) : leNat bytes < 256 ^ bytes.length := by
  induction bytes with
  | nil => decide
  | cons b bytes ih =>
      have hb : b.toNat < 256 := b.toNat_lt
      rw [leNat, List.length_cons, Nat.pow_succ']
      omega

/-! ## Reads and writes -/

/-- The bytes from `start` up to `stop`, as far as there are any. -/
def subarray (bytes : Bytes) (start stop : Nat) : Bytes := (bytes.drop start).take (stop - start)

/-- The number of `width` bytes at `offset`; there is none where it does not fit. -/
def getUint (width : Nat) (bytes : Bytes) (offset : Nat) : Option Nat :=
  if offset + width ≤ bytes.length then some (leNat (subarray bytes offset (offset + width)))
  else none

/-- A number's `width` lowest bytes written at `offset`; what does not fit is not written. -/
def setUint (width : Nat) (bytes : Bytes) (offset value : Nat) : Bytes :=
  if offset + width ≤ bytes.length then
    bytes.take offset ++ leBytes width value ++ bytes.drop (offset + width)
  else bytes

theorem subarray_length {bytes : Bytes} {start stop : Nat} (h : stop ≤ bytes.length) :
    (subarray bytes start stop).length = stop - start := by
  rw [subarray, List.length_take, List.length_drop]
  omega

theorem getUint_of_le {width : Nat} {bytes : Bytes} {offset : Nat}
    (h : offset + width ≤ bytes.length) :
    getUint width bytes offset = some (leNat (subarray bytes offset (offset + width))) :=
  if_pos h

theorem getUint_fits {width : Nat} {bytes : Bytes} {offset n : Nat}
    (h : getUint width bytes offset = some n) : offset + width ≤ bytes.length := by
  unfold getUint at h
  split at h
  · next hle => exact hle
  · cases h

theorem getUint_lt {width : Nat} {bytes : Bytes} {offset n : Nat}
    (h : getUint width bytes offset = some n) : n < 256 ^ width := by
  have hfits := getUint_fits h
  have hlt := leNat_lt (subarray bytes offset (offset + width))
  rw [subarray_length hfits, Nat.add_sub_cancel_left] at hlt
  rw [getUint_of_le hfits] at h
  rwa [← Option.some.inj h]

@[simp] theorem setUint_length (width : Nat) (bytes : Bytes) (offset value : Nat) :
    (setUint width bytes offset value).length = bytes.length := by
  unfold setUint
  split
  · rw [List.length_append, List.length_append, List.length_take, List.length_drop, leBytes_length]
    omega
  · rfl

/-! ## Where a part stands -/

/-- `part` stands in `bytes` at `offset`. -/
def StandsAt (bytes : Bytes) (offset : Nat) (part : Bytes) : Prop :=
  ∃ before after, bytes = before ++ part ++ after ∧ before.length = offset

namespace StandsAt

variable {bytes part a b : Bytes} {offset : Nat}

theorem of_eq (h : bytes = part) : StandsAt bytes 0 part :=
  ⟨[], [], by rw [List.nil_append, List.append_nil, h], rfl⟩

theorem left (h : StandsAt bytes offset (a ++ b)) : StandsAt bytes offset a := by
  obtain ⟨before, after, hbytes, hlen⟩ := h
  refine ⟨before, b ++ after, ?_, hlen⟩
  rw [hbytes]
  simp only [List.append_assoc]

theorem right (h : StandsAt bytes offset (a ++ b)) : StandsAt bytes (offset + a.length) b := by
  obtain ⟨before, after, hbytes, hlen⟩ := h
  refine ⟨before ++ a, after, ?_, ?_⟩
  · rw [hbytes]
    simp only [List.append_assoc]
  · rw [List.length_append, hlen]

theorem le (h : StandsAt bytes offset part) : offset + part.length ≤ bytes.length := by
  obtain ⟨before, after, hbytes, hlen⟩ := h
  rw [hbytes, List.length_append, List.length_append, hlen]
  omega

theorem subarray (h : StandsAt bytes offset part) {start stop : Nat} (hstop : stop ≤ part.length) :
    subarray bytes (offset + start) (offset + stop) = OmniRush.subarray part start stop := by
  obtain ⟨before, after, hbytes, hlen⟩ := h
  have hdrop : bytes.drop (offset + start) = part.drop start ++ after.drop (start - part.length) := by
    rw [hbytes, List.append_assoc, ← List.drop_drop, ← hlen, List.drop_left, List.drop_append]
  have hsub : offset + stop - (offset + start) = stop - start := by omega
  have hfit : stop - start ≤ (part.drop start).length := by
    rw [List.length_drop]
    omega
  rw [OmniRush.subarray, OmniRush.subarray, hdrop, hsub, List.take_append_of_le_length hfit]

theorem subarray_whole (h : StandsAt bytes offset part) :
    OmniRush.subarray bytes offset (offset + part.length) = part := by
  have hcut : OmniRush.subarray bytes (offset + 0) (offset + part.length) = _ :=
    h.subarray (Nat.le_refl part.length)
  rw [Nat.add_zero] at hcut
  rw [hcut, OmniRush.subarray, List.drop_zero, Nat.sub_zero, List.take_length]

theorem getUint (h : StandsAt bytes offset part) {width o : Nat} (ho : o + width ≤ part.length) :
    getUint width bytes (offset + o) = OmniRush.getUint width part o := by
  have hle := h.le
  have hcut : OmniRush.subarray bytes (offset + o) (offset + (o + width)) = _ := h.subarray ho
  rw [getUint_of_le (by omega), getUint_of_le ho, Nat.add_assoc, hcut]

end StandsAt

/-! ## Reading what was written -/

theorem standsAt_setUint {width : Nat} {bytes : Bytes} {offset : Nat} (value : Nat)
    (h : offset + width ≤ bytes.length) :
    StandsAt (setUint width bytes offset value) offset (leBytes width value) :=
  ⟨bytes.take offset, bytes.drop (offset + width), if_pos h, by rw [List.length_take]; omega⟩

theorem getUint_setUint {width : Nat} {bytes : Bytes} {offset : Nat} (value : Nat)
    (h : offset + width ≤ bytes.length) :
    getUint width (setUint width bytes offset value) offset = some (value % 256 ^ width) := by
  have hat := standsAt_setUint value h
  have hread : getUint width _ (offset + 0) = _ := hat.getUint (by rw [leBytes_length]; omega)
  have hwhole := (StandsAt.of_eq (Eq.refl (leBytes width value))).subarray_whole
  rw [leBytes_length] at hwhole
  rw [Nat.add_zero] at hread
  rw [hread, getUint_of_le (by rw [leBytes_length]; omega), hwhole, leNat_leBytes]

theorem getUint_setUint_ne {width width' : Nat} {bytes : Bytes} {offset o : Nat} (value : Nat)
    (h : offset + width ≤ bytes.length) (hne : o + width' ≤ offset ∨ offset + width ≤ o) :
    getUint width' (setUint width bytes offset value) o = getUint width' bytes o := by
  have hlen := setUint_length width bytes offset value
  have hcut : subarray (setUint width bytes offset value) o (o + width')
      = subarray bytes o (o + width') := by
    rw [subarray, subarray, setUint, if_pos h, Nat.add_sub_cancel_left]
    rcases hne with hfront | hbehind
    · rw [List.append_assoc, List.drop_append_of_le_length (by rw [List.length_take]; omega),
        List.take_append_of_le_length (by rw [List.length_drop, List.length_take]; omega),
        List.drop_take, List.take_take, Nat.min_eq_left (by omega)]
    · have hskip : (bytes.take offset ++ leBytes width value).length = offset + width := by
        rw [List.length_append, List.length_take, leBytes_length]
        omega
      obtain ⟨k, rfl⟩ : ∃ k, o = offset + width + k := ⟨o - (offset + width), by omega⟩
      rw [← List.drop_drop, ← hskip, List.drop_left, hskip, List.drop_drop]
  unfold getUint
  rw [hlen, hcut]

end OmniRush
