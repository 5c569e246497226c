import Mathlib.Algebra.Order.Ring.Int
import OmniRush.Lib.Bytes

/-!
# Reading a POSIX pax archive

A ustar archive with extended headers, as a reader takes it: header blocks of 512 bytes
with numbers in octal and a checksum, extended headers whose records (`length key=value`)
replace fields of the header that follows, contents padded to whole blocks, and two blocks
of zeros at the end.

The reader goes by what it was given only: a checksum that does not fit, a length that runs past the
end or an end without its two blocks is no archive.
-/

namespace OmniRush.Pax

open OmniRush

/-! ## Texts and numbers -/

def byteOf (c : Char) : UInt8 := UInt8.ofNat c.toNat

def charOf (b : UInt8) : Char := Char.ofNat b.toNat

/-- A text of characters below 128, one byte each. -/
def ascii (cs : List Char) : Bytes := cs.map byteOf

def isDigit (b : UInt8) : Bool := 48 ≤ b.toNat && b.toNat ≤ 57

def number (base : Nat) (digits : Bytes) : Nat := Nat.ofDigitChars base (digits.map charOf) 0

/-- A number in a field: digits, ended by a NUL or a space. -/
def readOctal (field : Bytes) : Option Nat :=
  match field.dropWhile isDigit with
  | stop :: _ =>
      if field.takeWhile isDigit ≠ [] ∧ (stop = 0 ∨ stop = 32) then
        some (number 8 (field.takeWhile isDigit))
      else none
  | [] => none

/-- A text in a field: up to a NUL, or the whole field. -/
def readText (field : Bytes) : Bytes := field.takeWhile (· ≠ 0)

/-! ## Header blocks -/

def blockSize : Nat := 512

/-- What fills a content of this size up to whole blocks. -/
def padding (size : Nat) : Nat := (blockSize - size % blockSize) % blockSize

/-- Name, mode, uid, gid, size, mtime, checksum, type, link name, magic, version, user,
group, two device numbers, prefix, and what is left of the block. -/
def fieldWidths : List Nat := [100, 8, 8, 8, 12, 12, 8, 1, 100, 6, 2, 32, 32, 8, 8, 155, 12]

def cut : List Nat → Bytes → List Bytes
  | [], _ => []
  | width :: widths, bytes => bytes.take width :: cut widths (bytes.drop width)

def byteSum (bytes : Bytes) : Nat := (bytes.map UInt8.toNat).sum

/-- The sum of a block's bytes, with spaces for the checksum. -/
def checksum (block : Bytes) : Nat :=
  byteSum (block.take 148 ++ List.replicate 8 32 ++ block.drop 156)

structure Header where
  name : Bytes
  mode : Nat
  size : Nat
  typeflag : UInt8
  linkname : Bytes
  deriving DecidableEq, Repr

def magic : Bytes := ascii ['u', 's', 't', 'a', 'r'] ++ [0]

def version : Bytes := ascii ['0', '0']

def withPrefix (start name : Bytes) : Bytes :=
  if start = [] then name else start ++ ascii ['/'] ++ name

def readHeader (block : Bytes) : Option Header :=
  match cut fieldWidths block with
  | [name, mode, _, _, size, _, sum, [typeflag], linkname, magic', version', _, _, _, _, start, _] =>
      if magic' = magic ∧ version' = version ∧ readOctal sum = some (checksum block) then do
        let mode ← readOctal mode
        let size ← readOctal size
        some ⟨withPrefix (readText start) (readText name), mode, size, typeflag, readText linkname⟩
      else none
  | _ => none

/-! ## Extended headers -/

/-- A record: its length in decimal, a space, a key, `=`, a value and a line break. The
length counts the whole record. -/
def readRecord (bytes : Bytes) : Option ((Bytes × Bytes) × Bytes) :=
  let digits := bytes.takeWhile isDigit
  match bytes.dropWhile isDigit with
  | space :: rest =>
      let length := number 10 digits
      let body := rest.take (length - (digits.length + 1))
      if space = 32 ∧ digits ≠ [] ∧ length ≤ bytes.length ∧ body.getLast? = some 10 then
        let key := body.dropLast.takeWhile (· ≠ 61)
        match body.dropLast.dropWhile (· ≠ 61) with
        | _ :: value => some ((key, value), bytes.drop length)
        | [] => none
      else none
  | [] => none

def readRecords : Nat → Bytes → Option (List (Bytes × Bytes))
  | _, [] => some []
  | 0, _ => none
  | fuel + 1, bytes => do
      let (record, rest) ← readRecord bytes
      let records ← readRecords fuel rest
      some (record :: records)

/-- The last record with a key counts. -/
def override (records : List (Bytes × Bytes)) (key : List Char) : Option Bytes :=
  (records.reverse.find? fun r => r.1 = ascii key).map (·.2)

/-! ## Members -/

structure Member where
  path : Bytes
  mode : Nat
  size : Nat
  typeflag : UInt8
  target : Bytes
  content : Bytes
  deriving DecidableEq, Repr

/-- A member from its header, the records before it and its content. -/
def member (records : List (Bytes × Bytes)) (header : Header) (content : Bytes) : Member where
  path := (override records ['p', 'a', 't', 'h']).getD header.name
  mode := header.mode
  size := content.length
  typeflag := header.typeflag
  target := (override records ['l', 'i', 'n', 'k', 'p', 'a', 't', 'h']).getD header.linkname
  content := content

def extended : UInt8 := 120

def readMembers (records : List (Bytes × Bytes)) (bytes : Bytes) : Option (List Member) :=
  if _h : bytes.length < blockSize then none
  else if bytes.take blockSize = List.replicate blockSize 0 then
    if (bytes.drop blockSize).take blockSize = List.replicate blockSize 0 ∧ records = [] then
      some []
    else none
  else do
    let header ← readHeader (bytes.take blockSize)
    if header.typeflag = extended then
      if header.size ≤ (bytes.drop blockSize).length then
        let records ← readRecords header.size ((bytes.drop blockSize).take header.size)
        readMembers records ((bytes.drop blockSize).drop (header.size + padding header.size))
      else none
    else
      let size := (override records ['s', 'i', 'z', 'e']).elim header.size (number 10)
      if size ≤ (bytes.drop blockSize).length then
        let others ← readMembers [] ((bytes.drop blockSize).drop (size + padding size))
        some (member records header ((bytes.drop blockSize).take size) :: others)
      else none
termination_by bytes.length
decreasing_by
  all_goals
    rw [List.length_drop, List.length_drop]
    have hpos : 0 < blockSize := by decide
    omega

/-- The members of an archive, in order. -/
def readArchive (bytes : Bytes) : Option (List Member) := readMembers [] bytes

end OmniRush.Pax

/-!
## What a pax reader gives back

The reader's laws, bottom up: digits in a field, the fields of a header block, a record, a
list of records, and a member's blocks before the rest of an archive.
-/

namespace OmniRush.Pax

open OmniRush

/-! ## Texts and numbers -/

theorem charOf_byteOf {c : Char} (h : c.toNat < 128) : charOf (byteOf c) = c := by
  have hbyte : (UInt8.ofNat c.toNat).toNat = c.toNat := by
    rw [UInt8.toNat_ofNat', Nat.mod_eq_of_lt]
    exact Nat.lt_trans h (by decide)
  rw [charOf, byteOf, hbyte]
  exact Char.ofNat_toNat c

theorem map_charOf_ascii {cs : List Char} (h : ∀ c ∈ cs, c.toNat < 128) :
    (ascii cs).map charOf = cs := by
  unfold ascii
  rw [List.map_map]
  exact (List.map_congr_left fun c hc => charOf_byteOf (h c hc)).trans (List.map_id cs)

theorem ascii_append (cs ds : List Char) : ascii (cs ++ ds) = ascii cs ++ ascii ds :=
  List.map_append

@[simp] theorem length_ascii (cs : List Char) : (ascii cs).length = cs.length := List.length_map _

theorem toNat_lt_of_isDigit {c : Char} (h : c.isDigit = true) : c.toNat < 128 := by
  have h9 : '9'.toNat = 57 := rfl
  rw [Char.isDigit_iff_toNat] at h
  omega

theorem isDigit_byteOf {c : Char} (h : c.isDigit = true) : isDigit (byteOf c) = true := by
  have hlt := toNat_lt_of_isDigit h
  rw [Char.isDigit_iff_toNat] at h
  have hbyte : (UInt8.ofNat c.toNat).toNat = c.toNat := by
    rw [UInt8.toNat_ofNat', Nat.mod_eq_of_lt]
    omega
  unfold isDigit byteOf
  rw [hbyte, Bool.and_eq_true, decide_eq_true_eq, decide_eq_true_eq]
  exact ⟨h.1, h.2⟩

theorem while_digits {ds : List Char} {stop : UInt8} {rest : Bytes}
    (hd : ∀ c ∈ ds, c.isDigit = true) (hstop : isDigit stop = false) :
    (ascii ds ++ stop :: rest).takeWhile isDigit = ascii ds ∧
      (ascii ds ++ stop :: rest).dropWhile isDigit = stop :: rest := by
  have hall : ∀ b ∈ ascii ds, isDigit b = true := by
    intro b hb
    obtain ⟨c, hc, rfl⟩ := List.mem_map.mp hb
    exact isDigit_byteOf (hd c hc)
  have hstop : ¬ isDigit stop = true := Bool.eq_false_iff.mp hstop
  rw [List.takeWhile_append_of_pos hall, List.dropWhile_append_of_pos hall,
    List.takeWhile_cons_of_neg hstop, List.dropWhile_cons_of_neg hstop, List.append_nil]
  exact ⟨rfl, rfl⟩

theorem number_ascii {base : Nat} {ds : List Char} (hd : ∀ c ∈ ds, c.isDigit = true) :
    number base (ascii ds) = Nat.ofDigitChars base ds 0 := by
  rw [number, map_charOf_ascii fun c hc => toNat_lt_of_isDigit (hd c hc)]

theorem readOctal_ascii {ds : List Char} {stop : UInt8} {rest : Bytes} (hne : ds ≠ [])
    (hd : ∀ c ∈ ds, c.isDigit = true) (hstop : stop = 0 ∨ stop = 32) :
    readOctal (ascii ds ++ stop :: rest) = some (Nat.ofDigitChars 8 ds 0) := by
  have hnot : isDigit stop = false := by rcases hstop with rfl | rfl <;> rfl
  obtain ⟨htake, hdrop⟩ := @while_digits ds stop rest hd hnot
  have hascii : ascii ds ≠ [] := fun h => hne (List.map_eq_nil_iff.mp h)
  unfold readOctal
  rw [hdrop, htake, ← number_ascii hd]
  exact if_pos ⟨hascii, hstop⟩

theorem readText_fill {text : Bytes} {n : Nat} (h : (0 : UInt8) ∉ text) :
    readText (text ++ List.replicate n 0) = text := by
  have hall : ∀ b ∈ text, decide (b ≠ 0) = true := fun b hb =>
    decide_eq_true fun h0 => h (h0 ▸ hb)
  unfold readText
  rw [List.takeWhile_append_of_pos hall]
  cases n with
  | zero => exact List.append_nil _
  | succ n => exact List.append_nil _

/-! ## Header blocks -/

theorem cut_flatten : ∀ (fields : List Bytes) (rest : Bytes),
    cut (fields.map List.length) (fields.flatten ++ rest) = fields
  | [], _ => rfl
  | field :: fields, rest => by
      rw [List.map_cons, cut, List.flatten_cons, List.append_assoc, List.take_left,
        List.drop_left, cut_flatten fields rest]

theorem byteSum_append (a b : Bytes) : byteSum (a ++ b) = byteSum a + byteSum b := by
  unfold byteSum
  rw [List.map_append, List.sum_append]

theorem byteSum_le (bytes : Bytes) : byteSum bytes ≤ 255 * bytes.length := by
  induction bytes with
  | nil => exact Nat.le_refl _
  | cons b bytes ih =>
      have hb := b.toNat_lt
      unfold byteSum at ih ⊢
      rw [List.map_cons, List.sum_cons, List.length_cons]
      omega

theorem byteSum_replicate_zero (n : Nat) : byteSum (List.replicate n 0) = 0 := by
  simp [byteSum]

theorem checksum_append {before sum after : Bytes} (hbefore : before.length = 148)
    (hsum : sum.length = 8) :
    checksum (before ++ (sum ++ after)) = byteSum before + 256 + byteSum after := by
  unfold checksum
  rw [List.take_left' hbefore, ← List.append_assoc,
    List.drop_left' (by rw [List.length_append, hbefore, hsum]), byteSum_append, byteSum_append]
  rfl

theorem readHeader_flatten {name mode uid gid size mtime sum linkname user group major minor
    start fill : Bytes} {typeflag : UInt8} {m n : Nat} {fields : List Bytes}
    (hfields : fields = [name, mode, uid, gid, size, mtime, sum, [typeflag], linkname, magic,
      version, user, group, major, minor, start, fill])
    (hwidths : fields.map List.length = fieldWidths) (hmode : readOctal mode = some m)
    (hsize : readOctal size = some n) (hsum : readOctal sum = some (checksum fields.flatten))
    (hstart : readText start = []) :
    readHeader fields.flatten = some ⟨readText name, m, n, typeflag, readText linkname⟩ := by
  have hcut := cut_flatten fields []
  rw [hwidths, List.append_nil, hfields] at hcut
  rw [hfields] at hsum ⊢
  unfold readHeader
  rw [hcut]
  dsimp only
  rw [if_pos ⟨rfl, rfl, hsum⟩, hmode, hsize, hstart]
  rfl

theorem length_header {fields : List Bytes} (hwidths : fields.map List.length = fieldWidths) :
    fields.flatten.length = blockSize := by
  rw [List.length_flatten, hwidths]
  rfl

theorem readHeader_zeros : readHeader (List.replicate blockSize 0) = none := by decide +kernel

/-! ## Extended headers -/

/-- A record as it is written: its length is the number at its front. -/
def record (length : Nat) (key value : Bytes) : Bytes :=
  ascii (Nat.toDigits 10 length) ++ 32 :: (key ++ 61 :: (value ++ [10]))

theorem length_record (length : Nat) (key value : Bytes) :
    (record length key value).length =
      (Nat.toDigits 10 length).length + (key.length + value.length + 3) := by
  unfold record
  rw [List.length_append, length_ascii, List.length_cons, List.length_append, List.length_cons,
    List.length_append, List.length_singleton]
  omega

theorem readRecord_append {length : Nat} {key value rest : Bytes} (hkey : (61 : UInt8) ∉ key)
    (hlength : (record length key value).length = length) :
    readRecord (record length key value ++ rest) = some ((key, value), rest) := by
  have hdigits : ∀ c ∈ Nat.toDigits 10 length, c.isDigit = true := fun c hc =>
    Nat.isDigit_of_mem_toDigits (by decide) (by decide) hc
  have hne : ascii (Nat.toDigits 10 length) ≠ [] := fun h =>
    Nat.toDigits_ne_nil (List.map_eq_nil_iff.mp h)
  have hnumber : number 10 (ascii (Nat.toDigits 10 length)) = length := by
    rw [number_ascii hdigits]
    exact Nat.ofDigitChars_ten_toDigits
  have htext : record length key value ++ rest = ascii (Nat.toDigits 10 length) ++
      32 :: ((key ++ 61 :: value ++ [10]) ++ rest) := by
    simp only [record, List.append_assoc, List.cons_append]
  obtain ⟨htake, hdrop⟩ := @while_digits (Nat.toDigits 10 length) 32
    ((key ++ 61 :: value ++ [10]) ++ rest) hdigits rfl
  rw [← htext] at htake hdrop
  have hlen := length_record length key value
  have hbody : ((key ++ 61 :: value ++ [10]) ++ rest).take
      (length - ((ascii (Nat.toDigits 10 length)).length + 1)) = key ++ 61 :: value ++ [10] := by
    refine List.take_left' ?_
    rw [List.length_append, List.length_append, List.length_cons, List.length_singleton,
      length_ascii]
    omega
  have hkeys : ∀ b ∈ key, decide (b ≠ 61) = true := fun b hb =>
    decide_eq_true fun h => hkey (h ▸ hb)
  have hle : length ≤ (record length key value ++ rest).length := by
    rw [List.length_append, hlength]
    exact Nat.le_add_right _ _
  unfold readRecord
  rw [hdrop, htake]
  dsimp only
  rw [hnumber, hbody, if_pos ⟨rfl, hne, hle, List.getLast?_concat⟩, List.dropLast_concat,
    List.takeWhile_append_of_pos hkeys, List.dropWhile_append_of_pos hkeys,
    List.dropWhile_cons_of_neg (by decide), List.takeWhile_cons_of_neg (by decide),
    List.append_nil, List.drop_left' hlength]

theorem readRecords_flatten : ∀ {records : List (Bytes × Bytes)} {texts : List Bytes}
    {fuel : Nat}, texts.length ≤ fuel →
    List.Forall₂ (fun r text => ∃ length, text = record length r.1 r.2 ∧
      text.length = length ∧ (61 : UInt8) ∉ r.1) records texts →
    readRecords fuel texts.flatten = some records
  | _, _, _, _, .nil => by
      unfold readRecords
      rfl
  | _, _, 0, hfuel, .cons _ _ => absurd hfuel (Nat.not_succ_le_zero _)
  | r :: records, text :: texts, fuel + 1, hfuel, .cons htext hrest => by
      obtain ⟨length, rfl, hlength, hkey⟩ := htext
      have hne : record length r.1 r.2 ++ texts.flatten ≠ [] := by
        refine List.append_ne_nil_of_left_ne_nil ?_ _
        unfold record
        exact List.append_ne_nil_of_right_ne_nil _ (List.cons_ne_nil _ _)
      rw [List.flatten_cons, readRecords.eq_3 _ _ (fun h => hne h), readRecord_append hkey hlength]
      simp only [Option.bind_eq_bind, Option.bind_some]
      rw [readRecords_flatten (Nat.le_of_succ_le_succ hfuel) hrest]
      rfl

/-! ## Members -/

section

variable {records : List (Bytes × Bytes)} {block rest content text : Bytes} {header : Header}

theorem ne_zeros (hheader : readHeader block = some header) :
    block ≠ List.replicate blockSize 0 := by
  intro h
  rw [h, readHeader_zeros] at hheader
  cases hheader

/-- A content and what fills its last block. -/
def padded (content : Bytes) : Bytes := content ++ List.replicate (padding content.length) 0

theorem drop_padded (content rest : Bytes) :
    (padded content ++ rest).drop (content.length + padding content.length) = rest :=
  List.drop_left' (by rw [padded, List.length_append, List.length_replicate])

theorem take_padded (content rest : Bytes) :
    (padded content ++ rest).take content.length = content := by
  rw [padded, List.append_assoc, List.take_left]

theorem length_padded_le (content rest : Bytes) :
    content.length ≤ (padded content ++ rest).length := by
  rw [padded, List.append_assoc, List.length_append]
  exact Nat.le_add_right _ _

theorem not_lt_blockSize (hlength : block.length = blockSize) :
    ¬ (block ++ rest).length < blockSize := by
  rw [List.length_append, hlength]
  exact Nat.not_lt.mpr (Nat.le_add_right _ _)

theorem readMembers_member (hlength : block.length = blockSize)
    (hheader : readHeader block = some header) (htype : header.typeflag ≠ extended)
    (hsize : (override records ['s', 'i', 'z', 'e']).elim header.size (number 10) =
      content.length) :
    readMembers records (block ++ (padded content ++ rest)) =
      (readMembers [] rest).map (member records header content :: ·) := by
  rw [readMembers, dif_neg (not_lt_blockSize hlength), List.take_left' hlength,
    List.drop_left' hlength, if_neg (ne_zeros hheader), hheader]
  simp only [Option.bind_eq_bind, Option.bind_some]
  rw [if_neg htype, hsize, if_pos (length_padded_le _ _), take_padded, drop_padded]
  cases readMembers [] rest <;> rfl

theorem readMembers_extended (hlength : block.length = blockSize)
    (hheader : readHeader block = some header) (htype : header.typeflag = extended)
    (hsize : header.size = text.length) {records' : List (Bytes × Bytes)}
    (hrecords : readRecords text.length text = some records') :
    readMembers records (block ++ (padded text ++ rest)) = readMembers records' rest := by
  rw [readMembers, dif_neg (not_lt_blockSize hlength), List.take_left' hlength,
    List.drop_left' hlength, if_neg (ne_zeros hheader), hheader]
  simp only [Option.bind_eq_bind, Option.bind_some]
  rw [if_pos htype, hsize, if_pos (length_padded_le _ _), take_padded, hrecords, drop_padded]
  rfl

theorem readMembers_end : readMembers [] (List.replicate (2 * blockSize) 0) = some [] := by
  have hsplit : List.replicate (2 * blockSize) (0 : UInt8) =
      List.replicate blockSize 0 ++ List.replicate blockSize 0 := by
    rw [List.replicate_append_replicate, Nat.two_mul]
  rw [readMembers, hsplit, dif_neg (not_lt_blockSize List.length_replicate),
    List.take_left' List.length_replicate, List.drop_left' List.length_replicate, if_pos rfl,
    if_pos ⟨List.take_of_length_le (Nat.le_of_eq List.length_replicate), rfl⟩]

end

/-- Bytes that are these members, before whatever members follow. -/
def Holds (bytes : Bytes) (members : List Member) : Prop :=
  ∀ rest others, readMembers [] rest = some others →
    readMembers [] (bytes ++ rest) = some (members ++ others)

theorem Holds.nil : Holds [] [] := fun _ _ h => h

theorem Holds.append {a b : Bytes} {as bs : List Member} (ha : Holds a as) (hb : Holds b bs) :
    Holds (a ++ b) (as ++ bs) := by
  intro rest others h
  rw [List.append_assoc, List.append_assoc]
  exact ha _ _ (hb _ _ h)

theorem Holds.readArchive {bytes : Bytes} {members : List Member} (h : Holds bytes members) :
    readArchive (bytes ++ List.replicate (2 * blockSize) 0) = some members := by
  rw [Pax.readArchive, h _ _ readMembers_end, List.append_nil]

end OmniRush.Pax
