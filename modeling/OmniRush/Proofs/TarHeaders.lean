import OmniRush.Archive.Pack
import OmniRush.Lib.Utf8

/-!
# A member's header blocks are read back

The numbers of a header block are octal digits that fill their field, so a reader takes them up to
the NUL (`readOctal_octalText`), and the checksum of a block is less than six digits can hold. A
text that is longer than its field, or not ASCII, stands in a record of the extended header, whose
length counts its own digits (`paxRecord_record`). So what a reader makes of the blocks of a member
and its content is the member (`header_read`).
-/

namespace OmniRush.Archive

open OmniRush

/-! ## Numbers -/

theorem octalText_digits (width value : Nat) : ∀ c ∈ octalText width value, c.isDigit = true := by
  intro c hc
  rcases List.mem_append.mp hc with hzero | hdigit
  · rw [List.eq_of_mem_replicate hzero]
    rfl
  · exact Nat.isDigit_of_mem_toDigits (by decide) (by decide) hdigit

theorem octalText_value (width value : Nat) :
    Nat.ofDigitChars 8 (octalText width value) 0 = value := by
  rw [octalText, Nat.ofDigitChars_append, Nat.ofDigitChars_replicate_zero, Nat.mul_zero]
  exact Nat.ofDigitChars_toDigits (by decide) (by decide)

theorem octalText_ne_nil (width value : Nat) : octalText width value ≠ [] :=
  List.append_ne_nil_of_right_ne_nil _ Nat.toDigits_ne_nil

theorem le_length_octalText (width value : Nat) : width ≤ (octalText width value).length := by
  rw [octalText, List.length_append, List.length_replicate]
  omega

theorem writeOctal_read {width value : Nat} {field : Bytes} (hwidth : 0 < width)
    (h : writeOctal width value = some field) :
    field.length = width ∧ Pax.readOctal field = some value := by
  unfold writeOctal at h
  split at h
  · cases h
  · next hfits =>
      cases h
      have hle := le_length_octalText (width - 1) value
      constructor
      · rw [List.length_append, Pax.length_ascii, List.length_singleton]
        omega
      · rw [Pax.readOctal_ascii (octalText_ne_nil _ _) (octalText_digits _ _) (.inl rfl),
          octalText_value]

theorem length_toDigits_le {base value width : Nat} (hbase : 1 < base) (hwidth : 0 < width)
    (hvalue : value < base ^ width) : (Nat.toDigits base value).length ≤ width :=
  (Nat.length_toDigits_le_iff hbase hwidth).mpr hvalue

theorem checksumField_read {sum : Nat} (hsum : sum < 8 ^ 6) :
    (checksumField sum).length = 8 ∧ Pax.readOctal (checksumField sum) = some sum := by
  have hlength : (octalText 6 sum).length = 6 := by
    have hdigits := length_toDigits_le (by decide : 1 < 8) (by decide) hsum
    rw [octalText, List.length_append, List.length_replicate]
    omega
  have htake : (octalText 6 sum).take 6 = octalText 6 sum :=
    List.take_of_length_le (Nat.le_of_eq hlength)
  unfold checksumField
  rw [htake]
  constructor
  · rw [List.length_append, Pax.length_ascii, hlength]
    rfl
  · rw [Pax.readOctal_ascii (octalText_ne_nil _ _) (octalText_digits _ _) (.inl rfl),
      octalText_value]

/-! ## Header blocks -/

theorem length_textField (width : Nat) (text : Bytes) : (textField width text).length = width := by
  rw [textField, List.length_append, List.length_replicate, List.length_take]
  omega

theorem readText_textField {width : Nat} {text : Bytes} (hlength : text.length ≤ width)
    (hzero : (0 : UInt8) ∉ text) : Pax.readText (textField width text) = text := by
  rw [textField, List.take_of_length_le hlength]
  exact Pax.readText_fill hzero

section

variable {name mode zero size mtime sum linkname : Bytes} {typeflag : Typeflag}

theorem ustarFields_widths (hmode : mode.length = 8) (hzero : zero.length = 8)
    (hsize : size.length = 12) (hmtime : mtime.length = 12) (hsum : sum.length = 8) :
    (ustarFields name mode zero size mtime sum typeflag linkname).map List.length =
      Pax.fieldWidths := by
  simp only [ustarFields, List.map_cons, List.map_nil, length_textField, hmode, hzero, hsize,
    hmtime, hsum, List.length_replicate]
  rfl

theorem ustarFields_checksum (hmode : mode.length = 8) (hzero : zero.length = 8)
    (hsize : size.length = 12) (hmtime : mtime.length = 12) (hsum : sum.length = 8) :
    Pax.checksum (ustarFields name mode zero size mtime sum typeflag linkname).flatten =
      Pax.byteSum (ustarFields name mode zero size mtime (List.replicate 8 0x20) typeflag
        linkname).flatten := by
  have hbefore : [textField 100 name, mode, zero, zero, size, mtime].flatten.length = 148 := by
    simp only [List.flatten_cons, List.flatten_nil, List.length_append, List.length_nil,
      length_textField, hmode, hzero, hsize, hmtime]
  have hcut : ∀ sum, (ustarFields name mode zero size mtime sum typeflag linkname).flatten =
      [textField 100 name, mode, zero, zero, size, mtime].flatten ++
        (sum ++ ((ustarFields name mode zero size mtime sum typeflag linkname).drop 7).flatten) := by
    intro sum
    rw [← List.flatten_cons, ← List.flatten_append]
    rfl
  have hafter : (ustarFields name mode zero size mtime sum typeflag linkname).drop 7 =
      (ustarFields name mode zero size mtime (List.replicate 8 0x20) typeflag linkname).drop 7 := rfl
  have hspaces : Pax.byteSum (List.replicate 8 0x20) = 256 := by decide
  rw [hcut sum, hcut (List.replicate 8 0x20), Pax.checksum_append hbefore hsum, Pax.byteSum_append,
    Pax.byteSum_append, hspaces, hafter, Nat.add_assoc]

end

theorem ustarHeader_read {name block : Bytes} {mode : Int} {size mtime : Nat} {typeflag : Typeflag}
    {linkname : Option Bytes} (h : ustarHeader name mode size mtime typeflag linkname = some block) :
    block.length = Pax.blockSize ∧ Pax.readHeader block = some
      ⟨Pax.readText (textField 100 name), modeBits mode, size, typeflag.byte,
        Pax.readText (textField 100 (linkname.getD []))⟩ := by
  simp only [ustarHeader, Option.bind_eq_bind, Option.bind_eq_some_iff, Option.some.injEq] at h
  obtain ⟨modeField, hmode, zero, hzero, sizeField, hsize, mtimeField, hmtime, rfl⟩ := h
  obtain ⟨hmode, hmodeRead⟩ := writeOctal_read (by decide) hmode
  obtain ⟨hzero, -⟩ := writeOctal_read (by decide) hzero
  obtain ⟨hsize, hsizeRead⟩ := writeOctal_read (by decide) hsize
  obtain ⟨hmtime, -⟩ := writeOctal_read (by decide) hmtime
  have hblank : (ustarFields name modeField zero sizeField mtimeField (List.replicate 8 0x20)
      typeflag (linkname.getD [])).flatten.length = Pax.blockSize :=
    Pax.length_header (ustarFields_widths hmode hzero hsize hmtime List.length_replicate)
  have hle := Pax.byteSum_le (ustarFields name modeField zero sizeField mtimeField
    (List.replicate 8 0x20) typeflag (linkname.getD [])).flatten
  rw [hblank] at hle
  obtain ⟨hsum, hsumRead⟩ := checksumField_read (Nat.lt_of_le_of_lt hle (by decide))
  have hwidths := @ustarFields_widths name modeField zero sizeField mtimeField _
    (linkname.getD []) typeflag hmode hzero hsize hmtime hsum
  refine ⟨Pax.length_header hwidths,
    Pax.readHeader_flatten rfl hwidths hmodeRead hsizeRead ?_ rfl⟩
  rw [hsumRead, ustarFields_checksum hmode hzero hsize hmtime hsum]

/-! ## Records -/

theorem utf8_eq (s : String) : utf8 s = s.toList.flatMap String.utf8EncodeChar := by
  have hbytes : s.toByteArray = s.toList.utf8Encode := by
    rw [← String.toByteArray_ofList, String.ofList_toList]
  rw [utf8, String.toUTF8_eq_toByteArray, hbytes, List.utf8Encode]
  simp

theorem utf8_append (a b : String) : utf8 (a ++ b) = utf8 a ++ utf8 b := by
  rw [utf8_eq, utf8_eq, utf8_eq, String.toList_append, List.flatMap_append]

theorem utf8EncodeChar_ascii {c : Char} (h : c.toNat < 128) :
    String.utf8EncodeChar c = [Pax.byteOf c] := by
  have hle : c.val.toNat ≤ 0x7f := Nat.le_of_lt_succ h
  rw [String.utf8EncodeChar, if_pos hle]
  rfl

theorem utf8_ascii {cs : List Char} (h : ∀ c ∈ cs, c.toNat < 128) :
    utf8 (String.ofList cs) = Pax.ascii cs := by
  rw [utf8_eq, String.toList_ofList, Pax.ascii]
  induction cs with
  | nil => rfl
  | cons c cs ih =>
      rw [List.flatMap_cons, utf8EncodeChar_ascii (h c List.mem_cons_self),
        ih fun d hd => h d (List.mem_cons_of_mem _ hd)]
      rfl

theorem utf8_toDigits (n : Nat) :
    utf8 (String.ofList (Nat.toDigits 10 n)) = Pax.ascii (Nat.toDigits 10 n) :=
  utf8_ascii fun _ hc =>
    Pax.toNat_lt_of_isDigit (Nat.isDigit_of_mem_toDigits (by decide) (by decide) hc)

theorem utf8_join (texts : List String) : utf8 (String.join texts) = (texts.map utf8).flatten := by
  induction texts with
  | nil => rfl
  | cons text texts ih =>
      rw [String.join_cons, utf8_append, ih, List.map_cons, List.flatten_cons]

theorem length_toDigits_mono {m n : Nat} (h : m ≤ n) :
    (Nat.toDigits 10 m).length ≤ (Nat.toDigits 10 n).length := by
  have hpos : 0 < (Nat.toDigits 10 n).length := Nat.length_toDigits_pos
  refine length_toDigits_le (by decide) hpos (Nat.lt_of_le_of_lt h ?_)
  exact (Nat.length_toDigits_le_iff (by decide) hpos).mp (Nat.le_refl _)

/-- A number of digits that is not less than the number itself is enough for twice the number. -/
theorem length_toDigits_le_self {rest digits : Nat} (h : rest ≤ digits) (hpos : 0 < digits) :
    (Nat.toDigits 10 (rest + digits)).length ≤ digits := by
  refine length_toDigits_le (by decide) hpos ?_
  obtain ⟨k, rfl⟩ : ∃ k, digits = k + 1 := ⟨digits - 1, by omega⟩
  have hlt : k < 10 ^ k := Nat.lt_pow_self (by decide)
  rw [Nat.pow_succ]
  omega

theorem paxDigits_fixed {rest fuel digits : Nat} (hpos : 0 < digits)
    (hle : digits ≤ (Nat.toDigits 10 (rest + digits)).length) (hfuel : rest ≤ digits + fuel) :
    (Nat.toDigits 10 (rest + paxDigits rest fuel digits)).length = paxDigits rest fuel digits := by
  induction fuel generalizing digits with
  | zero => exact Nat.le_antisymm (length_toDigits_le_self hfuel hpos) hle
  | succ fuel ih =>
      rw [paxDigits]
      split
      · next hne =>
          have hmono := @length_toDigits_mono (rest + digits) (rest + (digits + 1)) (by omega)
          exact ih (by omega) (by omega) (by omega)
      · next heq => exact not_not.mp heq

theorem paxRecord_record (key value : String) : ∃ length,
    utf8 (paxRecord key value) = Pax.record length (utf8 key) (utf8 value) ∧
      (utf8 (paxRecord key value)).length = length := by
  have hparts : utf8 (" " ++ key ++ "=" ++ value ++ "\n") =
      32 :: (utf8 key ++ 61 :: (utf8 value ++ [10])) := by
    have hspace : utf8 " " = [32] := by decide +kernel
    have hequals : utf8 "=" = [61] := by decide +kernel
    have hbreak : utf8 "\n" = [10] := by decide +kernel
    simp only [utf8_append, hspace, hequals, hbreak, List.append_assoc, List.cons_append,
      List.nil_append]
  unfold paxRecord
  generalize hrest : (utf8 (" " ++ key ++ "=" ++ value ++ "\n")).length = rest
  have hfixed := @paxDigits_fixed rest (rest + 2) 1 (by decide) Nat.length_toDigits_pos (by omega)
  have heq : utf8 (String.ofList (Nat.toDigits 10 (rest + paxDigits rest (rest + 2) 1)) ++
      (" " ++ key ++ "=" ++ value ++ "\n")) =
        Pax.record (rest + paxDigits rest (rest + 2) 1) (utf8 key) (utf8 value) := by
    rw [utf8_append, utf8_toDigits, hparts, Pax.record]
  refine ⟨_, heq, ?_⟩
  rw [utf8_append, List.length_append, hrest, utf8_toDigits, Pax.length_ascii, hfixed, Nat.add_comm]

/-! ## Members -/

/-- What the records of a member say. -/
def TarMember.fields (m : TarMember) : List (Bytes × Bytes) :=
  (if needsRecord (utf8 m.name) then [(Pax.ascii ['p', 'a', 't', 'h'], utf8 m.name)] else [])
    ++ (m.linkname.elim [] fun linkname =>
      if needsRecord (utf8 linkname) then
        [(Pax.ascii ['l', 'i', 'n', 'k', 'p', 'a', 't', 'h'], utf8 linkname)]
      else [])
    ++ (if m.size > maxOctal11 then
      [(Pax.ascii ['s', 'i', 'z', 'e'], Pax.ascii (Nat.toDigits 10 m.size))] else [])

/-- A text that is a record. -/
def IsRecord (field : Bytes × Bytes) (text : Bytes) : Prop :=
  ∃ length, text = Pax.record length field.1 field.2 ∧ text.length = length ∧
    (61 : UInt8) ∉ field.1

theorem isRecord_paxRecord {key : String} {field : Bytes} (value : String)
    (hkey : utf8 key = field) (hplain : (61 : UInt8) ∉ field) :
    IsRecord (field, utf8 value) (utf8 (paxRecord key value)) := by
  obtain ⟨length, htext, hlength⟩ := paxRecord_record key value
  rw [hkey] at htext
  exact ⟨length, htext, hlength, hplain⟩

theorem forall₂_record {p : Prop} [Decidable p] {field : Bytes × Bytes} {text : String}
    (h : IsRecord field (utf8 text)) :
    List.Forall₂ IsRecord (if p then [field] else []) ((if p then [text] else []).map utf8) := by
  split
  · exact .cons h .nil
  · exact .nil

theorem TarMember.fields_records (m : TarMember) :
    List.Forall₂ IsRecord m.fields (m.records.map utf8) := by
  have hpath : utf8 "path" = Pax.ascii ['p', 'a', 't', 'h'] := by decide +kernel
  have hlink : utf8 "linkpath" = Pax.ascii ['l', 'i', 'n', 'k', 'p', 'a', 't', 'h'] := by
    decide +kernel
  have hsize : utf8 "size" = Pax.ascii ['s', 'i', 'z', 'e'] := by decide +kernel
  have hpaths := @forall₂_record (needsRecord (utf8 m.name) = true) _ _ _
    (isRecord_paxRecord m.name hpath (by decide))
  have hlinks : List.Forall₂ IsRecord (m.linkname.elim [] fun linkname =>
      if needsRecord (utf8 linkname) then
        [(Pax.ascii ['l', 'i', 'n', 'k', 'p', 'a', 't', 'h'], utf8 linkname)]
      else []) ((m.linkname.elim [] fun linkname =>
        if needsRecord (utf8 linkname) then [paxRecord "linkpath" linkname] else []).map utf8) := by
    cases m.linkname with
    | none => exact .nil
    | some linkname => exact forall₂_record (isRecord_paxRecord linkname hlink (by decide))
  have hsizes := @forall₂_record (m.size > maxOctal11) _ _ _
    (isRecord_paxRecord (String.ofList (Nat.toDigits 10 m.size)) hsize (by decide))
  rw [utf8_toDigits] at hsizes
  rw [TarMember.fields, TarMember.records, List.map_append, List.map_append]
  exact List.rel_append (List.rel_append hpaths hlinks) hsizes

theorem length_records_le {fields : List (Bytes × Bytes)} {texts : List Bytes}
    (h : List.Forall₂ IsRecord fields texts) : texts.length ≤ texts.flatten.length := by
  induction h with
  | nil => exact Nat.le_refl _
  | @cons field text fields texts hrecord hrest ih =>
      obtain ⟨length, hrecord, -⟩ := hrecord
      have hlength := Pax.length_record length field.1 field.2
      rw [← hrecord] at hlength
      rw [List.flatten_cons, List.length_append, List.length_cons]
      omega

theorem readRecords_records (m : TarMember) :
    Pax.readRecords (utf8 (String.join m.records)).length (utf8 (String.join m.records)) =
      some m.fields := by
  rw [utf8_join]
  exact Pax.readRecords_flatten (length_records_le m.fields_records) m.fields_records

theorem override_append (a b : List (Bytes × Bytes)) (key : List Char) :
    Pax.override (a ++ b) key = (Pax.override b key).or (Pax.override a key) := by
  unfold Pax.override
  rw [List.reverse_append, List.find?_append]
  cases b.reverse.find? fun r => r.1 = Pax.ascii key <;> rfl

theorem override_same {p : Prop} [Decidable p] {key : List Char} {value : Bytes} :
    Pax.override (if p then [(Pax.ascii key, value)] else []) key = if p then some value else none := by
  split
  · simp [Pax.override]
  · rfl

theorem override_other {p : Prop} [Decidable p] {key : List Char} {field value : Bytes}
    (hne : field ≠ Pax.ascii key) : Pax.override (if p then [(field, value)] else []) key = none := by
  split
  · simp [Pax.override, hne]
  · rfl

theorem TarMember.override_fields (m : TarMember) :
    Pax.override m.fields ['p', 'a', 't', 'h'] =
        (if needsRecord (utf8 m.name) then some (utf8 m.name) else none) ∧
      Pax.override m.fields ['l', 'i', 'n', 'k', 'p', 'a', 't', 'h'] =
        (m.linkname.bind fun linkname =>
          if needsRecord (utf8 linkname) then some (utf8 linkname) else none) ∧
      Pax.override m.fields ['s', 'i', 'z', 'e'] =
        if m.size > maxOctal11 then some (Pax.ascii (Nat.toDigits 10 m.size)) else none := by
  unfold TarMember.fields
  refine ⟨?_, ?_, ?_⟩
  · rw [override_append, override_append, override_same, override_other (by decide)]
    cases m.linkname with
    | none => rfl
    | some linkname => rw [Option.elim_some, override_other (by decide)]; rfl
  · rw [override_append, override_append, override_other (by decide)]
    cases m.linkname with
    | none => rw [override_other (by decide)]; rfl
    | some linkname =>
        rw [Option.elim_some, override_same, override_other (by decide), Option.or_none]
        rfl
  · rw [override_append, override_append, override_same, override_other (by decide)]
    cases m.linkname with
    | none => exact Option.or_none
    | some linkname => rw [Option.elim_some, override_other (by decide)]; exact Option.or_none

/-- The member a reader is to find. -/
def TarMember.read (m : TarMember) (content : Bytes) : Pax.Member where
  path := utf8 m.name
  mode := modeBits m.mode
  size := m.size
  typeflag := m.typeflag.byte
  target := m.linkname.elim [] utf8
  content := content

/-- A name that a file system has. -/
def TarMember.Named (m : TarMember) : Prop :=
  (0 : UInt8) ∉ utf8 m.name ∧ (∀ linkname ∈ m.linkname, (0 : UInt8) ∉ utf8 linkname) ∧
    m.typeflag ≠ .extended

instance (m : TarMember) : Decidable m.Named :=
  inferInstanceAs (Decidable (_ ∧ (∀ linkname ∈ m.linkname, _) ∧ _))

theorem needsRecord_false {text : Bytes} (h : needsRecord text = false) :
    ustarText text = text ∧ text.length ≤ 100 := by
  rw [needsRecord, Bool.or_eq_false_iff, decide_eq_false_iff_not] at h
  refine ⟨?_, by omega⟩
  rw [ustarText, needsRecord, if_neg]
  rw [Bool.or_eq_true, decide_eq_true_eq, not_or]
  exact ⟨h.1, Bool.eq_false_iff.mp h.2⟩

theorem text_read {text : Bytes} (hzero : (0 : UInt8) ∉ text) :
    (if needsRecord text = true then some text else none).getD
      (Pax.readText (textField 100 (ustarText text))) = text := by
  cases hneeds : needsRecord text with
  | true => rfl
  | false =>
      obtain ⟨htext, hlength⟩ := needsRecord_false hneeds
      rw [htext]
      exact readText_textField hlength hzero

/-- What a reader makes of the header that is written, with the records of the member before it. -/
theorem TarMember.member_read {m : TarMember} (hnamed : m.Named) {content : Bytes}
    (hsize : content.length = m.size) :
    Pax.member m.fields ⟨Pax.readText (textField 100 (ustarText (utf8 m.name))), modeBits m.mode,
      (if m.size > maxOctal11 then 0 else m.size), m.typeflag.byte,
      Pax.readText (textField 100 ((m.linkname.map fun l => ustarText (utf8 l)).getD []))⟩ content =
        m.read content := by
  obtain ⟨hpath, hlink, -⟩ := m.override_fields
  have htarget : (Pax.override m.fields ['l', 'i', 'n', 'k', 'p', 'a', 't', 'h']).getD
      (Pax.readText (textField 100 ((m.linkname.map fun l => ustarText (utf8 l)).getD []))) =
        m.linkname.elim [] utf8 := by
    rw [hlink]
    cases hl : m.linkname with
    | none => decide +kernel
    | some linkname => exact text_read (hnamed.2.1 linkname hl)
  rw [Pax.member, TarMember.read, hpath, text_read hnamed.1, htarget, hsize]

theorem TarMember.size_read (m : TarMember) {header : Pax.Header}
    (hheader : header.size = if m.size > maxOctal11 then 0 else m.size) :
    (Pax.override m.fields ['s', 'i', 'z', 'e']).elim header.size (Pax.number 10) = m.size := by
  obtain ⟨-, -, hsize⟩ := m.override_fields
  rw [hsize, hheader]
  split
  · rw [Option.elim_some, Pax.number_ascii fun c hc =>
      Nat.isDigit_of_mem_toDigits (by decide) (by decide) hc]
    exact Nat.ofDigitChars_ten_toDigits
  · rfl

/-- A member whose header can be written and read: the records before it are not longer than a size
field can say. -/
structure TarMember.Written (m : TarMember) : Prop where
  named : m.Named
  fits : (utf8 (String.join m.records)).length ≤ maxOctal11

theorem writeOctal_some {width value : Nat} (hwidth : 1 < width) (hvalue : value < 8 ^ (width - 1)) :
    ∃ field, writeOctal width value = some field := by
  have hdigits : (Nat.toDigits 8 value).length ≤ width - 1 :=
    length_toDigits_le (by decide) (by omega) hvalue
  have hlength : (octalText (width - 1) value).length = width - 1 := by
    rw [octalText, List.length_append, List.length_replicate]
    omega
  exact ⟨_, if_neg (by omega)⟩

theorem ustarHeader_some {name : Bytes} {mode : Int} {size mtime : Nat} {typeflag : Typeflag}
    {linkname : Option Bytes} (hsize : size ≤ maxOctal11) (hmtime : mtime ≤ maxOctal11) :
    ∃ block, ustarHeader name mode size mtime typeflag linkname = some block := by
  have hmax : maxOctal11 < 8 ^ 11 := by decide
  have hmode : modeBits mode < 8 ^ 7 := by
    rw [modeBits]
    omega
  have hsome : ∀ value, value ≤ maxOctal11 → ∃ field, writeOctal 12 value = some field :=
    fun value hvalue => writeOctal_some (by decide) (by omega)
  obtain ⟨modeField, hmode⟩ : ∃ field, writeOctal 8 (modeBits mode) = some field :=
    writeOctal_some (by decide) hmode
  obtain ⟨zero, hzero⟩ : ∃ field, writeOctal 8 0 = some field :=
    writeOctal_some (by decide) (by decide)
  obtain ⟨sizeField, hsize⟩ := hsome size hsize
  obtain ⟨mtimeField, hmtime⟩ := hsome mtime hmtime
  rw [ustarHeader, hmode, hzero, hsize, hmtime]
  exact ⟨_, rfl⟩

theorem clampMtime_le (seconds : Rat) : clampMtime seconds ≤ maxOctal11 := by
  rw [clampMtime]
  omega

theorem tarMemberHeader_some {m : TarMember}
    (hfits : (utf8 (String.join m.records)).length ≤ maxOctal11) :
    ∃ header, tarMemberHeader m = some header := by
  have hsize : (if m.size > maxOctal11 then 0 else m.size) ≤ maxOctal11 := by
    split <;> omega
  obtain ⟨block, hblock⟩ := ustarHeader_some hsize (clampMtime_le m.mtime)
  obtain ⟨extended, hextended⟩ : ∃ extended, ustarHeader paxHeaderName 0o644
      (utf8 (String.join m.records)).length (clampMtime m.mtime) .extended none = some extended :=
    ustarHeader_some hfits (clampMtime_le m.mtime)
  rw [tarMemberHeader, hblock, Option.bind_eq_bind, Option.bind_some]
  split
  · exact ⟨block, rfl⟩
  · dsimp only
    rw [hextended]
    exact ⟨_, rfl⟩

/-- **The blocks of a member and its content are read as the member.** -/
theorem header_read {m : TarMember} {header content : Bytes} (h : tarMemberHeader m = some header)
    (hnamed : m.Named) (hsize : content.length = m.size) :
    Pax.Holds (header ++ Pax.padded content) [m.read content] ∧
      Pax.blockSize ∣ (header ++ Pax.padded content).length := by
  have hpadded : ∀ content : Bytes, Pax.blockSize ∣ (Pax.padded content).length := by
    intro content
    rw [Pax.padded, List.length_append, List.length_replicate, Pax.padding, Pax.blockSize]
    omega
  have htype : m.typeflag.byte ≠ Pax.extended := by
    intro heq
    cases hflag : m.typeflag <;> rw [hflag] at heq
    case extended => exact hnamed.2.2 hflag
    all_goals exact absurd heq (by decide)
  simp only [tarMemberHeader, Option.bind_eq_bind, Option.bind_eq_some_iff] at h
  obtain ⟨block, hblock, h⟩ := h
  obtain ⟨hlength, hread⟩ := ustarHeader_read hblock
  have hlast : ∀ rest, Pax.readMembers m.fields (block ++ (Pax.padded content ++ rest)) =
      (Pax.readMembers [] rest).map (m.read content :: ·) := by
    intro rest
    rw [Pax.readMembers_member hlength hread htype (by rw [m.size_read rfl, hsize]),
      m.member_read hnamed hsize]
  have hholds : ∀ front, (∀ rest, Pax.readMembers [] (front ++ rest) = Pax.readMembers m.fields rest) →
      Pax.Holds (front ++ block ++ Pax.padded content) [m.read content] := by
    intro front hfront rest others hrest
    rw [List.append_assoc, List.append_assoc, hfront, hlast, hrest]
    rfl
  split at h
  · next hnone =>
      cases h
      have hfields : m.fields = [] := by
        have hforall := m.fields_records
        rw [hnone] at hforall
        exact List.forall₂_nil_right_iff.mp hforall
      refine ⟨hholds [] fun rest => by rw [hfields]; rfl, ?_⟩
      rw [List.length_append, hlength]
      exact Nat.dvd_add (Nat.dvd_refl _) (hpadded _)
  · simp only [Option.bind_eq_some_iff, Option.some.injEq] at h
    obtain ⟨extended, hextended, rfl⟩ := h
    obtain ⟨hextendedLength, hextendedRead⟩ := ustarHeader_read hextended
    have hbody : extended ++ (utf8 (String.join m.records) ++
        List.replicate (paddingFor (utf8 (String.join m.records)).length) 0) =
          extended ++ Pax.padded (utf8 (String.join m.records)) := rfl
    rw [hbody]
    refine ⟨hholds _ fun rest => ?_, ?_⟩
    · rw [List.append_assoc]
      exact Pax.readMembers_extended hextendedLength hextendedRead rfl rfl (readRecords_records m)
    · rw [List.length_append, List.length_append, List.length_append, hextendedLength, hlength]
      exact Nat.dvd_add (Nat.dvd_add (Nat.dvd_add (Nat.dvd_refl _) (hpadded _)) (Nat.dvd_refl _))
        (hpadded _)

end OmniRush.Archive
