import OmniRush.Lib.Pax

/-!
# Streams of tar members

A tar stream is a list of members, each a header block and its content padded to whole blocks, and
blocks of zeros at the end. How long a content is, is told by the size in the header block, or by
the record of an extended header before it; some types have no content whatever their size is.

Members can be put one after the other as long as no extended header is left without the member
that it is for (`Members.append`).
-/

namespace OmniRush.Tar

open Pax

/-! ## Numbers in a header block -/

def isBlank (b : UInt8) : Bool := b = 0 || b = 32

def isOctal (c : Char) : Bool := '0' ≤ c && c ≤ '7'

/-- Octal digits among spaces and NULs, or the bytes of a number with its highest bit set. Where the
next bit is set too, the number is negative. -/
inductive FieldHolds : Bytes → Nat → Prop where
  | octal {lead trail : Bytes} {digits : List Char} (hlead : lead.all isBlank = true)
      (htrail : trail.all isBlank = true) (hdigits : digits.all isOctal = true) :
      FieldHolds (lead ++ ascii digits ++ trail) (Nat.ofDigitChars 8 digits 0)
  | base256 {first : UInt8} {rest : Bytes} (hfirst : 0x80 ≤ first.toNat)
      (hpositive : first.toNat < 0xc0) :
      FieldHolds (first :: rest) (beNat ((first &&& 0x7f) :: rest))

def sumField (block : Bytes) : Bytes := (block.drop 148).take 8

def sizeField (block : Bytes) : Bytes := (block.drop 124).take 12

def typeflag (block : Bytes) : UInt8 := block.getD 156 0

structure IsHeader (block : Bytes) : Prop where
  length : block.length = blockSize
  sum : FieldHolds (sumField block) (checksum block)

/-- The type of a member's extended header. -/
def extendedType : UInt8 := 0x78

/-- The type of a header that is for all members after it. -/
def globalType : UInt8 := 0x67

/-- Links, devices, folders and pipes have no content. -/
def headerOnly (type : UInt8) : Bool := 0x31 ≤ type && type ≤ 0x36

/-! ## The records of an extended header -/

inductive RecordsText : List (Bytes × Bytes) → Bytes → Prop where
  | nil : RecordsText [] []
  | cons {length : Nat} {key value text : Bytes} {records : List (Bytes × Bytes)}
      (hlength : (record length key value).length = length) (hkey : (61 : UInt8) ∉ key)
      (h : RecordsText records text) :
      RecordsText ((key, value) :: records) (record length key value ++ text)

def sizeKey : Bytes := ascii ['s', 'i', 'z', 'e']

/-- A size is written in decimal. -/
def SizesWritten (records : List (Bytes × Bytes)) : Prop :=
  ∀ r ∈ records, r.1 = sizeKey → r.2 ≠ [] ∧ r.2.all isDigit = true

/-- The size that the records give the next member: the last record counts. -/
def sizeOverride (records : List (Bytes × Bytes)) : Option Nat :=
  (override records ['s', 'i', 'z', 'e']).map (number 10)

/-! ## Members -/

abbrev TarMember := Bytes × Bytes

/-- What a stream keeps to: the sizes that its header blocks state, and its extended headers. -/
structure Limits where
  size : Nat → Prop
  extended : List (Bytes × Bytes) → Bytes → Prop

def Limits.none : Limits := ⟨fun _ => True, fun _ _ => True⟩

variable (limits : Limits)

/-- Members and their bytes, after an extended header that gave the next one a size. -/
inductive Members : Option Nat → List TarMember → Bytes → Prop where
  | nil : Members none [] []
  | extended {pending : Option Nat} {block text rest : Bytes} {records : List (Bytes × Bytes)}
      {members : List TarMember} (hblock : IsHeader block) (htype : typeflag block = extendedType)
      (hsize : FieldHolds (sizeField block) text.length) (hlimit : limits.size text.length)
      (htext : text ≠ []) (hrecords : RecordsText records text) (hsizes : SizesWritten records)
      (hextended : limits.extended records text)
      (h : Members (sizeOverride records) members rest) :
      Members pending ((block, text) :: members) (block ++ (padded text ++ rest))
  | global {pending : Option Nat} {block content rest : Bytes} {members : List TarMember}
      (hblock : IsHeader block) (htype : typeflag block = globalType)
      (hsize : FieldHolds (sizeField block) content.length) (hlimit : limits.size content.length)
      (h : Members pending members rest) :
      Members pending ((block, content) :: members) (block ++ (padded content ++ rest))
  | member {pending : Option Nat} {size : Nat} {block content rest : Bytes}
      {members : List TarMember} (hblock : IsHeader block)
      (hextended : typeflag block ≠ extendedType) (hglobal : typeflag block ≠ globalType)
      (hsize : FieldHolds (sizeField block) size) (hlimit : limits.size size)
      (hcontent : content.length =
        if headerOnly (typeflag block) then 0 else pending.getD size)
      (h : Members none members rest) :
      Members pending ((block, content) :: members) (block ++ (padded content ++ rest))

variable {limits}

theorem Members.append {pending : Option Nat} {as bs : List TarMember} {a b : Bytes}
    (ha : Members limits pending as a) (hb : Members limits none bs b) :
    Members limits pending (as ++ bs) (a ++ b) := by
  induction ha with
  | nil => exact hb
  | extended hblock htype hsize hlimit htext hrecords hsizes hextended _ ih =>
      rw [List.append_assoc, List.append_assoc]
      exact .extended hblock htype hsize hlimit htext hrecords hsizes hextended ih
  | global hblock htype hsize hlimit _ ih =>
      rw [List.append_assoc, List.append_assoc]
      exact .global hblock htype hsize hlimit ih
  | member hblock hextended hglobal hsize hlimit hcontent _ ih =>
      rw [List.append_assoc, List.append_assoc]
      exact .member hblock hextended hglobal hsize hlimit hcontent ih

theorem Members.unlimited {pending : Option Nat} {members : List TarMember} {bytes : Bytes}
    (h : Members limits pending members bytes) : Members .none pending members bytes := by
  induction h with
  | nil => exact .nil
  | extended hblock htype hsize _ htext hrecords hsizes _ _ ih =>
      exact .extended hblock htype hsize trivial htext hrecords hsizes trivial ih
  | global hblock htype hsize _ _ ih => exact .global hblock htype hsize trivial ih
  | member hblock hextended hglobal hsize _ hcontent _ ih =>
      exact .member hblock hextended hglobal hsize trivial hcontent ih

/-- An archive ends with two blocks of zeros, and whatever zeros come after. -/
def IsArchive (limits : Limits) (members : List TarMember) (bytes : Bytes) : Prop :=
  ∃ body, ∃ zeros ≥ 2 * blockSize, Members limits none members body ∧
    bytes = body ++ List.replicate zeros 0

/-- Bytes that end before the first block of zeros does. -/
def IsCut (limits : Limits) (bytes : Bytes) : Prop :=
  ∃ members body rest, Members limits none members body ∧ rest ≠ [] ∧
    bytes ++ rest = body ++ List.replicate blockSize 0

/-- Bytes behind the first block of zeros that are not all zero. -/
def GoesOn (limits : Limits) (bytes : Bytes) : Prop :=
  ∃ members body rest, Members limits none members body ∧ (∃ b ∈ rest, b ≠ 0) ∧
    bytes = body ++ (List.replicate blockSize 0 ++ rest)

theorem IsArchive.prepend {as bs : List TarMember} {a bytes : Bytes}
    (ha : Members limits none as a) (hb : IsArchive limits bs bytes) :
    IsArchive limits (as ++ bs) (a ++ bytes) := by
  obtain ⟨body, zeros, hzeros, hbody, rfl⟩ := hb
  exact ⟨a ++ body, zeros, hzeros, ha.append hbody, (List.append_assoc ..).symm⟩

end OmniRush.Tar
