import OmniRush.Workbook.Zip

/-!
# What the ZIP reader does with any bytes

Every number the reader follows is the file's own, so each read needs the check in front
of it. Here the reader's code is walked once with "no read past the end" as what may not
be thrown, and with the limits of the directory as what its answer keeps: no entry is
larger than the limit for one, and the sizes together stay below the limit for all.

An entry's data is as long as the directory says, or the read throws, so the limits are
limits of what is returned.
-/

namespace OmniRush.Workbook

/-- An error of the code's own, or of a stream where one may fail; no read past the end. -/
def Own (failing : Prop) (e : ZipError) : Prop :=
  (∃ message, e = .thrown message) ∨ e = .stream ∧ failing

/-- The code throws errors of its own only, and its answer satisfies `Q`. -/
abbrev Bounded {α : Type} (failing : Prop) (x : Except ZipError α) (Q : α → Prop) : Prop :=
  Ends (Own failing) x Q

variable {failing : Prop}

theorem own_thrown (message : String) : Own failing (.thrown message) := .inl ⟨message, rfl⟩

theorem bounded_getUint16 {bytes : Bytes} {offset : Nat} (h : offset + 2 ≤ bytes.length) :
    Bounded failing (getUint16 bytes offset) (· < 65536) := by
  have hread := getUint_of_le h
  have hlt := getUint_lt hread
  rw [getUint16, hread]
  exact hlt

theorem bounded_getUint32 {bytes : Bytes} {offset : Nat} (h : offset + 4 ≤ bytes.length) :
    Bounded failing (getUint32 bytes offset) (· < 4294967296) := by
  have hread := getUint_of_le h
  have hlt := getUint_lt hread
  rw [getUint32, hread]
  exact hlt

theorem bounded_thrown {α : Type} {Q : α → Prop} (message : String) :
    Bounded failing (.error (.thrown message)) Q := Ends.throw (own_thrown message)

theorem bounded_check {α : Type} {bad : Prop} [Decidable bad] {message : String}
    {next : Unit → Except ZipError α} {Q : α → Prop} (h : ¬bad → Bounded failing (next ()) Q) :
    Bounded failing (reject bad (.thrown message) >>= next) Q :=
  Ends.check (own_thrown message) h

theorem bounded_reject {bad : Prop} [Decidable bad] {message : String} :
    Bounded failing (reject bad (.thrown message)) fun _ => ¬bad := by
  by_cases hbad : bad
  · rw [reject_fail hbad]
    exact own_thrown message
  · rw [reject_pass hbad]
    exact hbad

theorem bounded_flags (flags : Nat) (name : String) :
    Bounded failing (rejectUnsafeZipFlags flags name) fun _ => True :=
  bounded_check fun _ => bounded_reject.weaken fun _ _ => trivial

/-! ## The end record -/

theorem bounded_endOfCentralDirectoryFrom {bytes : Bytes} {start : Nat} (bound : Nat)
    (hbound : bound + 21 ≤ bytes.length ∨ bound = 0) :
    Bounded failing (endOfCentralDirectoryFrom bytes start bound) fun eocd =>
      eocd + 22 ≤ bytes.length := by
  induction bound with
  | zero => exact bounded_thrown _
  | succ offset ih =>
      have hfit : offset + 22 ≤ bytes.length := by omega
      have hbelow := ih (by omega)
      unfold endOfCentralDirectoryFrom
      split
      · exact bounded_thrown _
      · refine (bounded_getUint32 (by omega)).bind fun signature _ => ?_
        split
        · exact hbelow
        · refine (bounded_getUint16 (by omega)).bind fun commentLength _ => ?_
          split
          · exact Ends.pure hfit
          · exact hbelow

theorem bounded_findEndOfCentralDirectory (bytes : Bytes) :
    Bounded failing (findEndOfCentralDirectory bytes) fun eocd => eocd + 22 ≤ bytes.length :=
  bounded_endOfCentralDirectoryFrom _ (by omega)

/-! ## The directory -/

theorem bounded_centralEntry {bytes : Bytes} {centralEnd cursor : Nat}
    (hend : centralEnd ≤ bytes.length) :
    Bounded failing (centralEntry bytes centralEnd cursor) fun read =>
      read.1.uncompressedSize ≤ MAX_ENTRY_UNCOMPRESSED_BYTES := by
  unfold centralEntry
  refine bounded_check fun hcursor => ?_
  refine (bounded_getUint32 (by omega)).bind fun signature _ => bounded_check fun _ => ?_
  refine (bounded_getUint16 (by omega)).bind fun flags _ => ?_
  refine (bounded_getUint16 (by omega)).bind fun method _ => ?_
  refine (bounded_getUint32 (by omega)).bind fun compressedSize _ => ?_
  refine (bounded_getUint32 (by omega)).bind fun uncompressedSize _ => ?_
  refine (bounded_getUint16 (by omega)).bind fun nameLength _ => ?_
  refine (bounded_getUint16 (by omega)).bind fun extraLength _ => ?_
  refine (bounded_getUint16 (by omega)).bind fun commentLength _ => ?_
  refine (bounded_getUint32 (by omega)).bind fun localOffset _ => ?_
  refine bounded_check fun _ => bounded_check fun _ => ?_
  refine (bounded_flags flags _).bind fun _ _ => bounded_check fun _ => ?_
  refine bounded_check fun hsize => bounded_check fun _ => bounded_check fun _ => ?_
  exact Ends.pure (Nat.le_of_not_lt hsize)

/-- The sizes the directory says the entries have, all together. -/
def totalSize (entries : List ZipEntry) : Nat := (entries.map ZipEntry.uncompressedSize).sum

theorem bounded_centralEntries {bytes : Bytes} {centralEnd : Nat}
    (hend : centralEnd ≤ bytes.length) (count : Nat) {cursor total : Nat}
    (htotal : total ≤ MAX_TOTAL_UNCOMPRESSED_BYTES) :
    Bounded failing (centralEntries bytes centralEnd count cursor total) fun read =>
      (∀ entry ∈ read.1, entry.uncompressedSize ≤ MAX_ENTRY_UNCOMPRESSED_BYTES) ∧
      total + totalSize read.1 ≤ MAX_TOTAL_UNCOMPRESSED_BYTES := by
  induction count generalizing cursor total with
  | zero => exact Ends.pure ⟨by simp, htotal⟩
  | succ count ih =>
      unfold centralEntries
      refine (bounded_centralEntry hend).bind fun read hentry => bounded_check fun hsum => ?_
      refine (ih (Nat.le_of_not_lt hsum)).bind fun rest hrest => Ends.pure ⟨?_, ?_⟩
      · intro entry hmem
        rcases List.mem_cons.mp hmem with rfl | hmem
        · exact hentry
        · exact hrest.1 entry hmem
      · have hle := hrest.2
        simp only [totalSize, List.map_cons, List.sum_cons] at hle ⊢
        omega

theorem bounded_listZipEntries (bytes : Bytes) :
    Bounded False (listZipEntries bytes) fun entries =>
      (∀ entry ∈ entries, entry.uncompressedSize ≤ MAX_ENTRY_UNCOMPRESSED_BYTES) ∧
      totalSize entries ≤ MAX_TOTAL_UNCOMPRESSED_BYTES := by
  unfold listZipEntries
  refine bounded_check fun _ => (bounded_findEndOfCentralDirectory bytes).bind fun eocd heocd => ?_
  refine (bounded_getUint16 (by omega)).bind fun disk _ => ?_
  refine (bounded_getUint16 (by omega)).bind fun centralDisk _ => ?_
  refine (bounded_getUint16 (by omega)).bind fun countOnDisk _ => ?_
  refine (bounded_getUint16 (by omega)).bind fun count _ => ?_
  refine (bounded_getUint32 (by omega)).bind fun centralSize _ => ?_
  refine (bounded_getUint32 (by omega)).bind fun centralOffset _ => ?_
  refine bounded_check fun _ => bounded_check fun _ => bounded_check fun _ => ?_
  refine bounded_check fun hend => bounded_check fun _ => ?_
  refine (bounded_centralEntries (Nat.le_of_not_lt hend) count (Nat.zero_le _)).bind
    fun read hread => bounded_check fun _ => Ends.pure ?_
  rw [Nat.zero_add] at hread
  exact hread

/-! ## An entry's data -/

theorem bounded_readChunks (fails : Bool) (limit : Nat) (label : String) (rest : List Bytes)
    (total : Nat) (chunks : List Bytes) (h : fails = true → failing) :
    Bounded failing (readChunks fails limit label rest total chunks) fun _ => True := by
  induction rest generalizing total chunks with
  | nil =>
      unfold readChunks
      split
      · next hfails => exact .inr ⟨rfl, h hfails⟩
      · trivial
  | cons value rest ih =>
      unfold readChunks
      split
      · exact bounded_thrown _
      · exact ih _ _

/-- Where the decompression of an entry can fail. -/
def ZipEntry.MayFail (codec : Codec) (entry : ZipEntry) : Prop :=
  entry.method ≠ ZIP_STORED ∧ ∃ compressed, (codec.inflate compressed).fails = true

theorem bounded_unpacked (codec : Codec) (entry : ZipEntry) (compressed : Bytes) :
    Bounded (entry.MayFail codec) (unpacked codec entry compressed) fun _ => True := by
  unfold unpacked
  split
  · trivial
  · next hmethod => exact bounded_readChunks _ _ _ _ _ _ fun hfails => ⟨hmethod, compressed, hfails⟩

theorem bounded_readZipEntryData (codec : Codec) (bytes : Bytes) (entry : ZipEntry) :
    Bounded (entry.MayFail codec) (readZipEntryData codec bytes entry) fun data =>
      data.length = entry.uncompressedSize := by
  unfold readZipEntryData
  refine bounded_check fun hcursor => ?_
  refine (bounded_getUint32 (by omega)).bind fun signature _ => bounded_check fun _ => ?_
  refine (bounded_getUint16 (by omega)).bind fun localFlags _ => ?_
  refine (bounded_getUint16 (by omega)).bind fun localMethod _ => ?_
  refine (bounded_getUint32 (by omega)).bind fun localCompressedSize _ => ?_
  refine (bounded_getUint32 (by omega)).bind fun localUncompressedSize _ => ?_
  refine (bounded_getUint16 (by omega)).bind fun nameLength _ => ?_
  refine (bounded_getUint16 (by omega)).bind fun extraLength _ => ?_
  refine (bounded_flags localFlags _).bind fun _ _ => bounded_check fun _ => ?_
  refine bounded_check fun _ => bounded_check fun _ => bounded_check fun _ => ?_
  refine bounded_check fun _ => (bounded_unpacked ..).bind fun data _ => ?_
  exact bounded_check fun hsize => Ends.pure (Decidable.not_not.mp hsize)

/-- What can be read of the listed entries. -/
def readable (codec : Codec) (bytes : Bytes) (entries : List ZipEntry) : List Bytes :=
  entries.filterMap fun entry => (readZipEntryData codec bytes entry).toOption

theorem readable_total_le (codec : Codec) (bytes : Bytes) (entries : List ZipEntry) :
    ((readable codec bytes entries).map List.length).sum ≤ totalSize entries := by
  induction entries with
  | nil => exact Nat.le_refl 0
  | cons entry entries ih =>
      unfold readable at ih ⊢
      have hsize : totalSize (entry :: entries) = entry.uncompressedSize + totalSize entries := rfl
      rw [List.filterMap_cons, hsize]
      cases hread : readZipEntryData codec bytes entry with
      | error e =>
          show ((entries.filterMap _).map List.length).sum ≤ _
          omega
      | ok data =>
          have hlen := (bounded_readZipEntryData codec bytes entry).ok hread
          show ((data :: entries.filterMap _).map List.length).sum ≤ _
          rw [List.map_cons, List.sum_cons]
          omega

end OmniRush.Workbook
