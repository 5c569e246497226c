import Mathlib.Algebra.Order.BigOperators.Group.List
import Mathlib.Algebra.Order.Group.Nat
import Mathlib.Data.List.Nodup
import OmniRush.Proofs.ZipRecords
import OmniRush.Proofs.ZipSafety

/-!
# Reading back what the ZIP writer made

The writer refuses too many files and too much data, and keeps its entries within the
reader's ratio, so that the reader takes what it made. It does not look at the size of
the archive itself, which the reader limits: names are stored twice and count only there.
Within that limit every file comes back, behind it none does.
-/

namespace OmniRush.Workbook

theorem getUint16_at {bytes part : Bytes} {offset o n : Nat} (hat : StandsAt bytes offset part)
    (hread : getUint 2 part o = some n) : getUint16 bytes (offset + o) = .ok n := by
  rw [getUint16, hat.getUint (getUint_fits hread), hread]

theorem getUint32_at {bytes part : Bytes} {offset o n : Nat} (hat : StandsAt bytes offset part)
    (hread : getUint 4 part o = some n) : getUint32 bytes (offset + o) = .ok n := by
  rw [getUint32, hat.getUint (getUint_fits hread), hread]

theorem flags_zero (name : String) : rejectUnsafeZipFlags 0 name = .ok () := rfl

/-! ## The headers -/

theorem localHeader_fields (method checksum stored data name : Nat) (hmethod : method < 65536) (hstored : stored < 4294967296)
    (hdata : data < 4294967296) (hname : name < 65536) :
    getUint 4 (localHeader method checksum stored data name) 0 = some ZIP_LOCAL_FILE_HEADER ∧
    getUint 2 (localHeader method checksum stored data name) 6 = some 0 ∧
    getUint 2 (localHeader method checksum stored data name) 8 = some method ∧
    getUint 4 (localHeader method checksum stored data name) 18 = some stored ∧
    getUint 4 (localHeader method checksum stored data name) 22 = some data ∧
    getUint 2 (localHeader method checksum stored data name) 26 = some name ∧
    getUint 2 (localHeader method checksum stored data name) 28 = some 0 := by
  have hmethod := Nat.mod_eq_of_lt hmethod
  have hstored := Nat.mod_eq_of_lt hstored
  have hdata := Nat.mod_eq_of_lt hdata
  have hname := Nat.mod_eq_of_lt hname
  have hzeros : getUint 2 (zeros 30) 28 = some 0 := by decide
  refine ⟨?_, ?_, ?_, ?_, ?_, ?_, ?_⟩ <;>
    simp (disch := simp [zeros]) [localHeader, setUint16, setUint32, getUint_setUint,
      getUint_setUint_ne, hmethod, hstored, hdata, hname, hzeros, ZIP_LOCAL_FILE_HEADER]

theorem centralHeader_fields (method checksum stored data name offset : Nat)
    (hmethod : method < 65536) (hstored : stored < 4294967296)
    (hdata : data < 4294967296) (hname : name < 65536) (hoffset : offset < 4294967296) :
    getUint 4 (centralHeader method checksum stored data name offset) 0
      = some ZIP_CENTRAL_DIRECTORY_HEADER ∧
    getUint 2 (centralHeader method checksum stored data name offset) 8 = some 0 ∧
    getUint 2 (centralHeader method checksum stored data name offset) 10 = some method ∧
    getUint 4 (centralHeader method checksum stored data name offset) 20 = some stored ∧
    getUint 4 (centralHeader method checksum stored data name offset) 24 = some data ∧
    getUint 2 (centralHeader method checksum stored data name offset) 28 = some name ∧
    getUint 2 (centralHeader method checksum stored data name offset) 30 = some 0 ∧
    getUint 2 (centralHeader method checksum stored data name offset) 32 = some 0 ∧
    getUint 4 (centralHeader method checksum stored data name offset) 42 = some offset := by
  have hmethod := Nat.mod_eq_of_lt hmethod
  have hstored := Nat.mod_eq_of_lt hstored
  have hdata := Nat.mod_eq_of_lt hdata
  have hname := Nat.mod_eq_of_lt hname
  have hoffset := Nat.mod_eq_of_lt hoffset
  have hextra : getUint 2 (zeros 46) 30 = some 0 := by decide
  have hcomment : getUint 2 (zeros 46) 32 = some 0 := by decide
  refine ⟨?_, ?_, ?_, ?_, ?_, ?_, ?_, ?_, ?_⟩ <;>
    simp (disch := simp [zeros]) [centralHeader, setUint16, setUint32, getUint_setUint,
      getUint_setUint_ne, hmethod, hstored, hdata, hname, hoffset, hextra, hcomment,
      ZIP_CENTRAL_DIRECTORY_HEADER]

theorem endRecord_fields (count size offset : Nat) (hcount : count < 65536)
    (hsize : size < 4294967296) (hoffset : offset < 4294967296) :
    getUint 4 (endRecord count size offset) 0 = some ZIP_END_OF_CENTRAL_DIRECTORY ∧
    getUint 2 (endRecord count size offset) 4 = some 0 ∧
    getUint 2 (endRecord count size offset) 6 = some 0 ∧
    getUint 2 (endRecord count size offset) 8 = some count ∧
    getUint 2 (endRecord count size offset) 10 = some count ∧
    getUint 4 (endRecord count size offset) 12 = some size ∧
    getUint 4 (endRecord count size offset) 16 = some offset ∧
    getUint 2 (endRecord count size offset) 20 = some 0 := by
  have hcount := Nat.mod_eq_of_lt hcount
  have hsize := Nat.mod_eq_of_lt hsize
  have hoffset := Nat.mod_eq_of_lt hoffset
  have hdisk : getUint 2 (zeros 22) 4 = some 0 := by decide
  have hcentral : getUint 2 (zeros 22) 6 = some 0 := by decide
  have hcomment : getUint 2 (zeros 22) 20 = some 0 := by decide
  refine ⟨?_, ?_, ?_, ?_, ?_, ?_, ?_, ?_⟩ <;>
    simp (disch := simp [zeros]) [endRecord, setUint16, setUint32, getUint_setUint,
      getUint_setUint_ne, hcount, hsize, hoffset, hdisk, hcentral, hcomment,
      ZIP_END_OF_CENTRAL_DIRECTORY]

/-! ## The directory -/

theorem methodOf_lt (codec : Codec) (file : ZipFileInput) : methodOf codec file < 65536 := by
  rcases methodOf_cases codec file with ⟨hmethod, -⟩ | ⟨hmethod, -⟩ <;> rw [hmethod] <;> decide

theorem methodOf_known (codec : Codec) (file : ZipFileInput) :
    ¬(methodOf codec file ≠ ZIP_STORED ∧ methodOf codec file ≠ ZIP_DEFLATE) := by
  rcases methodOf_cases codec file with ⟨hmethod, -⟩ | ⟨hmethod, -⟩
  · exact fun h => h.1 hmethod
  · exact fun h => h.2 hmethod

theorem centralEntry_at {codec : Codec} (hcodec : codec.Inverts) {bytes : Bytes}
    {cursor centralEnd offset : Nat} {file : ZipFileInput}
    (hat : StandsAt bytes cursor (centralRecord codec offset file))
    (hend : cursor + (centralRecord codec offset file).length ≤ centralEnd)
    (hdata : file.data.length ≤ MAX_ENTRY_UNCOMPRESSED_BYTES)
    (hname : (utf8Bytes file.name).length < 65536) (hoffset : offset < 0xffffffff) :
    centralEntry bytes centralEnd cursor
      = .ok (entryOf codec offset file, cursor + (centralRecord codec offset file).length) := by
  have hmax : MAX_ENTRY_UNCOMPRESSED_BYTES = 2097152 := rfl
  have hstored := storedOf_length_le codec file
  have hratio := storedOf_ratio hcodec file
  rw [centralRecord_length] at hend ⊢
  obtain ⟨hsig, hflags, hmethod, hpacked, hsize, hlen, hextra, hcomment, hlocal⟩ :=
    centralHeader_fields _ (crc32 file.data).toNat (storedOf codec file).length file.data.length
      _ offset (methodOf_lt codec file) (by omega) (by omega) hname (by omega)
  have hheader := hat.left
  have hsigAt := getUint32_at hheader hsig
  rw [Nat.add_zero] at hsigAt
  have hnameAt := hat.right.subarray_whole
  rw [centralHeader_length] at hnameAt
  rw [centralEntry, reject_pass (by omega), ok_bind, hsigAt, ok_bind, reject_pass (by simp),
    ok_bind, getUint16_at hheader hflags, ok_bind, getUint16_at hheader hmethod, ok_bind,
    getUint32_at hheader hpacked, ok_bind, getUint32_at hheader hsize, ok_bind,
    getUint16_at hheader hlen, ok_bind, getUint16_at hheader hextra, ok_bind,
    getUint16_at hheader hcomment, ok_bind, getUint32_at hheader hlocal, ok_bind,
    reject_pass (by omega), ok_bind, reject_pass (by omega), ok_bind]
  dsimp only
  rw [hnameAt, flags_zero, ok_bind, reject_pass (methodOf_known codec file), ok_bind,
    reject_pass (by omega), ok_bind, reject_pass (fun h => hratio.1 h.1 h.2), ok_bind,
    reject_pass (fun h => Nat.not_lt.mpr (hratio.2 h.1) h.2), ok_bind, Nat.add_zero, Nat.add_zero,
    Nat.add_assoc]
  rfl

/-- What the records need of a list of files, the first of them at `offset`. -/
structure Fits (codec : Codec) (offset : Nat) (files : List ZipFileInput) : Prop where
  data : ∀ file ∈ files, file.data.length ≤ MAX_ENTRY_UNCOMPRESSED_BYTES
  name : ∀ file ∈ files, (utf8Bytes file.name).length < 65536
  offset : offset + (localRecords codec files).length < 0xffffffff

theorem localRecords_cons (codec : Codec) (file : ZipFileInput) (files : List ZipFileInput) :
    localRecords codec (file :: files) = localRecord codec file ++ localRecords codec files :=
  List.flatMap_cons

theorem Fits.tail {codec : Codec} {offset : Nat} {file : ZipFileInput}
    {files : List ZipFileInput} (h : Fits codec offset (file :: files)) :
    Fits codec (offset + (localRecord codec file).length) files where
  data f hf := h.data f (List.mem_cons_of_mem _ hf)
  name f hf := h.name f (List.mem_cons_of_mem _ hf)
  offset := by
    have hoffset := h.offset
    rw [localRecords_cons, List.length_append] at hoffset
    omega

/-- The loop over the directory answers an entry for each file and stops behind it. -/
theorem centralEntries_at {codec : Codec} (hcodec : codec.Inverts) {bytes : Bytes}
    {centralEnd : Nat} (files : List ZipFileInput) {cursor offset total : Nat}
    (hat : StandsAt bytes cursor (centralRecords codec offset files))
    (hend : cursor + (centralRecords codec offset files).length ≤ centralEnd)
    (hfits : Fits codec offset files)
    (htotal : total + (files.map fun file => file.data.length).sum
      ≤ MAX_TOTAL_UNCOMPRESSED_BYTES) :
    centralEntries bytes centralEnd files.length cursor total
      = .ok (entriesOf codec offset files,
          cursor + (centralRecords codec offset files).length) := by
  induction files generalizing cursor offset total with
  | nil => rfl
  | cons file files ih =>
      have hoffset := hfits.offset
      rw [centralRecords, List.length_append] at hend
      rw [List.map_cons, List.sum_cons] at htotal
      have hend' : cursor + (centralRecord codec offset file).length ≤ centralEnd := by omega
      have hentry := centralEntry_at hcodec hat.left hend' (hfits.data file List.mem_cons_self)
        (hfits.name file List.mem_cons_self) (by omega)
      have hsum : total + (entryOf codec offset file).uncompressedSize
          + (files.map fun file => file.data.length).sum ≤ MAX_TOTAL_UNCOMPRESSED_BYTES := by
        show total + file.data.length + _ ≤ _
        omega
      have hrest := ih hat.right (by omega) hfits.tail hsum
      rw [List.length_cons, centralEntries, hentry, ok_bind]
      dsimp only
      rw [reject_pass (by show ¬_ < total + file.data.length; omega), ok_bind, hrest, ok_bind,
        centralRecords, List.length_append, Nat.add_assoc]
      rfl

/-! ## An entry's data -/

theorem unpacked_of {codec : Codec} (hcodec : codec.Inverts) {file : ZipFileInput}
    (hfails : (codec.deflate file.data).fails = false) (offset : Nat) :
    unpacked codec (entryOf codec offset file) (storedOf codec file) = .ok file.data := by
  have hinflated := hcodec.inflated file.data hfails
  unfold unpacked
  rcases methodOf_cases codec file with ⟨hmethod, hstored⟩ | ⟨hmethod, hstored, -⟩
  · rw [if_pos (show (entryOf codec offset file).method = ZIP_STORED from hmethod), hstored]
  · have hne : (entryOf codec offset file).method ≠ ZIP_STORED := by
      show methodOf codec file ≠ ZIP_STORED
      rw [hmethod]
      decide
    have hread := readChunks_ok file.data.length (entryOf codec offset file).name
      (codec.inflate (deflatedOf codec file)).chunks 0 []
    rw [if_neg hne, hstored, inflateRaw, readStreamBounded]
    unfold deflatedOf at hread ⊢
    rw [hinflated.1]
    rw [hinflated.2, Nat.zero_add] at hread
    exact hread (Nat.le_refl _)

theorem localSizeMatches_self (flags size : Nat) : localSizeMatches flags size size = true :=
  if_pos rfl

/-- An entry whose local record stands where it says is read as its file's data. -/
theorem readZipEntryData_at {codec : Codec} (hcodec : codec.Inverts) {bytes : Bytes}
    {offset : Nat} {file : ZipFileInput}
    (hat : StandsAt bytes offset (localRecord codec file))
    (hdata : file.data.length ≤ MAX_ENTRY_UNCOMPRESSED_BYTES)
    (hname : (utf8Bytes file.name).length < 65536)
    (hfails : (codec.deflate file.data).fails = false) :
    readZipEntryData codec bytes (entryOf codec offset file) = .ok file.data := by
  have hmax : MAX_ENTRY_UNCOMPRESSED_BYTES = 2097152 := rfl
  have hstored := storedOf_length_le codec file
  obtain ⟨hsig, hflags, hmethod, hpacked, hsize, hlen, hextra⟩ :=
    localHeader_fields _ (crc32 file.data).toNat (storedOf codec file).length file.data.length
      _ (methodOf_lt codec file) (by omega) (by omega) hname
  have hle := hat.le
  rw [localRecord_length] at hle
  have hheader := hat.left.left
  have hnameAt := hat.left.right.subarray_whole
  have hstoredAt := hat.right.subarray_whole
  rw [localHeader_length] at hnameAt
  rw [List.length_append, localHeader_length, ← Nat.add_assoc] at hstoredAt
  have hsigAt := getUint32_at hheader hsig
  rw [Nat.add_zero] at hsigAt
  have hoffset : (entryOf codec offset file).localOffset = offset := rfl
  have hcompressed :
      (entryOf codec offset file).compressedSize = (storedOf codec file).length := rfl
  have huncompressed : (entryOf codec offset file).uncompressedSize = file.data.length := rfl
  have hentry : (entryOf codec offset file).method = methodOf codec file := rfl
  have htext : (entryOf codec offset file).name = utf8Text (utf8Bytes file.name) := rfl
  unfold readZipEntryData
  dsimp only
  rw [hoffset, hcompressed, huncompressed, hentry]
  rw [reject_pass (by omega), ok_bind, hsigAt, ok_bind, reject_pass (by simp), ok_bind,
    getUint16_at hheader hflags, ok_bind, getUint16_at hheader hmethod, ok_bind,
    getUint32_at hheader hpacked, ok_bind, getUint32_at hheader hsize, ok_bind,
    getUint16_at hheader hlen, ok_bind, getUint16_at hheader hextra, ok_bind, flags_zero, ok_bind,
    reject_pass (by simp), ok_bind,
    reject_pass (by rw [localSizeMatches_self, localSizeMatches_self]; simp), ok_bind,
    reject_pass (by omega), ok_bind, hnameAt, reject_pass (by rw [htext]; simp), ok_bind,
    reject_pass (by omega), ok_bind, Nat.add_zero, hstoredAt, unpacked_of hcodec hfails, ok_bind,
    reject_pass (by simp)]
  rfl

theorem readAll_at {codec : Codec} (hcodec : codec.Inverts) {bytes : Bytes}
    (files : List ZipFileInput) {offset : Nat}
    (hat : StandsAt bytes offset (localRecords codec files)) (hfits : Fits codec offset files)
    (hfails : ∀ file ∈ files, (codec.deflate file.data).fails = false) :
    List.Forall₂ (fun file entry => readZipEntryData codec bytes entry = .ok file.data) files
      (entriesOf codec offset files) := by
  induction files generalizing offset with
  | nil => exact .nil
  | cons file files ih =>
      rw [localRecords_cons] at hat
      exact .cons
        (readZipEntryData_at hcodec hat.left (hfits.data file List.mem_cons_self)
          (hfits.name file List.mem_cons_self) (hfails file List.mem_cons_self))
        (ih hat.right hfits.tail fun f hf => hfails f (List.mem_cons_of_mem _ hf))

/-! ## The archive -/

/-- How long the archive of some files is: two headers and the name twice for each, what is
kept of the data, and the end record. -/
def archiveSize (codec : Codec) (files : List ZipFileInput) : Nat :=
  22 + (files.map fun file =>
    76 + 2 * (utf8Bytes file.name).length + (storedOf codec file).length).sum

theorem records_length (codec : Codec) (files : List ZipFileInput) (offset : Nat) :
    (localRecords codec files).length + (centralRecords codec offset files).length + 22
      = archiveSize codec files := by
  induction files generalizing offset with
  | nil => rfl
  | cons file files ih =>
      have hrest := ih (offset + (localRecord codec file).length)
      unfold archiveSize at hrest ⊢
      rw [localRecords_cons, centralRecords, List.length_append, List.length_append,
        localRecord_length, centralRecord_length, List.map_cons, List.sum_cons]
      rw [localRecord_length] at hrest
      omega

theorem findEndOfCentralDirectory_at {bytes : Bytes} {eocd : Nat}
    (hlen : bytes.length = eocd + 22)
    (hsig : getUint32 bytes eocd = .ok ZIP_END_OF_CENTRAL_DIRECTORY)
    (hcomment : getUint16 bytes (eocd + 20) = .ok 0) :
    findEndOfCentralDirectory bytes = .ok eocd := by
  have hbound : bytes.length + 1 - 22 = eocd + 1 := by omega
  rw [findEndOfCentralDirectory, hbound, endOfCentralDirectoryFrom, if_neg (by omega), hsig,
    ok_bind, if_neg (by simp), hcomment, ok_bind, if_pos (by omega)]

theorem listZipEntries_at {codec : Codec} (hcodec : codec.Inverts) {files : List ZipFileInput}
    {bytes : Bytes} (haccepted : Accepted codec files) (hfits : Fits codec 0 files)
    (hbytes : bytes = localRecords codec files ++ (centralRecords codec 0 files ++
      endRecord files.length (centralRecords codec 0 files).length
        (localRecords codec files).length))
    (hsize : bytes.length ≤ MAX_COMPRESSED_BYTES) :
    listZipEntries bytes = .ok (entriesOf codec 0 files) := by
  have hmax : MAX_COMPRESSED_BYTES = 12582912 := rfl
  have hentries : MAX_ZIP_ENTRIES = 128 := rfl
  have hcount := haccepted.count
  have hwhole := StandsAt.of_eq hbytes
  have hcentral := hwhole.right.left
  have hend := hwhole.right.right
  rw [Nat.zero_add] at hcentral hend
  have hlen : bytes.length = (localRecords codec files).length
      + (centralRecords codec 0 files).length + 22 := by
    rw [hbytes, List.length_append, List.length_append, endRecord_length, Nat.add_assoc]
  obtain ⟨hsig, hdisk, hcentralDisk, hon, htotal, hlength, hoffset, hcomment⟩ :=
    endRecord_fields files.length (centralRecords codec 0 files).length
      (localRecords codec files).length (by omega) (by omega) (by omega)
  have hsigAt := getUint32_at hend hsig
  rw [Nat.add_zero] at hsigAt
  have hdirectory := centralEntries_at hcodec files hcentral (Nat.le_refl _) hfits
    (Nat.le_trans (Nat.le_of_eq (Nat.zero_add _)) haccepted.total)
  rw [listZipEntries, reject_pass (by omega), ok_bind,
    findEndOfCentralDirectory_at hlen hsigAt (getUint16_at hend hcomment), ok_bind,
    getUint16_at hend hdisk, ok_bind, getUint16_at hend hcentralDisk, ok_bind,
    getUint16_at hend hon, ok_bind, getUint16_at hend htotal, ok_bind, getUint32_at hend hlength,
    ok_bind, getUint32_at hend hoffset, ok_bind]
  dsimp only
  rw [reject_pass (by simp), ok_bind, reject_pass (by omega), ok_bind, reject_pass (by omega),
    ok_bind, reject_pass (by omega), ok_bind, reject_pass (by omega), ok_bind, hdirectory,
    ok_bind]
  dsimp only
  rw [reject_pass (by simp)]
  rfl

theorem storedOf_total_le (codec : Codec) (files : List ZipFileInput) :
    (files.map fun file => (storedOf codec file).length).sum
      ≤ (files.map fun file => file.data.length).sum :=
  List.sum_le_sum fun file _ => storedOf_length_le codec file

theorem localRecords_length_le (codec : Codec) (files : List ZipFileInput)
    (hname : ∀ file ∈ files, (utf8Bytes file.name).length < 65536) :
    (localRecords codec files).length
      ≤ 65566 * files.length + (files.map fun file => (storedOf codec file).length).sum := by
  induction files with
  | nil => exact Nat.le_refl 0
  | cons file files ih =>
      have hfile := hname file List.mem_cons_self
      have hrest := ih fun f hf => hname f (List.mem_cons_of_mem _ hf)
      rw [localRecords_cons, List.length_append, localRecord_length, List.length_cons,
        List.map_cons, List.sum_cons]
      omega

/-- The numbers of an archive that was accepted fit the fields they are written in. -/
theorem Accepted.fits {codec : Codec} {files : List ZipFileInput} (h : Accepted codec files)
    (hname : ∀ file ∈ files, (utf8Bytes file.name).length < 65536) : Fits codec 0 files where
  data := h.entry
  name := hname
  offset := by
    have hcount := h.count
    have htotal := h.total
    have hstored := storedOf_total_le codec files
    have hlen := localRecords_length_le codec files hname
    have hentries : MAX_ZIP_ENTRIES = 128 := rfl
    have hmax : MAX_TOTAL_UNCOMPRESSED_BYTES = 10485760 := rfl
    omega

theorem buildZip_accepts {codec : Codec} {files : List ZipFileInput} (h : Accepted codec files)
    (hdeflated : ∀ file ∈ files,
      (deflatedOf codec file).length ≤ MAX_ENTRY_UNCOMPRESSED_BYTES + 1024) :
    ∃ bytes, buildZip codec files = .ok bytes := by
  have hadd : ∀ (rest : List ZipFileInput) (build : ZipBuild),
      (∀ file ∈ rest, file ∈ files) →
      build.totalUncompressed + (rest.map fun file => file.data.length).sum
        ≤ MAX_TOTAL_UNCOMPRESSED_BYTES →
      ∃ build', rest.foldlM (addFile codec) build = .ok build' := by
    intro rest
    induction rest with
    | nil => exact fun build _ _ => ⟨build, rfl⟩
    | cons file rest ih =>
        intro build hmem htotal
        rw [List.map_cons, List.sum_cons] at htotal
        have hfile := hmem file List.mem_cons_self
        have hraw : deflateRaw codec file.data = .ok (deflatedOf codec file) := by
          have hread := readChunks_ok (MAX_ENTRY_UNCOMPRESSED_BYTES + 1024) "(deflate)"
            (codec.deflate file.data).chunks 0 []
          rw [deflateRaw, readStreamBounded, h.deflates file hfile]
          rw [Nat.zero_add] at hread
          exact hread (hdeflated file hfile)
        rw [List.foldlM_cons, addFile, reject_pass (Nat.not_lt.mpr (h.entry file hfile)), ok_bind]
        dsimp only
        rw [reject_pass (by omega), ok_bind, hraw, ok_bind]
        exact ih _ (fun f hf => hmem f (List.mem_cons_of_mem _ hf))
          (by show build.totalUncompressed + file.data.length + _ ≤ _; omega)
  obtain ⟨build, hbuild⟩ := hadd files ⟨[], [], 0, 0⟩ (fun _ hf => hf)
    (Nat.le_trans (Nat.le_of_eq (Nat.zero_add _)) h.total)
  rw [buildZip, reject_pass (Nat.not_lt.mpr h.count), ok_bind, hbuild, ok_bind]
  exact ⟨_, rfl⟩

theorem listZipEntries_over {bytes : Bytes} (h : MAX_COMPRESSED_BYTES < bytes.length) :
    listZipEntries bytes = .error (.thrown "ZIP input exceeds compressed byte limit.") := by
  rw [listZipEntries, reject_fail h]
  rfl

theorem buildZip_length {codec : Codec} {files : List ZipFileInput} {bytes : Bytes}
    (h : buildZip codec files = .ok bytes) : bytes.length = archiveSize codec files := by
  have hlen := records_length codec files 0
  rw [(buildZip_ok h).2, List.length_append, List.length_append, endRecord_length]
  omega

/-- The reader gives back every file of an archive the writer made. -/
def GivesBack (codec : Codec) (bytes : Bytes) (files : List ZipFileInput) : Prop :=
  ∃ entries, listZipEntries bytes = .ok entries ∧
    List.Forall₂ (fun file entry => readZipEntryData codec bytes entry = .ok file.data) files entries

/-- What the writer made comes back exactly where the archive is within the reader's limit;
and whatever the bytes are, the reader throws errors of its own or answers within its
limits. -/
theorem zip_round_trip (codec : Codec) (hcodec : codec.Inverts) :
    (∀ files bytes, buildZip codec files = .ok bytes →
      (∀ file ∈ files, (utf8Bytes file.name).length < 65536) →
      (GivesBack codec bytes files ↔ archiveSize codec files ≤ MAX_COMPRESSED_BYTES)) ∧
    (∀ bytes e, listZipEntries bytes = .error e → ∃ message, e = .thrown message) ∧
    (∀ bytes entry e, readZipEntryData codec bytes entry = .error e →
      (∃ message, e = .thrown message) ∨ e = .stream ∧ entry.MayFail codec) ∧
    (∀ bytes entries, listZipEntries bytes = .ok entries →
      (∀ entry ∈ entries, ∀ data, readZipEntryData codec bytes entry = .ok data →
        data.length ≤ MAX_ENTRY_UNCOMPRESSED_BYTES) ∧
      ((readable codec bytes entries).map List.length).sum ≤ MAX_TOTAL_UNCOMPRESSED_BYTES) := by
  refine ⟨?_, ?_, ?_, ?_⟩
  · intro files bytes hbuild hname
    obtain ⟨haccepted, hbytes⟩ := buildZip_ok hbuild
    have hlen := buildZip_length hbuild
    have hfits := haccepted.fits hname
    constructor
    · rintro ⟨entries, hlist, -⟩
      by_contra hover
      have hlarge : MAX_COMPRESSED_BYTES < bytes.length := by
        rw [hlen]
        exact Nat.lt_of_not_le hover
      rw [listZipEntries_over hlarge] at hlist
      cases hlist
    · intro hsize
      exact ⟨entriesOf codec 0 files,
        listZipEntries_at hcodec haccepted hfits hbytes (hlen ▸ hsize),
        readAll_at hcodec files (StandsAt.of_eq hbytes).left hfits haccepted.deflates⟩
  · intro bytes e he
    rcases (bounded_listZipEntries bytes).error he with hown | ⟨-, hfalse⟩
    · exact hown
    · exact hfalse.elim
  · intro bytes entry e he
    exact (bounded_readZipEntryData codec bytes entry).error he
  · intro bytes entries hlist
    obtain ⟨hentry, htotal⟩ := (bounded_listZipEntries bytes).ok hlist
    refine ⟨?_, Nat.le_trans (readable_total_le codec bytes entries) htotal⟩
    intro entry hmem data hdata
    rw [(bounded_readZipEntryData codec bytes entry).ok hdata]
    exact hentry entry hmem

/-! ## Two lists of files -/

def twentyLetters : Bytes := List.replicate 20 97

/-- Raw deflate of the two inputs below as the platform gives it, of others as one stored
block. -/
def exampleCodec : Codec where
  deflate data :=
    if data = [] then ⟨[[3, 0]], false⟩
    else if data = twentyLetters then ⟨[[75, 76, 196, 4, 0]], false⟩
    else ⟨[[1], leBytes 2 data.length, leBytes 2 (65535 - data.length), data], 65535 < data.length⟩
  inflate packed :=
    match packed with
    | 3 :: _ => ⟨[], false⟩
    | 75 :: _ => ⟨[twentyLetters], false⟩
    | 1 :: _ :: _ :: _ :: _ :: data => ⟨[data], false⟩
    | _ => ⟨[], true⟩

theorem exampleCodec_inverts : exampleCodec.Inverts where
  inflated data := by
    intro hfails
    by_cases hempty : data = []
    · rw [hempty]
      decide
    · by_cases hletters : data = twentyLetters
      · rw [hletters]
        decide
      · have hdeflate : (exampleCodec.deflate data).chunks
            = [[1], leBytes 2 data.length, leBytes 2 (65535 - data.length), data] := by
          show (if data = [] then _ else if data = twentyLetters then _ else _ : ByteStream).chunks = _
          rw [if_neg hempty, if_neg hletters]
        rw [hdeflate]
        refine ⟨rfl, ?_⟩
        show data ++ [] ++ [] = data
        rw [List.append_nil, List.append_nil]
  nonempty data := by
    intro hdata hnil
    by_cases hletters : data = twentyLetters
    · rw [hletters] at hnil
      revert hnil
      decide
    · have hdeflate : (exampleCodec.deflate data).chunks
          = [[1], leBytes 2 data.length, leBytes 2 (65535 - data.length), data] := by
        show (if data = [] then _ else if data = twentyLetters then _ else _ : ByteStream).chunks = _
        rw [if_neg hdata, if_neg hletters]
      rw [hdeflate] at hnil
      cases hnil

/-- A compressed file and an empty one. -/
def exampleFiles : List ZipFileInput := [⟨[97, 46, 120], twentyLetters⟩, ⟨[98], []⟩]

theorem zip_round_trip_example : ∃ bytes, buildZip exampleCodec exampleFiles = .ok bytes ∧
    GivesBack exampleCodec bytes exampleFiles := by
  have haccepted : Accepted exampleCodec exampleFiles :=
    ⟨by decide, by decide, by decide, by decide⟩
  obtain ⟨bytes, hbuild⟩ := buildZip_accepts haccepted (by decide)
  have hback := (zip_round_trip exampleCodec exampleCodec_inverts).1 exampleFiles bytes hbuild
    (by decide)
  exact ⟨bytes, hbuild, hback.mpr (by decide)⟩

/-- Empty files whose names are as long as a name may be. -/
def longNames : List ZipFileInput :=
  (List.range 128).map fun i => ⟨List.replicate i 98 ++ List.replicate (65535 - i) 97, []⟩

theorem longNames_name {file : ZipFileInput} (h : file ∈ longNames) :
    (utf8Bytes file.name).length = 65535 ∧ file.data = [] := by
  obtain ⟨i, hi, rfl⟩ := List.mem_map.mp h
  have hlt := List.mem_range.mp hi
  have hascii : ∀ u ∈ List.replicate i 98 ++ List.replicate (65535 - i) 97, u < 0x80 := by
    intro u hu
    rcases List.mem_append.mp hu with hu | hu <;> rw [List.eq_of_mem_replicate hu] <;> decide
  have hlen := encodeUtf8_ascii_length hascii
  rw [List.length_append, List.length_replicate, List.length_replicate] at hlen
  refine ⟨?_, rfl⟩
  show (encodeUtf8 (List.replicate i 98 ++ List.replicate (65535 - i) 97)).length = 65535
  omega

theorem longNames_distinct : (longNames.map ZipFileInput.name).Nodup := by
  have hcount : ∀ i, (List.replicate i 98 ++ List.replicate (65535 - i) 97).count 98 = i := by
    intro i
    rw [List.count_append, List.count_replicate_self, List.count_replicate]
    rfl
  unfold longNames
  rw [List.map_map]
  refine List.Nodup.map (fun i j hij => ?_) List.nodup_range
  have hsame := congrArg (List.count 98) hij
  rw [Function.comp_apply, Function.comp_apply] at hsame
  rwa [hcount i, hcount j] at hsame

theorem sum_of_empty {files : List ZipFileInput} (h : ∀ file ∈ files, file.data = []) :
    (files.map fun file => file.data.length).sum = 0 := by
  rw [List.sum_eq_zero_iff]
  intro n hn
  obtain ⟨file, hfile, rfl⟩ := List.mem_map.mp hn
  rw [h file hfile]
  rfl

/-- The writer takes them, and the reader refuses what it made. -/
theorem writer_over_reader_limit : ∃ bytes, buildZip exampleCodec longNames = .ok bytes ∧
    (∀ file ∈ longNames, (utf8Bytes file.name).length < 65536) ∧
    (longNames.map ZipFileInput.name).Nodup ∧
    listZipEntries bytes = .error (.thrown "ZIP input exceeds compressed byte limit.") := by
  have hempty : ∀ file ∈ longNames, file.data = [] := fun _ h => (longNames_name h).2
  have haccepted : Accepted exampleCodec longNames := by
    refine ⟨?_, ?_, ?_, ?_⟩
    · rw [longNames, List.length_map, List.length_range]
      decide
    · intro file hfile
      rw [hempty file hfile]
      exact Nat.zero_le _
    · rw [sum_of_empty hempty]
      exact Nat.zero_le _
    · intro file hfile
      rw [hempty file hfile]
      rfl
  have hdeflated : ∀ file ∈ longNames,
      (deflatedOf exampleCodec file).length ≤ MAX_ENTRY_UNCOMPRESSED_BYTES + 1024 := by
    intro file hfile
    rw [deflatedOf, hempty file hfile]
    decide
  obtain ⟨bytes, hbuild⟩ := buildZip_accepts haccepted hdeflated
  have hstored : ∀ file ∈ longNames, (storedOf exampleCodec file).length = 0 := by
    intro file hfile
    have hle := storedOf_length_le exampleCodec file
    rw [hempty file hfile] at hle
    exact Nat.le_zero.mp hle
  have hsize : archiveSize exampleCodec longNames = 22 + 128 * 131146 := by
    have hmap : (longNames.map fun file =>
        76 + 2 * (utf8Bytes file.name).length + (storedOf exampleCodec file).length)
        = List.replicate 128 131146 := by
      refine List.eq_replicate_iff.mpr ⟨by rw [List.length_map, longNames, List.length_map,
        List.length_range], ?_⟩
      intro n hn
      obtain ⟨file, hfile, rfl⟩ := List.mem_map.mp hn
      rw [(longNames_name hfile).1, hstored file hfile]
    rw [archiveSize, hmap, List.sum_replicate]
    rfl
  refine ⟨bytes, hbuild, ?_, longNames_distinct, listZipEntries_over ?_⟩
  · intro file hfile
    rw [(longNames_name hfile).1]
    decide
  · rw [buildZip_length hbuild, hsize]
    decide

end OmniRush.Workbook
