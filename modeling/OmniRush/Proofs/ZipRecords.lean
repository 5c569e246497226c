import OmniRush.Workbook.Zip

/-!
# What the ZIP writer makes, record by record

`buildZip` collects chunks and sums; what it answers is the local records of the files in
order, the directory with each file's offset, and the end record. The records are named
here as functions of a file and its offset, and read back: a directory record found where
it stands is the entry of its file, and the entry's data is the file's.
-/

namespace OmniRush.Workbook

/-- What is relied on of the compression streams: what deflating without failing gave is
inflated to what it was, and something always deflates to something. -/
structure Codec.Inverts (codec : Codec) : Prop where
  inflated : ∀ data, (codec.deflate data).fails = false →
    (codec.inflate (codec.deflate data).chunks.flatten).fails = false ∧
    (codec.inflate (codec.deflate data).chunks.flatten).chunks.flatten = data
  nonempty : ∀ data, data ≠ [] → (codec.deflate data).chunks.flatten ≠ []

/-! ## Streams -/

theorem readChunks_eq (fails : Bool) (limit : Nat) (label : String) (rest : List Bytes)
    (total : Nat) (chunks : List Bytes) {data : Bytes}
    (h : readChunks fails limit label rest total chunks = .ok data) :
    fails = false ∧ data = chunks.flatten ++ rest.flatten := by
  induction rest generalizing total chunks with
  | nil =>
      cases fails with
      | true => cases h
      | false =>
          cases h
          exact ⟨rfl, (List.append_nil _).symm⟩
  | cons value rest ih =>
      unfold readChunks at h
      split at h
      · cases h
      · obtain ⟨hfails, hdata⟩ := ih _ _ h
        refine ⟨hfails, ?_⟩
        rw [hdata, List.flatten_append, List.flatten_cons, List.flatten_cons, List.flatten_nil,
          List.append_nil, List.append_assoc]

theorem readChunks_ok (limit : Nat) (label : String) (rest : List Bytes) (total : Nat)
    (chunks : List Bytes) (h : total + rest.flatten.length ≤ limit) :
    readChunks false limit label rest total chunks = .ok (chunks.flatten ++ rest.flatten) := by
  induction rest generalizing total chunks with
  | nil =>
      rw [List.flatten_nil, List.append_nil]
      rfl
  | cons value rest ih =>
      rw [List.flatten_cons, List.length_append] at h
      have hfit : ¬limit < total + value.length := by omega
      have hrest := ih (total + value.length) (chunks ++ [value]) (by omega)
      rw [readChunks, if_neg hfit, hrest, List.flatten_append, List.flatten_cons,
        List.flatten_cons, List.flatten_nil, List.append_nil, List.append_assoc]

theorem readChunks_within {fails : Bool} {limit : Nat} {label : String} {rest : List Bytes}
    {total : Nat} {chunks : List Bytes} {data : Bytes} (htotal : total ≤ limit)
    (h : readChunks fails limit label rest total chunks = .ok data) :
    total + rest.flatten.length ≤ limit := by
  induction rest generalizing total chunks with
  | nil => exact htotal
  | cons value rest ih =>
      unfold readChunks at h
      split at h
      · cases h
      · next hfit =>
          have hrest := ih (Nat.le_of_not_lt hfit) h
          rw [List.flatten_cons, List.length_append]
          omega

/-- A stream is read to its end exactly when that is within the limit, whatever its chunks. -/
theorem readStreamBounded_ok_iff (stream : ByteStream) (limit : Nat) (label : String)
    (data : Bytes) :
    readStreamBounded stream limit label = .ok data ↔
      stream.fails = false ∧ data = stream.chunks.flatten ∧ data.length ≤ limit := by
  rw [readStreamBounded]
  constructor
  · intro h
    obtain ⟨hfails, hdata⟩ := readChunks_eq _ _ _ _ _ _ h
    have hwithin := readChunks_within (Nat.zero_le _) h
    rw [List.flatten_nil, List.nil_append] at hdata
    rw [Nat.zero_add, ← hdata] at hwithin
    exact ⟨hfails, hdata, hwithin⟩
  · rintro ⟨hfails, rfl, hwithin⟩
    rw [hfails]
    exact readChunks_ok limit label stream.chunks 0 [] (by omega)

theorem deflateRaw_ok {codec : Codec} {data deflated : Bytes}
    (h : deflateRaw codec data = .ok deflated) :
    (codec.deflate data).fails = false ∧ deflated = (codec.deflate data).chunks.flatten :=
  readChunks_eq _ _ _ _ _ _ h

/-! ## The records of a file -/

def deflatedOf (codec : Codec) (file : ZipFileInput) : Bytes :=
  (codec.deflate file.data).chunks.flatten

/-- What the archive keeps of a file's data. -/
def storedOf (codec : Codec) (file : ZipFileInput) : Bytes :=
  if useDeflate file.data (deflatedOf codec file) then deflatedOf codec file else file.data

def methodOf (codec : Codec) (file : ZipFileInput) : Nat :=
  if useDeflate file.data (deflatedOf codec file) then ZIP_DEFLATE else ZIP_STORED

def localRecord (codec : Codec) (file : ZipFileInput) : Bytes :=
  localHeader (methodOf codec file) (crc32 file.data).toNat (storedOf codec file).length
    file.data.length (utf8Bytes file.name).length ++ utf8Bytes file.name ++ storedOf codec file

def centralRecord (codec : Codec) (offset : Nat) (file : ZipFileInput) : Bytes :=
  centralHeader (methodOf codec file) (crc32 file.data).toNat (storedOf codec file).length
    file.data.length (utf8Bytes file.name).length offset ++ utf8Bytes file.name

def localRecords (codec : Codec) (files : List ZipFileInput) : Bytes :=
  files.flatMap (localRecord codec)

/-- The directory of files whose first stands at `offset`. -/
def centralRecords (codec : Codec) : Nat → List ZipFileInput → Bytes
  | _, [] => []
  | offset, file :: files =>
      centralRecord codec offset file ++
        centralRecords codec (offset + (localRecord codec file).length) files

/-- The entry that is listed for a file. -/
def entryOf (codec : Codec) (offset : Nat) (file : ZipFileInput) : ZipEntry where
  name := utf8Text (utf8Bytes file.name)
  flags := 0
  method := methodOf codec file
  compressedSize := (storedOf codec file).length
  uncompressedSize := file.data.length
  localOffset := offset

def entriesOf (codec : Codec) : Nat → List ZipFileInput → List ZipEntry
  | _, [] => []
  | offset, file :: files =>
      entryOf codec offset file ::
        entriesOf codec (offset + (localRecord codec file).length) files

theorem storedOf_length_le (codec : Codec) (file : ZipFileInput) :
    (storedOf codec file).length ≤ file.data.length := by
  unfold storedOf
  split
  · next huse =>
      simp only [useDeflate, Bool.and_eq_true, decide_eq_true_eq] at huse
      exact Nat.le_of_lt huse.1
  · exact Nat.le_refl _

theorem methodOf_cases (codec : Codec) (file : ZipFileInput) :
    (methodOf codec file = ZIP_STORED ∧ storedOf codec file = file.data) ∨
    (methodOf codec file = ZIP_DEFLATE ∧ storedOf codec file = deflatedOf codec file ∧
      useDeflate file.data (deflatedOf codec file) = true) := by
  unfold methodOf storedOf
  split
  · next huse => exact .inr ⟨rfl, rfl, huse⟩
  · exact .inl ⟨rfl, rfl⟩

theorem storedOf_ratio {codec : Codec} (hcodec : codec.Inverts) (file : ZipFileInput) :
    (0 < file.data.length → (storedOf codec file).length ≠ 0) ∧
    (0 < (storedOf codec file).length →
      file.data.length ≤ MAX_ZIP_COMPRESSION_RATIO * (storedOf codec file).length) := by
  rcases methodOf_cases codec file with ⟨-, hstored⟩ | ⟨-, hstored, huse⟩
  · rw [hstored]
    refine ⟨fun hlen => by omega, fun hlen => ?_⟩
    exact Nat.le_mul_of_pos_left _ (by decide)
  · rw [hstored]
    simp only [useDeflate, Bool.and_eq_true, decide_eq_true_eq] at huse
    have hdata : file.data ≠ [] := by
      intro hnil
      rw [hnil, List.length_nil] at huse
      omega
    have hpos := List.length_pos_iff.mpr (hcodec.nonempty file.data hdata)
    have hmax : max 1 (deflatedOf codec file).length = (deflatedOf codec file).length :=
      Nat.max_eq_right hpos
    rw [hmax] at huse
    exact ⟨fun _ => Nat.ne_of_gt hpos, fun _ => huse.2⟩

@[simp] theorem localHeader_length (method checksum stored data name : Nat) :
    (localHeader method checksum stored data name).length = 30 := by
  simp [localHeader, setUint16, setUint32, zeros]

@[simp] theorem centralHeader_length (method checksum stored data name offset : Nat) :
    (centralHeader method checksum stored data name offset).length = 46 := by
  simp [centralHeader, setUint16, setUint32, zeros]

@[simp] theorem endRecord_length (count size offset : Nat) :
    (endRecord count size offset).length = 22 := by
  simp [endRecord, setUint16, setUint32, zeros]

theorem localRecord_length (codec : Codec) (file : ZipFileInput) :
    (localRecord codec file).length
      = 30 + (utf8Bytes file.name).length + (storedOf codec file).length := by
  simp only [localRecord, List.length_append, localHeader_length]

theorem centralRecord_length (codec : Codec) (offset : Nat) (file : ZipFileInput) :
    (centralRecord codec offset file).length = 46 + (utf8Bytes file.name).length := by
  simp only [centralRecord, List.length_append, centralHeader_length]

/-! ## The writer -/

theorem addFile_ok {codec : Codec} {build build' : ZipBuild} {file : ZipFileInput}
    (h : addFile codec build file = .ok build') :
    file.data.length ≤ MAX_ENTRY_UNCOMPRESSED_BYTES ∧
    build'.totalUncompressed = build.totalUncompressed + file.data.length ∧
    build'.totalUncompressed ≤ MAX_TOTAL_UNCOMPRESSED_BYTES ∧
    (codec.deflate file.data).fails = false ∧
    build'.localChunks.flatten = build.localChunks.flatten ++ localRecord codec file ∧
    build'.centralChunks.flatten
      = build.centralChunks.flatten ++ centralRecord codec build.offset file ∧
    build'.offset = build.offset + (localRecord codec file).length := by
  unfold addFile at h
  obtain ⟨hentry, h⟩ := reject_bind_ok h
  obtain ⟨htotal, h⟩ := reject_bind_ok h
  obtain ⟨deflated, hdeflate, h⟩ := bind_eq_ok h
  obtain ⟨hfails, rfl⟩ := deflateRaw_ok hdeflate
  have hbuild : build' = {
      localChunks := build.localChunks ++ [localHeader (methodOf codec file)
        (crc32 file.data).toNat (storedOf codec file).length file.data.length
        (utf8Bytes file.name).length, utf8Bytes file.name, storedOf codec file]
      centralChunks := build.centralChunks ++ [centralHeader (methodOf codec file)
        (crc32 file.data).toNat (storedOf codec file).length file.data.length
        (utf8Bytes file.name).length build.offset, utf8Bytes file.name]
      offset := build.offset + (localHeader (methodOf codec file) (crc32 file.data).toNat
        (storedOf codec file).length file.data.length (utf8Bytes file.name).length).length
        + (utf8Bytes file.name).length + (storedOf codec file).length
      totalUncompressed := build.totalUncompressed + file.data.length } :=
    (Except.ok.inj h).symm
  rw [hbuild]
  refine ⟨Nat.le_of_not_lt hentry, rfl, Nat.le_of_not_lt htotal, hfails, ?_, ?_, ?_⟩
  · simp only [List.flatten_append, List.flatten_cons, List.flatten_nil, List.append_nil,
      localRecord, List.append_assoc]
  · simp only [List.flatten_append, List.flatten_cons, List.flatten_nil, List.append_nil,
      centralRecord]
  · simp only [localRecord_length, localHeader_length]
    omega

theorem addFiles_ok {codec : Codec} (files : List ZipFileInput) {build build' : ZipBuild}
    (h : files.foldlM (addFile codec) build = .ok build')
    (htotal : build.totalUncompressed ≤ MAX_TOTAL_UNCOMPRESSED_BYTES) :
    (∀ file ∈ files, file.data.length ≤ MAX_ENTRY_UNCOMPRESSED_BYTES ∧
      (codec.deflate file.data).fails = false) ∧
    build.totalUncompressed + (files.map fun file => file.data.length).sum
      ≤ MAX_TOTAL_UNCOMPRESSED_BYTES ∧
    build'.localChunks.flatten = build.localChunks.flatten ++ localRecords codec files ∧
    build'.centralChunks.flatten
      = build.centralChunks.flatten ++ centralRecords codec build.offset files ∧
    build'.offset = build.offset + (localRecords codec files).length := by
  induction files generalizing build with
  | nil =>
      cases h
      simp [localRecords, centralRecords, htotal]
  | cons file files ih =>
      rw [List.foldlM_cons] at h
      obtain ⟨next, hnext, h⟩ := bind_eq_ok h
      obtain ⟨hentry, hsum, hle, hfails, hlocal, hcentral, hoffset⟩ := addFile_ok hnext
      obtain ⟨hfiles, hrest, hlocals, hcentrals, hoffsets⟩ := ih h hle
      have hrecords : localRecords codec (file :: files)
          = localRecord codec file ++ localRecords codec files := List.flatMap_cons
      refine ⟨?_, ?_, ?_, ?_, ?_⟩
      · intro f hf
        rcases List.mem_cons.mp hf with rfl | hf
        · exact ⟨hentry, hfails⟩
        · exact hfiles f hf
      · rw [List.map_cons, List.sum_cons]
        omega
      · rw [hlocals, hlocal, hrecords, List.append_assoc]
      · rw [hcentrals, hcentral, hoffset, centralRecords, List.append_assoc]
      · rw [hoffsets, hoffset, hrecords, List.length_append]
        omega

/-- What an accepted list of files is bound by. -/
structure Accepted (codec : Codec) (files : List ZipFileInput) : Prop where
  count : files.length ≤ MAX_ZIP_ENTRIES
  entry : ∀ file ∈ files, file.data.length ≤ MAX_ENTRY_UNCOMPRESSED_BYTES
  total : (files.map fun file => file.data.length).sum ≤ MAX_TOTAL_UNCOMPRESSED_BYTES
  deflates : ∀ file ∈ files, (codec.deflate file.data).fails = false

theorem sum_length_flatten (chunks : List Bytes) :
    (chunks.map List.length).sum = chunks.flatten.length := (List.length_flatten ..).symm

theorem buildZip_ok {codec : Codec} {files : List ZipFileInput} {bytes : Bytes}
    (h : buildZip codec files = .ok bytes) :
    Accepted codec files ∧
    bytes = localRecords codec files ++ (centralRecords codec 0 files ++
      endRecord files.length (centralRecords codec 0 files).length
        (localRecords codec files).length) := by
  unfold buildZip at h
  obtain ⟨hcount, h⟩ := reject_bind_ok h
  obtain ⟨build, hbuild, h⟩ := bind_eq_ok h
  obtain ⟨hfiles, htotal, hlocal, hcentral, hoffset⟩ := addFiles_ok files hbuild (Nat.zero_le _)
  rw [List.flatten_nil, List.nil_append] at hlocal hcentral
  rw [Nat.zero_add] at hoffset htotal
  cases h
  refine ⟨⟨Nat.le_of_not_lt hcount, fun f hf => (hfiles f hf).1, htotal,
    fun f hf => (hfiles f hf).2⟩, ?_⟩
  rw [sum_length_flatten, hcentral, hoffset]
  unfold concatBytes
  rw [List.flatten_append, List.flatten_append, hlocal, hcentral, List.flatten_cons,
    List.flatten_nil, List.append_nil, List.append_assoc]

end OmniRush.Workbook
