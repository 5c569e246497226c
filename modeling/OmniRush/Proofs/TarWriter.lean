import OmniRush.Proofs.Delta
import OmniRush.Proofs.TarHeaders

/-!
# The stream is an archive whatever the files do

What the writer has put so far is what it emitted and the block it fills (`Packing.stream`). Every
part of it appends to that and leaves the rest as it was (`Puts`). A file that pass 1 saw with some
size gives that many bytes however its reads go, and it is noted unless what was read is what pass 1
saw (`fileContent_spec`). So after every entry the stream holds the members so far, and the list of
unstable entries has those among them that were not stable (`writeEntries_spec`).
-/

namespace OmniRush.Archive

open OmniRush

/-! ## Putting bytes -/

/-- What was put so far. -/
def Packing.stream (s : Packing) : Bytes := s.emitted.flatten ++ s.block

/-- The block is not over its size, and what was emitted is counted. -/
structure Packing.Sound (s : Packing) : Prop where
  block : s.block.length ≤ outputBlock
  counted : s.tarBytes = s.emitted.flatten.length

/-- The bytes are put behind what was put before, and what the writer knows stays. -/
structure Packing.Put (s : Packing) (bytes : Bytes) (t : Packing) : Prop where
  sound : t.Sound
  stream : t.stream = s.stream ++ bytes
  unstable : t.unstable = s.unstable
  parents : t.parents = s.parents
  endedEarly : t.endedEarly = s.endedEarly
  finished : t.finished = s.finished

theorem Packing.Put.refl {s : Packing} (h : s.Sound) : s.Put [] s :=
  ⟨h, (List.append_nil _).symm, rfl, rfl, rfl, rfl⟩

theorem Packing.Put.trans {s t u : Packing} {a b : Bytes} (h : s.Put a t) (h' : t.Put b u) :
    s.Put (a ++ b) u where
  sound := h'.sound
  stream := by rw [h'.stream, h.stream, List.append_assoc]
  unstable := h'.unstable.trans h.unstable
  parents := h'.parents.trans h.parents
  endedEarly := h'.endedEarly.trans h.endedEarly
  finished := h'.finished.trans h.finished

theorem put_tick {s : Packing} (hs : s.Sound) (tick : Nat) : s.Put [] { s with tick } :=
  ⟨⟨hs.block, hs.counted⟩, (List.append_nil _).symm, rfl, rfl, rfl, rfl⟩

/-- The signal is aborted at some time, or a block is not taken. -/
def PackDisk.Stops (disk : PackDisk) : Prop :=
  (∃ turn, disk.aborted turn = true) ∨ ∃ turn, disk.takes turn = false

section

variable (disk : PackDisk)

/-- Code that puts these bytes unless it is stopped. -/
def Puts (code : Pack Unit) (bytes : Bytes) : Prop :=
  ∀ s : Packing, s.Sound → RunsFrom disk.Stops s code fun _ t => s.Put bytes t

theorem puts_pure : Puts disk (pure ()) [] := fun _ hs => .pure (.refl hs)

theorem puts_bind {first second : Pack Unit} {a b : Bytes} (hfirst : Puts disk first a)
    (hsecond : Puts disk second b) : Puts disk (first >>= fun _ => second) (a ++ b) :=
  fun s hs => .bind (hfirst s hs) fun _ _ ht => (hsecond _ ht.sound).weaken fun _ _ h => ht.trans h

theorem puts_throwIfAborted : Puts disk (throwIfAborted disk) [] := by
  intro s hs
  refine .get (.set ?_)
  split
  · next haborted => exact .throw (.inl ⟨_, haborted⟩)
  · exact .pure (put_tick hs _)

theorem emit_spec {s : Packing} (hs : s.Sound) :
    RunsFrom disk.Stops s (emit disk) fun _ t => s.Put [] t ∧ t.block = [] := by
  have hput : s.Put [] { s with
      tick := s.tick + 1
      emitted := s.emitted ++ [s.block]
      block := []
      tarBytes := s.tarBytes + s.block.length } := by
    refine ⟨⟨Nat.zero_le _, ?_⟩, ?_, rfl, rfl, rfl, rfl⟩
    · show s.tarBytes + s.block.length = (s.emitted ++ [s.block]).flatten.length
      rw [List.flatten_append, List.length_append, hs.counted, List.flatten_singleton]
    · show (s.emitted ++ [s.block]).flatten ++ [] = s.emitted.flatten ++ s.block ++ []
      rw [List.flatten_append, List.flatten_singleton]
  refine .get (.set ?_)
  split
  · next hrefused => exact .throw (.inr ⟨_, hrefused⟩)
  · exact .pure ⟨hput, rfl⟩

theorem rotateIfFull_spec {s : Packing} (hs : s.Sound) :
    RunsFrom disk.Stops s (rotateIfFull disk)
      fun _ t => s.Put [] t ∧ t.block.length < outputBlock := by
  refine .get ?_
  split
  · refine .bind (puts_throwIfAborted disk s hs) fun _ t ht => ?_
    refine (emit_spec disk ht.sound).weaken fun _ u hu => ⟨ht.trans hu.1, ?_⟩
    rw [hu.2]
    decide
  · next hroom => exact .pure ⟨.refl hs, Nat.lt_of_le_of_ne hs.block hroom⟩

theorem fill_spec {s : Packing} (hs : s.Sound) {bytes : Bytes}
    (hroom : s.block.length + bytes.length ≤ outputBlock) :
    RunsFrom disk.Stops s (fill bytes) fun _ t => s.Put bytes t := by
  refine .modify ⟨⟨?_, hs.counted⟩, (List.append_assoc ..).symm, rfl, rfl, rfl, rfl⟩
  show (s.block ++ bytes).length ≤ outputBlock
  rw [List.length_append]
  exact hroom

theorem puts_fillLoop {fuel : Nat} {bytes : Bytes} (hfuel : bytes.length ≤ fuel) :
    Puts disk (fillLoop disk fuel bytes) bytes := by
  induction fuel generalizing bytes with
  | zero =>
      rw [List.length_eq_zero_iff.mp (Nat.le_zero.mp hfuel)]
      exact puts_pure disk
  | succ fuel ih =>
      intro s hs
      unfold fillLoop
      split
      · next hnil =>
          rw [hnil]
          exact puts_pure disk s hs
      · next hne =>
          have hpos := List.length_pos_iff.mpr hne
          refine .bind (rotateIfFull_spec disk hs) fun _ t ⟨hput, hroom⟩ => .get ?_
          have htake : (bytes.take (min bytes.length (outputBlock - t.block.length))).length =
              min bytes.length (outputBlock - t.block.length) := by
            rw [List.length_take]
            omega
          refine .bind (fill_spec disk hput.sound (by omega)) fun _ u hu => ?_
          refine (ih ?_ u hu.sound).weaken fun _ v hv => ?_
          · rw [List.length_drop]
            omega
          · have hall := (hput.trans hu).trans hv
            rwa [List.nil_append, List.take_append_drop] at hall

theorem puts_put (bytes : Bytes) : Puts disk (put disk bytes) bytes :=
  puts_fillLoop disk (Nat.le_refl _)

theorem puts_zeros (count : Nat) : Puts disk (zeros disk count) (List.replicate count 0) :=
  puts_put disk _

/-! ## Members with a content at hand -/

/-- Whole blocks that are read as these members. -/
structure IsMembers (bytes : Bytes) (members : List Pax.Member) : Prop where
  holds : Pax.Holds bytes members
  whole : Pax.blockSize ∣ bytes.length

theorem IsMembers.nil : IsMembers [] [] := ⟨Pax.Holds.nil, Nat.dvd_zero _⟩

theorem IsMembers.append {a b : Bytes} {as bs : List Pax.Member} (ha : IsMembers a as)
    (hb : IsMembers b bs) : IsMembers (a ++ b) (as ++ bs) where
  holds := ha.holds.append hb.holds
  whole := by
    rw [List.length_append]
    exact Nat.dvd_add ha.whole hb.whole

theorem TarMember.Written.isMembers {m : TarMember} (hm : m.Written) {header content : Bytes}
    (hheader : tarMemberHeader m = some header) (hsize : content.length = m.size) :
    IsMembers (header ++ Pax.padded content) [m.read content] := by
  obtain ⟨hholds, hwhole⟩ := header_read hheader hm.named hsize
  exact ⟨hholds, hwhole⟩

theorem putHeader_spec {m : TarMember} (hm : m.Written) {s : Packing} (hs : s.Sound) :
    RunsFrom disk.Stops s (putHeader disk m)
      fun _ t => ∃ header, tarMemberHeader m = some header ∧ s.Put header t := by
  obtain ⟨header, hheader⟩ := tarMemberHeader_some hm.fits
  unfold putHeader
  rw [hheader]
  exact (puts_put disk header s hs).weaken fun _ t ht => ⟨header, rfl, ht⟩

theorem putPieces_spec {size written : Nat} {pieces : List Bytes} {s : Packing} (hs : s.Sound) :
    RunsFrom disk.Stops s (putPieces disk size pieces written) fun total t =>
      if total ≤ size then total = written + pieces.flatten.length ∧ s.Put pieces.flatten t
      else size < written + pieces.flatten.length := by
  induction pieces generalizing written s with
  | nil =>
      refine .pure ?_
      split
      · exact ⟨rfl, .refl hs⟩
      · next hover => exact Nat.not_le.mp hover
  | cons piece pieces ih =>
      unfold putPieces
      rw [List.flatten_cons, List.length_append, ← Nat.add_assoc]
      split
      · next hover =>
          refine .pure ?_
          rw [if_neg (Nat.not_le.mpr hover)]
          exact Nat.lt_of_lt_of_le hover (Nat.le_add_right _ _)
      · refine .bind (puts_put disk piece s hs) fun _ t ht => (ih ht.sound).weaken fun total u hu => ?_
        split at hu
        · next hle =>
            rw [if_pos hle]
            exact ⟨hu.1, ht.trans hu.2⟩
        · next hover =>
            rw [if_neg hover]
            exact hu

/-- A file that is not in the folder. -/
def smallMember (createdAtSeconds : Rat) (name : String) (size : Nat) : TarMember where
  name
  mode := 0o644
  size
  mtime := createdAtSeconds
  typeflag := .file

/-- What a source gives has the size it says. -/
def ManifestSource.Sized (source : ManifestSource) : Prop :=
  source.chunks.flatten.length = source.size

theorem smallFile_spec {createdAtSeconds : Rat} {name : String} {source : ManifestSource}
    (hm : (smallMember createdAtSeconds name source.size).Written) {s : Packing} (hs : s.Sound) :
    RunsFrom (disk.Stops ∨ ¬ source.Sized) s (smallFile disk createdAtSeconds name source)
      fun _ t => ∃ bytes, s.Put bytes t ∧ IsMembers bytes
        [(smallMember createdAtSeconds name source.size).read source.chunks.flatten] := by
  refine .bind ((putHeader_spec disk hm hs).fails .inl) fun _ t ⟨header, hheader, ht⟩ => ?_
  refine .bind ((putPieces_spec disk ht.sound).fails .inl) fun total u hu => ?_
  rw [Nat.zero_add] at hu
  split
  · next hchanged =>
      refine .throw (.inr fun hsized => hchanged ?_)
      rw [ManifestSource.Sized] at hsized
      split at hu
      · rw [hu.1, hsized]
      · omega
  · next hequal =>
      have htotal : total = source.size := not_not.mp hequal
      rw [if_pos (Nat.le_of_eq htotal)] at hu
      have hsize : source.chunks.flatten.length = source.size := hu.1.symm.trans htotal
      refine ((puts_zeros disk _ u hu.2.sound).fails .inl).weaken fun _ v hv => ?_
      refine ⟨_, (ht.trans hu.2).trans hv, ?_⟩
      have hmembers := hm.isMembers hheader hsize
      rwa [Pax.padded, hsize, ← List.append_assoc] at hmembers

/-! ## A file that may change -/

/-- Bytes of an entry are put, and what the writer knows of the entry is added. -/
structure Packing.Read (s : Packing) (bytes : Bytes) (early : List Nat) (t : Packing) : Prop where
  sound : t.Sound
  stream : t.stream = s.stream ++ bytes
  unstable : t.unstable = s.unstable
  parents : t.parents = s.parents
  endedEarly : t.endedEarly = s.endedEarly ++ early
  finished : t.finished = s.finished

theorem Packing.Put.read {s t : Packing} {bytes : Bytes} (h : s.Put bytes t) :
    s.Read bytes [] t :=
  ⟨h.sound, h.stream, h.unstable, h.parents, h.endedEarly.trans (List.append_nil _).symm,
    h.finished⟩

theorem Packing.Read.trans {s t u : Packing} {a b : Bytes} {early early' : List Nat}
    (h : s.Read a early t) (h' : t.Read b early' u) : s.Read (a ++ b) (early ++ early') u where
  sound := h'.sound
  stream := by rw [h'.stream, h.stream, List.append_assoc]
  unstable := h'.unstable.trans h.unstable
  parents := h'.parents.trans h.parents
  endedEarly := by rw [h'.endedEarly, h.endedEarly, List.append_assoc]
  finished := h'.finished.trans h.finished

/-- What the reads gave is put; what is left is more than nothing only where one failed or came to
the end. -/
theorem readContent_spec {index fuel turn remaining : Nat} {hashed : Bytes} {s : Packing}
    (hs : s.Sound) (hfuel : remaining ≤ fuel) :
    RunsFrom disk.Stops s (readContent disk index fuel turn remaining hashed) fun left t =>
      ∃ bytes, left.2 = hashed ++ bytes ∧ bytes.length + left.1 = remaining ∧
        s.Read bytes (if left.1 = 0 then [] else [index]) t := by
  induction fuel generalizing turn remaining hashed s with
  | zero =>
      refine .pure ⟨[], (List.append_nil _).symm, Nat.zero_add _, ?_⟩
      rw [if_pos (Nat.le_zero.mp hfuel)]
      exact (Packing.Put.refl hs).read
  | succ fuel ih =>
      unfold readContent
      split
      · next hdone =>
          refine .pure ⟨[], (List.append_nil _).symm, hdone.symm, ?_⟩
          rw [if_pos rfl]
          exact (Packing.Put.refl hs).read
      · next hmore =>
          refine .bind (rotateIfFull_spec disk hs) fun _ t ⟨hput, hroom⟩ => .get ?_
          dsimp only
          generalize hbytes : ((disk.read index turn).getD []).take _ = bytes
          have hwant : bytes.length ≤ min remaining (outputBlock - t.block.length) := by
            rw [← hbytes, List.length_take]
            exact Nat.min_le_left _ _
          split
          · have hread : s.Read [] [index] { t with endedEarly := t.endedEarly ++ [index] } :=
              hput.read.trans ⟨⟨hput.sound.block, hput.sound.counted⟩,
                (List.append_nil _).symm, rfl, rfl, rfl, rfl⟩
            refine .bind (Q := fun _ u => s.Read [] [index] u) (.modify hread) fun _ u hu =>
              .pure ⟨[], (List.append_nil _).symm, Nat.zero_add _, ?_⟩
            rw [if_neg hmore]
            exact hu
          · next hne =>
              have hpos := List.length_pos_iff.mpr hne
              refine .bind (fill_spec disk hput.sound (by omega)) fun _ u hu => ?_
              refine (ih hu.sound (by omega)).weaken fun left v hv => ?_
              obtain ⟨more, hhashed, hlength, hread⟩ := hv
              refine ⟨bytes ++ more, ?_, ?_, (hput.trans hu).read.trans hread⟩
              · rw [hhashed, List.append_assoc]
              · rw [List.length_append]
                omega

/-- What is emitted of an entry, and whether a read of it failed or came to the end. -/
structure Emitted where
  content : Bytes
  early : Bool := false

/-- The file was read to its end, it is the one that pass 1 saw, and it holds what it held. -/
def isStableFile (sha256 : Bytes → String) (index : Nat) (entry : PackEntry) (real : Bool)
    (emitted : Emitted) : Bool :=
  (openEntry disk index entry real).any (isSameStat entry) && !emitted.early
    && some (sha256 emitted.content) = entry.sha256

theorem fileContent_spec {sha256 : Bytes → String} {index : Nat} {entry : PackEntry} {real : Bool}
    {s : Packing} (hs : s.Sound) :
    RunsFrom disk.Stops s (fileContent disk sha256 index entry real) fun stable t =>
      ∃ emitted : Emitted, emitted.content.length = entry.size.toNat ∧
        stable = isStableFile disk sha256 index entry real emitted ∧
        s.Read emitted.content (if emitted.early then [index] else []) t := by
  unfold fileContent isStableFile
  cases openEntry disk index entry real with
  | none =>
      refine .bind (puts_zeros disk _ s hs) fun _ t ht => .pure ?_
      exact ⟨⟨List.replicate entry.size.toNat 0, false⟩, List.length_replicate, rfl, ht.read⟩
  | some stats =>
      refine .bind (readContent_spec disk hs (Nat.le_refl _)) fun left t ht => ?_
      obtain ⟨bytes, hhashed, hlength, hread⟩ := ht
      obtain ⟨remaining, hashed⟩ := left
      dsimp only at hhashed hlength hread ⊢
      rw [List.nil_append] at hhashed
      subst hhashed
      refine .bind (puts_zeros disk _ t hread.sound) fun _ u hu => .pure ?_
      refine ⟨⟨hashed ++ List.replicate remaining 0, decide (remaining ≠ 0)⟩, ?_, ?_, ?_⟩
      · rw [List.length_append, List.length_replicate, hlength]
      · cases remaining with
        | zero => simp
        | succ remaining => simp
      · have hall := hread.trans hu.read
        rw [List.append_nil] at hall
        cases remaining with
        | zero => exact hall
        | succ remaining => exact hall

/-! ## Entries -/

/-- The member that stands for an entry. -/
def PackEntry.member (entry : PackEntry) : TarMember :=
  match entry.type, entry.content with
  | .dir, _ =>
      { name := entry.path ++ "/", mode := entry.mode, size := 0, mtime := entry.mtime
        typeflag := .dir }
  | .file, some content =>
      { name := entry.path, mode := entry.mode, size := content.length, mtime := entry.mtime
        typeflag := .file }
  | .file, none =>
      { name := entry.path, mode := entry.mode, size := entry.size.toNat, mtime := entry.mtime
        typeflag := .file }
  | .symlink, _ =>
      { name := entry.path, mode := entry.mode, size := 0, mtime := entry.mtime
        typeflag := .link, linkname := some (entry.target.getD "") }

/-- The folders above an entry that is looked up in the folder, with the answers so far. -/
def enteredParents (index : Nat) (entry : PackEntry) (parents : List (String × Bool)) :
    List (String × Bool) :=
  let names := (archiveParts entry.path).dropLast
  let kept := keptParents parents names
  kept ++ newParents (disk.isDirectory index) (kept.map (·.1)) (lastReal kept)
    (names.drop kept.length)

/-- An entry that is looked up: a link, or a file that is neither prepared nor staged. -/
def isLookedUp (entry : PackEntry) : Bool :=
  match entry.type, entry.content with
  | .file, none => !isStaged entry
  | .symlink, _ => true
  | _, _ => false

/-- Whether the folders above an entry are real when the writer comes to it, and the answers it
has then. -/
def lookedUp (win32 : Bool) (index : Nat) (entry : PackEntry) (parents : List (String × Bool)) :
    Bool × List (String × Bool) :=
  if isLookedUp entry = false then (true, parents)
  else if isOutsideArchivePath entry.path then
    ((outsideSourcePath win32 entry.path).isSome && entry.type = .file
      && disk.outsideFolderIsReal index, parents)
  else (lastReal (enteredParents disk index entry parents), enteredParents disk index entry parents)

/-- An entry as the writer comes to it. -/
structure Arrival where
  index : Nat
  entry : PackEntry
  real : Bool

def arrivalsFrom (win32 : Bool) :
    Nat → List (String × Bool) → List PackEntry → List Arrival
  | _, _, [] => []
  | index, parents, entry :: entries =>
      ⟨index, entry, (lookedUp disk win32 index entry parents).1⟩ ::
        arrivalsFrom win32 (index + 1) (lookedUp disk win32 index entry parents).2 entries

/-- What is at an entry's path is still what pass 1 saw. Folders and prepared files are not read. -/
def Arrival.stable (sha256 : Bytes → String) (v : Arrival) (emitted : Emitted) : Bool :=
  match v.entry.type, v.entry.content with
  | .file, none => isStableFile disk sha256 v.index v.entry v.real emitted
  | .symlink, _ => isStableLink disk v.index (v.entry.target.getD "") v.real
  | _, _ => true

/-- The content has its size, and is the one that was prepared. -/
structure Arrival.Gives (v : Arrival) (emitted : Emitted) : Prop where
  size : emitted.content.length = v.entry.member.size
  prepared : v.entry.type = .file → ∀ content ∈ v.entry.content, emitted.content = content

/-- What an entry adds. -/
structure Packing.Entered (s : Packing) (sha256 : Bytes → String) (v : Arrival)
    (parents : List (String × Bool)) (emitted : Emitted) (t : Packing) : Prop where
  gives : v.Gives emitted
  sound : t.Sound
  stream : ∃ bytes, t.stream = s.stream ++ bytes ∧
    IsMembers bytes [v.entry.member.read emitted.content]
  unstable : t.unstable = s.unstable ++
    if v.stable disk sha256 emitted then [] else [v.entry.path]
  parents : t.parents = parents
  endedEarly : t.endedEarly = s.endedEarly ++ if emitted.early then [v.index] else []
  finished : t.finished = s.finished

theorem Packing.Put.entered {sha256 : Bytes → String} {s t : Packing} {v : Arrival}
    {bytes content : Bytes} (h : s.Put bytes t) (hgives : v.Gives ⟨content, false⟩)
    (hmembers : IsMembers bytes [v.entry.member.read content])
    (hstable : v.stable disk sha256 ⟨content, false⟩ = true) :
    s.Entered disk sha256 v s.parents ⟨content, false⟩ t := by
  refine ⟨hgives, h.sound, ⟨bytes, h.stream, hmembers⟩, ?_, h.parents, ?_, h.finished⟩
  · rw [hstable, h.unstable, if_pos rfl, List.append_nil]
  · rw [h.endedEarly, if_neg Bool.false_ne_true, List.append_nil]

theorem Packing.Entered.after {sha256 : Bytes → String} {s t u : Packing} {v : Arrival}
    {emitted : Emitted} {parents : List (String × Bool)} (hstream : t.stream = s.stream)
    (hunstable : t.unstable = s.unstable) (hearly : t.endedEarly = s.endedEarly)
    (hfinished : t.finished = s.finished) (h : t.Entered disk sha256 v parents emitted u) :
    s.Entered disk sha256 v parents emitted u where
  gives := h.gives
  sound := h.sound
  stream := by
    obtain ⟨bytes, hbytes, hmembers⟩ := h.stream
    exact ⟨bytes, hbytes.trans (by rw [hstream]), hmembers⟩
  unstable := h.unstable.trans (by rw [hunstable])
  parents := h.parents
  endedEarly := h.endedEarly.trans (by rw [hearly])
  finished := h.finished.trans hfinished

theorem noteUnstable_spec {stable : Bool} {path : String} {s : Packing} :
    RunsFrom disk.Stops s (noteUnstable stable path)
      fun _ t => t = { s with unstable := s.unstable ++ if stable then [] else [path] } := by
  unfold noteUnstable
  cases stable with
  | true =>
      refine .pure ?_
      rw [if_pos rfl, List.append_nil]
  | false => exact .modify rfl

section

variable {sha256 : Bytes → String} {index : Nat} {entry : PackEntry} {real : Bool} {s : Packing}

/-- Code that writes an entry, whatever is emitted of it. -/
def Enters (sha256 : Bytes → String) (s : Packing) (v : Arrival) (parents : List (String × Bool))
    (code : Pack Unit) : Prop :=
  RunsFrom disk.Stops s code fun _ t => ∃ emitted, s.Entered disk sha256 v parents emitted t

theorem writeFile_spec (hm : entry.member.Written) (htype : entry.type = .file)
    (hcontent : entry.content = none) (hs : s.Sound) :
    Enters disk sha256 s ⟨index, entry, real⟩ s.parents
      (writeFile disk sha256 index entry real) := by
  have hmember : entry.member = {
      name := entry.path, mode := entry.mode, size := entry.size.toNat, mtime := entry.mtime
      typeflag := .file } := by
    rw [PackEntry.member, htype, hcontent]
  unfold writeFile
  rw [← hmember]
  refine .bind (putHeader_spec disk hm hs) fun _ t ⟨header, hheader, ht⟩ => ?_
  refine .bind (fileContent_spec disk ht.sound) fun stable u hu => ?_
  obtain ⟨emitted, hlength, hstable, hread⟩ := hu
  refine .bind (puts_zeros disk _ u hread.sound) fun _ v hv => ?_
  refine (noteUnstable_spec disk).weaken fun _ w hw => ⟨emitted, ?_⟩
  have hall := (ht.read.trans hread).trans hv.read
  have hsize : emitted.content.length = entry.member.size := by
    rw [hmember]
    exact hlength
  have hmembers := hm.isMembers hheader hsize
  rw [Pax.padded, hlength, ← List.append_assoc] at hmembers
  subst hw
  refine ⟨⟨hsize, fun _ content hmem => ?_⟩, ⟨hv.sound.block, hv.sound.counted⟩,
    ⟨_, hall.stream, hmembers⟩, ?_, hall.parents, ?_, hall.finished⟩
  · rw [hcontent] at hmem
    cases hmem
  · show v.unstable ++ _ = _
    rw [hall.unstable, hstable, Arrival.stable, htype, hcontent]
  · show v.endedEarly = _
    rw [hall.endedEarly, List.nil_append, List.append_nil]

theorem writeLink_spec (hm : entry.member.Written) (htype : entry.type = .symlink) (hs : s.Sound) :
    Enters disk sha256 s ⟨index, entry, real⟩ s.parents (writeLink disk index entry real) := by
  have hmember : entry.member = {
      name := entry.path, mode := entry.mode, size := 0, mtime := entry.mtime, typeflag := .link
      linkname := some (entry.target.getD "") } := by
    rw [PackEntry.member, htype]
  have hsize : ([] : Bytes).length = entry.member.size := by
    rw [hmember]
    rfl
  unfold writeLink
  rw [← hmember]
  refine .bind (putHeader_spec disk hm hs) fun _ t ⟨header, hheader, ht⟩ => ?_
  refine (noteUnstable_spec disk).weaken fun _ w hw => ⟨⟨[], false⟩, ?_⟩
  have hmembers := hm.isMembers hheader hsize
  rw [show header ++ Pax.padded [] = header from List.append_nil _] at hmembers
  subst hw
  refine ⟨⟨hsize, fun hfile => ?_⟩, ⟨ht.sound.block, ht.sound.counted⟩,
    ⟨header, ht.stream, hmembers⟩, ?_, ht.parents, ?_, ht.finished⟩
  · rw [htype] at hfile
    cases hfile
  · show t.unstable ++ _ = _
    rw [ht.unstable, Arrival.stable, htype]
  · show t.endedEarly = _
    rw [ht.endedEarly, if_neg Bool.false_ne_true, List.append_nil]

theorem writeDir_spec (hm : entry.member.Written) (htype : entry.type = .dir) (hs : s.Sound) :
    Enters disk sha256 s ⟨index, entry, real⟩ s.parents (writeDir disk entry) := by
  have hmember : entry.member = {
      name := entry.path ++ "/", mode := entry.mode, size := 0, mtime := entry.mtime
      typeflag := .dir } := by
    rw [PackEntry.member, htype]
  have hsize : ([] : Bytes).length = entry.member.size := by
    rw [hmember]
    rfl
  unfold writeDir
  rw [← hmember]
  refine (putHeader_spec disk hm hs).weaken fun _ t ⟨header, hheader, ht⟩ => ?_
  have hmembers := hm.isMembers hheader hsize
  rw [show header ++ Pax.padded [] = header from List.append_nil _] at hmembers
  refine ⟨⟨[], false⟩, ht.entered disk ⟨hsize, fun hfile => ?_⟩ hmembers ?_⟩
  · rw [htype] at hfile
    cases hfile
  · rw [Arrival.stable, htype]

theorem writePrepared_spec {content : Bytes} (hm : entry.member.Written)
    (htype : entry.type = .file) (hcontent : entry.content = some content) (hs : s.Sound) :
    Enters disk sha256 s ⟨index, entry, real⟩ s.parents (writePrepared disk entry content) := by
  have hmember : entry.member = {
      name := entry.path, mode := entry.mode, size := content.length, mtime := entry.mtime
      typeflag := .file } := by
    rw [PackEntry.member, htype, hcontent]
  have hsize : content.length = entry.member.size := by rw [hmember]
  unfold writePrepared
  rw [← hmember]
  refine .bind (putHeader_spec disk hm hs) fun _ t ⟨header, hheader, ht⟩ => ?_
  have hpadded := puts_bind disk (puts_put disk content) (puts_zeros disk (paddingFor content.length))
  refine (hpadded t ht.sound).weaken fun _ u hu => ⟨⟨content, false⟩, ?_⟩
  refine (ht.trans hu).entered disk ⟨hsize, fun _ given hgiven => ?_⟩ (hm.isMembers hheader hsize) ?_
  · rw [hcontent] at hgiven
    exact Option.some.inj hgiven
  · rw [Arrival.stable, htype, hcontent]

/-! ### The folders above -/

variable {win32 : Bool}

theorem inRoot_spec (hlooked : isLookedUp entry = true) :
    RunsFrom disk.Stops s (inRoot disk win32 index entry) fun real t =>
      real = (lookedUp disk win32 index entry s.parents).1 ∧
        t = { s with parents := (lookedUp disk win32 index entry s.parents).2 } := by
  unfold inRoot lookedUp
  rw [hlooked, if_neg (by decide : ¬ true = false)]
  split
  · exact .pure ⟨rfl, rfl⟩
  · unfold parentsInRoot
    exact .get (.set (.pure ⟨rfl, rfl⟩))

/-- An entry that is not looked up is written whatever the folders above it are. -/
theorem enters_own {code : Pack Unit} (hown : isLookedUp entry = false)
    (hcode : Enters disk sha256 s ⟨index, entry, true⟩ s.parents code) :
    Enters disk sha256 s ⟨index, entry, (lookedUp disk win32 index entry s.parents).1⟩
      (lookedUp disk win32 index entry s.parents).2 code := by
  have hlooked : lookedUp disk win32 index entry s.parents = (true, s.parents) := if_pos hown
  rw [hlooked]
  exact hcode

theorem enters_lookedUp {rest : Bool → Pack Unit} (hlooked : isLookedUp entry = true)
    (hs : s.Sound) (hrest : ∀ real, ∀ t : Packing, t.Sound →
      Enters disk sha256 t ⟨index, entry, real⟩ t.parents (rest real)) :
    Enters disk sha256 s ⟨index, entry, (lookedUp disk win32 index entry s.parents).1⟩
      (lookedUp disk win32 index entry s.parents).2 (inRoot disk win32 index entry >>= rest) := by
  refine .bind (inRoot_spec disk hlooked) fun real t ht => ?_
  obtain ⟨rfl, rfl⟩ := ht
  refine RunsFrom.weaken (hrest _ _ ⟨hs.block, hs.counted⟩) fun _ u ⟨emitted, hentered⟩ =>
    ⟨emitted, ?_⟩
  refine Packing.Entered.after disk ?_ ?_ ?_ ?_ hentered <;> rfl

/-- **What one entry adds.** -/
theorem writeEntry_spec (hm : entry.member.Written) (hs : s.Sound) :
    Enters disk sha256 s ⟨index, entry, (lookedUp disk win32 index entry s.parents).1⟩
      (lookedUp disk win32 index entry s.parents).2
      (writeEntry disk sha256 win32 index entry) := by
  unfold writeEntry
  refine .bind (puts_throwIfAborted disk s hs) fun _ t ht => ?_
  rw [← ht.parents]
  suffices hentry : ∀ code, Enters disk sha256 t
      ⟨index, entry, (lookedUp disk win32 index entry t.parents).1⟩
      (lookedUp disk win32 index entry t.parents).2 code →
      RunsFrom disk.Stops t code fun _ u => ∃ emitted, s.Entered disk sha256
        ⟨index, entry, (lookedUp disk win32 index entry t.parents).1⟩
        (lookedUp disk win32 index entry t.parents).2 emitted u by
    refine hentry _ ?_
    split
    · next htype =>
        refine enters_own disk ?_ (writeDir_spec disk hm htype ht.sound)
        rw [isLookedUp, htype]
    · next content htype hcontent =>
        refine enters_own disk ?_ (writePrepared_spec disk hm htype hcontent ht.sound)
        rw [isLookedUp, htype, hcontent]
    · next htype hcontent =>
        have hfile : isLookedUp entry = !isStaged entry := by rw [isLookedUp, htype, hcontent]
        split
        · next hstaged =>
            refine enters_own disk ?_ (writeFile_spec disk hm htype hcontent ht.sound)
            rw [hfile, hstaged]
            rfl
        · next hstaged =>
            refine enters_lookedUp disk ?_ ht.sound fun real u hu =>
              writeFile_spec disk hm htype hcontent hu
            rw [hfile, Bool.eq_false_iff.mpr hstaged]
            rfl
    · next htype =>
        refine enters_lookedUp disk ?_ ht.sound fun real u hu => writeLink_spec disk hm htype hu
        rw [isLookedUp, htype]
  intro code hcode
  refine RunsFrom.weaken hcode fun _ u ⟨emitted, hentered⟩ => ⟨emitted, ?_⟩
  refine hentered.after disk ?_ ht.unstable ht.endedEarly ht.finished
  rw [ht.stream, List.append_nil]

end

/-! ## The archive -/

/-- What the entries written so far add. -/
structure Packing.Ran (s : Packing) (sha256 : Bytes → String) (runs : List (Arrival × Emitted))
    (t : Packing) : Prop where
  gives : ∀ run ∈ runs, run.1.Gives run.2
  sound : t.Sound
  stream : ∃ bytes, t.stream = s.stream ++ bytes ∧
    IsMembers bytes (runs.map fun run => run.1.entry.member.read run.2.content)
  unstable : t.unstable = s.unstable ++
    (runs.filter fun run => !run.1.stable disk sha256 run.2).map (·.1.entry.path)
  endedEarly : t.endedEarly = s.endedEarly ++ (runs.filter (·.2.early)).map (·.1.index)
  finished : t.finished = s.finished

theorem Packing.Entered.ran {sha256 : Bytes → String} {s t u : Packing} {v : Arrival}
    {emitted : Emitted} {parents : List (String × Bool)} {runs : List (Arrival × Emitted)}
    (h : s.Entered disk sha256 v parents emitted t) (h' : t.Ran disk sha256 runs u) :
    s.Ran disk sha256 ((v, emitted) :: runs) u := by
  obtain ⟨bytes, hbytes, hmembers⟩ := h.stream
  obtain ⟨others, hothers, hmembers'⟩ := h'.stream
  refine ⟨fun run hrun => ?_, h'.sound, ⟨bytes ++ others, ?_, hmembers.append hmembers'⟩, ?_, ?_,
    h'.finished.trans h.finished⟩
  · rcases List.mem_cons.mp hrun with rfl | hmem
    · exact h.gives
    · exact h'.gives run hmem
  · rw [hothers, hbytes, List.append_assoc]
  · rw [h'.unstable, h.unstable, List.filter_cons, List.append_assoc]
    cases v.stable disk sha256 emitted <;> rfl
  · rw [h'.endedEarly, h.endedEarly, List.filter_cons, List.append_assoc]
    cases emitted.early <;> rfl

/-- **Every entry is there, and the unstable ones are noted**, by induction over the entries. -/
theorem writeEntries_spec {sha256 : Bytes → String} {win32 : Bool} {entries : List PackEntry}
    (hentries : ∀ entry ∈ entries, entry.member.Written) {index : Nat} {s : Packing}
    (hs : s.Sound) :
    RunsFrom disk.Stops s (writeEntries disk sha256 win32 index entries) fun _ t =>
      ∃ runs : List (Arrival × Emitted),
        runs.map (·.1) = arrivalsFrom disk win32 index s.parents entries ∧
          s.Ran disk sha256 runs t := by
  induction entries generalizing index s with
  | nil =>
      refine .pure ⟨[], rfl, fun _ hmem => absurd hmem List.not_mem_nil, hs, ?_, ?_, ?_, rfl⟩
      · exact ⟨[], (List.append_nil _).symm, .nil⟩
      · exact (List.append_nil _).symm
      · exact (List.append_nil _).symm
  | cons entry entries ih =>
      unfold writeEntries
      have hfirst := hentries entry List.mem_cons_self
      have hothers : ∀ entry ∈ entries, entry.member.Written :=
        fun entry hmem => hentries entry (List.mem_cons_of_mem _ hmem)
      refine .bind (writeEntry_spec disk hfirst hs) fun _ t ⟨emitted, hentered⟩ => ?_
      refine (ih hothers hentered.sound).weaken fun _ u ⟨runs, hruns, hran⟩ => ?_
      refine ⟨(_, emitted) :: runs, ?_, hentered.ran disk hran⟩
      rw [List.map_cons, hruns, hentered.parents]
      rfl

/-- The members that are not entries. -/
def smallMembers (createdAtSeconds : Rat) (members : List (String × Bytes)) : List Pax.Member :=
  members.map fun m => (smallMember createdAtSeconds m.1 m.2.length).read m.2

/-- The list of the paths that changed, if there is one. -/
def unstableMembers (paths : List String) : List (String × Bytes) :=
  if paths = [] then [] else [(unstableMember, unstableJson paths)]

section

variable {createdAtSeconds : Rat} {s : Packing}

theorem smallFile_buffer {name : String} {content : Bytes}
    (hm : (smallMember createdAtSeconds name content.length).Written) (hs : s.Sound) :
    RunsFrom disk.Stops s (smallFile disk createdAtSeconds name (bufferSource content))
      fun _ t => ∃ bytes, s.Put bytes t ∧
        IsMembers bytes (smallMembers createdAtSeconds [(name, content)]) := by
  have hflatten : (bufferSource content).chunks.flatten = content := List.append_nil _
  have hfile := smallFile_spec disk (show (smallMember createdAtSeconds name
    (bufferSource content).size).Written from hm) hs
  rw [hflatten] at hfile
  exact hfile.fails fun h => h.resolve_right fun hsized => hsized (congrArg List.length hflatten)

theorem smallFiles_spec {members : List (String × Bytes)}
    (hmembers : ∀ m ∈ members, (smallMember createdAtSeconds m.1 m.2.length).Written)
    (hs : s.Sound) :
    RunsFrom disk.Stops s (smallFiles disk createdAtSeconds members) fun _ t =>
      ∃ bytes, s.Put bytes t ∧ IsMembers bytes (smallMembers createdAtSeconds members) := by
  induction members generalizing s with
  | nil => exact .pure ⟨[], .refl hs, .nil⟩
  | cons m members ih =>
      obtain ⟨name, content⟩ := m
      unfold smallFiles
      have hfirst := smallFile_buffer disk (hmembers _ List.mem_cons_self) hs
      refine .bind hfirst fun _ t ⟨bytes, hput, hmember⟩ => ?_
      refine (ih (fun m hmem => hmembers m (List.mem_cons_of_mem _ hmem)) hput.sound).weaken
        fun _ u ⟨others, hothers, hmembers⟩ => ?_
      exact ⟨bytes ++ others, hput.trans hothers, hmember.append hmembers⟩

theorem sortByPath_eq_nil {paths : List String} : sortByPath id paths = [] ↔ paths = [] := by
  rw [← List.length_eq_zero_iff, (sortByPath_perm id paths).length_eq, List.length_eq_zero_iff]

theorem writeUnstable_spec (hs : s.Sound)
    (hm : (smallMember createdAtSeconds unstableMember
      (unstableJson (sortByPath id s.unstable)).length).Written) :
    RunsFrom disk.Stops s (writeUnstable disk createdAtSeconds) fun _ t =>
      ∃ bytes, Packing.Put { s with unstable := sortByPath id s.unstable } bytes t ∧
        IsMembers bytes (smallMembers createdAtSeconds
          (unstableMembers (sortByPath id s.unstable))) := by
  unfold writeUnstable unstableMembers
  refine .get ?_
  split
  · next hnone =>
      have hsorted := sortByPath_eq_nil.mpr hnone
      rw [if_pos hsorted]
      refine .pure ⟨[], ⟨hs, (List.append_nil _).symm, ?_, rfl, rfl, rfl⟩, .nil⟩
      exact hnone.trans hsorted.symm
  · next hsome =>
      rw [if_neg (mt sortByPath_eq_nil.mp hsome)]
      exact .set (smallFile_buffer disk hm ⟨hs.block, hs.counted⟩)

end

theorem emitLast_spec {s : Packing} (hs : s.Sound) :
    RunsFrom disk.Stops s (emitLast disk) fun _ t => s.Put [] t ∧ t.block = [] := by
  refine .get ?_
  split
  · exact emit_spec disk hs
  · next hempty =>
      exact .pure ⟨.refl hs, List.length_eq_zero_iff.mp (Nat.eq_zero_of_not_pos hempty)⟩

/-- Names that a file system can have, and no header longer than a size field can say. -/
structure PackInput.Written (input : PackInput) : Prop where
  manifest : (smallMember input.createdAtSeconds manifestMember input.manifest.size).Written
  extraMembers : ∀ m ∈ input.extraMembers,
    (smallMember input.createdAtSeconds m.1 m.2.length).Written
  entries : ∀ entry ∈ input.entries, entry.member.Written
  unstable : ∀ paths : List String, paths.Subperm (input.entries.map fun entry => entry.path) →
    (smallMember input.createdAtSeconds unstableMember (unstableJson paths).length).Written

/-- The paths of the entries that were not stable, in the order of the manifest. -/
def unstablePaths (sha256 : Bytes → String) (runs : List (Arrival × Emitted)) : List String :=
  sortByPath id
    ((runs.filter fun run => !run.1.stable disk sha256 run.2).map fun run => run.1.entry.path)

/-- What a reader is to find. -/
def archiveMembers (sha256 : Bytes → String) (input : PackInput)
    (runs : List (Arrival × Emitted)) : List Pax.Member :=
  [(smallMember input.createdAtSeconds manifestMember input.manifest.size).read
      input.manifest.chunks.flatten]
    ++ smallMembers input.createdAtSeconds input.extraMembers
    ++ runs.map (fun run => run.1.entry.member.read run.2.content)
    ++ smallMembers input.createdAtSeconds (unstableMembers (unstablePaths disk sha256 runs))

/-- The archive is whole, and it holds what was written. -/
structure Packing.Archives (sha256 : Bytes → String) (input : PackInput)
    (runs : List (Arrival × Emitted)) (t : Packing) : Prop where
  arrivals : runs.map (·.1) = arrivalsFrom disk input.win32 0 [] input.entries
  gives : ∀ run ∈ runs, run.1.Gives run.2
  read : Pax.readArchive t.emitted.flatten = some (archiveMembers disk sha256 input runs)
  blocks : tarBlock ∣ t.emitted.flatten.length
  ends : List.replicate (2 * tarBlock) 0 <:+ t.emitted.flatten
  tarBytes : t.tarBytes = t.emitted.flatten.length
  unstable : t.unstable = unstablePaths disk sha256 runs
  endedEarly : t.endedEarly = (runs.filter (·.2.early)).map (·.1.index)
  finished : t.finished = true

theorem arrivalsFrom_paths {win32 : Bool} {index : Nat} {parents : List (String × Bool)}
    {entries : List PackEntry} :
    (arrivalsFrom disk win32 index parents entries).map (fun v => v.entry.path) =
      entries.map fun entry => entry.path := by
  induction entries generalizing index parents with
  | nil => rfl
  | cons entry entries ih => rw [arrivalsFrom, List.map_cons, List.map_cons, ih]

/-- **The stream is a whole archive with a member for the manifest, each extra member and each
entry in order, whatever the files do and however the reads go.** An entry is listed as unstable
unless it was read to its end from the file that pass 1 saw, with its size, time and hash, or is a
link that is still there. Only the signal, the output or a manifest that is not as long as it says
stops the writer. -/
theorem write_archives (sha256 : Bytes → String) {input : PackInput} (hinput : input.Written) :
    RunsFrom (disk.Stops ∨ ¬ input.manifest.Sized) {} (write disk sha256 input)
      fun _ t => ∃ runs, t.Archives disk sha256 input runs := by
  unfold write
  generalize hcount : 2 * tarBlock = count
  have hstart : Packing.Sound {} := ⟨Nat.zero_le _, rfl⟩
  refine .bind (smallFile_spec disk hinput.manifest hstart)
    fun _ a ⟨manifest, hmanifest, hfirst⟩ => .fails ?_ .inl
  refine .bind (smallFiles_spec disk hinput.extraMembers hmanifest.sound)
    fun _ b ⟨extras, hextras, hextraMembers⟩ => ?_
  have hbefore := hmanifest.trans hextras
  refine .bind (writeEntries_spec disk hinput.entries hextras.sound)
    fun _ c ⟨runs, harrivals, hran⟩ => ?_
  rw [hbefore.parents] at harrivals
  obtain ⟨entries, hentries, hentryMembers⟩ := hran.stream
  have hunstable : c.unstable =
      (runs.filter fun run => !run.1.stable disk sha256 run.2).map (·.1.entry.path) := by
    rw [hran.unstable, hbefore.unstable]
    rfl
  have hsorted : sortByPath id c.unstable = unstablePaths disk sha256 runs := by
    rw [hunstable]
    rfl
  have hpaths : (sortByPath id c.unstable).Subperm
      (input.entries.map fun entry => entry.path) := by
    have hall : runs.map (·.1.entry.path) = input.entries.map fun entry => entry.path := by
      rw [← arrivalsFrom_paths disk, ← harrivals, List.map_map]
      rfl
    rw [hunstable, ← hall]
    exact (sortByPath_perm id _).subperm.trans (List.filter_sublist.map _).subperm
  refine .bind (writeUnstable_spec disk hran.sound (hinput.unstable _ hpaths))
    fun _ d ⟨listed, hlisted, hlistMembers⟩ => ?_
  rw [hsorted] at hlistMembers
  refine .bind (puts_zeros disk _ d hlisted.sound) fun _ e he => ?_
  refine .bind (emitLast_spec disk he.sound) fun _ f ⟨hlast, hempty⟩ => ?_
  have hstream : f.emitted.flatten =
      manifest ++ extras ++ entries ++ listed ++ List.replicate count 0 := calc
    f.emitted.flatten = f.stream := by rw [Packing.stream, hempty, List.append_nil]
    _ = d.stream ++ List.replicate count 0 := by rw [hlast.stream, he.stream, List.append_nil]
    _ = c.stream ++ listed ++ List.replicate count 0 := by
      rw [hlisted.stream]
      rfl
    _ = _ := by
      rw [hentries, hbefore.stream]
      rfl
  rw [← hcount] at hstream
  have hmembers := ((hfirst.append hextraMembers).append hentryMembers).append hlistMembers
  refine .modify ⟨runs, harrivals, hran.gives, ?_, ?_, ⟨_, hstream.symm⟩, hlast.sound.counted, ?_,
    ?_, rfl⟩
  · show Pax.readArchive f.emitted.flatten = _
    rw [hstream, archiveMembers]
    have hread := hmembers.holds.readArchive
    exact hread
  · show tarBlock ∣ f.emitted.flatten.length
    rw [hstream, List.length_append, List.length_replicate]
    exact Nat.dvd_add hmembers.whole (Nat.dvd_mul_left _ _)
  · show f.unstable = _
    rw [hlast.unstable, he.unstable, hlisted.unstable, ← hsorted]
  · show f.endedEarly = _
    rw [hlast.endedEarly, he.endedEarly, hlisted.endedEarly]
    show c.endedEarly = _
    rw [hran.endedEarly, hbefore.endedEarly]
    rfl

end

/-! ### A file of one zero byte that cannot be read -/

/-- A file of one zero byte, with the content itself for its hash. -/
def exampleZero : PackEntry where
  path := "a"
  type := .file
  mode := 0o644
  size := 1
  sha256 := some (String.ofList [Pax.charOf 0])
  statKey := some ⟨1, 0, 0, 1⟩
  size_nonneg := by decide

def exampleInput : PackInput where
  manifest := bufferSource []
  createdAtSeconds := 0
  entries := [exampleZero]

/-- The file is opened and is what pass 1 saw, but every read of it fails. -/
def exampleUnreadable : PackDisk where
  file _ := some ⟨true, 1, 0, 0, 1⟩
  opens _ := true
  read _ _ := none
  isDirectory _ _ := true
  outsideFolderIsReal _ := true
  isLink _ := false
  readlink _ := none
  aborted _ := false
  takes _ := true

def exampleHash (content : Bytes) : String := String.ofList (content.map Pax.charOf)

theorem exampleInput_written : exampleInput.Written where
  manifest := ⟨by decide +kernel, by decide +kernel⟩
  extraMembers _ hmem := absurd hmem List.not_mem_nil
  entries := by
    intro entry hmem
    rw [List.mem_singleton.mp hmem]
    exact ⟨by decide +kernel, by decide +kernel⟩
  unstable := by
    intro paths hpaths
    have hle := hpaths.length_le
    have hsub := hpaths.subset
    cases paths with
    | nil => exact ⟨by decide +kernel, by decide +kernel⟩
    | cons path rest =>
        cases rest with
        | nil =>
            rw [List.mem_singleton.mp (hsub List.mem_cons_self)]
            exact ⟨by decide +kernel, by decide +kernel⟩
        | cons other rest => exact absurd hle (by simp [exampleInput])

/-- Nothing stops this run, so it ends with the archive. -/
theorem write_archives_example : ∃ t runs,
    (write exampleUnreadable exampleHash exampleInput).run.run {} = (.ok (), t) ∧
      t.Archives exampleUnreadable exampleHash exampleInput runs := by
  have hstops : ¬ (exampleUnreadable.Stops ∨ ¬ exampleInput.manifest.Sized) := by
    rintro ((⟨_, h⟩ | ⟨_, h⟩) | h)
    · cases h
    · cases h
    · exact h rfl
  have hrun : RunsFrom (exampleUnreadable.Stops ∨ ¬ exampleInput.manifest.Sized) {}
      (write exampleUnreadable exampleHash exampleInput)
      fun _ t => ∃ runs, t.Archives exampleUnreadable exampleHash exampleInput runs := by
    refine write_archives exampleUnreadable exampleHash ?_
    exact exampleInput_written
  generalize write exampleUnreadable exampleHash exampleInput = code at hrun ⊢
  cases hend : code.run.run {} with
  | mk answer t =>
      cases answer with
      | ok _ =>
          obtain ⟨runs, harchives⟩ := hrun.ok hend
          exact ⟨t, runs, rfl, harchives⟩
      | error _ => exact absurd (hrun.error hend) hstops

/-- The zeros that stand for the file have its hash, and the file is the same, but it is listed. -/
theorem unreadable_zero_listed :
    ((write exampleUnreadable exampleHash exampleInput).run.run {}).2.unstable = ["a"] ∧
      ((((write exampleUnreadable exampleHash exampleInput).run.run {}).2.emitted.flatten.drop
        (2 * tarBlock)).take 1 = [0]) ∧
      some (exampleHash [0]) = exampleZero.sha256 ∧
      (openEntry exampleUnreadable 0 exampleZero true).any (isSameStat exampleZero) = true := by
  decide +kernel
end OmniRush.Archive
