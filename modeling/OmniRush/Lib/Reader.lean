import OmniRush.Lib.Bytes

/-!
# Streams that are read

A reader answers a request for some bytes with at least one and at most that many, as
they come, or says that the stream is at its end. What it still has to give, `rest`, does
not depend on where it stops; code that goes by `rest` alone works for every reader. Two
readers are here: the chunks a connection delivers, and a buffer in front of a reader.

`readFull` asks until it has the bytes it needs. `readSlice` and `readLine` take a line out
of the buffer, in pieces where the buffer is too small for it.
-/

namespace OmniRush

structure Reader (σ : Type) where
  rest : σ → Bytes
  read : σ → Nat → Option (Bytes × σ)
  read_none : ∀ {s n}, 0 < n → read s n = none → rest s = []
  read_some : ∀ {s n bytes t}, 0 < n → read s n = some (bytes, t) →
    bytes ≠ [] ∧ bytes.length ≤ n ∧ rest s = bytes ++ rest t

/-! ## Chunks -/

def readChunk : List Bytes → Nat → Option (Bytes × List Bytes)
  | [], _ => none
  | chunk :: chunks, n =>
      if chunk = [] then readChunk chunks n else some (chunk.take n, chunk.drop n :: chunks)

theorem readChunk_none {chunks : List Bytes} {n : Nat} (h : readChunk chunks n = none) :
    chunks.flatten = [] := by
  induction chunks with
  | nil => rfl
  | cons chunk chunks ih =>
      unfold readChunk at h
      split at h
      · next hnil => rw [List.flatten_cons, hnil, ih h, List.append_nil]
      · cases h

theorem readChunk_some {chunks : List Bytes} {n : Nat} {bytes : Bytes} {more : List Bytes}
    (hn : 0 < n) (h : readChunk chunks n = some (bytes, more)) :
    bytes ≠ [] ∧ bytes.length ≤ n ∧ chunks.flatten = bytes ++ more.flatten := by
  induction chunks with
  | nil => cases h
  | cons chunk chunks ih =>
      unfold readChunk at h
      split at h
      · next hnil =>
          rw [List.flatten_cons, hnil, List.nil_append]
          exact ih h
      · next hne =>
          cases h
          refine ⟨?_, List.length_take_le .., ?_⟩
          · rw [Ne, List.take_eq_nil_iff]
            rintro (h | h)
            · omega
            · exact hne h
          · rw [List.flatten_cons, List.flatten_cons, ← List.append_assoc, List.take_append_drop]

/-- What a connection delivers, chunk by chunk. -/
def chunkReader : Reader (List Bytes) where
  rest := List.flatten
  read := readChunk
  read_none _ h := readChunk_none h
  read_some hn h := readChunk_some hn h

/-! ## A buffer -/

structure Buffered (σ : Type) where
  buffer : Bytes
  source : σ

variable {σ : Type}

/-- A request that is no smaller than the buffer goes past it. -/
def Reader.readBuffered (r : Reader σ) (size : Nat) (s : Buffered σ) (n : Nat) :
    Option (Bytes × Buffered σ) :=
  if s.buffer ≠ [] then some (s.buffer.take n, ⟨s.buffer.drop n, s.source⟩)
  else if size ≤ n then (r.read s.source n).map fun (bytes, t) => (bytes, ⟨[], t⟩)
  else (r.read s.source size).map fun (bytes, t) => (bytes.take n, ⟨bytes.drop n, t⟩)

theorem take_ne_nil {bytes : Bytes} {n : Nat} (hn : 0 < n) (h : bytes ≠ []) :
    bytes.take n ≠ [] := by
  rw [Ne, List.take_eq_nil_iff]
  rintro (hzero | hnil)
  · omega
  · exact h hnil

/-- A buffer in front of a reader. -/
def Reader.buffered (r : Reader σ) (size : Nat) (hsize : 0 < size) : Reader (Buffered σ) where
  rest s := s.buffer ++ r.rest s.source
  read := r.readBuffered size
  read_none {s n} hn h := by
    unfold readBuffered at h
    split at h
    · cases h
    · next hnil =>
        rw [Decidable.not_not.mp hnil]
        split at h
        · exact r.read_none hn (Option.map_eq_none_iff.mp h)
        · exact r.read_none hsize (Option.map_eq_none_iff.mp h)
  read_some {s n bytes t} hn h := by
    unfold readBuffered at h
    split at h
    · next hne =>
        cases h
        refine ⟨take_ne_nil hn hne, List.length_take_le .., ?_⟩
        rw [← List.append_assoc, List.take_append_drop]
    · next hnil =>
        rw [Decidable.not_not.mp hnil]
        split at h
        · obtain ⟨⟨read, source⟩, hread, heq⟩ := Option.map_eq_some_iff.mp h
          cases heq
          exact r.read_some hn hread
        · obtain ⟨⟨read, source⟩, hread, heq⟩ := Option.map_eq_some_iff.mp h
          cases heq
          obtain ⟨hne, -, hrest⟩ := r.read_some hsize hread
          refine ⟨take_ne_nil hn hne, List.length_take_le .., ?_⟩
          rw [← List.append_assoc, List.take_append_drop]
          exact hrest

/-! ## All the bytes that are needed -/

inductive ReadError where
  | eof
  | unexpectedEof
deriving DecidableEq

/-- Reads until there are enough bytes or there are no more. Every read brings one, so that
as many turns are enough. -/
def Reader.readLoop (r : Reader σ) : Nat → Bytes → σ → Nat → Bytes × σ
  | 0, bytes, s, _ => (bytes, s)
  | fuel + 1, bytes, s, need =>
      if need = 0 then (bytes, s)
      else
        match r.read s need with
        | none => (bytes, s)
        | some (more, t) => r.readLoop fuel (bytes ++ more) t (need - more.length)

def Reader.readFull (r : Reader σ) (s : σ) (n : Nat) : Except ReadError (Bytes × σ) :=
  let (bytes, t) := r.readLoop n [] s n
  if bytes.length < n then .error (if bytes = [] then .eof else .unexpectedEof)
  else .ok (bytes, t)

theorem Reader.readLoop_spec (r : Reader σ) (fuel : Nat) (bytes : Bytes) (s : σ) {need : Nat}
    (h : need ≤ fuel) : (r.readLoop fuel bytes s need).1 = bytes ++ (r.rest s).take need ∧
      r.rest (r.readLoop fuel bytes s need).2 = (r.rest s).drop need := by
  induction fuel generalizing bytes s need with
  | zero =>
      have hneed : need = 0 := by omega
      rw [readLoop, hneed]
      simp
  | succ fuel ih =>
      unfold readLoop
      split
      · next hneed =>
          rw [hneed]
          simp
      · next hneed =>
          have hpos : 0 < need := by omega
          split
          · next hread =>
              rw [r.read_none hpos hread]
              simp
          · next more t hread =>
              obtain ⟨hne, hle, hrest⟩ := r.read_some hpos hread
              have hmore : 0 < more.length := List.length_pos_iff.mpr hne
              have hless : need - more.length ≤ fuel := by omega
              obtain ⟨hbytes, hleft⟩ := ih (bytes ++ more) t hless
              rw [hbytes, hleft, hrest, List.take_append, List.drop_append,
                List.take_of_length_le hle, List.drop_of_length_le hle]
              simp

theorem Reader.readFull_ok (r : Reader σ) {s : σ} {n : Nat} (h : n ≤ (r.rest s).length) :
    ∃ t, r.readFull s n = .ok ((r.rest s).take n, t) ∧ r.rest t = (r.rest s).drop n := by
  obtain ⟨hbytes, hrest⟩ := r.readLoop_spec n [] s (Nat.le_refl n)
  rw [List.nil_append] at hbytes
  refine ⟨_, ?_, hrest⟩
  unfold readFull
  dsimp only
  rw [hbytes, if_neg (by rw [List.length_take]; omega)]

theorem Reader.readFull_short (r : Reader σ) {s : σ} {n : Nat} (h : (r.rest s).length < n) :
    ∃ e, r.readFull s n = .error e := by
  obtain ⟨hbytes, -⟩ := r.readLoop_spec n [] s (Nat.le_refl n)
  rw [List.nil_append] at hbytes
  unfold readFull
  dsimp only
  rw [hbytes, if_pos (by rw [List.length_take]; omega)]
  exact ⟨_, rfl⟩

/-! ## Lines -/

inductive SliceEnd where
  | found
  | full
  | eof
deriving DecidableEq

/-- The bytes through the first delimiter, or all of a buffer that has none and is full, or
what is left at the end. -/
def Reader.readSlice (r : Reader σ) (size : Nat) (delim : UInt8) :
    Nat → Buffered σ → SliceEnd × Bytes × Buffered σ
  | 0, s => (.full, s.buffer, ⟨[], s.source⟩)
  | fuel + 1, s =>
      if delim ∈ s.buffer then
        let i := s.buffer.idxOf delim + 1
        (.found, s.buffer.take i, ⟨s.buffer.drop i, s.source⟩)
      else if size ≤ s.buffer.length then (.full, s.buffer, ⟨[], s.source⟩)
      else
        match r.read s.source (size - s.buffer.length) with
        | none => (.eof, s.buffer, ⟨[], s.source⟩)
        | some (more, t) => r.readSlice size delim fuel ⟨s.buffer ++ more, t⟩

/-- A line without its `\n` or `\r\n`. -/
def dropLineEnd (line : Bytes) : Bytes :=
  if line.getLast? = some 10 then
    if line.dropLast.getLast? = some 13 then line.dropLast.dropLast else line.dropLast
  else line

/-- A line, or a piece of one that goes on; no line at the end of the stream. A `\r` at the end
of a piece is put back, since it may belong to the end of the line. -/
def Reader.readLine (r : Reader σ) (size : Nat) (s : Buffered σ) :
    Option (Bytes × Bool × Buffered σ) :=
  match r.readSlice size 10 (size + 1) s with
  | (.full, line, t) =>
      if line.getLast? = some 13 then some (line.dropLast, true, ⟨[13], t.source⟩)
      else some (line, true, t)
  | (_, line, t) => if line = [] then none else some (dropLineEnd line, false, t)

theorem append_cases {delim : UInt8} {buffer rest line more : Bytes}
    (h : buffer ++ rest = line ++ delim :: more) (hline : delim ∉ line) :
    (delim ∈ buffer ∧ ∃ tail, buffer = line ++ delim :: tail ∧ tail ++ rest = more) ∨
    (delim ∉ buffer ∧ ∃ tail, line = buffer ++ tail ∧ rest = tail ++ delim :: more) := by
  rcases List.append_eq_append_iff.mp h with ⟨tail, hline', hrest⟩ | ⟨tail, hbuffer, hmore⟩
  · refine .inr ⟨fun hmem => hline ?_, tail, hline', hrest⟩
    rw [hline']
    exact List.mem_append_left _ hmem
  · cases tail with
    | nil =>
        rw [List.append_nil] at hbuffer
        refine .inr ⟨hbuffer ▸ hline, [], by rw [hbuffer, List.append_nil], hmore.symm⟩
    | cons d tail =>
        rw [List.cons_append, List.cons.injEq] at hmore
        obtain ⟨rfl, rfl⟩ := hmore
        refine .inl ⟨?_, tail, hbuffer, rfl⟩
        rw [hbuffer]
        simp

/-- However the reader answers, a line is found when the buffer can hold it with its end, and
fills the buffer when not. -/
theorem Reader.readSlice_spec (r : Reader σ) {size : Nat} {delim : UInt8} (fuel : Nat)
    {s : Buffered σ} {line more : Bytes} (hfuel : size - s.buffer.length < fuel)
    (hsize : s.buffer.length ≤ size)
    (hrest : s.buffer ++ r.rest s.source = line ++ delim :: more) (hline : delim ∉ line) :
    (line.length < size ∧ ∃ t, r.readSlice size delim fuel s = (.found, line ++ [delim], t) ∧
      t.buffer.length ≤ size ∧ t.buffer ++ r.rest t.source = more) ∨
    (size ≤ line.length ∧ ∃ t, r.readSlice size delim fuel s = (.full, line.take size, t) ∧
      t.buffer = [] ∧ r.rest t.source = line.drop size ++ delim :: more) := by
  induction fuel generalizing s with
  | zero => omega
  | succ fuel ih =>
      unfold readSlice
      rcases append_cases hrest hline with ⟨hmem, tail, hbuffer, hmore⟩ | ⟨hnone, tail, hbuffer, hmore⟩
      · rw [if_pos hmem]
        have hindex : s.buffer.idxOf delim = line.length := by
          rw [hbuffer, List.idxOf_append, if_neg hline, List.idxOf_cons_self, Nat.zero_add]
        have hcut : s.buffer = line ++ [delim] ++ tail := by
          rw [hbuffer, List.append_assoc]
          rfl
        have hlength : (line ++ [delim]).length = line.length + 1 := by simp
        have hall : s.buffer.length = line.length + 1 + tail.length := by
          rw [hcut, List.length_append, hlength]
        refine .inl ⟨by omega, ⟨tail, s.source⟩, ?_, ?_, ?_⟩
        · dsimp only
          rw [hindex, hcut, ← hlength, List.take_left, List.drop_left]
        · dsimp only
          omega
        · exact hmore
      · rw [if_neg hnone]
        split
        · next hfull =>
            have hlength : s.buffer.length = size := by omega
            refine .inr ⟨?_, ⟨[], s.source⟩, ?_, rfl, ?_⟩
            · rw [hbuffer, List.length_append]
              omega
            · rw [hbuffer, ← hlength, List.take_left]
            · rw [hbuffer, ← hlength, List.drop_left]
              exact hmore
        · next hroom =>
            have hpos : 0 < size - s.buffer.length := by omega
            split
            · next hread =>
                rw [r.read_none hpos hread] at hmore
                simp at hmore
            · next read t hread =>
                obtain ⟨hne, hle, hcut⟩ := r.read_some hpos hread
                have hread : 0 < read.length := List.length_pos_iff.mpr hne
                refine ih (s := ⟨s.buffer ++ read, t⟩) ?_ ?_ ?_
                · rw [List.length_append]
                  omega
                · rw [List.length_append]
                  omega
                · rw [List.append_assoc, ← hcut]
                  exact hrest

theorem dropLineEnd_append {line : Bytes} (h : line.getLast? ≠ some 13) :
    dropLineEnd (line ++ [10]) = line := by
  unfold dropLineEnd
  rw [List.getLast?_concat, if_pos rfl, List.dropLast_concat, if_neg h]

/-- A line that does not end in `\r` comes whole, or in a piece that is not empty and a rest. -/
theorem Reader.readLine_spec (r : Reader σ) {size : Nat} (htwo : 2 ≤ size) {s : Buffered σ}
    {line more : Bytes} (hsize : s.buffer.length ≤ size)
    (hrest : s.buffer ++ r.rest s.source = line ++ 10 :: more) (hline : 10 ∉ line)
    (hlast : line.getLast? ≠ some 13) :
    (∃ t, r.readLine size s = some (line, false, t) ∧ t.buffer.length ≤ size ∧
      t.buffer ++ r.rest t.source = more) ∨
    ∃ piece tail t, line = piece ++ tail ∧ piece ≠ [] ∧ tail.getLast? ≠ some 13 ∧
      r.readLine size s = some (piece, true, t) ∧ t.buffer.length ≤ size ∧
      t.buffer ++ r.rest t.source = tail ++ 10 :: more := by
  unfold readLine
  rcases r.readSlice_spec (size + 1) (by omega) hsize hrest hline with
    ⟨-, t, hslice, htsize, htrest⟩ | ⟨hlong, t, hslice, hbuffer, htrest⟩
  · rw [hslice]
    refine .inl ⟨t, ?_, htsize, htrest⟩
    dsimp only
    rw [if_neg (by simp), dropLineEnd_append hlast]
  · rw [hslice]
    have htail : ∀ {piece tail : Bytes}, line = piece ++ tail → tail.getLast? ≠ some 13 := by
      rintro piece tail rfl htail
      rw [List.getLast?_append, htail] at hlast
      exact hlast rfl
    have htake : 0 < (line.take size).length := by
      rw [List.length_take]
      omega
    dsimp only
    split
    · next hreturn =>
        -- The piece without its `\r`, which is first in what is left.
        have hne : line.take size ≠ [] := List.length_pos_iff.mp htake
        have hsplit : (line.take size).dropLast ++ [13] = line.take size := by
          rw [List.getLast?_eq_some_getLast hne, Option.some.injEq] at hreturn
          rw [← hreturn, List.dropLast_concat_getLast]
        have hwhole : line = (line.take size).dropLast ++ ([13] ++ line.drop size) := by
          rw [← List.append_assoc, hsplit, List.take_append_drop]
        refine .inr ⟨_, _, _, hwhole, ?_, htail hwhole, rfl, ?_, ?_⟩
        · refine List.length_pos_iff.mp ?_
          rw [List.length_dropLast, List.length_take]
          omega
        · exact Nat.le_trans (by simp) htwo
        · rw [htrest, List.append_assoc]
    · refine .inr ⟨_, _, t, (List.take_append_drop size line).symm, List.length_pos_iff.mp htake,
        htail (List.take_append_drop size line).symm, rfl, ?_, ?_⟩
      · rw [hbuffer]
        exact Nat.zero_le _
      · rw [hbuffer]
        exact htrest

end OmniRush
