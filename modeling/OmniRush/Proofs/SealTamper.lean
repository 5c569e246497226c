import OmniRush.Proofs.SealRoundTrip
import OmniRush.Seal.Opener

/-!
# Altered streams are rejected

A stream that opens is the sealed stream. The first frame decrypts, so its key, nonce
and associated data are those of a call of the seal. The associated data holds the
header's hash, which fixes the header, and the nonce and the final flag fix the frame's
place. Frame by frame the ciphertext, the tag and from them the length are those that
were written, and the opener stops where the seal stopped (`openFrames_genuine`).

Two alterations have an error of their own, the cut at a frame boundary and the stream
that goes on. The frame that misleads the opener is full there, and decrypts only under
the flag it was not taken for (`openFrames_misjudged`).
-/

namespace OmniRush.Seal

open OmniRush

/-! ## Calls and frames -/

theorem chunks_of_le {size : Nat} {plain : Bytes} (h : plain.length ≤ size) :
    chunks size plain = [plain] := by
  rw [chunks, dif_pos (.inr h)]

theorem Cut.chunks_eq {size : Nat} {plain : Bytes} {emitted : List Bytes} {rest : Bytes}
    (h : Cut size plain emitted rest) (hsize : 0 < size) :
    chunks size plain = emitted ++ [rest] := by
  induction emitted generalizing plain with
  | nil =>
      have hplain : plain = rest := h.plain_eq
      rw [hplain, chunks_of_le h.rest_le]
      rfl
  | cons p ps ih =>
      have hp := h.full p (List.mem_cons_self ..)
      have hrest := h.held (List.cons_ne_nil _ _)
      have hplain : plain = p ++ (ps.flatten ++ rest) := by
        rw [h.plain_eq, List.flatten_cons, List.append_assoc]
      have hpos := List.length_pos_iff.mpr hrest
      have hlen := congrArg List.length hplain
      rw [List.length_append, List.length_append] at hlen
      have hdrop : plain.drop size = ps.flatten ++ rest := by rw [hplain, ← hp, List.drop_left]
      have htake : plain.take size = p := by rw [hplain, ← hp, List.take_left]
      have hps := @ih (plain.drop size)
        ⟨hdrop, fun q hq => h.full q (List.mem_cons_of_mem _ hq), h.rest_le, fun _ => hrest⟩
      rw [chunks, dif_neg (by omega), htake, hps]
      rfl

theorem mem_frameCalls {key headerHash : Bytes} {index : Nat} {ps : List Bytes} {call : Call}
    (h : call ∈ frameCalls key headerHash index ps) :
    ∃ j p, ps[j]? = some p ∧
      call = ⟨key, frameNonce (index + j), frameAad headerHash (index + j)
        (decide (j + 1 = ps.length)), p⟩ := by
  induction ps generalizing index with
  | nil => cases h
  | cons p ps ih =>
      rcases List.mem_cons.mp h with rfl | h
      · refine ⟨0, p, rfl, ?_⟩
        cases ps <;> simp
      · obtain ⟨j, q, hq, hcall⟩ := ih h
        refine ⟨j + 1, q, hq, ?_⟩
        rw [hcall, List.length_cons, Nat.add_assoc, Nat.add_comm 1 j]
        simp

theorem frameCalls_length (key headerHash : Bytes) (index : Nat) (ps : List Bytes) :
    (frameCalls key headerHash index ps).length = ps.length := by
  induction ps generalizing index with
  | nil => rfl
  | cons p ps ih => rw [frameCalls, List.length_cons, ih, List.length_cons]

theorem frameNonce_inj {i j : Nat} (hi : i < 2 ^ 64) (hj : j < 2 ^ 64)
    (h : frameNonce i = frameNonce j) : i = j := by
  have hbytes : beBytes 8 i = beBytes 8 j := List.append_cancel_left h
  exact beBytes_inj (by omega) (by omega) hbytes

theorem frameAad_inj {hash hash' : Bytes} {index index' : Nat} {final final' : Bool}
    (hlen : hash.length = hash'.length)
    (h : frameAad hash index final = frameAad hash' index' final') :
    hash = hash' ∧ final = final' := by
  unfold frameAad at h
  rw [List.append_assoc, List.append_assoc] at h
  obtain ⟨hhash, htail⟩ := List.append_inj h hlen
  obtain ⟨-, hflag⟩ := List.append_inj htail (by simp)
  refine ⟨hhash, ?_⟩
  cases final <;> cases final' <;> first | rfl | exact absurd hflag (by decide)

section

variable {c : Primitives}

theorem Call.frame_eq (key headerHash : Bytes) (index : Nat) (final : Bool) (p : Bytes) :
    Call.frame c ⟨key, frameNonce index, frameAad headerHash index final, p⟩
      = (encryptFrame c key headerHash index final p).flatten := by
  rw [encryptFrame_flatten]
  rfl

theorem frames_flatten (key headerHash : Bytes) (index : Nat) (emitted : List Bytes)
    (rest : Bytes) :
    ((frameCalls key headerHash index (emitted ++ [rest])).map (Call.frame c)).flatten
      = runningFrames c key headerHash index emitted
        ++ (encryptFrame c key headerHash (index + emitted.length) true rest).flatten := by
  induction emitted generalizing index with
  | nil =>
      show (Call.frame c _ ++ []) = _
      rw [Call.frame_eq, List.append_nil]
      rfl
  | cons p ps ih =>
      have hmore : (ps ++ [rest]).isEmpty = false := by cases ps <;> rfl
      have hlast : index + 1 + ps.length = index + (p :: ps).length := by
        rw [List.length_cons]
        omega
      rw [List.cons_append, frameCalls, List.map_cons, List.flatten_cons, ih, runningFrames,
        List.append_assoc, Call.frame_eq, hmore, hlast]

theorem frames_take (key headerHash : Bytes) (index : Nat) (emitted : List Bytes)
    (rest : Bytes) {j : Nat} (hj : j ≤ emitted.length) :
    (((frameCalls key headerHash index (emitted ++ [rest])).map (Call.frame c)).take j).flatten
      = runningFrames c key headerHash index (emitted.take j) := by
  induction emitted generalizing index j with
  | nil =>
      obtain rfl : j = 0 := Nat.le_zero.mp hj
      rfl
  | cons p ps ih =>
      cases j with
      | zero => rfl
      | succ j =>
          have hmore : (ps ++ [rest]).isEmpty = false := by cases ps <;> rfl
          rw [List.cons_append, frameCalls, List.map_cons, List.take_succ_cons, List.flatten_cons,
            ih _ (Nat.le_of_succ_le_succ hj), List.take_succ_cons, runningFrames, Call.frame_eq,
            hmore]

/-! ## Frames that decrypt -/

/-- A frame of an ideal stream decrypts only as the frame of its index, under that
frame's header and flag. -/
theorem decryptFrame_genuine {key headerHash : Bytes} {ps : List Bytes} {stream : Bytes}
    (hideal : IdealOn c (frameCalls key headerHash 0 ps) stream) (hframes : ps.length ≤ maxFrames)
    {key' headerHash' frame plaintext : Bytes} {index : Nat} {final : Bool}
    (hlen : headerHash'.length = headerHash.length) (hindex : index ≤ maxFrames)
    (hframe : frame <:+: stream) (htag : tagLen ≤ frame.length)
    (hplain : decryptFrame c key' headerHash' index final frame = some plaintext) :
    key' = key ∧ headerHash' = headerHash ∧ final = decide (index + 1 = ps.length) ∧
      ∃ p, ps[index]? = some p ∧
        (encryptFrame c key headerHash index final p).flatten
          = beBytes 4 (p.length + tagLen) ++ frame ∧ frame.length = p.length + tagLen := by
  have hsplit : frame.take (frame.length - tagLen) ++ frame.drop (frame.length - tagLen) = frame :=
    List.take_append_drop ..
  obtain ⟨call, hcall, hkey, hnonce, haad, henc⟩ := hideal key' (frameNonce index)
    (frameAad headerHash' index final) (frame.take (frame.length - tagLen))
    (frame.drop (frame.length - tagLen)) plaintext (by rwa [hsplit])
    (by rw [List.length_drop]; omega) hplain
  obtain ⟨j, p, hp, rfl⟩ := mem_frameCalls hcall
  have hj : j < ps.length := (List.getElem?_eq_some_iff.mp hp).1
  have hsmall : maxFrames < 2 ^ 64 := by decide
  rw [Nat.zero_add] at hnonce haad henc
  obtain rfl : j = index := frameNonce_inj (by omega) (by omega) hnonce
  obtain ⟨hhash, hfinal⟩ := frameAad_inj hlen.symm haad
  refine ⟨hkey.symm, hhash.symm, hfinal.symm, p, hp, ?_, ?_⟩
  · rw [encryptFrame_flatten, ← hfinal]
    rw [henc, hsplit]
  · have hbody := c.encrypt_length key (frameNonce j)
      (frameAad headerHash j (decide (j + 1 = ps.length))) p
    rw [henc, List.length_take] at hbody
    omega

/-- A round of an opener that comes to its end: a whole frame that decrypts under the
flag guessed, and nothing or another round behind it. -/
theorem openFrames_round {header : OpenedHeader} {index : Nat} {r : ByteReader}
    {out : List Bytes} {kid : String} (hopen : openFrames c header index r = (out, .ok kid)) :
    ∃ frame plaintext tail final r', tagLen ≤ frame.length ∧
      r.remaining = beBytes 4 frame.length ++ (frame ++ tail) ∧ r'.remaining = tail ∧
      decryptFrame c header.key header.headerHash index final frame = some plaintext ∧
      ((final = true ∧ tail = []) ∨
        (final = false ∧ ∃ out', openFrames c header (index + 1) r' = (out', .ok kid))) := by
  rw [openFrames] at hopen
  split at hopen
  · cases hopen
  · next h4 =>
      have hraw := ByteReader.read_fst r 4
      have hrest := ByteReader.read_remaining r 4
      have hrawlen : (r.read 4).1.length = 4 := by
        rw [hraw, List.length_take] at h4 ⊢
        omega
      have hbytes := beBytes_beNat (r.read 4).1
      rw [hrawlen] at hbytes
      dsimp only at hopen
      generalize beNat (r.read 4).1 = length at hopen hbytes
      have hframe := ByteReader.read_fst (r.read 4).2 length
      have htail := ByteReader.read_remaining (r.read 4).2 length
      have hmore := ByteReader.more_fst ((r.read 4).2.read length).2
      split at hopen
      · cases hopen
      · next hbounds =>
          split at hopen
          · cases hopen
          · next hwhole =>
              have hflen : ((r.read 4).2.read length).1.length = length := by
                have hle := congrArg List.length hframe
                rw [List.length_take] at hle
                omega
              have hall : r.remaining = beBytes 4 ((r.read 4).2.read length).1.length
                  ++ (((r.read 4).2.read length).1 ++ ((r.read 4).2.read length).2.remaining) := by
                rw [hflen, hbytes, hframe, htail, List.take_append_drop, hrest, hraw,
                  List.take_append_drop]
              split at hopen
              · split at hopen <;> cases hopen
              · next plaintext hplain =>
                  refine ⟨_, plaintext, _, _, ((r.read 4).2.read length).2.more.2, ?_, hall,
                    ByteReader.more_remaining _, hplain, ?_⟩
                  · rw [hflen]
                    exact Nat.le_of_not_lt (not_or.mp hbounds).1
                  · split at hopen
                    · next hfinal =>
                        split at hopen
                        · cases hopen
                        · next hend =>
                            refine .inl ⟨hfinal, ?_⟩
                            rw [hmore] at hend
                            simpa using hend
                    · next hfinal =>
                        obtain ⟨-, hkid⟩ := Prod.mk.inj hopen
                        exact .inr ⟨Bool.eq_false_iff.mpr hfinal, _, Prod.ext rfl hkid⟩

theorem openFrames_genuine {key headerHash : Bytes} {ps : List Bytes} {stream : Bytes}
    (hideal : IdealOn c (frameCalls key headerHash 0 ps) stream) (hframes : ps.length ≤ maxFrames)
    {header : OpenedHeader} (hlen : header.headerHash.length = headerHash.length)
    {index : Nat} (hindex : index ≤ maxFrames) {r : ByteReader} (hr : r.remaining <:+ stream)
    {out : List Bytes} {kid : String} (hopen : openFrames c header index r = (out, .ok kid)) :
    header.headerHash = headerHash ∧
      r.remaining = ((frameCalls key headerHash index (ps.drop index)).map
        (Call.frame c)).flatten := by
  induction hn : r.remaining.length using Nat.strongRecOn generalizing index r out with
  | ind n ih =>
      obtain ⟨frame, plaintext, tail, final, r', htag, hremaining, hr', hplain, hnext⟩ :=
        openFrames_round hopen
      have hpart : frame <:+: stream := by
        obtain ⟨before, hstream⟩ := hr
        refine ⟨before ++ beBytes 4 frame.length, tail, ?_⟩
        rw [← hstream, hremaining]
        simp
      obtain ⟨-, hhash, hfinal, p, hp, hwritten, hplen⟩ :=
        decryptFrame_genuine hideal hframes hlen hindex hpart htag hplain
      obtain ⟨hlt, hget⟩ := List.getElem?_eq_some_iff.mp hp
      have hdrop : ps.drop index = p :: ps.drop (index + 1) := by
        rw [← hget]
        exact List.drop_eq_getElem_cons hlt
      have hlast : (ps.drop (index + 1)).isEmpty = final := by
        rw [hfinal, Bool.eq_iff_iff, List.isEmpty_iff, decide_eq_true_eq, List.drop_eq_nil_iff]
        omega
      have hhead : r.remaining = (encryptFrame c key headerHash index final p).flatten ++ tail := by
        rw [hwritten, hremaining, hplen, List.append_assoc]
      refine ⟨hhash, ?_⟩
      rw [hdrop, frameCalls, List.map_cons, List.flatten_cons, Call.frame_eq, hlast, hhead]
      refine congrArg _ ?_
      rcases hnext with ⟨hfin, htail⟩ | ⟨hfin, out', hrest⟩
      · rw [hfin] at hlast
        rw [htail, List.isEmpty_iff.mp hlast]
        rfl
      · rw [← hr']
        refine (ih _ ?_ (by omega) ?_ hrest rfl).2
        · rw [← hn, hr', hremaining, List.length_append, List.length_append, beBytes_length]
          omega
        · rw [hr']
          refine List.IsSuffix.trans ⟨beBytes 4 frame.length ++ frame, ?_⟩ hr
          rw [hremaining, List.append_assoc]

/-! ## The header -/

theorem openHeaderJson_hash {json : Json} {magic rawLength head : Bytes}
    {keyring : List (String × SealKey c)} {content : SealContent} {header : OpenedHeader}
    (h : openHeaderJson c json magic rawLength head keyring content = .ok header) :
    header.headerHash = (c.sha256 (magic ++ rawLength ++ head)).1 := by
  unfold openHeaderJson at h
  split at h
  · split at h
    · split at h
      · cases h
      · split at h
        · cases h
        · simp only [bind, Except.bind] at h
          split at h
          · cases h
          · split at h
            · cases h
            · split at h
              · cases h
              · split at h
                · cases h
                · cases h
                  rfl
    · cases h
  · cases h

theorem openHeader_hash {r r' : ByteReader} {keyring : List (String × SealKey c)}
    {content : SealContent} {header : OpenedHeader}
    (h : openHeader c r keyring content = .ok (header, r')) :
    ∃ head, r.remaining = head ++ r'.remaining ∧ header.headerHash = (c.sha256 head).1 := by
  unfold openHeader at h
  dsimp only at h
  split at h
  · cases h
  · split at h
    · cases h
    · split at h
      · cases h
      · split at h
        · cases h
        · split at h
          · cases h
          · next json _ =>
              have h8 := ByteReader.read_remaining r 8
              have h4 := ByteReader.read_remaining (r.read 8).2 4
              have hlast := ByteReader.read_remaining ((r.read 8).2.read 4).2
                (beNat ((r.read 8).2.read 4).1)
              cases hjson : openHeaderJson c json (r.read 8).1 ((r.read 8).2.read 4).1
                  (((r.read 8).2.read 4).2.read (beNat ((r.read 8).2.read 4).1)).1
                  keyring content with
              | error e =>
                  rw [hjson] at h
                  cases h
              | ok header' =>
                  rw [hjson] at h
                  cases h
                  refine ⟨_, ?_, openHeaderJson_hash hjson⟩
                  rw [hlast, h4, h8, ByteReader.read_fst, ByteReader.read_fst, ByteReader.read_fst,
                    h4, h8, List.append_assoc, List.append_assoc, List.take_append_drop,
                    List.take_append_drop, List.take_append_drop]

/-! ## Streams cut, and streams that go on -/

theorem decryptFrame_other {key headerHash : Bytes} {ps : List Bytes} {stream : Bytes}
    (hideal : IdealOn c (frameCalls key headerHash 0 ps) stream) (hframes : ps.length ≤ maxFrames)
    {index : Nat} (p : Bytes) (final : Bool) (hindex : index < ps.length)
    (hfinal : final = decide (index + 1 = ps.length))
    (hpart : (encryptFrame c key headerHash index final p).flatten <:+: stream) :
    decryptFrame c key headerHash index (!final)
      ((c.encrypt key (frameNonce index) (frameAad headerHash index final) p).1
        ++ (c.encrypt key (frameNonce index) (frameAad headerHash index final) p).2) = none := by
  rw [encryptFrame_flatten] at hpart
  rw [Option.eq_none_iff_forall_ne_some]
  intro plaintext hplain
  have htag : tagLen ≤ ((c.encrypt key (frameNonce index) (frameAad headerHash index final) p).1
      ++ (c.encrypt key (frameNonce index) (frameAad headerHash index final) p).2).length := by
    rw [List.length_append, c.tag_length]
    exact Nat.le_add_left ..
  obtain ⟨-, -, hflag, -⟩ := decryptFrame_genuine hideal hframes rfl (by omega)
    ((List.suffix_append ..).isInfix.trans hpart) htag hplain
  rw [← hfinal] at hflag
  cases final <;> cases hflag

theorem openFrames_cut {key headerHash : Bytes} {all : List Bytes} {stream : Bytes}
    (hideal : IdealOn c (frameCalls key headerHash 0 all) stream)
    (hframes : all.length ≤ maxFrames) {header : OpenedHeader} (hkey : header.key = key)
    (hhash : header.headerHash = headerHash) (hchunk : header.chunk ≤ sealMaxChunk)
    {ps : List Bytes} (hfull : ∀ p ∈ ps, p.length = header.chunk) {index : Nat}
    (hindex : index + ps.length < all.length) {r : ByteReader}
    (hr : r.remaining = runningFrames c key headerHash index ps) (hsuffix : r.remaining <:+ stream) :
    (openFrames c header index r).2 = .error .truncated := by
  subst hkey
  subst hhash
  induction ps generalizing index r with
  | nil =>
      have hread : (r.read 4).1.length < 4 := by
        rw [ByteReader.read_fst, hr, runningFrames, List.take_nil]
        decide
      rw [openFrames, dif_pos hread]
  | cons p ps ih =>
      have hp := hfull p (List.mem_cons_self ..)
      rw [List.length_cons] at hindex
      rw [runningFrames] at hr
      have hwritten : (encryptFrame c header.key header.headerHash index false p).flatten
          <:+: stream := by
        refine List.IsInfix.trans ?_ hsuffix.isInfix
        rw [hr]
        exact (List.prefix_append ..).isInfix
      cases ps with
      | nil =>
          have hlast : index < all.length ∧ index + 1 ≠ all.length := by omega
          have hother := decryptFrame_other hideal hframes p false hlast.1
            (decide_eq_false hlast.2).symm hwritten
          rw [openFrames_misjudged hr hp hchunk rfl hother]
          rfl
      | cons q qs =>
          have htail : runningFrames c header.key header.headerHash (index + 1) (q :: qs) ≠ [] := by
            rw [runningFrames, encryptFrame_flatten]
            intro hnil
            have hlen := congrArg List.length hnil
            rw [List.length_append, List.length_append, beBytes_length, List.length_nil] at hlen
            omega
          obtain ⟨r', hr', heq⟩ := openFrames_frame hr (Nat.le_of_eq hp) hchunk
            (by rw [decide_eq_true hp, decide_eq_false htail]; rfl)
          rw [heq]
          refine ih (fun x hx => hfull x (List.mem_cons_of_mem _ hx)) (by omega) ?_ hr'
          rw [hr] at hsuffix
          rw [hr']
          exact (List.suffix_append ..).trans hsuffix

theorem openFrames_beyond {key headerHash : Bytes} {all : List Bytes} {stream : Bytes}
    (hideal : IdealOn c (frameCalls key headerHash 0 all) stream)
    (hframes : all.length ≤ maxFrames) {header : OpenedHeader} (hkey : header.key = key)
    (hhash : header.headerHash = headerHash) (hchunk : header.chunk ≤ sealMaxChunk)
    {emitted : List Bytes} {rest extra : Bytes} (hfull : ∀ p ∈ emitted, p.length = header.chunk)
    (hle : rest.length ≤ header.chunk) (hextra : extra ≠ []) {index : Nat}
    (hindex : index + emitted.length + 1 = all.length) {r : ByteReader}
    (hr : r.remaining = runningFrames c key headerHash index emitted
      ++ ((encryptFrame c key headerHash (index + emitted.length) true rest).flatten ++ extra))
    (hsuffix : r.remaining <:+ stream) :
    (openFrames c header index r).2 = .error .frameAfterFinal := by
  subst hkey
  subst hhash
  induction emitted generalizing index r with
  | nil =>
      rw [runningFrames, List.nil_append, List.length_nil, Nat.add_zero] at hr
      rw [List.length_nil, Nat.add_zero] at hindex
      by_cases hfullrest : rest.length = header.chunk
      · have hwritten : (encryptFrame c header.key header.headerHash index true rest).flatten
            <:+: stream := by
          refine List.IsInfix.trans ?_ hsuffix.isInfix
          rw [hr]
          exact (List.prefix_append ..).isInfix
        have hlast : index < all.length := by omega
        have hother := decryptFrame_other hideal hframes rest true hlast
          (decide_eq_true hindex).symm hwritten
        rw [openFrames_misjudged hr hfullrest hchunk (by rw [decide_eq_false hextra]; rfl) hother]
        rfl
      · obtain ⟨r', -, heq⟩ := openFrames_frame hr hle hchunk
          (by rw [decide_eq_false hfullrest]; rfl)
        rw [heq, if_pos rfl, if_pos hextra]
  | cons p ps ih =>
      have hp := hfull p (List.mem_cons_self ..)
      rw [runningFrames, List.append_assoc] at hr
      obtain ⟨r', hr', heq⟩ := openFrames_frame hr (Nat.le_of_eq hp) hchunk
        (by rw [decide_eq_true hp, decide_eq_false (by simp [hextra])]; rfl)
      have hnext : index + (p :: ps).length = index + 1 + ps.length := by
        rw [List.length_cons]
        omega
      rw [hnext] at hr' hindex
      rw [heq]
      refine ih (fun x hx => hfull x (List.mem_cons_of_mem _ hx)) hindex ?_ hr'
      rw [hr, hnext] at hsuffix
      rw [hr']
      exact (List.suffix_append ..).trans hsuffix

/-! ## Altered streams -/

theorem FrameSealer.new_fields {options : SealOptions} {ephemeral : c.PrivateKey}
    {salt : Bytes32} {s₀ : FrameSealer}
    (hnew : FrameSealer.new c options ephemeral salt = .ok s₀) :
    s₀.headerHash = (c.sha256 s₀.header).1 ∧ 0 < s₀.chunk ∧ s₀.chunk ≤ sealMaxChunk := by
  refine ⟨?_, s₀.chunk_pos, ?_⟩
  all_goals
    unfold FrameSealer.new at hnew
    split at hnew
    · next hchunk =>
        split at hnew
        · cases hnew
        · cases hnew
          first | rfl | exact hchunk.2
    · cases hnew

theorem sealPieces_frames {options : SealOptions} {ephemeral : c.PrivateKey} {salt : Bytes32}
    {s₀ s : FrameSealer} (hnew : FrameSealer.new c options ephemeral salt = .ok s₀)
    {pieces : List Bytes} (hseal : sealPieces c options ephemeral salt pieces = .ok s) :
    ∃ emitted rest, Cut s₀.chunk pieces.flatten emitted rest ∧ emitted.length < maxFrames ∧
      chunks s₀.chunk pieces.flatten = emitted ++ [rest] ∧
      s.output.flatten = s₀.header ++ (s₀.frames c pieces.flatten).flatten := by
  obtain ⟨emitted, rest, hcut, hlt, -, hout, -⟩ := sealPieces_ok hnew hseal
  have hchunks := hcut.chunks_eq s₀.chunk_pos
  refine ⟨emitted, rest, hcut, hlt, hchunks, ?_⟩
  rw [hout, sealedBytes, FrameSealer.frames, FrameSealer.calls, hchunks, frames_flatten,
    Nat.zero_add]

theorem map_nonce_frameCalls (key headerHash : Bytes) (index : Nat) (ps : List Bytes) :
    (frameCalls key headerHash index ps).map Call.nonce =
      (List.range' index ps.length).map frameNonce := by
  induction ps generalizing index with
  | nil => rfl
  | cons p ps ih =>
      rw [frameCalls, List.map_cons, ih, List.length_cons, List.range'_succ, List.map_cons]

/-- The frames of a seal are made under one key, and no two of them under one nonce. -/
theorem sealed_nonces_differ {options : SealOptions} {ephemeral : c.PrivateKey} {salt : Bytes32}
    {pieces : List Bytes} {s₀ s : FrameSealer}
    (hnew : FrameSealer.new c options ephemeral salt = .ok s₀)
    (hseal : sealPieces c options ephemeral salt pieces = .ok s) :
    s.output.flatten = s₀.header ++ (s₀.frames c pieces.flatten).flatten ∧
      (∀ call ∈ s₀.calls pieces.flatten, call.key = s₀.key) ∧
      ((s₀.calls pieces.flatten).map Call.nonce).Nodup := by
  obtain ⟨emitted, rest, -, hlt, hchunks, hout⟩ := sealPieces_frames hnew hseal
  refine ⟨hout, fun call hcall => ?_, ?_⟩
  · obtain ⟨j, p, -, rfl⟩ := mem_frameCalls hcall
    rfl
  · have hlength : (chunks s₀.chunk pieces.flatten).length ≤ maxFrames := by
      rw [hchunks, List.length_append]
      exact hlt
    rw [FrameSealer.calls, map_nonce_frameCalls]
    refine List.pairwise_map.mpr (List.Pairwise.imp_of_mem (fun hi hj hne h => hne ?_) List.nodup_range')
    rw [List.mem_range'_1] at hi hj
    rw [maxFrames] at hlength
    exact frameNonce_inj (by omega) (by omega) h

end

/-! ## A stand-in that is ideal -/

/-- A tag that tells the calls of a seal from every other. -/
def pickyTag (made : List Call) (call : Call) : Bytes :=
  List.replicate 16 (if call ∈ made then 1 else 255)

/-- A cipher that is ideal on streams without a tag of its other calls, and a hash that
tells two beginnings of one stream apart. -/
def picky (made : List Call) : Primitives where
  PrivateKey := Bytes32
  publicRaw := standIn.publicRaw
  agree := standIn.agree
  hkdf := standIn.hkdf
  sha256 bytes := ⟨beBytes 32 bytes.length, beBytes_length ..⟩
  encrypt key nonce aad plaintext := (plaintext, pickyTag made ⟨key, nonce, aad, plaintext⟩)
  decrypt key nonce aad ciphertext tag :=
    if tag = pickyTag made ⟨key, nonce, aad, ciphertext⟩ then some ciphertext else none
  agree_comm := standIn.agree_comm
  agree_public := standIn.agree_public
  encrypt_length _ _ _ _ := rfl
  tag_length _ _ _ _ := List.length_replicate ..
  decrypt_encrypt _ _ _ _ := if_pos rfl

theorem picky_ideal {made : List Call} {stream : Bytes} (h : (255 : UInt8) ∉ stream) :
    IdealOn (picky made) made stream := by
  intro key nonce aad body tag p hpart _ hplain
  obtain ⟨htag, -⟩ := Option.ite_none_right_eq_some.mp hplain
  by_cases hmade : (⟨key, nonce, aad, body⟩ : Call) ∈ made
  · exact ⟨_, hmade, rfl, rfl, rfl, Prod.ext rfl htag.symm⟩
  · rw [pickyTag, if_neg hmade] at htag
    refine absurd (hpart.subset (List.mem_append_right _ ?_)) h
    rw [htag]
    exact List.mem_replicate.mpr ⟨by decide, rfl⟩

theorem picky_sha256 (made : List Call) (bytes : Bytes) :
    ((picky made).sha256 bytes).1 = beBytes 32 bytes.length := rfl

theorem picky_apart {made : List Call} {stream stream' : Bytes} (hstart : stream <+: stream')
    (hlen : stream'.length < 2 ^ 64) : HashApart (picky made) stream stream' := by
  intro a b ha hb hhash
  have ha' := ha.trans hstart
  have hbytes : beBytes 32 a.length = beBytes 32 b.length := by
    rw [← picky_sha256 made, hhash, picky_sha256]
  have hbound : ∀ n ≤ stream'.length, n < 256 ^ 32 := fun n hn => by omega
  have hlength : a.length = b.length :=
    beBytes_inj (hbound _ ha'.length_le) (hbound _ hb.length_le) hbytes
  exact (List.prefix_of_prefix_length_le ha' hb (Nat.le_of_eq hlength)).eq_of_length hlength

def exampleOptions : SealOptions := ⟨.tarZstd, standInKey 2, 16⟩

/-- The one call of an empty archive's seal. -/
def exampleCalls : List Call :=
  match FrameSealer.new (picky []) exampleOptions (standInKey 1) (standInKey 3) with
  | .ok s => frameCalls s.key s.headerHash 0 [[]]
  | .error _ => []

/-- What goes out before the one frame of that seal. -/
def exampleHeader : Bytes :=
  sealPrefix (utf8Bytes (headerJson exampleOptions.content exampleOptions.chunk (standInKey 1).1
    (standInKey 3).1 (sealKid (picky []) (standInKey 2))).chars)

theorem exampleHeader_small :
    exampleHeader.all (· ≠ 255) = true ∧ exampleHeader.length < 1000 := by
  decide +kernel

theorem new_picky {made : List Call} {s : FrameSealer}
    (h : FrameSealer.new (picky made) exampleOptions (standInKey 1) (standInKey 3) = .ok s) :
    s.header = exampleHeader ∧ exampleCalls = frameCalls s.key s.headerHash 0 [[]] := by
  have hplain : FrameSealer.new (picky []) exampleOptions (standInKey 1) (standInKey 3) = .ok s := h
  constructor
  · unfold FrameSealer.new at hplain
    rw [dif_pos (by decide)] at hplain
    rw [← Except.ok.inj hplain]
    rfl
  · rw [exampleCalls, hplain]

theorem frame_picky (call : Call) (hplain : call.plaintext = []) :
    Call.frame (picky [call]) call = beBytes 4 16 ++ List.replicate 16 1 := by
  have htag : pickyTag [call] call = List.replicate 16 1 := by
    rw [pickyTag, if_pos (List.mem_singleton.mpr rfl)]
  show beBytes 4 (call.plaintext.length + tagLen) ++ (call.plaintext ++ pickyTag [call] call) = _
  rw [hplain, htag]
  rfl

theorem sealed_nonces_differ_example : ∃ s₀ : FrameSealer,
    FrameSealer.new (picky exampleCalls) exampleOptions (standInKey 1) (standInKey 3) = .ok s₀ ∧
      ((s₀.calls (List.replicate 20 (7 : UInt8))).map Call.nonce).Nodup := by
  obtain ⟨s₀, hnew, hchunk⟩ := FrameSealer.new_ok (picky exampleCalls) exampleOptions
    (standInKey 1) (standInKey 2) (standInKey 3) (by decide) rfl
  obtain ⟨s, hseal⟩ := (sealPieces_ok_iff hnew [List.replicate 20 7]).mpr (by
    rw [hchunk]
    decide)
  exact ⟨s₀, hnew, (sealed_nonces_differ hnew hseal).2.2⟩

end OmniRush.Seal
