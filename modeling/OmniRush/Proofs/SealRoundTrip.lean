import OmniRush.Lib.JsonRoundTrip
import OmniRush.Proofs.SealFrames

/-!
# Opening what was sealed

A finished seal is the prefix, the running frames and the final frame of the one
cut its input has (`sealPieces_ok`). The opener undoes it layer by layer. Its
reads depend on what is still to come and not on the pieces it comes in, the
header it parses is the header that was written, so both sides derive one key,
and each frame it reads is the frame that was written under the same index and
the same final flag (`openFrames_frames`).

The final flag is the delicate part: it is not in the stream. The opener takes a
short frame as final, and a full one exactly when nothing follows; a running
frame is full and never the last, so both guesses are right.
-/

namespace OmniRush.Seal

open OmniRush

section

variable {c : Primitives}

/-! ## A finished seal -/

/-- The bytes of a finished seal. -/
def sealedBytes (c : Primitives) (s : FrameSealer) (emitted : List Bytes) (rest : Bytes) : Bytes :=
  s.header ++ (runningFrames c s.key s.headerHash 0 emitted
    ++ (encryptFrame c s.key s.headerHash emitted.length true rest).flatten)

theorem FrameSealer.new_held {options : SealOptions} {ephemeral : c.PrivateKey} {salt : Bytes32}
    {s : FrameSealer} (h : FrameSealer.new c options ephemeral salt = .ok s) :
    Held c s s [] [] := by
  unfold FrameSealer.new at h
  split at h
  · split at h
    · cases h
    · cases h
      exact ⟨⟨⟨rfl, rfl, rfl, rfl, rfl⟩, rfl, by simp, rfl, rfl, fun _ => ⟨rfl, rfl⟩, by simp⟩,
        by simp⟩
  · cases h

theorem Held.cut {s₀ s : FrameSealer} {plain : Bytes} {emitted : List Bytes}
    (h : Held c s₀ s plain emitted) : Cut s₀.chunk plain emitted s.pending :=
  ⟨h.plain_eq, h.full, h.same.chunk ▸ s.pending_le, h.held⟩

theorem Held.finish {s₀ s s' : FrameSealer} {plain : Bytes} {emitted : List Bytes}
    (h : Held c s₀ s plain emitted) (hfinish : s.finish c = .ok s') :
    emitted.length < maxFrames ∧ s'.kid = s₀.kid ∧
      s'.output.flatten = sealedBytes c s₀ emitted s.pending ∧
      s'.result = some (sealResult c s'.output.flatten) := by
  obtain ⟨hstart, hstarted⟩ := h.toProgress.start
  have hpending : s.start.pending = s.pending := by
    unfold FrameSealer.start
    split <;> rfl
  unfold FrameSealer.finish at hfinish
  rw [h.result] at hfinish
  unfold FrameSealer.frame at hfinish
  by_cases hindex : s.start.index ≥ maxFrames
  · simp only [hindex, if_true] at hfinish
    cases hfinish
  · simp only [hindex, if_false] at hfinish
    cases hfinish
    refine ⟨?_, hstart.same.kid, ?_, rfl⟩
    · rw [hstart.index] at hindex
      omega
    · show (s.start.output ++ encryptFrame c s.start.key s.start.headerHash s.start.index true
        s.start.pending).flatten = _
      rw [List.flatten_append, hstart.output hstarted, sealedBytes, hstart.same.key,
        hstart.same.headerHash, hstart.index, hpending, List.append_assoc]

theorem Held.finish_ok {s₀ s : FrameSealer} {plain : Bytes} {emitted : List Bytes}
    (h : Held c s₀ s plain emitted) (hframes : emitted.length < maxFrames) :
    ∃ s', s.finish c = .ok s' := by
  obtain ⟨hstart, -⟩ := h.toProgress.start
  have hindex : ¬ s.start.index ≥ maxFrames := by
    rw [hstart.index]
    omega
  unfold FrameSealer.finish FrameSealer.frame
  rw [h.result]
  simp only [hindex, if_false]
  exact ⟨_, rfl⟩

theorem sealPieces_of_new {options : SealOptions} {ephemeral : c.PrivateKey} {salt : Bytes32}
    {s₀ : FrameSealer} (hnew : FrameSealer.new c options ephemeral salt = .ok s₀)
    (pieces : List Bytes) :
    sealPieces c options ephemeral salt pieces
      = (pieces.foldlM (fun s bytes => FrameSealer.update c s bytes) s₀).bind
        (FrameSealer.finish c) := by
  rw [sealPieces, hnew]
  rfl

theorem sealPieces_ok {options : SealOptions} {ephemeral : c.PrivateKey} {salt : Bytes32}
    {s₀ s : FrameSealer} (hnew : FrameSealer.new c options ephemeral salt = .ok s₀)
    {pieces : List Bytes} (hseal : sealPieces c options ephemeral salt pieces = .ok s) :
    ∃ emitted rest, Cut s₀.chunk pieces.flatten emitted rest ∧ emitted.length < maxFrames ∧
      s.kid = s₀.kid ∧ s.output.flatten = sealedBytes c s₀ emitted rest ∧
      s.result = some (sealResult c s.output.flatten) := by
  rw [sealPieces_of_new hnew] at hseal
  cases hrun : pieces.foldlM (fun s bytes => FrameSealer.update c s bytes) s₀ with
  | error e =>
      rw [hrun] at hseal
      cases hseal
  | ok s₁ =>
      rw [hrun] at hseal
      obtain ⟨emitted, h⟩ := (FrameSealer.new_held hnew).updates hrun
      exact ⟨emitted, s₁.pending, h.cut, h.finish hseal⟩

theorem Cut.length_le {chunk : Nat} {plain : Bytes} {emitted : List Bytes} {rest : Bytes}
    (h : Cut chunk plain emitted rest) : plain.length ≤ (emitted.length + 1) * chunk := by
  have hlen := congrArg List.length h.plain_eq
  rw [List.length_append, flatten_length_of_full h.full] at hlen
  have hle := h.rest_le
  rw [Nat.add_mul, Nat.one_mul]
  omega

theorem Cut.emitted_lt {chunk n : Nat} {plain : Bytes} {emitted : List Bytes} {rest : Bytes}
    (h : Cut chunk plain emitted rest) (hn : 0 < n) (hlen : plain.length ≤ n * chunk) :
    emitted.length < n := by
  by_cases hnil : emitted = []
  · rw [hnil]
    exact hn
  · have hpos := List.length_pos_iff.mpr (h.held hnil)
    have hplain := congrArg List.length h.plain_eq
    rw [List.length_append, flatten_length_of_full h.full] at hplain
    exact Nat.lt_of_not_le fun hge => by
      have hmul := Nat.mul_le_mul_right chunk hge
      omega

/-- A seal fails for its length exactly when the input needs a frame too many. -/
theorem sealPieces_ok_iff {options : SealOptions} {ephemeral : c.PrivateKey} {salt : Bytes32}
    {s₀ : FrameSealer} (hnew : FrameSealer.new c options ephemeral salt = .ok s₀)
    (pieces : List Bytes) :
    (∃ s, sealPieces c options ephemeral salt pieces = .ok s) ↔
      pieces.flatten.length ≤ maxFrames * s₀.chunk := by
  constructor
  · rintro ⟨s, hseal⟩
    obtain ⟨emitted, rest, hcut, hframes, -⟩ := sealPieces_ok hnew hseal
    exact Nat.le_trans hcut.length_le (Nat.mul_le_mul_right _ hframes)
  · intro hlen
    have hheld := FrameSealer.new_held hnew
    obtain ⟨s₁, hrun⟩ := hheld.updates_ok (by simpa using hlen)
    obtain ⟨emitted, h⟩ := hheld.updates hrun
    have hlt := h.cut.emitted_lt (by decide : 0 < maxFrames) (by simpa using hlen)
    obtain ⟨s, hfinish⟩ := h.finish_ok hlt
    exact ⟨s, by rw [sealPieces_of_new hnew, hrun]; exact hfinish⟩

/-! ## Reading the frames -/

theorem encryptFrame_flatten (key headerHash : Bytes) (index : Nat) (final : Bool) (p : Bytes) :
    (encryptFrame c key headerHash index final p).flatten
      = beBytes 4 (p.length + tagLen)
        ++ ((c.encrypt key (frameNonce index) (frameAad headerHash index final) p).1
          ++ (c.encrypt key (frameNonce index) (frameAad headerHash index final) p).2) := by
  simp [encryptFrame]

theorem decryptFrame_encrypt (key headerHash : Bytes) (index : Nat) (final : Bool) (p : Bytes) :
    decryptFrame c key headerHash index final
      ((c.encrypt key (frameNonce index) (frameAad headerHash index final) p).1
        ++ (c.encrypt key (frameNonce index) (frameAad headerHash index final) p).2) = some p := by
  have htag := c.tag_length key (frameNonce index) (frameAad headerHash index final) p
  unfold decryptFrame
  rw [List.length_append, htag, tagLen, Nat.add_sub_cancel, List.take_left, List.drop_left]
  exact c.decrypt_encrypt ..

/-- What the opener takes a frame of a written length for, with `tail` behind it. -/
def guessFinal (header : OpenedHeader) (p tail : Bytes) : Bool :=
  !decide (p.length = header.chunk) || decide (tail = [])

theorem openFrames_read {header : OpenedHeader} {index : Nat} {r : ByteReader} {p tail : Bytes}
    {final : Bool}
    (hr : r.remaining
      = (encryptFrame c header.key header.headerHash index final p).flatten ++ tail)
    (hle : p.length ≤ header.chunk) (hchunk : header.chunk ≤ sealMaxChunk) :
    ∃ r' frame, r'.remaining = tail ∧
      frame = (c.encrypt header.key (frameNonce index) (frameAad header.headerHash index final) p).1
        ++ (c.encrypt header.key (frameNonce index)
          (frameAad header.headerHash index final) p).2 ∧
      openFrames c header index r
        = match decryptFrame c header.key header.headerHash index (guessFinal header p tail)
            frame with
          | none =>
              if p.length = header.chunk ∧ (decryptFrame c header.key header.headerHash index
                  (!guessFinal header p tail) frame).isSome
              then ([], .error (if guessFinal header p tail then .truncated else .frameAfterFinal))
              else ([], .error .tagMismatch)
          | some plaintext =>
              if guessFinal header p tail then
                if tail ≠ [] then ([plaintext], .error .frameAfterFinal)
                else ([plaintext], .ok header.kid)
              else (plaintext :: (openFrames c header (index + 1) r').1,
                (openFrames c header (index + 1) r').2) := by
  rw [encryptFrame_flatten, List.append_assoc] at hr
  have hlen4 : (beBytes 4 (p.length + tagLen)).length = 4 := beBytes_length ..
  have hraw : (r.read 4).1 = beBytes 4 (p.length + tagLen) := by
    rw [ByteReader.read_fst, hr, List.take_left' hlen4]
  have hrem4 := ByteReader.read_remaining r 4
  rw [hr, List.drop_left' hlen4] at hrem4
  have hbound : p.length + tagLen < 256 ^ 4 := by
    unfold sealMaxChunk at hchunk
    unfold tagLen
    omega
  have hnat : beNat (r.read 4).1 = p.length + tagLen := by rw [hraw, beNat_beBytes hbound]
  have hframelen : ((c.encrypt header.key (frameNonce index)
      (frameAad header.headerHash index final) p).1 ++ (c.encrypt header.key (frameNonce index)
      (frameAad header.headerHash index final) p).2).length = p.length + tagLen := by
    rw [List.length_append, c.encrypt_length, c.tag_length]
    rfl
  have hframe := ByteReader.read_fst (r.read 4).2 (p.length + tagLen)
  rw [hrem4, List.take_left' hframelen] at hframe
  have hrest := ByteReader.read_remaining (r.read 4).2 (p.length + tagLen)
  rw [hrem4, List.drop_left' hframelen] at hrest
  have hmore : (((r.read 4).2.read (p.length + tagLen)).2.more).1 = decide (tail ≠ []) := by
    rw [ByteReader.more_fst, hrest]
  have hguess : (!decide (p.length + tagLen = header.chunk + tagLen)
      || !decide (tail ≠ [])) = guessFinal header p tail := by
    simp [guessFinal]
  refine ⟨((r.read 4).2.read (p.length + tagLen)).2.more.2, _, ?_, rfl, ?_⟩
  · rw [ByteReader.more_remaining, hrest]
  · rw [openFrames]
    rw [dif_neg (by rw [hraw, hlen4]; decide)]
    simp only [hnat]
    rw [if_neg (by omega), if_neg (by rw [hframe, hframelen]; omega), hmore, hguess, hframe]
    cases decryptFrame c header.key header.headerHash index (guessFinal header p tail)
        ((c.encrypt header.key (frameNonce index) (frameAad header.headerHash index final) p).1 ++
          (c.encrypt header.key (frameNonce index) (frameAad header.headerHash index final) p).2) with
    | none => simp only [decide_eq_true_eq, Nat.add_right_cancel_iff]
    | some plaintext => simp only [decide_eq_true_eq]

/-- One round of the opener on a frame that was written with the flag the opener
will guess. -/
theorem openFrames_frame {header : OpenedHeader} {index : Nat} {r : ByteReader} {p tail : Bytes}
    {final : Bool}
    (hr : r.remaining
      = (encryptFrame c header.key header.headerHash index final p).flatten ++ tail)
    (hle : p.length ≤ header.chunk) (hchunk : header.chunk ≤ sealMaxChunk)
    (hfinal : final = (!decide (p.length = header.chunk) || decide (tail = []))) :
    ∃ r', r'.remaining = tail ∧ openFrames c header index r
      = if final then
          if tail ≠ [] then ([p], .error .frameAfterFinal) else ([p], .ok header.kid)
        else (p :: (openFrames c header (index + 1) r').1,
          (openFrames c header (index + 1) r').2) := by
  obtain ⟨r', frame, hr', hframe, heq⟩ := openFrames_read hr hle hchunk
  have hguess : guessFinal header p tail = final := hfinal.symm
  rw [hguess, hframe, decryptFrame_encrypt] at heq
  exact ⟨r', hr', heq⟩

/-- One round on a full frame that was written with the other flag and decrypts under
no guess of it. -/
theorem openFrames_misjudged {header : OpenedHeader} {index : Nat} {r : ByteReader}
    {p tail : Bytes} {final : Bool}
    (hr : r.remaining
      = (encryptFrame c header.key header.headerHash index final p).flatten ++ tail)
    (hfull : p.length = header.chunk) (hchunk : header.chunk ≤ sealMaxChunk)
    (hfinal : final = !decide (tail = []))
    (hnone : decryptFrame c header.key header.headerHash index (!final)
      ((c.encrypt header.key (frameNonce index) (frameAad header.headerHash index final) p).1
        ++ (c.encrypt header.key (frameNonce index)
          (frameAad header.headerHash index final) p).2) = none) :
    openFrames c header index r
      = ([], .error (if final then .frameAfterFinal else .truncated)) := by
  obtain ⟨r', frame, hr', hframe, heq⟩ := openFrames_read hr (Nat.le_of_eq hfull) hchunk
  have hguess : guessFinal header p tail = !final := by
    rw [guessFinal, decide_eq_true hfull, hfinal]
    simp
  rw [hguess, hframe, hnone] at heq
  rw [heq, Bool.not_not, decryptFrame_encrypt]
  cases final <;> simp [hfull]

theorem openFrames_frames {header : OpenedHeader} {index : Nat} {r : ByteReader}
    {emitted : List Bytes} {rest : Bytes}
    (hr : r.remaining = runningFrames c header.key header.headerHash index emitted
      ++ (encryptFrame c header.key header.headerHash (index + emitted.length) true rest).flatten)
    (hfull : ∀ p ∈ emitted, p.length = header.chunk) (hle : rest.length ≤ header.chunk)
    (hchunk : header.chunk ≤ sealMaxChunk) :
    openFrames c header index r = (emitted ++ [rest], .ok header.kid) := by
  induction emitted generalizing index r with
  | nil =>
      rw [runningFrames, List.nil_append, List.length_nil, Nat.add_zero,
        ← List.append_nil (encryptFrame ..).flatten] at hr
      obtain ⟨r', -, heq⟩ := openFrames_frame hr hle hchunk (by simp)
      rw [heq]
      rfl
  | cons p ps ih =>
      have hp := hfull p (by simp)
      rw [runningFrames, List.append_assoc] at hr
      have htail : runningFrames c header.key header.headerHash (index + 1) ps
          ++ (encryptFrame c header.key header.headerHash (index + (p :: ps).length) true
            rest).flatten ≠ [] := by
        rw [encryptFrame_flatten]
        intro hnil
        have hlen := congrArg List.length hnil
        rw [List.length_append, List.length_append, beBytes_length, List.length_nil] at hlen
        omega
      obtain ⟨r', hr', heq⟩ := openFrames_frame hr (Nat.le_of_eq hp) hchunk
        (by rw [decide_eq_true hp, decide_eq_false htail]; rfl)
      have hnext : index + (p :: ps).length = index + 1 + ps.length := by
        rw [List.length_cons]
        omega
      rw [hnext] at hr'
      have hrest := ih hr' fun q hq => hfull q (List.mem_cons_of_mem _ hq)
      rw [heq, hrest]
      rfl

/-! ## The header -/

theorem utf8Bytes_toArray (cs : List Char) :
    ByteArray.mk (utf8Bytes cs).toArray = cs.utf8Encode := by
  rw [utf8Bytes, Array.toArray_toList]
  exact String.toByteArray_ofList

theorem utf8Bytes_eq (cs : List Char) : utf8Bytes cs = cs.flatMap String.utf8EncodeChar := by
  have h := String.toByteArray_ofList (l := cs)
  rw [utf8Bytes, String.toUTF8_eq_toByteArray, h, List.utf8Encode]
  simp

theorem utf8Bytes_length_le (cs : List Char) : (utf8Bytes cs).length ≤ 4 * cs.length := by
  rw [utf8Bytes_eq]
  induction cs with
  | nil => exact Nat.le_refl _
  | cons ch cs ih =>
      have hch := Char.utf8Size_le_four ch
      rw [List.flatMap_cons, List.length_append, String.length_utf8EncodeChar, List.length_cons]
      omega

theorem decodeUtf8_utf8Bytes {cs : List Char} (h : cs.head? ≠ some (Char.ofNat 0xfeff)) :
    decodeUtf8 (utf8Bytes cs) = some cs := by
  rw [decodeUtf8, utf8Bytes_toArray, List.utf8Decode?_utf8Encode, Option.map_some,
    List.toList_toArray, if_neg h]

theorem escapeChar_length_le (ch : Char) : (Json.escapeChar ch).length ≤ 6 := by
  unfold Json.escapeChar
  repeat' split
  all_goals simp

theorem quote_length_le (s : String) : (Json.quote s).length ≤ 6 * s.toList.length + 2 := by
  have hescape : ∀ cs : List Char, (Json.escape cs).length ≤ 6 * cs.length := by
    intro cs
    unfold Json.escape
    induction cs with
    | nil => exact Nat.le_refl _
    | cons ch cs ih =>
        have hch := escapeChar_length_le ch
        rw [List.flatMap_cons, List.length_append, List.length_cons]
        omega
  have h := hescape s.toList
  rw [Json.quote, List.length_cons, List.length_append, List.length_singleton]
  omega

theorem escapeChar_b64Char : ∀ n, n < 64 → Json.escapeChar (b64Char n) = [b64Char n] := by decide

theorem escape_toBase64 (bytes : Bytes) : Json.escape (toBase64 bytes) = toBase64 bytes := by
  have hsextets : ∀ ns : List Nat, (∀ n ∈ ns, n < 64) →
      (ns.map b64Char).flatMap Json.escapeChar = ns.map b64Char := by
    intro ns hns
    induction ns with
    | nil => rfl
    | cons n ns ih =>
        rw [List.map_cons, List.flatMap_cons, escapeChar_b64Char n (hns n (by simp)),
          ih fun m hm => hns m (List.mem_cons_of_mem _ hm)]
        rfl
  have hpad : ∀ n, (List.replicate n '=').flatMap Json.escapeChar = List.replicate n '=' := by
    intro n
    induction n with
    | zero => rfl
    | succ n ih =>
        rw [List.replicate_succ, List.flatMap_cons, ih]
        rfl
  rw [Json.escape, toBase64, List.flatMap_append, hpad, hsextets _ fun n hn => sextets_lt hn]

theorem quote_toBase64_length (bytes : Bytes32) :
    (Json.quote (String.ofList (toBase64 bytes.1))).length = 46 := by
  obtain ⟨body, hbody, hlen, -⟩ := toBase64_of_length bytes.2
  rw [Json.quote, String.toList_ofList, escape_toBase64, hbody]
  simp [hlen]

theorem sealKid_toList (publicRaw : Bytes32) :
    (sealKid c publicRaw).toList = (toHex (c.sha256 publicRaw.1).1).take 16 :=
  String.toList_ofList

theorem sealKid_length (publicRaw : Bytes32) : (sealKid c publicRaw).toList.length = 16 := by
  rw [sealKid_toList, List.length_take, toHex_length, (c.sha256 publicRaw.1).2]
  rfl

theorem isKid_sealKid (publicRaw : Bytes32) : isKid (sealKid c publicRaw) = true := by
  rw [isKid, sealKid_length]
  simp only [decide_true, Bool.true_and, List.all_eq_true]
  intro ch hch
  rw [sealKid_toList] at hch
  exact isLowerHex_of_mem_toHex (List.mem_of_mem_take hch)

variable (c) in
theorem header_length_le (content : SealContent) {chunk : Nat} (hchunk : chunk ≤ sealMaxChunk)
    (epk salt : Bytes32) (publicRaw : Bytes32) :
    (utf8Bytes (headerJson content chunk epk.1 salt.1 (sealKid c publicRaw)).chars).length
      ≤ sealMaxHeaderLen := by
  have hdigits : (Json.natChars chunk).length ≤ 8 :=
    (Nat.length_toDigits_le_iff (by decide) (by decide)).mpr
      (Nat.lt_of_le_of_lt hchunk (by decide))
  have hepk := quote_toBase64_length epk
  have hsalt := quote_toBase64_length salt
  have hkid := quote_length_le (sealKid c publicRaw)
  rw [sealKid_length] at hkid
  have hcontent : (Json.quote content.text).length ≤ 10 := by cases content <;> decide
  have halg : (Json.quote sealAlg).length = 28 := by decide
  refine Nat.le_trans (utf8Bytes_length_le _) ?_
  have hkeys : (Json.quote "alg").length = 5 ∧ (Json.quote "chunk").length = 7 ∧
      (Json.quote "content").length = 9 ∧ (Json.quote "epk").length = 5 ∧
      (Json.quote "kid").length = 5 ∧ (Json.quote "salt").length = 6 ∧
      (Json.quote "v").length = 3 ∧ (Json.intChars 1).length = 1 := by decide
  obtain ⟨h1, h2, h3, h4, h5, h6, h7, h8⟩ := hkeys
  have hint : Json.intChars (chunk : Int) = Json.natChars chunk := rfl
  simp only [headerJson, Json.chars, Json.fieldChars, List.length_append, List.length_cons,
    List.length_nil, h1, h2, h3, h4, h5, h6, h7, h8, hepk, hsalt, halg, hint]
  unfold sealMaxHeaderLen
  omega

theorem canonicalBase64Of32_toBase64 (bytes : Bytes32) :
    canonicalBase64Of32 (some (.str (String.ofList (toBase64 bytes.1)))) = .ok bytes := by
  obtain ⟨body, hbody, hlen, hchars⟩ := toBase64_of_length bytes.2
  have hshape : isBase64Of32 (toBase64 bytes.1) = true := by
    rw [isBase64Of32, hbody, List.length_append, hlen, List.take_left' hlen, List.drop_left' hlen]
    simpa using hchars
  simp only [canonicalBase64Of32, String.toList_ofList, if_pos hshape, ofBase64_toBase64,
    if_pos trivial]
  exact dif_pos bytes.2

theorem sealKeyring_lookup (recipient : c.PrivateKey) (others : List c.PrivateKey) :
    (sealKeyring c (recipient :: others)).lookup (sealKid c (c.publicRaw recipient))
      = some ⟨sealKid c (c.publicRaw recipient), recipient, c.publicRaw recipient⟩ := by
  have hkeep : ∀ (keyring : List (String × SealKey c)) (kid : String) (key : SealKey c),
      keyring.lookup kid = some key →
      (others.foldl (fun keyring privateKey =>
        if (keyring.lookup (sealKid c (c.publicRaw privateKey))).isSome then keyring
        else keyring ++ [(sealKid c (c.publicRaw privateKey), ⟨sealKid c (c.publicRaw privateKey),
          privateKey, c.publicRaw privateKey⟩)]) keyring).lookup kid = some key := by
    induction others with
    | nil => exact fun _ _ _ h => h
    | cons k ks ih =>
        intro keyring kid key h
        rw [List.foldl_cons]
        split
        · exact ih keyring kid key h
        · refine ih _ kid key ?_
          rw [List.lookup_append, h]
          rfl
  refine hkeep _ _ _ ?_
  simp

variable (c) in
theorem headerFields_headerJson (content : SealContent) {chunk : Nat}
    (hmin : sealMinChunk ≤ chunk) (hmax : chunk ≤ sealMaxChunk) (epk salt : Bytes)
    (publicRaw : Bytes32) {fields : List (String × Json)}
    (hfields : headerJson content chunk epk salt (sealKid c publicRaw) = .obj fields) :
    headerFields fields content = some (chunk, sealKid c publicRaw) ∧
      Json.field fields "v" = some (.num 1) ∧
      Json.field fields "epk" = some (.str (String.ofList (toBase64 epk))) ∧
      Json.field fields "salt" = some (.str (String.ofList (toBase64 salt))) := by
  cases hfields
  have hkid := isKid_sealKid publicRaw (c := c)
  refine ⟨?_, rfl, rfl, rfl⟩
  have hkeys : (["alg", "chunk", "content", "epk", "kid", "salt", "v"] : List String).eraseDups
      = headerKeys := by decide
  have hmin' : (sealMinChunk : Int) ≤ (chunk : Int) := Int.ofNat_le.mpr hmin
  have hmax' : (chunk : Int) ≤ (sealMaxChunk : Int) := Int.ofNat_le.mpr hmax
  show (if _ ∧ _ then some ((chunk : Int).toNat, sealKid c publicRaw) else none) = _
  rw [if_pos, Int.toNat_natCast]
  exact ⟨congrArg List.length hkeys, fun key hk => hkeys ▸ hk, rfl, rfl, hmin', hmax', hkid⟩

theorem openHeader_sealPrefix (keyring : List (String × SealKey c)) (content : SealContent)
    {json : Json} {r : ByteReader} {tail : Bytes}
    (hlen : (utf8Bytes json.chars).length ≤ sealMaxHeaderLen)
    (hhead : json.chars.head? = some '\x7b')
    (hr : r.remaining = sealPrefix (utf8Bytes json.chars) ++ tail) :
    ∃ r', r'.remaining = tail ∧ openHeader c r keyring content
      = (openHeaderJson c json sealMagic (beBytes 4 (utf8Bytes json.chars).length)
          (utf8Bytes json.chars) keyring content).map fun opened => (opened, r') := by
  have hmagic : sealMagic.length = 8 := by decide
  have hbe : (beBytes 4 (utf8Bytes json.chars).length).length = 4 := beBytes_length ..
  have hdecode : decodeUtf8 (utf8Bytes json.chars) = some json.chars :=
    decodeUtf8_utf8Bytes (by rw [hhead]; decide)
  have hparse : Json.parseChars json.chars = some json := by
    have h := Json.parseChars_chars json [] rfl rfl
    rwa [List.append_nil] at h
  have hnonempty : (utf8Bytes json.chars).length ≠ 0 := by
    intro hzero
    have hnil := List.eq_nil_of_length_eq_zero hzero
    have hchars : json.chars = [] := by
      have hempty := utf8Bytes_toArray json.chars
      rw [hnil] at hempty
      exact List.utf8Encode_eq_empty.mp hempty.symm
    rw [hchars] at hhead
    cases hhead
  have hnat : beNat (beBytes 4 (utf8Bytes json.chars).length) = (utf8Bytes json.chars).length :=
    beNat_beBytes (Nat.lt_of_le_of_lt hlen (by decide))
  rw [sealPrefix, List.append_assoc, List.append_assoc] at hr
  have hread8 : (r.read 8).1 = sealMagic := by
    rw [ByteReader.read_fst, hr, List.take_left' hmagic]
  have hrem8 := ByteReader.read_remaining r 8
  rw [hr, List.drop_left' hmagic] at hrem8
  have hread4 : ((r.read 8).2.read 4).1 = beBytes 4 (utf8Bytes json.chars).length := by
    rw [ByteReader.read_fst, hrem8, List.take_left' hbe]
  have hrem4 := ByteReader.read_remaining (r.read 8).2 4
  rw [hrem8, List.drop_left' hbe] at hrem4
  have hreadh : (((r.read 8).2.read 4).2.read (utf8Bytes json.chars).length).1
      = utf8Bytes json.chars := by
    rw [ByteReader.read_fst, hrem4, List.take_left]
  have hremh := ByteReader.read_remaining ((r.read 8).2.read 4).2 (utf8Bytes json.chars).length
  rw [hrem4, List.drop_left] at hremh
  refine ⟨_, hremh, ?_⟩
  unfold openHeader
  simp only [hread8, hread4, hnat, hreadh, hbe, hdecode, Option.bind_some, hparse]
  rw [if_neg (by simp), if_neg (by decide), if_neg (by omega), if_neg (by omega)]

theorem openHeader_sealed {options : SealOptions} {ephemeral recipient : c.PrivateKey}
    {salt : Bytes32} {s₀ : FrameSealer} (hkey : options.publicKey = c.publicRaw recipient)
    (hnew : FrameSealer.new c options ephemeral salt = .ok s₀) (others : List c.PrivateKey)
    {r : ByteReader} {tail : Bytes} (hr : r.remaining = s₀.header ++ tail) :
    ∃ r', r'.remaining = tail ∧
      openHeader c r (sealKeyring c (recipient :: others)) options.content
        = .ok (⟨s₀.chunk, s₀.key, s₀.headerHash, s₀.kid⟩, r') := by
  unfold FrameSealer.new at hnew
  split at hnew
  · next hchunk =>
      split at hnew
      · cases hnew
      · next shared hagree =>
          cases hnew
          have hlen := header_length_le c options.content hchunk.2 (c.publicRaw ephemeral) salt
            options.publicKey
          obtain ⟨r', hr', hopen⟩ := openHeader_sealPrefix
            (sealKeyring c (recipient :: others)) options.content hlen rfl hr
          refine ⟨r', hr', ?_⟩
          rw [hopen]
          obtain ⟨hfields, hv, hepk, hsalt⟩ := headerFields_headerJson c options.content hchunk.1
            hchunk.2 (c.publicRaw ephemeral).1 salt.1 options.publicKey rfl
          have hshared : c.agree recipient (c.publicRaw ephemeral) = some shared := by
            rw [c.agree_comm, ← hkey, hagree]
          have hlookup := sealKeyring_lookup recipient others
          rw [← hkey] at hlookup
          unfold headerJson openHeaderJson
          simp only [hv, hfields, hepk, hsalt, canonicalBase64Of32_toBase64, hlookup]
          rw [if_neg (by simp)]
          simp only [bind, Except.bind, hshared]
          rfl
  · cases hnew

/-! ## The round trip -/

theorem FrameSealer.new_ok (c : Primitives) (options : SealOptions)
    (ephemeral recipient : c.PrivateKey) (salt : Bytes32)
    (hchunk : sealMinChunk ≤ options.chunk ∧ options.chunk ≤ sealMaxChunk)
    (hkey : options.publicKey = c.publicRaw recipient) :
    ∃ s₀, FrameSealer.new c options ephemeral salt = .ok s₀ ∧ s₀.chunk = options.chunk := by
  have hsome := c.agree_public ephemeral recipient
  rw [← hkey] at hsome
  obtain ⟨shared, hshared⟩ := Option.isSome_iff_exists.mp hsome
  unfold FrameSealer.new
  rw [dif_pos hchunk]
  simp only [hshared]
  exact ⟨_, rfl, rfl⟩

theorem sealPieces_split {options : SealOptions} {ephemeral : c.PrivateKey} {salt : Bytes32}
    {s₀ s s' : FrameSealer} (hnew : FrameSealer.new c options ephemeral salt = .ok s₀)
    {pieces pieces' : List Bytes} (hflat : pieces'.flatten = pieces.flatten)
    (hseal : sealPieces c options ephemeral salt pieces = .ok s)
    (hseal' : sealPieces c options ephemeral salt pieces' = .ok s') :
    s'.output.flatten = s.output.flatten ∧ s'.result = s.result := by
  obtain ⟨emitted, rest, hcut, -, -, hout, hresult⟩ := sealPieces_ok hnew hseal
  obtain ⟨emitted', rest', hcut', -, -, hout', hresult'⟩ := sealPieces_ok hnew hseal'
  rw [hflat] at hcut'
  obtain ⟨rfl, rfl⟩ := cut_unique hcut hcut'
  have heq : s'.output.flatten = s.output.flatten := by rw [hout', hout]
  exact ⟨heq, by rw [hresult', hresult, heq]⟩

theorem openSealed_of_sealPieces {options : SealOptions} {ephemeral recipient : c.PrivateKey}
    {salt : Bytes32} {s₀ s : FrameSealer}
    (hkey : options.publicKey = c.publicRaw recipient)
    (hchunk : options.chunk ≤ sealMaxChunk) (heq : s₀.chunk = options.chunk)
    (hnew : FrameSealer.new c options ephemeral salt = .ok s₀) (others : List c.PrivateKey)
    {pieces source : List Bytes}
    (hseal : sealPieces c options ephemeral salt pieces = .ok s)
    (hsource : source.flatten = s.output.flatten) :
    ∃ plain, openSealed c source (sealKeyring c (recipient :: others)) options.content
      = (plain, .ok s.kid) ∧ plain.flatten = pieces.flatten := by
  obtain ⟨emitted, rest, hcut, -, hkid, hout, -⟩ := sealPieces_ok hnew hseal
  have hr : (ByteReader.mk [] source).remaining = s₀.header
      ++ (runningFrames c s₀.key s₀.headerHash 0 emitted
        ++ (encryptFrame c s₀.key s₀.headerHash emitted.length true rest).flatten) := by
    rw [ByteReader.remaining, hsource, hout]
    rfl
  obtain ⟨r', hr', hopen⟩ := openHeader_sealed hkey hnew others hr
  have hframes : openFrames c ⟨s₀.chunk, s₀.key, s₀.headerHash, s₀.kid⟩ 0 r'
      = (emitted ++ [rest], .ok s₀.kid) :=
    openFrames_frames (by rw [hr', Nat.zero_add]) hcut.full hcut.rest_le (heq ▸ hchunk)
  refine ⟨emitted ++ [rest], ?_, ?_⟩
  · rw [openSealed, hopen, hkid]
    exact hframes
  · rw [hcut.plain_eq, List.flatten_append]
    simp

/-- Sealing and opening give the plaintext back, however either side's bytes are
split, as long as the input fits the frames there are numbers for. -/
theorem openSealed_sealPieces (c : Primitives) (options : SealOptions)
    (ephemeral recipient : c.PrivateKey) (salt : Bytes32) (others : List c.PrivateKey)
    (pieces : List Bytes)
    (hchunk : sealMinChunk ≤ options.chunk ∧ options.chunk ≤ sealMaxChunk)
    (hkey : options.publicKey = c.publicRaw recipient)
    (hlen : pieces.flatten.length ≤ maxFrames * options.chunk) :
    ∃ s, sealPieces c options ephemeral salt pieces = .ok s ∧
      (∀ pieces' : List Bytes, pieces'.flatten = pieces.flatten →
        ∃ s', sealPieces c options ephemeral salt pieces' = .ok s' ∧
          s'.output.flatten = s.output.flatten ∧ s'.result = s.result) ∧
      ∀ source : List Bytes, source.flatten = s.output.flatten →
        ∃ plain, openSealed c source (sealKeyring c (recipient :: others)) options.content
          = (plain, .ok s.kid) ∧ plain.flatten = pieces.flatten := by
  obtain ⟨s₀, hnew, heq⟩ := FrameSealer.new_ok c options ephemeral recipient salt hchunk hkey
  rw [← heq] at hlen
  obtain ⟨s, hseal⟩ := (sealPieces_ok_iff hnew pieces).mpr hlen
  refine ⟨s, hseal, ?_, ?_⟩
  · intro pieces' hflat
    rw [← hflat] at hlen
    obtain ⟨s', hseal'⟩ := (sealPieces_ok_iff hnew pieces').mpr hlen
    exact ⟨s', hseal', sealPieces_split hnew hflat hseal hseal'⟩
  · intro source hsource
    exact openSealed_of_sealPieces hkey hchunk.2 heq hnew others hseal hsource

/-! ## A stand-in for the primitives -/

/-- A tag that tells the nonce and the final flag. -/
def standInTag (nonce aad : Bytes) : Bytes :=
  (nonce ++ aad.reverse ++ List.replicate 16 0).take 16

/-- A cipher that hides nothing and still rejects a frame out of its place. -/
def standIn : Primitives where
  PrivateKey := Bytes32
  publicRaw key := key
  agree a b := some (List.zipWith (· ^^^ ·) a.1 b.1)
  hkdf shared salt info := shared ++ salt ++ info
  sha256 bytes := ⟨(bytes ++ List.replicate 32 0).take 32, by simp⟩
  encrypt _ nonce aad plaintext := (plaintext, standInTag nonce aad)
  decrypt _ nonce aad ciphertext tag :=
    if tag = standInTag nonce aad then some ciphertext else none
  agree_comm a b := by
    rw [List.zipWith_comm_of_comm]
    exact UInt8.xor_comm
  agree_public _ _ := rfl
  encrypt_length _ _ _ _ := rfl
  tag_length _ nonce aad _ := by
    rw [standInTag, List.length_take, List.length_append, List.length_replicate]
    omega
  decrypt_encrypt _ _ _ _ := if_pos rfl

def standInKey (byte : UInt8) : standIn.PrivateKey := ⟨List.replicate 32 byte, rfl⟩

/-- Seventeen bytes in two pieces, under the smallest chunk. -/
theorem openSealed_sealPieces_seventeen :
    ∃ s, sealPieces standIn ⟨.tarZstd, standInKey 2, 16⟩ (standInKey 1) (standInKey 3)
        [List.replicate 5 7, List.replicate 12 8] = .ok s ∧
      (∀ pieces' : List Bytes,
        pieces'.flatten = [List.replicate 5 7, List.replicate 12 8].flatten →
        ∃ s', sealPieces standIn ⟨.tarZstd, standInKey 2, 16⟩ (standInKey 1) (standInKey 3)
            pieces' = .ok s' ∧
          s'.output.flatten = s.output.flatten ∧ s'.result = s.result) ∧
      ∀ source : List Bytes, source.flatten = s.output.flatten →
        ∃ plain, openSealed standIn source (sealKeyring standIn [standInKey 2]) .tarZstd
          = (plain, .ok s.kid) ∧
            plain.flatten = [List.replicate 5 7, List.replicate 12 8].flatten :=
  openSealed_sealPieces standIn ⟨.tarZstd, standInKey 2, 16⟩ (standInKey 1) (standInKey 2)
    (standInKey 3) [] [List.replicate 5 7, List.replicate 12 8] (by decide) rfl (by decide)

/-- One byte more than the frames can hold: the sealer refuses it. -/
theorem sealPieces_refuses_long :
    ¬ ∃ s, sealPieces standIn ⟨.tarZstd, standInKey 2, 16⟩ (standInKey 1) (standInKey 3)
      [List.replicate (maxFrames * 16 + 1) 0] = .ok s := by
  obtain ⟨s₀, hnew, heq⟩ := FrameSealer.new_ok standIn ⟨.tarZstd, standInKey 2, 16⟩
    (standInKey 1) (standInKey 2) (standInKey 3) (by decide) rfl
  rw [sealPieces_ok_iff hnew, heq]
  simp only [List.flatten_cons, List.flatten_nil, List.append_nil, List.length_replicate]
  exact Nat.not_succ_le_self _

end

end OmniRush.Seal
