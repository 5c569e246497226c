import OmniRush.Box.Tar
import OmniRush.Proofs.BoxBatches

/-!
# The parts of a tar are one archive

What `push` does with some bytes does not depend on how they are cut into chunks (`push_append`).
A member that it meets at the start of a header block goes through whole (`push_members`), so a part
goes through up to the block of zeros behind its members, and what follows can only be zeros.
-/

namespace OmniRush.Box

open Pax Tar

/-! ## Numbers -/

section

variable {field lead trail : Bytes} {n : Nat}

theorem isBlank_byteOf {c : Char} (h : isOctal c = true) : isBlank (byteOf c) = false := by
  have hbounds : 48 ≤ c.toNat ∧ c.toNat ≤ 55 := by
    simpa [isOctal, Char.le_def, UInt32.le_iff_toNat_le] using h
  have hbyte : (byteOf c).toNat = c.toNat := by
    rw [byteOf, UInt8.toNat_ofNat', Nat.mod_eq_of_lt]
    omega
  have hne : ∀ b : UInt8, b.toNat < 48 → byteOf c ≠ b := by
    rintro b hb rfl
    omega
  simp [isBlank, hne 0 (by decide), hne 32 (by decide)]

theorem toNat_lt_of_isOctal {c : Char} (h : isOctal c = true) : c.toNat < 128 := by
  have hbounds : 48 ≤ c.toNat ∧ c.toNat ≤ 55 := by
    simpa [isOctal, Char.le_def, UInt32.le_iff_toNat_le] using h
  omega

theorem dropWhile_blank (hlead : lead.all isBlank = true) (rest : Bytes) :
    (lead ++ rest).dropWhile isBlank = rest.dropWhile isBlank :=
  List.dropWhile_append_of_pos (List.all_eq_true.mp hlead)

theorem dropWhile_digits {digits : List Char} (hdigits : digits.all isOctal = true)
    (hne : digits ≠ []) (rest : Bytes) :
    (ascii digits ++ rest).dropWhile isBlank = ascii digits ++ rest := by
  cases digits with
  | nil => exact absurd rfl hne
  | cons c digits =>
      rw [List.all_cons, Bool.and_eq_true] at hdigits
      exact List.dropWhile_cons_of_neg (by simp [isBlank_byteOf hdigits.1])

theorem trimField_octal {digits : List Char} (hlead : lead.all isBlank = true)
    (htrail : trail.all isBlank = true) (hdigits : digits.all isOctal = true) :
    trimField (lead ++ ascii digits ++ trail) = ascii digits := by
  have hreverse : trail.reverse.all isBlank = true := by rwa [List.all_reverse]
  unfold trimField
  rw [List.append_assoc, dropWhile_blank hlead]
  by_cases hne : digits = []
  · subst hne
    have htrail' : trail.dropWhile isBlank = [] := by
      simpa using dropWhile_blank htrail []
    show (((trail.dropWhile isBlank).reverse).dropWhile isBlank).reverse = []
    rw [htrail']
    rfl
  · have hdigits' : digits.reverse.all isOctal = true := by rwa [List.all_reverse]
    have hne' : digits.reverse ≠ [] := by rwa [ne_eq, List.reverse_eq_nil_iff]
    have hback := dropWhile_digits hdigits' hne' []
    rw [List.append_nil, ascii, List.map_reverse] at hback
    rw [dropWhile_digits hdigits hne, List.reverse_append, dropWhile_blank hreverse, ascii, hback,
      List.reverse_reverse]

theorem tarNumber_of_holds (h : FieldHolds field n) (hn : n < 2 ^ 53) :
    tarNumber field = .ok n := by
  cases h with
  | @octal lead trail digits hlead htrail hdigits =>
      have htrim := trimField_octal hlead htrail hdigits
      have hmap : (ascii digits).map charOf = digits :=
        map_charOf_ascii fun c hc => toNat_lt_of_isOctal (List.all_eq_true.mp hdigits c hc)
      cases hfield : lead ++ ascii digits ++ trail with
      | nil =>
          rw [List.append_assoc, List.append_eq_nil_iff, List.append_eq_nil_iff] at hfield
          obtain ⟨-, hnil, -⟩ := hfield
          rw [List.map_eq_nil_iff.mp hnil]
          rfl
      | cons first rest =>
          have hsmall : ¬ 0x80 ≤ first.toNat := by
            have hmem : first ∈ lead ++ ascii digits ++ trail := by
              rw [hfield]
              exact List.mem_cons_self ..
            have hblank : ∀ b : UInt8, isBlank b = true → b.toNat < 128 := by
              intro b hb
              simp only [isBlank, Bool.or_eq_true, decide_eq_true_eq] at hb
              rcases hb with rfl | rfl <;> decide
            rw [List.mem_append, List.mem_append] at hmem
            rcases hmem with (hmem | hmem) | hmem
            · exact Nat.not_le.mpr (hblank first (List.all_eq_true.mp hlead first hmem))
            · obtain ⟨c, hc, rfl⟩ := List.mem_map.mp hmem
              have hc' := toNat_lt_of_isOctal (List.all_eq_true.mp hdigits c hc)
              rw [byteOf, UInt8.toNat_ofNat', Nat.mod_eq_of_lt (by omega)]
              omega
            · exact Nat.not_le.mpr (hblank first (List.all_eq_true.mp htrail first hmem))
          rw [tarNumber, if_neg hsmall, ← hfield, htrim, hmap]
          simp only [hdigits, if_true]
  | base256 hfirst _ =>
      rw [tarNumber, if_pos hfirst, toDouble_le (Nat.le_of_lt hn)]

theorem checksum_lt {block : Bytes} (hlength : block.length = blockSize) :
    checksum block < 2 ^ 53 := by
  have hsum := byteSum_le (block.take 148 ++ List.replicate 8 32 ++ block.drop 156)
  rw [List.length_append, List.length_append, List.length_replicate, List.length_take,
    List.length_drop, hlength] at hsum
  refine Nat.lt_of_le_of_lt hsum ?_
  decide

end

/-! ## The size in an extended header -/

section

variable {numbers : NumberReader}

/-- What the scanner holds of a stream: sizes that a double holds, extended headers of 8 MiB at
most, and one size record in each at most. -/
def scannerLimits : Limits where
  size n := n < 2 ^ 53
  extended records text := text.length ≤ maximumExtended ∧
    (records.filter (·.1 = sizeKey)).length ≤ 1 ∧
    ∀ n ∈ sizeOverride records, n < 2 ^ 53

theorem decode_digits {value : Bytes} (h : value.all isDigit = true) :
    decodeUtf8From none value = value.map charOf ∧
      (value.map charOf).all Char.isDigit = true := by
  induction value with
  | nil => exact ⟨rfl, rfl⟩
  | cons b value ih =>
      rw [List.all_cons, Bool.and_eq_true] at h
      obtain ⟨hrest, hdigits⟩ := ih h.2
      have hb := h.1
      simp only [isDigit, Bool.and_eq_true, decide_eq_true_eq] at hb
      have hlead : utf8Lead b.toNat = .inl (charOf b) := by
        rw [utf8Lead, if_pos (by omega)]
        rfl
      have hsmall : ∀ n < 58, (Char.ofNat n).toNat = n := by decide
      have hchar : (charOf b).toNat = b.toNat := hsmall _ (by omega)
      have hdigit : (charOf b).isDigit = true := by
        rw [Char.isDigit_iff_toNat, hchar]
        exact hb
      rw [decodeUtf8From, hlead]
      refine ⟨?_, ?_⟩
      · dsimp only
        rw [hrest, List.map_cons]
      · rw [List.map_cons, List.all_cons, hdigit, hdigits]
        rfl

theorem not_mem_sizeKey : (61 : UInt8) ∉ sizeKey := by decide

theorem split_at_equals {key value : Bytes} (hkey : (61 : UInt8) ∉ key) :
    (key ++ 61 :: value).takeWhile (· ≠ 61) = key ∧
      (key ++ 61 :: value).dropWhile (· ≠ 61) = 61 :: value := by
  have hall : ∀ b ∈ key, decide (b ≠ 61) = true := fun b hb =>
    decide_eq_true fun heq => hkey (heq ▸ hb)
  rw [List.takeWhile_append_of_pos hall, List.dropWhile_append_of_pos hall,
    List.takeWhile_cons_of_neg (by decide), List.dropWhile_cons_of_neg (by decide),
    List.append_nil]
  exact ⟨rfl, rfl⟩

theorem sizeIn_size {value : Bytes} (hne : value ≠ []) (hvalue : value.all isDigit = true)
    (hn : number 10 value < 2 ^ 53) :
    sizeIn numbers (sizeKey ++ 61 :: value) = some (number 10 value) := by
  obtain ⟨htake, hdrop⟩ := @split_at_equals sizeKey value not_mem_sizeKey
  obtain ⟨hdecode, hdigits⟩ := decode_digits hvalue
  have hread : numbers.read (value.map charOf) = some (number 10 value) := by
    rw [numbers.digits _ (fun h => hne (List.map_eq_nil_iff.mp h)) hdigits]
    exact toDouble_le (Nat.le_of_lt hn)
  unfold sizeIn
  rw [hdrop, htake]
  dsimp only
  rw [if_pos rfl, hdecode, hread]
  exact if_pos (Nat.le_pred_of_lt hn)

theorem sizeIn_other {key value : Bytes} (hkey : (61 : UInt8) ∉ key) (hother : key ≠ sizeKey) :
    sizeIn numbers (key ++ 61 :: value) = none := by
  obtain ⟨htake, hdrop⟩ := @split_at_equals key value hkey
  unfold sizeIn
  rw [hdrop, htake]
  exact if_neg hother

theorem paxSizeFrom_record {length : Nat} {key value text : Bytes}
    (hlength : (record length key value).length = length) (hsmall : length < 2 ^ 53) (fuel : Nat) :
    paxSizeFrom numbers (fuel + 1) (record length key value ++ text) =
      match sizeIn numbers (key ++ 61 :: value) with
      | some n => some n
      | none => paxSizeFrom numbers fuel text := by
  have hdigits : ∀ c ∈ Nat.toDigits 10 length, c.isDigit = true := fun c hc =>
    Nat.isDigit_of_mem_toDigits (by decide) (by decide) hc
  have htext : record length key value ++ text = ascii (Nat.toDigits 10 length) ++
      32 :: ((key ++ 61 :: value ++ [10]) ++ text) := by
    simp only [record, List.append_assoc, List.cons_append]
  have hspace : ∀ b ∈ ascii (Nat.toDigits 10 length), decide (b ≠ 32) = true := by
    intro b hb
    obtain ⟨c, hc, rfl⟩ := List.mem_map.mp hb
    refine decide_eq_true fun heq => ?_
    have hdigit := isDigit_byteOf (hdigits c hc)
    rw [heq] at hdigit
    cases hdigit
  have htake : (record length key value ++ text).takeWhile (· ≠ 32) =
      ascii (Nat.toDigits 10 length) := by
    rw [htext, List.takeWhile_append_of_pos hspace, List.takeWhile_cons_of_neg (by decide),
      List.append_nil]
  have hlen := length_record length key value
  have hread : numbers.read ((ascii (Nat.toDigits 10 length)).map charOf) = some length := by
    rw [map_charOf_ascii fun c hc => toNat_lt_of_isDigit (hdigits c hc),
      numbers.digits _ Nat.toDigits_ne_nil (List.all_eq_true.mpr hdigits),
      Nat.ofDigitChars_ten_toDigits]
    exact toDouble_le (Nat.le_of_lt hsmall)
  have hrecord : ((record length key value ++ text).take (length - 1)).drop
      ((Nat.toDigits 10 length).length + 1) = key ++ 61 :: value := by
    have hsplit : record length key value ++ text =
        (ascii (Nat.toDigits 10 length) ++ [32]) ++ ((key ++ 61 :: value) ++ (10 :: text)) := by
      simp only [record, List.append_assoc, List.cons_append, List.nil_append]
    have hfront : (ascii (Nat.toDigits 10 length) ++ [32]).length =
        (Nat.toDigits 10 length).length + 1 := by
      rw [List.length_append, length_ascii, List.length_singleton]
    have hwhole : length - 1 =
        (Nat.toDigits 10 length).length + 1 + (key ++ 61 :: value).length := by
      rw [List.length_append, List.length_cons]
      omega
    rw [hsplit, hwhole, ← hfront, List.take_length_add_append, List.drop_left, List.take_left]
  have hmore : (Nat.toDigits 10 length).length ≠ (record length key value ++ text).length := by
    rw [List.length_append, hlength]
    omega
  have hpos : ¬ (length = 0 ∨ (record length key value ++ text).length < length) := by
    rw [List.length_append, hlength]
    omega
  cases hsize : sizeIn numbers (key ++ 61 :: value) with
  | none =>
      rw [paxSizeFrom, htake, length_ascii, if_neg hmore, hread]
      dsimp only
      rw [if_neg hpos, hrecord, hsize, List.drop_left' hlength]
  | some n =>
      rw [paxSizeFrom, htake, length_ascii, if_neg hmore, hread]
      dsimp only
      rw [if_neg hpos, hrecord, hsize]

theorem sizeOverride_cons_other {records : List (Bytes × Bytes)} {key value : Bytes}
    (h : key ≠ sizeKey) : sizeOverride ((key, value) :: records) = sizeOverride records := by
  unfold sizeOverride override
  rw [List.reverse_cons, List.find?_append, List.find?_singleton]
  have hnot : (key = ascii ['s', 'i', 'z', 'e']) = False := eq_false h
  simp [hnot]

theorem sizeOverride_cons_size {records : List (Bytes × Bytes)} {value : Bytes}
    (h : ∀ r ∈ records, r.1 ≠ sizeKey) :
    sizeOverride ((sizeKey, value) :: records) = some (number 10 value) := by
  unfold sizeOverride override
  rw [List.reverse_cons, List.find?_append, List.find?_eq_none.mpr]
  · rfl
  · intro r hr
    exact fun heq => h r (List.mem_reverse.mp hr) (of_decide_eq_true heq)

theorem paxSizeFrom_records {records : List (Bytes × Bytes)} {text : Bytes}
    (h : RecordsText records text) (hsizes : SizesWritten records) (hsmall : text.length < 2 ^ 53)
    (honce : (records.filter (·.1 = sizeKey)).length ≤ 1)
    (hlimit : ∀ n ∈ sizeOverride records, n < 2 ^ 53) {fuel : Nat} (hfuel : text.length ≤ fuel) :
    paxSizeFrom numbers fuel text = sizeOverride records := by
  induction h generalizing fuel with
  | nil => cases fuel <;> rfl
  | @cons length key value text records hlength hkey h ih =>
      rw [List.length_append, hlength] at hsmall hfuel
      have hpos : 0 < length := by
        have hlen := length_record length key value
        omega
      obtain ⟨fuel, rfl⟩ : ∃ m, fuel = m + 1 := ⟨fuel - 1, by omega⟩
      rw [paxSizeFrom_record hlength (by omega)]
      by_cases hsize : key = sizeKey
      · subst hsize
        have hrest : ∀ r ∈ records, r.1 ≠ sizeKey := by
          intro r hr heq
          rw [List.filter_cons, if_pos (decide_eq_true rfl), List.length_cons] at honce
          have hmem : r ∈ records.filter (·.1 = sizeKey) :=
            List.mem_filter.mpr ⟨hr, decide_eq_true heq⟩
          have hlen := List.length_pos_of_mem hmem
          omega
        obtain ⟨hne, hdigits⟩ := hsizes _ (List.mem_cons_self ..) rfl
        rw [sizeOverride_cons_size hrest] at hlimit ⊢
        rw [sizeIn_size hne hdigits (hlimit _ rfl)]
      · have hrest : SizesWritten records := fun r hr => hsizes r (List.mem_cons_of_mem _ hr)
        rw [List.filter_cons_of_neg (by simpa using hsize)] at honce
        rw [sizeOverride_cons_other hsize] at hlimit ⊢
        rw [sizeIn_other hkey hsize]
        exact ih hrest (by omega) honce hlimit (by omega)

theorem paxSize_records {records : List (Bytes × Bytes)} {text : Bytes}
    (h : RecordsText records text) (hsizes : SizesWritten records)
    (hlimit : scannerLimits.extended records text) :
    paxSize numbers text = sizeOverride records := by
  obtain ⟨hlength, honce, hsmall⟩ := hlimit
  exact paxSizeFrom_records h hsizes (Nat.lt_of_le_of_lt hlength (by decide)) honce hsmall
    (Nat.le_refl _)

end

/-! ## Chunks -/

section

variable {numbers : NumberReader} {s : ArchiveBody} {a b chunk : Bytes}

/-- What is written before what a push writes. -/
def after (out : Bytes) (pushed : Except TarError (ArchiveBody × Bytes)) :
    Except TarError (ArchiveBody × Bytes) :=
  pushed.map fun (s, more) => (s, out ++ more)

theorem after_nil (pushed : Except TarError (ArchiveBody × Bytes)) : after [] pushed = pushed := by
  cases pushed <;> rfl

theorem after_after (pushed : Except TarError (ArchiveBody × Bytes)) :
    after a (after b pushed) = after (a ++ b) pushed := by
  cases pushed with
  | error e => rfl
  | ok pushed => exact congrArg (fun out => Except.ok (pushed.1, out)) (List.append_assoc ..).symm

theorem push_nil : s.push numbers [] = .ok (s, []) := by
  rw [ArchiveBody.push, dif_pos rfl]

theorem push_ended (h : s.ended = true) : s.push numbers chunk =
    if chunk.all (· = 0) then .ok (s, []) else .error .afterEnd := by
  rw [ArchiveBody.push]
  by_cases hchunk : chunk = []
  · rw [dif_pos hchunk, hchunk]
    rfl
  · rw [dif_neg hchunk, if_pos h]

theorem push_content (hended : s.ended = false) (hleft : 0 < s.left) (hchunk : chunk ≠ []) :
    s.push numbers chunk = after (chunk.take s.left)
      ((s.onContent numbers (chunk.take s.left)).push numbers (chunk.drop s.left)) := by
  rw [ArchiveBody.push, dif_neg hchunk, if_neg (by rw [hended]; exact Bool.false_ne_true),
    dif_pos hleft]
  cases (s.onContent numbers (chunk.take s.left)).push numbers (chunk.drop s.left) <;> rfl

theorem push_short (hended : s.ended = false) (hleft : s.left = 0)
    (hshort : (s.block ++ chunk).length < blockSize) :
    s.push numbers chunk = .ok ({ s with block := s.block ++ chunk, short := hshort }, []) := by
  rw [ArchiveBody.push]
  by_cases hchunk : chunk = []
  · subst hchunk
    rw [dif_pos rfl]
    obtain ⟨block, short, left, pax, paxLength, nextSize, ended⟩ := s
    simp only [List.append_nil]
  · rw [dif_neg hchunk, if_neg (by rw [hended]; exact Bool.false_ne_true),
      dif_neg (by omega), dif_pos hshort]

theorem push_block (hended : s.ended = false) (hleft : s.left = 0)
    (hlong : blockSize ≤ (s.block ++ chunk).length) :
    s.push numbers chunk = (s.onBlock ((s.block ++ chunk).take blockSize)).bind
      fun (s', header) =>
        after header (s'.push numbers (chunk.drop (blockSize - s.block.length))) := by
  have hchunk : chunk ≠ [] := by
    rintro rfl
    have hshort := s.short
    rw [List.append_nil] at hlong
    omega
  rw [ArchiveBody.push, dif_neg hchunk, if_neg (by rw [hended]; exact Bool.false_ne_true),
    dif_neg (by omega), dif_neg (by omega)]
  cases s.onBlock ((s.block ++ chunk).take blockSize) with
  | error e => rfl
  | ok r =>
      obtain ⟨s', header⟩ := r
      show ((s'.push numbers (chunk.drop (blockSize - s.block.length))).bind _ : Except _ _) =
        after header (s'.push numbers (chunk.drop (blockSize - s.block.length)))
      cases s'.push numbers (chunk.drop (blockSize - s.block.length)) <;> rfl

theorem onContent_append (h : a.length < s.left) :
    (s.onContent numbers a).onContent numbers b = s.onContent numbers (a ++ b) := by
  obtain ⟨block, short, left, pax, paxLength, nextSize, ended⟩ := s
  have hnot : ¬ left - a.length = 0 := by
    dsimp only at h
    omega
  cases pax with
  | none => simp [ArchiveBody.onContent, Nat.sub_sub]
  | some data => simp [ArchiveBody.onContent, hnot, Nat.sub_sub]

theorem onContent_left : (s.onContent numbers a).left = s.left - a.length := by
  unfold ArchiveBody.onContent
  split
  · rfl
  · dsimp only
    split <;> rfl

theorem onContent_ended : (s.onContent numbers a).ended = s.ended := by
  unfold ArchiveBody.onContent
  split
  · rfl
  · dsimp only
    split <;> rfl

theorem onContent_block : (s.onContent numbers a).block = s.block := by
  unfold ArchiveBody.onContent
  split
  · rfl
  · dsimp only
    split <;> rfl

theorem onBlock_congr {s' : ArchiveBody} (h : s.nextSize = s'.nextSize) (hpax : s.pax = s'.pax)
    (hlength : s.paxLength = s'.paxLength) (hended : s.ended = s'.ended)
    (hleft : s.left = s'.left) (block : Bytes) : s.onBlock block = s'.onBlock block := by
  obtain ⟨_, _, _, _, _, _, _⟩ := s
  obtain ⟨_, _, _, _, _, _, _⟩ := s'
  dsimp only at h hpax hlength hended hleft
  subst h hpax hlength hended hleft
  rfl

theorem bind_after (pushed : Except TarError (ArchiveBody × Bytes))
    (next : ArchiveBody → Except TarError (ArchiveBody × Bytes)) :
    ((after a pushed).bind fun (s', out) => after out (next s')) =
      after a (pushed.bind fun (s', out) => after out (next s')) := by
  cases pushed with
  | error e => rfl
  | ok r => exact (after_after _).symm

theorem push_append (s : ArchiveBody) (a b : Bytes) : s.push numbers (a ++ b) =
    (s.push numbers a).bind fun (s', out) => after out (s'.push numbers b) := by
  induction hn : a.length using Nat.strongRecOn generalizing s a with
  | ind n ih =>
      by_cases ha : a = []
      · rw [ha, push_nil]
        exact (after_nil _).symm
      have hpos := List.length_pos_iff.mpr ha
      by_cases hended : s.ended = true
      · rw [push_ended hended, push_ended hended, List.all_append]
        cases a.all (· = 0) with
        | true =>
            refine Eq.trans ?_ (after_nil _).symm
            exact (push_ended hended).symm
        | false => rfl
      rw [Bool.not_eq_true] at hended
      by_cases hleft : 0 < s.left
      · have hab : a ++ b ≠ [] := List.append_ne_nil_of_left_ne_nil ha b
        rw [push_content hended hleft hab, push_content hended hleft ha]
        by_cases hlong : s.left ≤ a.length
        · rw [List.take_append_of_le_length hlong, List.drop_append_of_le_length hlong,
            ih (a.drop s.left).length (by rw [List.length_drop]; omega) _ _ rfl]
          exact (bind_after _ fun s' => s'.push numbers b).symm
        · -- The chunk is of a content that goes on in the next one.
          rw [Nat.not_le] at hlong
          rw [List.take_of_length_le (Nat.le_of_lt hlong), List.drop_of_length_le
            (Nat.le_of_lt hlong), push_nil, List.take_append, List.drop_append,
            List.take_of_length_le (Nat.le_of_lt hlong), List.drop_of_length_le
            (Nat.le_of_lt hlong), List.nil_append]
          show _ = after (a ++ []) ((s.onContent numbers a).push numbers b)
          rw [List.append_nil]
          by_cases hb : b = []
          · rw [hb, List.take_nil, List.drop_nil, List.append_nil, push_nil]
          · have hmore : 0 < (s.onContent numbers a).left := by
              rw [onContent_left]
              omega
            rw [push_content (onContent_ended.trans hended) hmore hb, onContent_left, after_after,
              onContent_append hlong]
      have hleft : s.left = 0 := by omega
      have hshort := s.short
      by_cases hlong : blockSize ≤ (s.block ++ a).length
      · have hlong' : blockSize ≤ (s.block ++ (a ++ b)).length := by
          rw [← List.append_assoc, List.length_append]
          omega
        rw [List.length_append] at hlong
        rw [push_block hended hleft hlong', push_block hended hleft
          (by rw [List.length_append]; exact hlong), ← List.append_assoc,
          List.take_append_of_le_length (by rw [List.length_append]; exact hlong),
          List.drop_append_of_le_length (by omega)]
        cases s.onBlock ((s.block ++ a).take blockSize) with
        | error e => rfl
        | ok r =>
            obtain ⟨s', header⟩ := r
            show after header _ = (after header _).bind _
            rw [ih (a.drop (blockSize - s.block.length)).length
              (by rw [List.length_drop]; omega) _ _ rfl]
            exact (bind_after _ fun s' => s'.push numbers b).symm
      · -- The chunk does not fill the block.
        rw [Nat.not_le] at hlong
        rw [push_short hended hleft hlong]
        refine Eq.trans ?_ (after_nil _).symm
        by_cases hlong' : blockSize ≤ (s.block ++ a ++ b).length
        · have hlength := @List.length_append _ s.block a
          rw [push_block hended hleft (by rwa [← List.append_assoc]),
            push_block (s := { s with block := s.block ++ a, short := hlong }) hended hleft hlong',
            ← List.append_assoc, List.drop_append, List.drop_of_length_le (by omega),
            List.nil_append]
          dsimp only
          rw [hlength, Nat.sub_sub]
          refine congrArg (Except.bind · _) ?_
          exact onBlock_congr rfl rfl rfl rfl rfl _
        · rw [Nat.not_le] at hlong'
          rw [push_short hended hleft (by rwa [← List.append_assoc]),
            push_short (s := { s with block := s.block ++ a, short := hlong }) hended hleft hlong']
          simp only [List.append_assoc]

theorem pushAll_eq (s : ArchiveBody) (chunks : List Bytes) :
    s.pushAll numbers chunks = s.push numbers chunks.flatten := by
  induction chunks generalizing s with
  | nil => exact push_nil.symm
  | cons chunk chunks ih =>
      rw [List.flatten_cons, push_append, ArchiveBody.pushAll]
      cases s.push numbers chunk with
      | error e => rfl
      | ok r =>
          obtain ⟨s', out⟩ := r
          show ((s'.pushAll numbers chunks).bind _ : Except _ _) =
            after out (s'.push numbers chunks.flatten)
          rw [ih]
          cases s'.push numbers chunks.flatten <;> rfl

end

/-! ## Members -/

section

variable {numbers : NumberReader} {pending : Option Nat} {s : ArchiveBody}
  {block content rest : Bytes}

/-- At the start of a header block, with the size that the next member was given. -/
structure AtStart (pending : Option Nat) (s : ArchiveBody) : Prop where
  block : s.block = []
  left : s.left = 0
  pax : s.pax = none
  nextSize : s.nextSize = pending
  ended : s.ended = false

theorem nil_short : ([] : Bytes).length < blockSize := by decide

/-- In a content, or behind it when there is none. -/
def ArchiveBody.inside (s : ArchiveBody) (size : Nat) (nextSize : Option Nat) : ArchiveBody :=
  { s with block := [], short := nil_short, left := inBlocks size, nextSize }

theorem zeros_block : tarNumber (sumField (List.replicate blockSize 0)) = .ok 0 ∧
    checksum (List.replicate blockSize 0) = 256 ∧
    (List.replicate blockSize (0 : UInt8)).all (· = 0) = true := by decide +kernel

theorem not_zeros (hblock : IsHeader block) : block.all (· = 0) = false := by
  rw [Bool.eq_false_iff]
  intro hzeros
  have hrep : block = List.replicate blockSize 0 :=
    List.eq_replicate_iff.mpr ⟨hblock.length, fun b hb =>
      of_decide_eq_true (List.all_eq_true.mp hzeros b hb)⟩
  have hsum := tarNumber_of_holds hblock.sum (checksum_lt hblock.length)
  rw [hrep] at hsum
  rw [zeros_block.1, zeros_block.2.1] at hsum
  cases hsum

theorem onBlock_header {stated : Nat} (hblock : IsHeader block)
    (hstated : FieldHolds (sizeField block) stated) (hsmall : stated < 2 ^ 53) :
    s.onBlock block =
      (let type := typeflag block
      let extended := type = extendedType ∨ type = globalType
      let size := if headerOnly type then 0
        else if extended then stated else s.nextSize.getD stated
      let s := s.inside size (if extended then s.nextSize else none)
      if type = extendedType ∧ size > 0 then
        if size > maximumExtended then .error .extendedTooLarge
        else .ok ({ s with pax := some [], paxLength := size }, block)
      else .ok (s, block)) := by
  unfold ArchiveBody.onBlock
  rw [not_zeros hblock, tarNumber_of_holds hblock.sum (checksum_lt hblock.length),
    tarNumber_of_holds hstated hsmall]
  simp only [Bool.false_eq_true, if_false, bind, Except.bind, pure, Except.pure, ne_eq,
    not_true_eq_false, ArchiveBody.inside]
  split
  · split <;> rfl
  · rfl

theorem length_padded (content : Bytes) : (padded content).length = inBlocks content.length := by
  unfold padded inBlocks padding blockSize
  rw [List.length_append, List.length_replicate]
  omega

theorem push_header {s' : ArchiveBody} {header : Bytes} (h : AtStart pending s)
    (hlength : block.length = blockSize) (hblock : s.onBlock block = .ok (s', header)) :
    s.push numbers (block ++ rest) = after header (s'.push numbers rest) := by
  have hlong : blockSize ≤ (s.block ++ (block ++ rest)).length := by
    rw [h.block, List.nil_append, List.length_append]
    omega
  rw [push_block h.ended h.left hlong, h.block, List.nil_append, List.take_left' hlength, hblock,
    List.length_nil, Nat.sub_zero, List.drop_left' hlength]
  rfl

theorem push_padded (hended : s.ended = false)
    (hleft : s.left = inBlocks content.length) :
    s.push numbers (padded content ++ rest) =
      after (padded content)
        ((if s.left = 0 then s else s.onContent numbers (padded content)).push numbers rest) := by
  have hlength := length_padded content
  by_cases hempty : s.left = 0
  · rw [hempty] at hleft
    rw [← hleft, List.length_eq_zero_iff] at hlength
    rw [if_pos hempty, hlength, List.nil_append, after_nil]
  · have hne : padded content ++ rest ≠ [] := by
      refine List.append_ne_nil_of_left_ne_nil (fun hnil => hempty ?_) _
      rw [hleft, ← hlength, hnil]
      rfl
    rw [push_content hended (by omega) hne, List.take_left' (hlength.trans hleft.symm),
      List.drop_left' (hlength.trans hleft.symm), if_neg hempty]

theorem inBlocks_pos {n : Nat} (h : 0 < n) : inBlocks n ≠ 0 := by
  unfold inBlocks
  omega

theorem push_member {next : Option Nat} {s' : ArchiveBody} {bytes : Bytes} (hs : AtStart pending s)
    (hlength : block.length = blockSize) (hblock : s.onBlock block = .ok (s', block))
    (hended : s'.ended = false) (hleft : s'.left = inBlocks content.length)
    (hnext : AtStart next (if s'.left = 0 then s' else s'.onContent numbers (padded content)))
    (hrest : ∀ s, AtStart next s → ∃ s', AtStart none s' ∧ ∀ rest,
      s.push numbers (bytes ++ rest) = after bytes (s'.push numbers rest)) :
    ∃ s', AtStart none s' ∧ ∀ rest, s.push numbers (block ++ (padded content ++ bytes) ++ rest) =
      after (block ++ (padded content ++ bytes)) (s'.push numbers rest) := by
  obtain ⟨last, hlast, hpush⟩ := hrest _ hnext
  refine ⟨last, hlast, fun rest => ?_⟩
  rw [List.append_assoc, List.append_assoc, push_header hs hlength hblock,
    push_padded hended hleft, hpush rest, after_after, after_after, List.append_assoc]

theorem atStart_behind {size : Nat} {next : Option Nat} (hs : AtStart pending s)
    (hsize : content.length = size) :
    AtStart next (if (s.inside size next).left = 0 then s.inside size next
      else (s.inside size next).onContent numbers (padded content)) := by
  have hlength := length_padded content
  split
  · next hzero => exact ⟨rfl, hzero, hs.pax, rfl, hs.ended⟩
  · have hcontent : (s.inside size next).onContent numbers (padded content) =
        { s.inside size next with left := 0 } := by
      have hpax : (s.inside size next).pax = none := hs.pax
      unfold ArchiveBody.onContent
      rw [hpax, hlength, hsize]
      simp [ArchiveBody.inside, hs.pax]
    rw [hcontent]
    exact ⟨rfl, rfl, hs.pax, rfl, hs.ended⟩

theorem onBlock_extended {text : Bytes} (hblock : IsHeader block)
    (htype : typeflag block = extendedType) (hsize : FieldHolds (sizeField block) text.length)
    (hlimit : text.length < 2 ^ 53) (htext : text ≠ []) (hshort : text.length ≤ maximumExtended) :
    s.onBlock block =
      .ok ({ s.inside text.length s.nextSize with pax := some [], paxLength := text.length },
        block) := by
  have hpos := List.length_pos_iff.mpr htext
  have hdata : headerOnly extendedType = false := by decide
  rw [onBlock_header hblock hsize hlimit, htype]
  simp [hdata, hpos, Nat.not_lt.mpr hshort]

theorem onBlock_global (hblock : IsHeader block) (htype : typeflag block = globalType)
    (hsize : FieldHolds (sizeField block) content.length) (hlimit : content.length < 2 ^ 53) :
    s.onBlock block = .ok (s.inside content.length s.nextSize, block) := by
  have hdata : headerOnly globalType = false := by decide
  have hother : globalType ≠ extendedType := by decide
  rw [onBlock_header hblock hsize hlimit, htype]
  simp [hdata, hother]

theorem onBlock_member {size : Nat} (hblock : IsHeader block)
    (hextended : typeflag block ≠ extendedType) (hglobal : typeflag block ≠ globalType)
    (hsize : FieldHolds (sizeField block) size) (hlimit : size < 2 ^ 53) :
    s.onBlock block =
      .ok (s.inside (if headerOnly (typeflag block) then 0 else s.nextSize.getD size) none,
        block) := by
  rw [onBlock_header hblock hsize hlimit]
  simp [hextended, hglobal]

/-- A member goes through, and the next one is met at the start of its header block. -/
theorem push_members {members : List TarMember} {bytes : Bytes}
    (h : Members scannerLimits pending members bytes) :
    ∀ s, AtStart pending s → ∃ s', AtStart none s' ∧ ∀ rest,
      s.push numbers (bytes ++ rest) = after bytes (s'.push numbers rest) := by
  induction h with
  | nil => exact fun s hs => ⟨s, hs, fun rest => (after_nil _).symm⟩
  | @extended pending block text bytes records members hblock htype hsize hlimit htext hrecords
      hsizes hextended h ih =>
      intro s hs
      have hleft : inBlocks text.length ≠ 0 := inBlocks_pos (List.length_pos_iff.mpr htext)
      refine push_member hs hblock.length
        (onBlock_extended hblock htype hsize hlimit htext hextended.1) hs.ended rfl ?_ ih
      have hlength := length_padded text
      have htake : (padded text).take text.length = text := by rw [padded, List.take_left]
      split
      · next hzero => exact absurd hzero hleft
      · have hcontent : ArchiveBody.onContent numbers
            { s.inside text.length s.nextSize with pax := some [], paxLength := text.length }
              (padded text) =
            { s with
              block := []
              short := by decide
              left := 0
              pax := none
              paxLength := text.length
              nextSize := sizeOverride records } := by
          unfold ArchiveBody.onContent
          dsimp only [ArchiveBody.inside, Option.map_some]
          rw [List.nil_append, hlength, Nat.sub_self, if_pos rfl, htake,
            paxSize_records hrecords hsizes hextended]
        rw [hcontent]
        exact ⟨rfl, rfl, rfl, rfl, hs.ended⟩
  | @global pending block content bytes members hblock htype hsize hlimit h ih =>
      intro s hs
      refine push_member hs hblock.length (onBlock_global hblock htype hsize hlimit) hs.ended rfl
        ?_ ih
      rw [hs.nextSize]
      exact atStart_behind hs rfl
  | @member pending size block content bytes members hblock hextended hglobal hsize hlimit hcontent
      h ih =>
      intro s hs
      rw [← hs.nextSize] at hcontent
      refine push_member hs hblock.length
        (onBlock_member hblock hextended hglobal hsize hlimit) hs.ended ?_ ?_ ih
      · rw [hcontent]
        rfl
      · exact atStart_behind hs hcontent

/-! ## A part -/

theorem push_end (hs : AtStart none s) (rest : Bytes) :
    s.push numbers (List.replicate blockSize 0 ++ rest) =
      ArchiveBody.push numbers { s with block := [], short := by decide, ended := true } rest := by
  have hblock : s.onBlock (List.replicate blockSize 0) =
      .ok ({ s with block := [], short := by decide, ended := true }, []) := by
    unfold ArchiveBody.onBlock
    rw [zeros_block.2.2]
    rfl
  rw [push_header hs List.length_replicate hblock, after_nil]

theorem atStart_new : AtStart none ({} : ArchiveBody) := ⟨rfl, rfl, rfl, rfl, rfl⟩

/-- What a part has up to the block of zeros behind its members is written, and its end is met. -/
theorem push_part {members : List TarMember} {body : Bytes}
    (h : Members scannerLimits none members body) :
    ∃ s : ArchiveBody, s.ended = true ∧ ∀ rest,
      ArchiveBody.push numbers {} (body ++ (List.replicate blockSize 0 ++ rest)) =
        after body (s.push numbers rest) := by
  obtain ⟨s, hs, hpush⟩ := push_members h {} atStart_new
  refine ⟨{ s with block := [], short := by decide, ended := true }, rfl, fun rest => ?_⟩
  rw [hpush, push_end hs]

theorem archivePart_eq (chunks : List Bytes) :
    archivePart numbers chunks =
      (ArchiveBody.push numbers {} chunks.flatten).bind fun (s, out) =>
        if s.ended then .ok out else .error .cut := by
  unfold archivePart
  rw [pushAll_eq]
  cases ArchiveBody.push numbers {} chunks.flatten with
  | error e => rfl
  | ok r =>
      obtain ⟨s, out⟩ := r
      show ((s.finish).bind fun _ => Except.ok out) = _
      unfold ArchiveBody.finish
      dsimp only [Except.bind]
      by_cases hended : s.ended = true
      · rw [if_pos hended, if_pos hended]
      · rw [if_neg hended, if_neg hended]

theorem archivePart_body {members : List TarMember} {body : Bytes} {zeros : Nat}
    (h : Members scannerLimits none members body) (hzeros : blockSize ≤ zeros)
    {chunks : List Bytes} (hchunks : chunks.flatten = body ++ List.replicate zeros 0) :
    archivePart numbers chunks = .ok body := by
  obtain ⟨s, hended, hpush⟩ := @push_part numbers members body h
  have hsplit : List.replicate zeros (0 : UInt8) =
      List.replicate blockSize 0 ++ List.replicate (zeros - blockSize) 0 := by
    rw [List.replicate_append_replicate, Nat.add_sub_cancel' hzeros]
  have hall : (List.replicate (zeros - blockSize) (0 : UInt8)).all (· = 0) = true := by simp
  rw [archivePart_eq, hchunks, hsplit, hpush, push_ended hended, hall, if_pos rfl]
  show (if s.ended = true then Except.ok (body ++ []) else _) = _
  rw [if_pos hended, List.append_nil]

theorem archivePart_afterEnd {members : List TarMember} {body rest : Bytes}
    (h : Members scannerLimits none members body) (hrest : ∃ b ∈ rest, b ≠ 0)
    {chunks : List Bytes}
    (hchunks : chunks.flatten = body ++ (List.replicate blockSize 0 ++ rest)) :
    archivePart numbers chunks = .error .afterEnd := by
  obtain ⟨s, hended, hpush⟩ := @push_part numbers members body h
  have hall : rest.all (· = 0) = false := by
    obtain ⟨b, hb, hne⟩ := hrest
    exact List.all_eq_false.mpr ⟨b, hb, by simpa using hne⟩
  rw [archivePart_eq, hchunks, hpush, push_ended hended, hall]
  rfl

/-! ## A part that is cut -/

theorem onBlock_ok {s' : ArchiveBody} {header : Bytes} (h : s.onBlock block = .ok (s', header)) :
    s'.block = [] ∧
      (s'.ended = s.ended ∧ header = block ∨ s'.ended = true ∧ header = []) := by
  unfold ArchiveBody.onBlock at h
  simp only [bind, Except.bind, pure, Except.pure] at h
  split at h
  · injection h with h
    injection h with hs hheader
    subst hs hheader
    exact ⟨rfl, .inr ⟨rfl, rfl⟩⟩
  · split at h
    · cases h
    split at h
    · cases h
    split at h
    · cases h
    · next stated _ =>
        generalize (if headerOnly (typeflag block) = true then 0
          else if typeflag block = extendedType ∨ typeflag block = globalType then stated
          else s.nextSize.getD stated) = size at h
        split at h
        · split at h
          · cases h
          · injection h with h
            injection h with hs hheader
            subst hs hheader
            exact ⟨rfl, .inl ⟨rfl, rfl⟩⟩
        · injection h with h
          injection h with hs hheader
          subst hs hheader
          exact ⟨rfl, .inl ⟨rfl, rfl⟩⟩

/-- What the bytes that came have gone into: what is written, and a whole block for the end. -/
theorem push_room {chunk out : Bytes} {s' : ArchiveBody} (hended : s.ended = false)
    (h : s.push numbers chunk = .ok (s', out)) (hend : s'.ended = true) :
    out.length + blockSize ≤ s.block.length + chunk.length := by
  induction hn : chunk.length using Nat.strongRecOn generalizing s chunk out with
  | ind n ih =>
      by_cases hchunk : chunk = []
      · rw [hchunk, push_nil] at h
        injection h with h
        injection h with hs _
        rw [← hs, hended] at hend
        cases hend
      have hpos := List.length_pos_iff.mpr hchunk
      by_cases hleft : 0 < s.left
      · rw [push_content hended hleft hchunk] at h
        cases hmore : (s.onContent numbers (chunk.take s.left)).push numbers
          (chunk.drop s.left) with
        | error e =>
            rw [hmore] at h
            cases h
        | ok r =>
            obtain ⟨s'', more⟩ := r
            rw [hmore] at h
            injection h with h
            injection h with hs hout
            subst hs hout
            have hroom := ih (chunk.drop s.left).length (by rw [List.length_drop]; omega)
              (onContent_ended.trans hended) hmore rfl
            rw [onContent_block, List.length_drop] at hroom
            rw [List.length_append, List.length_take]
            omega
      have hleft : s.left = 0 := by omega
      by_cases hlong : blockSize ≤ (s.block ++ chunk).length
      · rw [push_block hended hleft hlong] at h
        rw [List.length_append] at hlong
        cases hblock : s.onBlock ((s.block ++ chunk).take blockSize) with
        | error e =>
            rw [hblock] at h
            cases h
        | ok r =>
            obtain ⟨next, header⟩ := r
            rw [hblock] at h
            obtain ⟨hnext, hheader⟩ := onBlock_ok hblock
            have hshort := s.short
            cases hmore : next.push numbers (chunk.drop (blockSize - s.block.length)) with
            | error e =>
                dsimp only [Except.bind] at h
                rw [hmore] at h
                cases h
            | ok r =>
                obtain ⟨s'', more⟩ := r
                dsimp only [Except.bind] at h
                rw [hmore] at h
                injection h with h
                injection h with hs hout
                subst hs hout
                rw [List.length_append]
                rcases hheader with ⟨hgoes, rfl⟩ | ⟨hends, rfl⟩
                · have hroom := ih (chunk.drop (blockSize - s.block.length)).length
                    (by rw [List.length_drop]; omega) (hgoes.trans hended) hmore rfl
                  rw [hnext, List.length_nil, List.length_drop] at hroom
                  rw [List.length_take, List.length_append]
                  omega
                · rw [push_ended hends] at hmore
                  split at hmore
                  · injection hmore with hmore
                    injection hmore with _ hnothing
                    rw [← hnothing, List.length_nil]
                    omega
                  · cases hmore
      · rw [push_short hended hleft (Nat.not_le.mp hlong)] at h
        injection h with h
        injection h with hs _
        rw [← hs] at hend
        exact absurd (hended.symm.trans hend) (by decide)

/-- Bytes that end before the block of zeros behind the members are an error. -/
theorem archivePart_cut {members : List TarMember} {body rest : Bytes}
    (h : Members scannerLimits none members body) (hrest : rest ≠ []) {chunks : List Bytes}
    (hchunks : chunks.flatten ++ rest = body ++ List.replicate blockSize 0) :
    archivePart numbers chunks = .error .cut := by
  obtain ⟨s, hended, hpush⟩ := @push_part numbers members body h
  have hwhole := hpush []
  rw [List.append_nil, push_nil, ← hchunks, push_append] at hwhole
  rw [archivePart_eq]
  cases hcut : ArchiveBody.push numbers {} chunks.flatten with
  | error e =>
      rw [hcut] at hwhole
      cases hwhole
  | ok r =>
      obtain ⟨s', out⟩ := r
      show (if s'.ended = true then Except.ok out else _) = _
      refine if_neg fun hend => hrest ?_
      -- Nothing more is written behind the end, so all of the body was written before it.
      have hroom := push_room (s := {}) rfl hcut hend
      rw [hcut] at hwhole
      dsimp only [Except.bind] at hwhole
      rw [push_ended hend] at hwhole
      have hlength := congrArg List.length hchunks
      rw [List.length_append, List.length_append, List.length_replicate] at hlength
      split at hwhole
      · injection hwhole with hwhole
        injection hwhole with _ hout
        rw [List.append_nil, List.append_nil] at hout
        rw [hout] at hroom
        rw [← List.length_eq_zero_iff]
        simp only [List.length_nil, Nat.zero_add] at hroom
        omega
      · cases hwhole

/-! ## All parts -/

theorem tarTo_cons (part : List Bytes) {parts : List (List Bytes)} (h : parts ≠ []) :
    tarTo numbers (part :: parts) =
      (archivePart numbers part).bind fun out => (tarTo numbers parts).map (out ++ ·) := by
  cases parts with
  | nil => exact absurd rfl h
  | cons next parts =>
      rw [tarTo]
      cases archivePart numbers part with
      | error e => rfl
      | ok out => cases tarTo numbers (next :: parts) <;> rfl

theorem tarTo_error {part : List Bytes} {parts : List (List Bytes)} {e : TarError}
    (h : archivePart numbers part = .error e) (hparts : parts ≠ []) (before : List (List Bytes)) :
    ∃ e, tarTo numbers (before ++ part :: parts) = .error e := by
  induction before with
  | nil => exact ⟨e, by rw [List.nil_append, tarTo_cons part hparts, h]; rfl⟩
  | cons first before ih =>
      obtain ⟨e', he'⟩ := ih
      have hne : before ++ part :: parts ≠ [] := by simp
      rw [List.cons_append, tarTo_cons first hne, he']
      cases archivePart numbers first with
      | error e => exact ⟨e, rfl⟩
      | ok out => exact ⟨e', rfl⟩

/-- Archives that come one after the other are written as one, and the last one as it is. -/
theorem tarTo_archive {parts : List (List TarMember × List Bytes)} {members : List TarMember}
    {last : List Bytes} (hparts : ∀ part ∈ parts, IsArchive scannerLimits part.1 part.2.flatten)
    (hlast : IsArchive .none members last.flatten) :
    ∃ bodies, tarTo numbers (parts.map (·.2) ++ [last]) = .ok (bodies ++ last.flatten) ∧
      IsArchive .none (parts.flatMap (·.1) ++ members) (bodies ++ last.flatten) := by
  induction parts with
  | nil => exact ⟨[], rfl, hlast⟩
  | cons part parts ih =>
      obtain ⟨bodies, htar, harchive⟩ := ih fun part hpart => hparts part (.tail _ hpart)
      obtain ⟨body, zeros, hzeros, hbody, hbytes⟩ := hparts part (.head _)
      have hpart : archivePart numbers part.2 = .ok body :=
        archivePart_body hbody (Nat.le_trans (by decide) hzeros) hbytes
      refine ⟨body ++ bodies, ?_, ?_⟩
      · rw [List.map_cons, List.cons_append, tarTo_cons part.2 (by simp), hpart, htar,
          List.append_assoc]
        rfl
      · rw [List.flatMap_cons, List.append_assoc, List.append_assoc]
        exact harchive.prepend hbody.unlimited

/-- The batches hold every path that a request can carry, once and in the order of the bytes, and
their lines are short enough. Answers that are archives are written as one archive of all their
members, the last one as it is. Where an answer before the last is cut or goes on behind its end,
the call fails. -/
theorem tar_in_parts (numbers : NumberReader) :
    (∀ (token : String) (budget : Nat) (paths : List String),
      let batching := batchPaths budget (lineOverhead token) (byteSorted paths)
      (batching.1.flatten ++ batching.2.map (·.path)).Perm paths ∧
        batching.1.flatten.Pairwise (fun a b => pathBytes a ≤ pathBytes b) ∧
        (∀ batch ∈ batching.1, batch ≠ [] ∧
          (requestLine token (tarRequest batch)).length + 1 ≤ budget) ∧
        ∀ path ∈ batching.2.map (·.path),
          budget < (requestLine token (tarRequest [path])).length + 1) ∧
    (∀ (parts : List (List TarMember × List Bytes)) (members : List TarMember) (last : List Bytes),
      (∀ part ∈ parts, IsArchive scannerLimits part.1 part.2.flatten) →
      IsArchive .none members last.flatten →
      ∃ bodies, tarTo numbers (parts.map (·.2) ++ [last]) = .ok (bodies ++ last.flatten) ∧
        IsArchive .none (parts.flatMap (·.1) ++ members) (bodies ++ last.flatten)) ∧
    ∀ (before parts : List (List Bytes)) (part : List Bytes), parts ≠ [] →
      IsCut scannerLimits part.flatten ∨ GoesOn scannerLimits part.flatten →
      ∃ e, tarTo numbers (before ++ part :: parts) = .error e := by
  refine ⟨batches_complete, fun _ _ _ => tarTo_archive, fun before parts part hparts hpart => ?_⟩
  rcases hpart with ⟨members, body, rest, hbody, hrest, hbytes⟩ |
    ⟨members, body, rest, hbody, hrest, hbytes⟩
  · exact tarTo_error (archivePart_cut hbody hrest hbytes) hparts before
  · exact tarTo_error (archivePart_afterEnd hbody hrest hbytes) hparts before

end

/-! ## Two small archives -/

/-- `Number` of decimal digits. -/
def decimalNumbers : NumberReader where
  read cs := if cs ≠ [] ∧ cs.all Char.isDigit = true then toDouble (Nat.ofDigitChars 10 cs 0)
    else none
  digits _ hne hdigits := if_pos ⟨hne, hdigits⟩

/-- A header block with no name: its size, its checksum and its type. -/
def bareBlock (size sum : List Char) (type : UInt8) : Bytes :=
  List.replicate 124 0 ++ ascii size ++ List.replicate 13 0 ++ ascii sum ++ [0, 32, type] ++
    List.replicate 355 0

theorem bareBlock_fields {size sum : List Char} (type : UInt8) (hsize : size.length = 11)
    (hsum : sum.length = 6) :
    (bareBlock size sum type).length = blockSize ∧ typeflag (bareBlock size sum type) = type ∧
      sumField (bareBlock size sum type) = [] ++ ascii sum ++ [0, 32] ∧
      checksum (bareBlock size sum type) = byteSum (ascii size) + 256 + type.toNat ∧
      sizeField (bareBlock size sum type) = [] ++ ascii size ++ [0] := by
  have hlsize : (ascii size).length = 11 := by rw [ascii, List.length_map, hsize]
  have hlsum : (ascii sum).length = 6 := by rw [ascii, List.length_map, hsum]
  have hname : (List.replicate 124 (0 : UInt8)).length = 124 := List.length_replicate
  have hbefore : (List.replicate 124 (0 : UInt8) ++ (ascii size ++ List.replicate 13 0)).length =
      148 := by
    simp only [List.length_append, List.length_replicate, hlsize]
  have hfield : (ascii sum ++ [0, 32]).length = 8 := by
    rw [List.length_append, hlsum]
    rfl
  have hblock : bareBlock size sum type =
      (List.replicate 124 0 ++ (ascii size ++ List.replicate 13 0)) ++
        ((ascii sum ++ [0, 32]) ++ (type :: List.replicate 355 0)) := by
    simp only [bareBlock, List.append_assoc, List.cons_append, List.nil_append]
  rw [hblock]
  refine ⟨?_, ?_, ?_, ?_, ?_⟩
  · rw [List.length_append, hbefore, List.length_append, hfield, List.length_cons,
      List.length_replicate]
    rfl
  · rw [typeflag, List.getD_eq_getElem?_getD, List.getElem?_append_right (by omega), hbefore,
      List.getElem?_append_right (by omega), hfield]
    rfl
  · rw [sumField, List.drop_left' hbefore, List.take_left' hfield, List.nil_append]
  · rw [checksum_append hbefore hfield, byteSum_append, byteSum_append, byteSum_replicate_zero,
      byteSum_replicate_zero, byteSum, byteSum, List.map_cons, List.sum_cons]
    have hzero := byteSum_replicate_zero 355
    rw [byteSum] at hzero
    omega
  · have hsizeField : (ascii size ++ [(0 : UInt8)]).length = 12 := by
      rw [List.length_append, hlsize]
      rfl
    have hzeros : List.replicate 13 (0 : UInt8) = [0] ++ List.replicate 12 0 := rfl
    rw [sizeField, List.append_assoc, List.drop_left' hname, hzeros, List.append_assoc,
      List.append_assoc, ← List.append_assoc (ascii size), List.take_left' hsizeField,
      List.nil_append]

def fileBlock : Bytes :=
  bareBlock ['0', '0', '0', '0', '0', '0', '0', '0', '0', '0', '1'] ['0', '0', '1', '5', '0', '1']
    48

theorem fileBlock_fields : fileBlock.length = blockSize ∧ typeflag fileBlock = 48 ∧
    sumField fileBlock = [] ++ ascii ['0', '0', '1', '5', '0', '1'] ++ [0, 32] ∧
    checksum fileBlock = Nat.ofDigitChars 8 ['0', '0', '1', '5', '0', '1'] 0 ∧
    sizeField fileBlock =
      [] ++ ascii ['0', '0', '0', '0', '0', '0', '0', '0', '0', '0', '1'] ++ [0] :=
  bareBlock_fields 48 rfl rfl

theorem fileBlock_header : IsHeader fileBlock := by
  obtain ⟨hlength, -, hfield, hsum, -⟩ := fileBlock_fields
  refine ⟨hlength, ?_⟩
  rw [hfield, hsum]
  exact .octal rfl (by decide) (by decide)

theorem fileBlock_size : FieldHolds (sizeField fileBlock) 1 := by
  rw [fileBlock_fields.2.2.2.2]
  exact .octal rfl (by decide) (by decide)

theorem file_members {limits : Limits} (h : limits.size 1) :
    Members limits none [(fileBlock, [120])] (fileBlock ++ (padded [120] ++ [])) := by
  have htype := fileBlock_fields.2.1
  refine .member fileBlock_header ?_ ?_ fileBlock_size h ?_ .nil
  · rw [htype]
    decide
  · rw [htype]
    decide
  · rw [htype]
    rfl

theorem file_archive {limits : Limits} (h : limits.size 1) : IsArchive limits [(fileBlock, [120])]
    ((fileBlock ++ (padded [120] ++ [])) ++ List.replicate (2 * blockSize) 0) :=
  ⟨_, _, Nat.le_refl _, file_members h, rfl⟩

/-- A file in the first answer, one in the second, and the first answer in two chunks. -/
theorem two_files_in_parts : ∃ bodies,
    tarTo decimalNumbers [[fileBlock ++ (padded [120] ++ []), List.replicate (2 * blockSize) 0],
        [(fileBlock ++ (padded [120] ++ [])) ++ List.replicate (2 * blockSize) 0]] =
      .ok (bodies ++ ((fileBlock ++ (padded [120] ++ [])) ++ List.replicate (2 * blockSize) 0)) ∧
    IsArchive .none [(fileBlock, [120]), (fileBlock, [120])]
      (bodies ++ ((fileBlock ++ (padded [120] ++ [])) ++ List.replicate (2 * blockSize) 0)) := by
  have hfirst : IsArchive scannerLimits [(fileBlock, [120])]
      [fileBlock ++ (padded [120] ++ []), List.replicate (2 * blockSize) 0].flatten := by
    rw [List.flatten_cons, List.flatten_singleton]
    exact file_archive (show 1 < 2 ^ 53 by decide)
  have hlast : IsArchive .none [(fileBlock, [120])]
      [(fileBlock ++ (padded [120] ++ [])) ++ List.replicate (2 * blockSize) 0].flatten := by
    rw [List.flatten_singleton]
    exact file_archive trivial
  have hall := (tar_in_parts decimalNumbers).2.1 [([(fileBlock, [120])], _)] _ _
    (fun part hpart => List.mem_singleton.mp hpart ▸ hfirst) hlast
  rw [List.flatten_singleton] at hall
  exact hall

/-! ## An extended header that is too long -/

def longBlock : Bytes :=
  bareBlock ['0', '0', '0', '4', '0', '0', '0', '0', '0', '0', '1'] ['0', '0', '1', '6', '1', '5']
    extendedType

theorem longBlock_fields : longBlock.length = blockSize ∧ typeflag longBlock = extendedType ∧
    sumField longBlock = [] ++ ascii ['0', '0', '1', '6', '1', '5'] ++ [0, 32] ∧
    checksum longBlock = Nat.ofDigitChars 8 ['0', '0', '1', '6', '1', '5'] 0 ∧
    sizeField longBlock =
      [] ++ ascii ['0', '0', '0', '4', '0', '0', '0', '0', '0', '0', '1'] ++ [0] :=
  bareBlock_fields extendedType rfl rfl

theorem longBlock_header : IsHeader longBlock := by
  obtain ⟨hlength, -, hfield, hsum, -⟩ := longBlock_fields
  refine ⟨hlength, ?_⟩
  rw [hfield, hsum]
  exact .octal rfl (by decide) (by decide)

theorem longBlock_size : FieldHolds (sizeField longBlock) 8388609 := by
  rw [longBlock_fields.2.2.2.2]
  exact .octal rfl (by decide) (by decide)

def commentKey : Bytes := ascii ['c', 'o', 'm', 'm', 'e', 'n', 't']

/-- A comment of a little more than 8 MiB. -/
def longComment : Bytes := record 8388609 commentKey (List.replicate 8388592 97)

theorem length_longComment : longComment.length = 8388609 := by
  unfold longComment
  rw [length_record, List.length_replicate]
  rfl

theorem long_members : Members .none none [(longBlock, longComment), (fileBlock, [120])]
    (longBlock ++ (padded longComment ++ (fileBlock ++ (padded [120] ++ [])))) := by
  have hrecords : RecordsText [(commentKey, List.replicate 8388592 97)] longComment := by
    have hone := RecordsText.cons length_longComment (by decide : (61 : UInt8) ∉ commentKey) .nil
    rwa [List.append_nil] at hone
  have hkey : commentKey ≠ sizeKey := by decide
  have hne : longComment ≠ [] := by
    rw [← List.length_pos_iff, length_longComment]
    decide
  refine .extended longBlock_header longBlock_fields.2.1 ?_ trivial hne hrecords ?_ trivial ?_
  · rw [length_longComment]
    exact longBlock_size
  · intro r hr
    rw [List.mem_singleton.mp hr]
    exact fun heq => absurd heq hkey
  · rw [sizeOverride_cons_other hkey]
    exact file_members trivial

theorem onBlock_long (s : ArchiveBody) : s.onBlock longBlock = .error .extendedTooLarge := by
  rw [onBlock_header longBlock_header longBlock_size (by decide)]
  have htype := longBlock_fields.2.1
  have hdata : headerOnly extendedType = false := by decide
  have hlong : 8388609 > maximumExtended := by decide
  simp [htype, hdata, hlong]

/-- A long comment in an extended header makes the call fail. -/
theorem long_header_fails : ¬ ∀ (members : List TarMember) (part last : List Bytes),
    IsArchive .none members part.flatten → IsArchive .none [(fileBlock, [120])] last.flatten →
    ∃ out, tarTo decimalNumbers [part, last] = .ok out := by
  intro h
  have hlast : IsArchive .none [(fileBlock, [120])]
      [(fileBlock ++ (padded [120] ++ [])) ++ List.replicate (2 * blockSize) 0].flatten := by
    rw [List.flatten_singleton]
    exact file_archive trivial
  have hpart : IsArchive .none [(longBlock, longComment), (fileBlock, [120])]
      [(longBlock ++ (padded longComment ++ (fileBlock ++ (padded [120] ++ [])))),
        List.replicate (2 * blockSize) 0].flatten := by
    rw [List.flatten_cons, List.flatten_singleton]
    exact ⟨_, _, Nat.le_refl _, long_members, rfl⟩
  obtain ⟨out, hout⟩ := h _ _ _ hpart hlast
  have hlong : blockSize ≤ (([] : Bytes) ++ (longBlock ++ ((padded longComment ++
      (fileBlock ++ (padded [120] ++ []))) ++ List.replicate (2 * blockSize) 0))).length := by
    rw [List.nil_append, List.length_append, longBlock_header.length]
    exact Nat.le_add_right _ _
  rw [tarTo_cons _ (List.cons_ne_nil _ _), archivePart_eq, List.flatten_cons,
    List.flatten_singleton, List.append_assoc, push_block (s := {}) rfl rfl hlong, List.nil_append,
    List.take_left' longBlock_header.length, onBlock_long] at hout
  cases hout

end OmniRush.Box
