import OmniRush.Archive.TouchedStore

/-!
# What a session's file holds

A path's line is read back and no part of one is taken for a path, so the lines of the store
are a `LineFormat`. What `load` reads from a file after a write that stopped anywhere is what
it read before and some of the paths written (`lands_append`, `lands_first`), provided the
write began behind a whole line or with a line break.
-/

namespace OmniRush.Archive.TouchedPathStore

variable {sessionId path : String} {file file' : Option (List UInt8)} {batch : List String}

theorem mem_add {l : List String} {p q : String} : q ∈ add l p ↔ q ∈ l ∨ q = p := by
  unfold add
  split
  · next h =>
      have hmem : p ∈ l := List.contains_iff_mem.mp h
      refine ⟨.inl, fun h => ?_⟩
      rcases h with h | rfl
      · exact h
      · exact hmem
  · rw [List.mem_append, List.mem_singleton]

theorem mem_addAll {l m : List String} {q : String} : q ∈ addAll l m ↔ q ∈ l ∨ q ∈ m := by
  unfold addAll
  induction m generalizing l with
  | nil => simp
  | cons p m ih => rw [List.foldl_cons, ih, mem_add, List.mem_cons, or_assoc]

/-- A path `note` takes. -/
def Storable (path : String) : Prop :=
  (touchedPathParts path).isSome ∨ isOutsideTouchedPath path = true

theorem chars_ne_nil (v : Json) : Json.chars v ≠ [] := fun h => by
  have hpos := Json.chars_length_pos v
  rw [h] at hpos
  exact absurd hpos (Nat.lt_irrefl 0)

theorem parseChars_written (v : Json) : Json.parseChars (Json.chars v) = some v := by
  have h := Json.parseChars_chars v [] rfl rfl
  rwa [List.append_nil] at h

theorem readLine_pathLine (h : Storable path) : readLine (pathLine path) = some path := by
  rw [readLine, pathLine, if_neg (chars_ne_nil _), parseChars_written]
  by_cases houtside : isOutsideTouchedPath path = true
  · simp [Json.field, houtside]
  · have hparts : (touchedPathParts path).isSome = true := h.resolve_right houtside
    simp [houtside, hparts]

theorem readLine_torn {xs : List Char} (h : TornText (pathLine path) xs) : readLine xs = none := by
  have hparse : Json.parseChars xs = none := by
    unfold pathLine at h
    split at h
    · exact Json.parseChars_torn_obj h
    · exact Json.parseChars_torn_str h
  rw [readLine, hparse]
  split <;> rfl

def pathFormat : LineFormat String where
  Entry := Storable
  line := pathLine
  read := readLine
  read_line _ h := readLine_pathLine h
  newline_notMem _ := Json.newline_notMem_chars _
  read_torn _ _ h := readLine_torn h
  read_nil := rfl

theorem intercalate_pathLine (hne : batch ≠ []) :
    ['\n'].intercalate (batch.map pathLine) ++ ['\n'] = pathFormat.text batch := by
  induction batch with
  | nil => exact absurd rfl hne
  | cons p batch ih =>
      cases batch with
      | nil => simp [LineFormat.text, pathFormat, List.intercalate]
      | cons q batch =>
          have hcons := ih (List.cons_ne_nil _ _)
          have htext : pathFormat.text (p :: q :: batch) =
              pathLine p ++ '\n' :: pathFormat.text (q :: batch) := by
            rw [LineFormat.text, List.flatMap_cons, List.append_assoc]
            rfl
          rw [htext, ← hcons]
          simp [List.intercalate]

theorem readLine_header : readLine (header sessionId) = none := by
  rw [readLine, header, if_neg (chars_ne_nil _), parseChars_written]
  rfl

/-- The file is one of the session's. -/
def Usable (sessionId : String) (bytes : List UInt8) : Prop :=
  (textLines bytes).head? = some (header sessionId)

theorem mem_load {bytes : List UInt8} (h : Usable sessionId bytes) :
    path ∈ (load sessionId (some bytes)).paths ↔ path ∈ pathFormat.entries bytes := by
  have hload := h
  rw [Usable] at hload
  rw [load, if_pos hload, mem_addAll, LineFormat.entries]
  obtain ⟨rest, hlines⟩ := List.head?_eq_some_iff.mp hload
  rw [hlines, List.tail_cons, List.filterMap_cons]
  have hhead : pathFormat.read (header sessionId) = none := readLine_header
  rw [hhead]
  simp [pathFormat]

theorem load_fresh : (load sessionId file).fresh = false ↔
    ∃ bytes, file = some bytes ∧ Usable sessionId bytes := by
  cases file with
  | none => simp [load]
  | some bytes =>
      unfold load
      dsimp only
      split
      · next h => simp [Usable, h]
      · next h => simp [Usable, h]

theorem load_paths_fresh (h : (load sessionId file).fresh = true) :
    (load sessionId file).paths = [] := by
  cases file with
  | none => rfl
  | some bytes =>
      unfold load at h ⊢
      dsimp only at h ⊢
      split at h
      · cases h
      · next hhead => rw [if_neg hhead]

/-- What a write of `batch` that stopped anywhere has made of the file. -/
structure Lands (sessionId : String) (file file' : Option (List UInt8)) (batch : List String) :
    Prop where
  usable : (load sessionId file).fresh = false → (load sessionId file').fresh = false
  kept : ∀ p ∈ (load sessionId file).paths, p ∈ (load sessionId file').paths
  new : ∀ p ∈ (load sessionId file').paths, p ∈ (load sessionId file).paths ∨ p ∈ batch

/-- And what it has made of it when it did not stop. -/
structure LandsWhole (sessionId : String) (file' : Option (List UInt8)) (batch : List String) :
    Prop where
  usable : (load sessionId file').fresh = false
  all : ∀ p ∈ batch, p ∈ (load sessionId file').paths

theorem Lands.refl : Lands sessionId file file batch :=
  ⟨id, fun _ => id, fun _ => .inl⟩

theorem lands_appended {bytes bytes' : List UInt8} (h : Usable sessionId bytes) {j : Nat}
    (happended : pathFormat.Appended bytes bytes' batch j) :
    Lands sessionId (some bytes) (some bytes') batch ∧
      (batch.length ≤ j → LandsWhole sessionId (some bytes') batch) := by
  have h' : Usable sessionId bytes' := happended.head.trans h
  have husable : (load sessionId (some bytes')).fresh = false := load_fresh.mpr ⟨_, rfl, h'⟩
  refine ⟨⟨fun _ => husable, fun p hp => ?_, fun p hp => ?_⟩, fun hj => ⟨husable, fun p hp => ?_⟩⟩
  · rw [mem_load h', happended.entries]
    exact List.mem_append_left _ ((mem_load h).mp hp)
  · rw [mem_load h', happended.entries] at hp
    rcases List.mem_append.mp hp with hp | hp
    · exact .inl ((mem_load h).mpr hp)
    · exact .inr (List.mem_of_mem_take hp)
  · rw [mem_load h', happended.entries, List.take_of_length_le hj]
    exact List.mem_append_right _ hp

/-- A write to a file in use, behind a whole line or with a line break first. -/
theorem lands_append {bytes : List UInt8} (h : Usable sessionId bytes)
    (hbatch : ∀ p ∈ batch, Storable p) {torn : Bool}
    (hend : torn = true ∨ bytes.getLast? = some 10) (n : Nat) :
    Lands sessionId (some bytes) (some (bytes ++ (encodeText
        ((if torn then ['\n'] else []) ++ pathFormat.text batch)).take n)) batch ∧
      ((encodeText ((if torn then ['\n'] else []) ++ pathFormat.text batch)).length ≤ n →
        LandsWhole sessionId (some (bytes ++ (encodeText
          ((if torn then ['\n'] else []) ++ pathFormat.text batch)).take n)) batch) := by
  cases torn with
  | true =>
      obtain ⟨j, happended, hall⟩ := pathFormat.appended_break bytes hbatch n
      obtain ⟨hlands, hwhole⟩ := lands_appended h happended
      exact ⟨hlands, fun hn => hwhole (hall hn)⟩
  | false =>
      obtain ⟨j, happended, hall⟩ :=
        pathFormat.appended_whole (hend.resolve_left Bool.false_ne_true) hbatch n
      obtain ⟨hlands, hwhole⟩ := lands_appended h happended
      exact ⟨hlands, fun hn => hwhole (hall hn)⟩

theorem header_ne_nil : header sessionId ≠ [] := chars_ne_nil _

theorem header_getLast? : (header sessionId).getLast? = some '}' := by
  rw [header, Json.chars, List.getLast?_cons, Json.fieldChars_getLast?]
  rfl

theorem newline_notMem_header : '\n' ∉ header sessionId := Json.newline_notMem_chars _

theorem lands_first (hfresh : (load sessionId file).fresh = true)
    (hbatch : ∀ p ∈ batch, Storable p) (n : Nat) :
    Lands sessionId file (some ((encodeText
        (header sessionId ++ '\n' :: pathFormat.text batch)).take n)) batch ∧
      ((encodeText (header sessionId ++ '\n' :: pathFormat.text batch)).length ≤ n →
        LandsWhole sessionId (some ((encodeText
          (header sessionId ++ '\n' :: pathFormat.text batch)).take n)) batch) := by
  have hold : ∀ p, p ∉ (load sessionId file).paths := by
    rw [load_paths_fresh hfresh]
    exact fun _ => List.not_mem_nil
  have htext : encodeText (header sessionId ++ '\n' :: pathFormat.text batch) =
      encodeText (header sessionId) ++ 10 :: encodeText (pathFormat.text batch) := by
    rw [encodeText_append]
    rfl
  rw [htext, List.take_append, List.length_append, List.length_cons]
  rcases Nat.lt_or_ge n (encodeText (header sessionId)).length with hlt | hge
  · -- no whole header: the file is none of the session's
    obtain ⟨line, hlines, htorn⟩ := textLines_take hlt newline_notMem_header
    have hne : line ≠ header sessionId := htorn.ne (by rw [header_getLast?]; decide)
    rw [Nat.sub_eq_zero_of_le (Nat.le_of_lt hlt), List.take_zero, List.append_nil]
    have hunusable :
        (load sessionId (some ((encodeText (header sessionId)).take n))).fresh = true := by
      rw [load, hlines, List.head?_cons, if_neg (fun h => hne (Option.some.inj h))]
    refine ⟨⟨fun h => ?_, fun p hp => absurd hp (hold p), fun p hp => ?_⟩, fun h => by omega⟩
    · rw [hfresh] at h
      cases h
    · rw [load_paths_fresh hunusable] at hp
      cases hp
  · have husable : Usable sessionId (encodeText (header sessionId)) := by
      rw [Usable, textLines_encode newline_notMem_header]
      rfl
    obtain ⟨j, happended, hall⟩ := pathFormat.appended_break (encodeText (header sessionId)) hbatch
      (n - (encodeText (header sessionId)).length)
    obtain ⟨hlands, hwhole⟩ := lands_appended husable happended
    rw [List.take_of_length_le hge]
    refine ⟨⟨fun h => ?_, fun p hp => absurd hp (hold p), fun p hp => ?_⟩,
      fun h => hwhole (hall (by omega))⟩
    · rw [hfresh] at h
      cases h
    · rcases hlands.new p hp with hp | hp
      · rw [mem_load husable, LineFormat.entries, textLines_encode newline_notMem_header,
          List.filterMap_cons] at hp
        have hhead : pathFormat.read (header sessionId) = none := readLine_header
        rw [hhead] at hp
        cases hp
      · exact .inr hp

end OmniRush.Archive.TouchedPathStore
