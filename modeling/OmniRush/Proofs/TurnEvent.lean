import OmniRush.Proofs.TurnDiff
import OmniRush.Server.TurnEvent

/-!
# The event of a turn keeps its cap

Each entry is no longer than it was measured, with the bytes its diff was given on top
(`diffedFile_le`), so the bytes reserved are never fewer than those of the event
(`turnDiffEvent_spec`): the counts are no greater than the texts are long, and the escaped text of
the diff, its quotes, and a reason take no more than the room and the fields at their widest.
-/

namespace OmniRush.Server.TurnDiff

open Json

/-! ## Entries -/

/-- The bytes of the fields that are not as they were measured. -/
def TurnDiffFile.measured (file : TurnDiffFile) : Nat :=
  (orNull (fun n => .num (n : Nat)) file.additions).byteLength +
    (orNull (fun n => .num (n : Nat)) file.deletions).byteLength +
    (orNull .str file.diff).byteLength + (Json.bool file.truncated).byteLength +
    (orNull (fun reason => .str reason.name) file.reason : Json).byteLength

theorem json_le {file wide : TurnDiffFile} {n m : Nat} (hpath : file.path = wide.path)
    (hstatus : file.status = wide.status) (hbefore : file.beforeSha256 = wide.beforeSha256)
    (hafter : file.afterSha256 = wide.afterSha256)
    (h : file.measured + n ≤ wide.measured + m) :
    file.json.byteLength + n ≤ wide.json.byteLength + m := by
  unfold TurnDiffFile.json
  rw [byteLength_obj (List.cons_ne_nil _ _), byteLength_obj (List.cons_ne_nil _ _)]
  simp only [List.map_cons, List.map_nil, List.sum_cons, List.sum_nil, hpath, hstatus, hbefore,
    hafter]
  unfold TurnDiffFile.measured at h
  omega

section

variable {input : TurnDiffInput}

theorem length_splitLines_le_units (text : Option String) :
    (splitLines (text.getD "")).all.length ≤ (utf16 (text.getD "").toList).length :=
  (length_splitLines_le _).trans length_le_utf16

theorem unifiedDiff_counts_le (path : String) (before after : Option String) (maxBytes : Nat)
    (maxComparisons : Int) :
    (unifiedDiff path before after maxBytes maxComparisons).additions ≤
        (utf16 (after.getD "").toList).length ∧
      (unifiedDiff path before after maxBytes maxComparisons).deletions ≤
        (utf16 (before.getD "").toList).length := by
  obtain ⟨hadditions, hdeletions⟩ := diffLines_le path before after maxComparisons
  exact ⟨hadditions.trans (length_splitLines_le_units after),
    hdeletions.trans (length_splitLines_le_units before)⟩

theorem unifiedDiff_text (path : String) (before after : Option String) (maxBytes : Nat)
    (maxComparisons : Int) :
    byteSize (escape (unifiedDiff path before after maxBytes maxComparisons).diff.toList) ≤
        maxBytes ∧
      ((unifiedDiff path before after maxBytes maxComparisons).truncated = true ↔
        (unifiedDiff path before after maxBytes maxComparisons).diff ≠
          patchText (diffLines path before after maxComparisons).1) := by
  unfold unifiedDiff
  generalize diffLines path before after maxComparisons = result
  obtain ⟨lines, additions, deletions⟩ := result
  obtain ⟨-, hbytes, hle, htruncated, hwhole⟩ := pushLines_spec lines (Nat.zero_le maxBytes)
  rw [Nat.zero_add] at hbytes htruncated
  dsimp only
  show byteSize (escape (patchText _).toList) ≤ _ ∧ (_ ↔ patchText _ ≠ _)
  rw [byteSize_patchText, ← hbytes]
  refine ⟨hle, fun hcut heq => ?_, fun hne => ?_⟩
  · have hsize := congrArg (fun text => byteSize (escape text.toList)) heq
    rw [byteSize_patchText, byteSize_patchText, ← hbytes] at hsize
    have hover := htruncated.mp hcut
    omega
  · cases hcut : (pushLines maxBytes lines 0).2.2 with
    | true => rfl
    | false => exact absurd (congrArg patchText (hwhole hcut)) hne

theorem diffed_status (h : input.hasText = true) : input.status ≠ .skipped := by
  intro hskipped
  simp [TurnDiffInput.hasText, TurnDiffInput.diffed, hskipped] at h

/-- An entry is no longer than it was measured, with the bytes of its diff on top. -/
theorem diffedFile_le (limit maxFileBytes : Nat) (h : input.hasText = true) :
    (input.diffedFile limit maxFileBytes).json.byteLength + 2 ≤
      input.widest.json.byteLength + limit := by
  refine json_le rfl rfl rfl rfl ?_
  obtain ⟨hadditions, hdeletions⟩ := unifiedDiff_counts_le input.path input.textBefore
    input.textAfter limit maxDiffComparisons
  have htext := (unifiedDiff_text input.path input.textBefore input.textAfter limit
    maxDiffComparisons).1
  unfold TurnDiffInput.diffedFile TurnDiffInput.widest TurnDiffFile.measured
  rw [h]
  generalize unifiedDiff input.path input.textBefore input.textAfter limit maxDiffComparisons =
    result at *
  simp only [if_true, if_neg (diffed_status h), orNull]
  have hadditions' := byteLength_nat_mono hadditions
  have hdeletions' := byteLength_nat_mono hdeletions
  have hnull : Json.null.byteLength = 4 := rfl
  have hbool : ∀ b, (Json.bool b).byteLength ≤ 5 := by decide
  have hreason : ∀ reason : TurnDiffReason,
      (Json.str reason.name).byteLength ≤ (Json.str TurnDiffReason.recordCap.name).byteLength := by
    intro reason
    cases reason <;> decide
  have hfalse : (Json.bool false).byteLength = 5 := rfl
  have hcap : (Json.str TurnDiffReason.recordCap.name).byteLength = 12 := rfl
  rw [byteLength_str, hfalse, hnull]
  generalize result.truncated = cut
  have hcut := hbool cut
  cases cut with
  | true =>
      have hlast := hreason (if limit < maxFileBytes then .recordCap else .tooLarge)
      simp only [if_true]
      omega
  | false =>
      simp only [Bool.false_eq_true, if_false]
      omega

end

/-! ## The event -/

/-- The diff of the entry, if none of it is cut. -/
def TurnDiffInput.wholeDiff (input : TurnDiffInput) : String :=
  patchText (diffLines input.path input.textBefore input.textAfter maxDiffComparisons).1

/-- The entry is that of a file, and says whether its diff was cut. -/
def Entry (input : TurnDiffInput) (file : TurnDiffFile) : Prop :=
  file.path = input.path ∧ file.status = input.status ∧
    (file.truncated = true ↔ ∃ text, file.diff = some text ∧ text ≠ input.wholeDiff)

theorem entry_widest (input : TurnDiffInput) : Entry input input.widest :=
  ⟨rfl, rfl, nofun, fun ⟨_, h, _⟩ => by cases h⟩

theorem entry_diffedFile (input : TurnDiffInput) (limit maxFileBytes : Nat) :
    Entry input (input.diffedFile limit maxFileBytes) := by
  have hcut := (unifiedDiff_text input.path input.textBefore input.textAfter limit
    maxDiffComparisons).2
  refine ⟨rfl, rfl, fun h => ⟨_, rfl, hcut.mp h⟩, ?_⟩
  rintro ⟨text, htext, hne⟩
  cases htext
  exact hcut.mpr hne

section

variable {Time : Type} {limits : TurnDiffLimits Time} {builder : TurnDiffBuilder Time}
  {calls : List (TurnDiffCall Time)} {call : TurnDiffCall Time}

/-- What holds of the builder after some calls. -/
structure Fits (limits : TurnDiffLimits Time) (calls : List (TurnDiffCall Time))
    (builder : TurnDiffBuilder Time) : Prop where
  used : builder.used = eventEnvelopeBytes +
    (builder.files.map fun file => file.json.byteLength + 1).sum
  cap : builder.used ≤ limits.maxEventBytes
  count : builder.files.length + builder.omitted = calls.length
  truncated : builder.truncated = true ↔
    (∃ file ∈ builder.files, file.truncated = true) ∨ 0 < builder.omitted
  entries : ∀ file ∈ builder.files, ∃ input,
    (∃ elapsed, .add input elapsed ∈ calls) ∧ Entry input file

theorem fits_new [Zero Time] (hcap : eventEnvelopeBytes ≤ limits.maxEventBytes) :
    Fits limits [] TurnDiffBuilder.new where
  used := (Nat.add_zero _).symm
  cap := hcap
  count := rfl
  truncated := by
    constructor
    · intro h
      cases h
    · rintro (⟨_, h, _⟩ | h) <;> cases h
  entries := fun _ hmem => absurd hmem List.not_mem_nil

theorem Fits.omitFile (h : Fits limits calls builder) :
    Fits limits (calls ++ [call]) builder.omitFile where
  used := h.used
  cap := h.cap
  count := by
    rw [List.length_append, ← h.count]
    exact (Nat.add_assoc ..).symm
  truncated := ⟨fun _ => .inr (Nat.succ_pos _), fun _ => rfl⟩
  entries := fun file hfile => by
    obtain ⟨input, ⟨elapsed, hin⟩, hentry⟩ := h.entries file hfile
    exact ⟨input, ⟨elapsed, List.mem_append_left _ hin⟩, hentry⟩

theorem Fits.push {input : TurnDiffInput} {file : TurnDiffFile}
    (h : Fits limits calls builder) (elapsed diffMs : Time) (hentry : Entry input file)
    (hroom : builder.used + file.json.byteLength + 1 ≤ limits.maxEventBytes) :
    Fits limits (calls ++ [.add input elapsed])
      { files := builder.files ++ [file], used := builder.used + file.json.byteLength + 1
        omitted := builder.omitted, truncated := builder.truncated || file.truncated
        diffMs := diffMs } where
  used := by
    dsimp only
    rw [List.map_append, List.sum_append, List.map_singleton, List.sum_singleton, h.used]
    omega
  cap := hroom
  count := by
    rw [List.length_append, List.length_append, ← h.count]
    exact Nat.add_right_comm ..
  truncated := by
    rw [Bool.or_eq_true, h.truncated]
    simp only [List.mem_append, List.mem_singleton, or_and_right, exists_or, exists_eq_left]
    exact or_right_comm
  entries := fun other hother => by
    rcases List.mem_append.mp hother with hother | hother
    · obtain ⟨input', ⟨elapsed', hin⟩, hentry'⟩ := h.entries other hother
      exact ⟨input', ⟨elapsed', List.mem_append_left _ hin⟩, hentry'⟩
    · rw [List.mem_singleton.mp hother]
      exact ⟨input, ⟨elapsed, List.mem_append_right _ (List.mem_singleton_self _)⟩, hentry⟩

variable [Add Time] [LE Time] [DecidableLE Time]

theorem Fits.add (h : Fits limits calls builder) (input : TurnDiffInput) (elapsed : Time) :
    Fits limits (calls ++ [.add input elapsed]) (builder.add limits input elapsed) := by
  have hcap := h.cap
  unfold TurnDiffBuilder.add
  dsimp only
  by_cases hfull : (input.diffed && builder.full limits) = true
  · rw [if_pos hfull]
    exact h.omitFile
  · rw [if_neg hfull]
    generalize hroom : (limits.maxEventBytes - builder.used -
      (input.widest.json.byteLength + 1 : Nat) : Int) = room
    by_cases hless : room < (if input.hasText then minDiffRoomBytes else 0 : Nat)
    · rw [if_pos hless]
      exact h.omitFile
    · rw [if_neg hless]
      by_cases htext : input.hasText = true
      · rw [if_pos htext] at hless ⊢
        have hentry := diffedFile_le (min limits.maxFileBytes room.toNat) limits.maxFileBytes htext
        have hlimit := Nat.min_le_right limits.maxFileBytes room.toNat
        exact h.push elapsed _ (entry_diffedFile ..) (by omega)
      · rw [if_neg htext] at hless ⊢
        have hpush := h.push elapsed builder.diffMs (entry_widest input) (by omega)
        have hwhole : (builder.truncated || input.widest.truncated) = builder.truncated :=
          Bool.or_false _
        rwa [hwhole, Nat.add_assoc] at hpush

theorem fits_run [Zero Time] (hcap : eventEnvelopeBytes ≤ limits.maxEventBytes)
    (calls : List (TurnDiffCall Time)) : Fits limits calls (TurnDiffBuilder.run limits calls) := by
  induction calls using List.reverseRecOn with
  | nil => exact fits_new hcap
  | append_singleton calls call ih =>
      rw [TurnDiffBuilder.run, List.foldl_append]
      match call with
      | .add input elapsed => exact ih.add input elapsed
      | .omit => exact ih.omitFile

/-! ## The envelope -/

theorem escapeChar_timestamp {c : Char} (h : c.isDigit = true ∨ c ∈ ['-', ':', '.', 'T', 'Z']) :
    escapeChar c = [c] ∧ c.utf8Size = 1 := by
  rcases h with h | h
  · exact ⟨escapeChar_digit h, utf8Size_of_isDigit h⟩
  · simp only [List.mem_cons, List.not_mem_nil, or_false] at h
    rcases h with rfl | rfl | rfl | rfl | rfl <;> decide

theorem byteLength_timestamp (time : Timestamp) : (Json.str time.text).byteLength = 26 := by
  rw [byteLength_str, escape_plain fun c hc => (escapeChar_timestamp (time.plain c hc)).1,
    byteSize_ascii fun c hc => (escapeChar_timestamp (time.plain c hc)).2, time.length]

theorem traceEvent_le (time : Timestamp) (event : TurnDiffEvent)
    (hcount : event.fileCount ≤ maxSafeInteger)
    (homitted : event.omittedFileCount ≤ maxSafeInteger) :
    (traceEvent time.text event.json).byteLength ≤ eventEnvelopeBytes +
      (event.files.map fun file => file.json.byteLength + 1).sum := by
  have hfiles := byteLength_arr_le (event.files.map TurnDiffFile.json)
  rw [List.map_map] at hfiles
  replace hfiles : (Json.arr (event.files.map TurnDiffFile.json)).byteLength ≤
    2 + (event.files.map fun file => file.json.byteLength + 1).sum := hfiles
  have hfileCount := byteLength_nat_mono hcount
  have homittedCount := byteLength_nat_mono homitted
  have htruncated : (Json.bool event.truncated).byteLength ≤ 5 := by
    cases event.truncated <;> decide
  have htime := byteLength_timestamp time
  have hnone : (Json.arr []).byteLength = 2 := rfl
  have hfalse : (Json.bool false).byteLength = 5 := rfl
  have hepoch : (Json.str "1970-01-01T00:00:00.000Z").byteLength = 26 := rfl
  unfold eventEnvelopeBytes traceEvent TurnDiffEvent.json
  simp only [byteLength_obj (List.cons_ne_nil _ _), List.map_cons, List.map_nil, List.sum_cons,
    List.sum_nil, htime, hepoch, hnone, hfalse]
  omega

/-- After any calls the event is within the cap, counts every file, and says whether something is
missing. -/
theorem turnDiffEvent_spec [Zero Time] (limits : TurnDiffLimits Time)
    (calls : List (TurnDiffCall Time)) (time : Timestamp)
    (hcap : eventEnvelopeBytes ≤ limits.maxEventBytes) (hcount : calls.length ≤ maxSafeInteger) :
    let event := (TurnDiffBuilder.run limits calls).finish
    (traceEvent time.text event.json).byteLength ≤ limits.maxEventBytes ∧
      event.fileCount = calls.length ∧
      event.files.length + event.omittedFileCount = event.fileCount ∧
      (event.truncated = true ↔
        (∃ file ∈ event.files, file.truncated = true) ∨ 0 < event.omittedFileCount) ∧
      ∀ file ∈ event.files, ∃ input, (∃ elapsed, .add input elapsed ∈ calls) ∧
        Entry input file := by
  have hfits := fits_run hcap calls
  generalize TurnDiffBuilder.run limits calls = builder at hfits
  refine ⟨?_, hfits.count, rfl, hfits.truncated, hfits.entries⟩
  refine (traceEvent_le time builder.finish ?_ ?_).trans ?_
  · exact hfits.count.trans_le hcount
  · exact ((Nat.le_add_left _ _).trans_eq hfits.count).trans hcount
  · exact hfits.used.symm.trans_le hfits.cap

end

def Timestamp.epoch : Timestamp where
  text := "1970-01-01T00:00:00.000Z"
  length := by decide
  plain := fun c hc => by
    have hall : "1970-01-01T00:00:00.000Z".toList.all
        (fun c => c.isDigit || ['-', ':', '.', 'T', 'Z'].contains c) = true := by decide
    simpa using List.all_eq_true.mp hall c hc

theorem turnDiffEvent_one_file :
    let input : TurnDiffInput := ⟨"a", .added, none, some "00", none, some "x\ny\n", none⟩
    let limits : TurnDiffLimits Nat := ⟨1400, 500, 250⟩
    let event := (TurnDiffBuilder.run limits [.add input 3, .omit]).finish
    (traceEvent Timestamp.epoch.text event.json).byteLength ≤ 1400 ∧ event.fileCount = 2 ∧
      event.files.length + event.omittedFileCount = 2 := by
  intro input limits event
  obtain ⟨hsize, hcount, hfiles, -⟩ := turnDiffEvent_spec limits [.add input 3, .omit]
    Timestamp.epoch (by decide +kernel) (by decide)
  exact ⟨hsize, hcount, hfiles.trans hcount⟩

end OmniRush.Server.TurnDiff
