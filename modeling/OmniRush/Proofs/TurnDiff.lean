import Mathlib.Algebra.BigOperators.Group.List.Basic
import OmniRush.Lib.Json
import OmniRush.Proofs.TurnBlocks

/-!
# The diff of a turn is a patch

The lines of a text give the text back, newline at the end or not (`textOf_splitLines`), and while
it has no NUL a key gives its line back (`unkey_key`). So blocks that cut the keys cut the lines,
and the hunks are a patch between the texts, whatever the budget. How much of the diff is written
is decided line by line (`pushLines_spec`).
-/

namespace OmniRush.Server.TurnDiff

/-! ## Lines -/

def Line.chars (line : Line) : List Char :=
  line.text.toList ++ if line.newline then ['\n'] else []

/-- The text that the lines are of. -/
def textOf (lines : List Line) : String := String.ofList (lines.flatMap Line.chars)

theorem intercalate_concat (rows : List (List Char)) (last : List Char) :
    ['\n'].intercalate (rows ++ [last]) = (rows.flatMap fun row => row ++ ['\n']) ++ last := by
  induction rows with
  | nil => simp [List.intercalate]
  | cons row rows ih =>
      rw [List.cons_append, List.intercalate_cons_of_ne_nil (by simp), ih, List.flatMap_cons]
      simp

theorem all_newline (lines : List String) :
    (Lines.all ⟨lines, true⟩) = lines.map fun text => ⟨text, true⟩ := by
  refine List.ext_getElem? fun i => ?_
  simp [Lines.all]

theorem all_concat (lines : List String) (last : String) :
    (Lines.all ⟨lines ++ [last], false⟩) =
      (lines.map fun text => ⟨text, true⟩) ++ [⟨last, false⟩] := by
  unfold Lines.all
  rw [List.mapIdx_concat]
  simp only [List.length_append, List.length_singleton, decide_true, Bool.not_false, Bool.and_true,
    Bool.not_true]
  congr 1
  refine List.ext_getElem? fun i => ?_
  rw [List.getElem?_mapIdx, List.getElem?_map]
  cases hi : lines[i]? with
  | none => rfl
  | some text =>
      have hlt := (List.getElem?_eq_some_iff.mp hi).1
      simp [Nat.ne_of_lt hlt]

theorem flatMap_chars (rows : List (List Char)) :
    ((rows.map String.ofList).map fun text => (⟨text, true⟩ : Line)).flatMap Line.chars =
      rows.flatMap fun row => row ++ ['\n'] := by
  rw [List.map_map, List.flatMap_map]
  simp [Line.chars]

theorem splitLines_shape (text : String) : ∃ (rows : List (List Char)) (last : List Char),
    text.toList = (rows.flatMap fun row => row ++ ['\n']) ++ last ∧
      (splitLines text).all = ((rows.map String.ofList).map fun text => (⟨text, true⟩ : Line)) ++
        if last = [] then [] else [⟨String.ofList last, false⟩] := by
  by_cases hempty : text = ""
  · subst hempty
    exact ⟨[], [], rfl, rfl⟩
  · obtain ⟨rows, last, hrows⟩ := (List.eq_nil_or_concat' (text.toList.splitOn '\n')).resolve_left
      (List.splitOn_ne_nil _ _)
    have htext : ['\n'].intercalate (text.toList.splitOn '\n') = text.toList :=
      List.intercalate_splitOn '\n'
    rw [hrows, intercalate_concat] at htext
    refine ⟨rows, last, htext.symm, ?_⟩
    unfold splitLines
    rw [if_neg hempty]
    dsimp only
    rw [hrows, List.map_append, List.map_singleton, List.getLast?_concat, List.dropLast_concat]
    by_cases hlast : last = []
    · subst hlast
      simp only [String.ofList_nil, decide_true, if_true, List.append_nil]
      exact all_newline _
    · have hne : ¬ some (String.ofList last) = some "" := by
        simpa using hlast
      rw [decide_eq_false hne, if_neg Bool.false_ne_true, if_neg hlast]
      exact all_concat _ _

theorem textOf_splitLines (text : String) : textOf (splitLines text).all = text := by
  obtain ⟨rows, last, htext, hall⟩ := splitLines_shape text
  have hlast : (if last = [] then [] else [(⟨String.ofList last, false⟩ : Line)]).flatMap
      Line.chars = last := by
    split
    · next hnil => rw [hnil]; rfl
    · simp [Line.chars]
  rw [textOf, hall, List.flatMap_append, flatMap_chars, hlast, ← htext, String.ofList_toList]

theorem length_splitLines_le (text : String) :
    (splitLines text).all.length ≤ text.toList.length := by
  obtain ⟨rows, last, htext, hall⟩ := splitLines_shape text
  have hrows : rows.length ≤ (rows.flatMap fun row => row ++ ['\n']).length := by
    have hpos := List.length_le_sum_of_one_le (rows.map fun row => (row ++ ['\n']).length)
      fun n hn => by
        obtain ⟨row, -, rfl⟩ := List.mem_map.mp hn
        simp
    rwa [List.length_map, ← List.length_flatMap] at hpos
  rw [htext, hall, List.length_append, List.length_append, List.length_map, List.length_map]
  refine Nat.add_le_add hrows ?_
  split
  · exact Nat.zero_le _
  · next hne => exact List.length_pos_iff.mpr hne

theorem mem_text {text : String} {line : Line} {c : Char} (hline : line ∈ (splitLines text).all)
    (hc : c ∈ line.text.toList) : c ∈ text.toList := by
  rw [← textOf_splitLines text, textOf, String.toList_ofList]
  exact List.mem_flatMap.mpr ⟨line, hline, List.mem_append_left _ hc⟩

/-- The line that a key is of. -/
def unkey (key : String) : Line :=
  if key.toList.getLast? = some '\x00' then ⟨String.ofList key.toList.dropLast, false⟩
  else ⟨key, true⟩

theorem unkey_key {line : Line} (h : '\x00' ∉ line.text.toList) : unkey (key line) = line := by
  obtain ⟨text, newline⟩ := line
  unfold key unkey
  cases newline with
  | true =>
      rw [if_pos rfl, if_neg fun hlast => h (List.mem_of_getLast? hlast)]
  | false =>
      rw [if_neg Bool.false_ne_true, String.toList_append,
        show "\x00".toList = ['\x00'] from rfl, List.getLast?_concat, if_pos rfl,
        List.dropLast_concat, String.ofList_toList]

theorem map_unkey {text : String} (h : '\x00' ∉ text.toList) :
    ((splitLines text).all.map key).map unkey = (splitLines text).all := by
  rw [List.map_map]
  exact (List.map_congr_left fun line hline => unkey_key fun hnul => h (mem_text hline hnul)).trans
    (List.map_id _)

/-! ## The change -/

section

variable {α : Type} [DecidableEq α] {a b : List α}

theorem commonLength_self : commonLength a a = a.length := by
  induction a with
  | nil => rfl
  | cons c a ih => rw [commonLength, if_pos rfl, ih, List.length_cons]

theorem commonEnd_spec :
    a.drop (a.length - commonLength a.reverse b.reverse) =
        b.drop (b.length - commonLength a.reverse b.reverse) ∧
      commonLength a.reverse b.reverse ≤ a.length ∧
      commonLength a.reverse b.reverse ≤ b.length := by
  have htake := commonLength_take (a := a.reverse) (b := b.reverse)
  have hle := commonLength_le (a := a.reverse) (b := b.reverse)
  rw [List.take_reverse, List.take_reverse, List.reverse_inj] at htake
  rw [List.length_reverse, List.length_reverse] at hle
  exact ⟨htake, hle⟩

end

theorem blocks_cut (keysA keysB : List String) (budget : Int) :
    let common := commonLength keysA keysB
    let suffix := commonLength (keysA.drop common).reverse (keysB.drop common).reverse
    let n := keysA.length - common - suffix
    let m := keysB.length - common - suffix
    let keys : Side → List String
      | .a => (keysA.drop common).take n
      | .b => (keysB.drop common).take m
    Cut keysA keysB 0 0 (blocksFrom (markChanges keys n m .zero common budget) keysA.length
      keysB.length (keysA.length - suffix) (keysB.length - suffix) (keysA.length + keysB.length)
      common common) := by
  intro common suffix n m keys
  have hle : common ≤ keysA.length ∧ common ≤ keysB.length := commonLength_le
  obtain ⟨htail, hsuffix⟩ := commonEnd_spec (a := keysA.drop common) (b := keysB.drop common)
  rw [List.length_drop, List.length_drop] at htail hsuffix
  replace htail : (keysA.drop common).drop n = (keysB.drop common).drop m := htail
  replace hsuffix : suffix ≤ keysA.length - common ∧ suffix ≤ keysB.length - common := hsuffix
  have hlengthA : (keys .a).length = n := List.length_take_of_le (by rw [List.length_drop]; omega)
  have hlengthB : (keys .b).length = m := List.length_take_of_le (by rw [List.length_drop]; omega)
  have hmarks := markChanges_spec keys common budget
  rw [hlengthA, hlengthB] at hmarks
  generalize markChanges keys n m .zero common budget = masks at hmarks ⊢
  have hremoved : ∀ r, common + n ≤ r → masks.removed r = false :=
    fun r hr => hmarks.removed r (.inr (by rwa [hlengthA]))
  have hadded : ∀ r, common + m ≤ r → masks.added r = false :=
    fun r hr => hmarks.added r (.inr (by rwa [hlengthB]))
  have hsplitA : keysA.drop common = keys .a ++ (keysA.drop common).drop n :=
    (List.take_append_drop ..).symm
  have hsplitB : keysB.drop common = keys .b ++ (keysB.drop common).drop m :=
    (List.take_append_drop ..).symm
  have hsame : unmarked masks.removed common (keysA.drop common) =
      unmarked masks.added common (keysB.drop common) := by
    rw [hsplitA, hsplitB, unmarked_append, unmarked_append, hmarks.same, hlengthA, hlengthB,
      unmarked_none fun r hr _ => hremoved r hr, unmarked_none fun r hr _ => hadded r hr, htail]
  have hcut := blocksFrom_spec hsame (fun r hr => hremoved r (by omega)) (Nat.sub_le _ suffix)
    (fun r hr => hadded r (by omega)) (Nat.sub_le _ suffix) hle.1 hle.2
    (by omega : _ ≤ keysA.length + keysB.length)
  exact hcut.start commonLength_take hle.1 hle.2

/-! ## What is written -/

/-- The lines of a diff are its headers and its hunks. -/
def Written (path : String) (before after : Option String) (lines : List String)
    (hunks : List (Hunk Line)) : Prop :=
  lines = if hunks = [] then [] else
    ("--- " ++ if before = none then "/dev/null" else "a/" ++ path) ::
    ("+++ " ++ if after = none then "/dev/null" else "b/" ++ path) ::
    hunks.flatMap fun hunk => hunk.header :: hunk.body.flatMap emit

def patchText (lines : List String) : String :=
  if lines = [] then "" else "\n".intercalate lines ++ "\n"

theorem toList_patchText (lines : List String) :
    (patchText lines).toList = lines.flatMap fun line => line.toList ++ ['\n'] := by
  induction lines with
  | nil => rfl
  | cons line lines ih =>
      rw [List.flatMap_cons, ← ih]
      unfold patchText
      rw [if_neg (List.cons_ne_nil _ _)]
      cases lines with
      | nil => simp
      | cons next lines =>
          rw [if_neg (List.cons_ne_nil _ _), String.intercalate_cons_cons]
          simp

theorem patchText_eq_empty {lines : List String} : patchText lines = "" ↔ lines = [] := by
  rw [← String.toList_inj, toList_patchText]
  cases lines with
  | nil => simp
  | cons line lines => simp

theorem byteSize_patchText (lines : List String) :
    byteSize (Json.escape (patchText lines).toList) = (lines.map lineCost).sum := by
  rw [toList_patchText, Json.byteSize_escape_lines]
  rfl

theorem pushLines_spec {maxBytes bytes : Nat} (lines : List String) (hle : bytes ≤ maxBytes) :
    let result := pushLines maxBytes lines bytes
    (∃ k, result.1 = lines.take k) ∧ result.2.1 = bytes + (result.1.map lineCost).sum ∧
      result.2.1 ≤ maxBytes ∧
      (result.2.2 = true ↔ maxBytes < bytes + (lines.map lineCost).sum) ∧
      (result.2.2 = false → result.1 = lines) := by
  induction lines generalizing bytes with
  | nil => exact ⟨⟨0, rfl⟩, rfl, hle, by simpa [pushLines] using hle, fun _ => rfl⟩
  | cons line lines ih =>
      rw [pushLines]
      by_cases hover : maxBytes < bytes + lineCost line
      · rw [if_pos hover]
        refine ⟨⟨0, rfl⟩, rfl, hle, ⟨fun _ => ?_, fun _ => rfl⟩, nofun⟩
        rw [List.map_cons, List.sum_cons]
        omega
      · rw [if_neg hover]
        obtain ⟨⟨k, hk⟩, hbytes, hle', htruncated, hwhole⟩ := ih (Nat.le_of_not_lt hover)
        generalize pushLines maxBytes lines (bytes + lineCost line) = result at *
        refine ⟨⟨k + 1, congrArg (line :: ·) hk⟩, ?_, hle', ?_,
          fun h => congrArg (line :: ·) (hwhole h)⟩
        · dsimp only
          rw [hbytes, List.map_cons, List.sum_cons, Nat.add_assoc]
        · dsimp only
          rw [htruncated, List.map_cons, List.sum_cons, Nat.add_assoc]

theorem blocksFrom_end {masks : Masks} {nA nB endA endB fuel i j : Nat} (hi : endA ≤ i)
    (hj : endB ≤ j) : blocksFrom masks nA nB endA endB fuel i j = [] := by
  cases fuel with
  | zero => rfl
  | succ fuel => rw [blocksFrom, if_neg (by omega)]

theorem hunksOf_eq_nil {a b : List Line} {blocks : List Block} :
    hunksOf a b blocks.length blocks = [] ↔ blocks = [] := by
  cases blocks with
  | nil => simp [hunksOf]
  | cons first rest => simp [hunksOf]

/-- The lines of the diff are those of a patch with as many lines as are counted. -/
theorem diffLines_spec (path : String) (before after : Option String) (maxComparisons : Int)
    (hbefore : '\x00' ∉ (before.getD "").toList) (hafter : '\x00' ∉ (after.getD "").toList) :
    let result := diffLines path before after maxComparisons
    ∃ hunks, Written path before after result.1 hunks ∧
      (applyHunks 0 0 hunks (splitLines (before.getD "")).all).map textOf =
        some (after.getD "") ∧
      (result.1 = [] ↔ before.getD "" = after.getD "") ∧
      result.2.1 = (hunks.flatMap Hunk.body).countP Edit.isInsert ∧
      result.2.2 = (hunks.flatMap Hunk.body).countP Edit.isDelete := by
  have hcut := (blocks_cut ((splitLines (before.getD "")).all.map key)
    ((splitLines (after.getD "")).all.map key) maxComparisons).map unkey
  rw [map_unkey hbefore, map_unkey hafter] at hcut
  simp only [List.length_map] at hcut
  unfold diffLines
  dsimp only
  generalize hblocks : blocksFrom _ _ _ _ _ _ _ _ = blocks at hcut ⊢
  have hequal : before.getD "" = after.getD "" → blocks = [] := by
    intro heq
    rw [← hblocks, heq, commonLength_self, List.length_map]
    exact blocksFrom_end (Nat.sub_le ..) (Nat.sub_le ..)
  obtain ⟨happly, hdeletes, hinserts⟩ := hunksOf_spec blocks hcut (Nat.zero_le _) (Nat.zero_le _)
    (fun block _ => by rw [Nat.zero_add]; exact Nat.min_le_right ..) (Nat.le_refl _)
  rw [List.drop_zero, List.drop_zero] at happly
  refine ⟨hunksOf _ _ blocks.length blocks, if_congr hunksOf_eq_nil.symm rfl rfl, ?_, ?_,
    hinserts.symm, hdeletes.symm⟩
  · rw [happly, Option.map_some, textOf_splitLines]
  · split
    · next hnone =>
        subst hnone
        refine ⟨fun _ => ?_, fun _ => rfl⟩
        have hlines := congrArg textOf (show List.drop 0 _ = List.drop 0 _ from hcut)
        rwa [List.drop_zero, List.drop_zero, textOf_splitLines, textOf_splitLines] at hlines
    · next hsome => exact ⟨fun hnone => (by cases hnone), fun heq => absurd (hequal heq) hsome⟩

theorem diffLines_le (path : String) (before after : Option String) (maxComparisons : Int) :
    let result := diffLines path before after maxComparisons
    result.2.1 ≤ (splitLines (after.getD "")).all.length ∧
      result.2.2 ≤ (splitLines (before.getD "")).all.length := by
  have hcut := blocks_cut ((splitLines (before.getD "")).all.map key)
    ((splitLines (after.getD "")).all.map key) maxComparisons
  have hle := hcut.lines_le (Nat.zero_le _) (Nat.zero_le _)
  simp only [List.length_map, Nat.add_zero] at hle
  exact ⟨hle.2, hle.1⟩

/-- Without NUL in the texts the diff is a patch between them, whatever the budget. What does not
fit is left out from a line on. -/
theorem unifiedDiff_spec (path : String) (before after : Option String) (maxComparisons : Int)
    (hbefore : '\x00' ∉ (before.getD "").toList) (hafter : '\x00' ∉ (after.getD "").toList) :
    ∃ lines hunks, Written path before after lines hunks ∧
      (applyHunks 0 0 hunks (splitLines (before.getD "")).all).map textOf =
        some (after.getD "") ∧
      ∀ maxBytes, let result := unifiedDiff path before after maxBytes maxComparisons
        result.additions = (hunks.flatMap Hunk.body).countP Edit.isInsert ∧
        result.deletions = (hunks.flatMap Hunk.body).countP Edit.isDelete ∧
        (result.truncated = true ↔ maxBytes < (lines.map lineCost).sum) ∧
        (result.truncated = false → result.diff = patchText lines ∧
          (result.diff = "" ↔ before.getD "" = after.getD "")) ∧
        (∃ k, result.diff = patchText (lines.take k)) ∧
        byteSize (Json.escape result.diff.toList) = result.bytes ∧ result.bytes ≤ maxBytes := by
  obtain ⟨hunks, hwritten, happly, hempty, hinserts, hdeletes⟩ :=
    diffLines_spec path before after maxComparisons hbefore hafter
  generalize hresult : diffLines path before after maxComparisons = result at *
  obtain ⟨lines, additions, deletions⟩ := result
  refine ⟨lines, hunks, hwritten, happly, fun maxBytes => ?_⟩
  obtain ⟨⟨k, hk⟩, hbytes, hle, htruncated, hwhole⟩ := pushLines_spec lines (Nat.zero_le maxBytes)
  rw [Nat.zero_add] at hbytes htruncated
  unfold unifiedDiff
  rw [hresult]
  dsimp only
  refine ⟨hinserts, hdeletes, htruncated, fun h => ⟨?_, ?_⟩, ⟨k, ?_⟩, ?_, hle⟩
  · show patchText _ = _
    rw [hwhole h]
  · show patchText _ = "" ↔ _
    rw [hwhole h, patchText_eq_empty, hempty]
  · show patchText _ = _
    rw [hk]
  · show byteSize (Json.escape (patchText _).toList) = _
    rw [byteSize_patchText, hbytes]

theorem unifiedDiff_one_line : ∃ hunks,
    (applyHunks 0 0 hunks (splitLines "a\nb").all).map textOf = some "a\nc\n" ∧
      (hunks.flatMap Hunk.body).countP Edit.isInsert = 1 ∧
      (hunks.flatMap Hunk.body).countP Edit.isDelete = 1 := by
  obtain ⟨lines, hunks, -, happly, hall⟩ := unifiedDiff_spec "f" (some "a\nb") (some "a\nc\n") 10
    (by decide) (by decide)
  obtain ⟨hadditions, hdeletions, -⟩ := hall 1000
  exact ⟨hunks, happly, hadditions.symm.trans (by decide +kernel),
    hdeletions.symm.trans (by decide +kernel)⟩

/-- The quotes around the text come on top. -/
theorem unifiedDiff_cut :
    let result := unifiedDiff "f" none (some "a\n") 15 10
    result.truncated = true ∧ result.diff = "--- /dev/null\n" ∧
      15 < byteSize (Json.quote result.diff) := by
  decide +kernel

end OmniRush.Server.TurnDiff
