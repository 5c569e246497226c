import Mathlib.Data.Multiset.AddSub
import OmniRush.Proofs.EditorSearch

/-!
# The editor's diff

The counts of a change too large to diff are those of the multiset differences
(`multisetCounts_spec`). The hunks of any script are a patch from its source to its target
(`editorHunks_apply`): they are cut out of the script in order, and two of them are never so close
that the context of the second begins before the end of the first.
-/

namespace OmniRush.Server

open Script

/-! ## Counts -/

/-- The counts are those of the elements of a multiset. -/
def Bag (counts : Record Nat) (lines : Multiset String) : Prop :=
  (∀ line, (counts.get line).getD 0 = lines.count line) ∧
    (counts.entries.map Prod.snd).sum = lines.card

section

variable {counts : Record Nat} {lines : Multiset String} {line : String} {n : Nat}

theorem sum_setIn (line : String) (n : Nat) (entries : List (String × Nat)) :
    ((Record.setIn line n entries).map Prod.snd).sum +
        ((entries.find? (·.1 = line)).map Prod.snd).getD 0 =
      (entries.map Prod.snd).sum + n := by
  induction entries with
  | nil => simp [Record.setIn]
  | cons entry entries ih =>
      obtain ⟨name, m⟩ := entry
      by_cases h : name = line
      · rw [Record.setIn, if_pos h, List.find?_cons_of_pos (by simpa using h)]
        simp only [List.map_cons, List.sum_cons, Option.map_some, Option.getD_some]
        omega
      · rw [Record.setIn, if_neg h, List.find?_cons_of_neg (by simpa using h)]
        simp only [List.map_cons, List.sum_cons]
        omega

theorem Bag.add (h : Bag counts lines) (line : String) :
    Bag (counts.set line ((counts.get line).getD 0 + 1)) (line ::ₘ lines) := by
  constructor
  · intro x
    rw [Record.get_set]
    split
    · next hx =>
        subst hx
        rw [Option.getD_some, h.1, Multiset.count_cons_self]
    · next hx => rw [h.1, Multiset.count_cons_of_ne hx]
  · have hsum := sum_setIn line ((counts.get line).getD 0 + 1) counts.entries
    have hget : ((counts.entries.find? (·.1 = line)).map Prod.snd).getD 0 =
        (counts.get line).getD 0 := rfl
    have hbag := h.2
    rw [Multiset.card_cons]
    show ((Record.setIn line _ counts.entries).map Prod.snd).sum = _
    omega

theorem Bag.remove (h : Bag counts lines) (hpos : 0 < (counts.get line).getD 0) :
    Bag (counts.set line ((counts.get line).getD 0 - 1)) (lines.erase line) := by
  have hin : line ∈ lines := Multiset.count_pos.mp (h.1 line ▸ hpos)
  constructor
  · intro x
    rw [Record.get_set]
    split
    · next hx =>
        subst hx
        rw [Option.getD_some, h.1, Multiset.count_erase_self]
    · next hx => rw [h.1, Multiset.count_erase_of_ne hx]
  · have hsum := sum_setIn line ((counts.get line).getD 0 - 1) counts.entries
    have hget : ((counts.entries.find? (·.1 = line)).map Prod.snd).getD 0 =
        (counts.get line).getD 0 := rfl
    have hbag := h.2
    rw [Multiset.card_erase_of_mem hin, Nat.pred_eq_sub_one]
    show ((Record.setIn line _ counts.entries).map Prod.snd).sum = _
    have hcard := Multiset.card_pos_iff_exists_mem.mpr ⟨line, hin⟩
    omega

theorem bag_all (a : List String) (h : Bag counts lines) : Bag (a.foldl (fun counts line =>
    counts.set line ((counts.get line).getD 0 + 1)) counts) (lines + a) := by
  induction a generalizing counts lines with
  | nil => simpa using h
  | cons line a ih =>
      have hall := ih (h.add line)
      rwa [Multiset.cons_add, ← Multiset.add_cons, Multiset.cons_coe] at hall

theorem bag_match (b : List String) (added : Nat) (h : Bag counts lines) :
    let (counts, added') := b.foldl (fun (counts, added) line =>
      let left := (counts.get line).getD 0
      if 0 < left then (counts.set line (left - 1), added) else (counts, added + 1))
      (counts, added)
    Bag counts (lines - b) ∧ added' = added + ((b : Multiset String) - lines).card := by
  induction b generalizing counts lines added with
  | nil => exact ⟨by simpa using h, by simp [Multiset.zero_sub]⟩
  | cons line b ih =>
      rw [List.foldl_cons]
      dsimp only
      split
      · next hpos =>
          have hin : line ∈ lines := Multiset.count_pos.mp (h.1 line ▸ hpos)
          have hmatch := ih added (h.remove hpos)
          have hrest : (line ::ₘ (b : Multiset String)) - lines = b - lines.erase line := by
            conv => lhs; rw [← Multiset.cons_erase hin]
            rw [Multiset.sub_cons, Multiset.erase_cons_head]
          rwa [← Multiset.sub_cons, ← hrest, Multiset.cons_coe] at hmatch
      · next hnone =>
          have hnot : line ∉ lines := by
            rw [← Multiset.count_pos, ← h.1 line]
            exact hnone
          have hmatch := ih (added + 1) h
          have hrest : (line ::ₘ (b : Multiset String)) - lines = line ::ₘ (b - lines) := by
            refine Multiset.ext.mpr fun x => ?_
            by_cases hx : x = line
            · subst hx
              simp [Multiset.count_eq_zero_of_notMem hnot]
            · rw [Multiset.count_sub, Multiset.count_cons_of_ne hx, Multiset.count_cons_of_ne hx,
                Multiset.count_sub]
          rw [← Multiset.cons_coe, Multiset.sub_cons, Multiset.erase_of_notMem hnot, hrest,
            Multiset.card_cons, Nat.add_comm (Multiset.card _), ← Nat.add_assoc]
          exact hmatch

end

theorem multisetCounts_spec (a b : List String) : multisetCounts a b =
    (((b : Multiset String) - a).card, ((a : Multiset String) - b).card) := by
  have hempty : Bag (Record.empty : Record Nat) 0 := ⟨fun _ => rfl, rfl⟩
  have hmatch := bag_match b 0 (bag_all a hempty)
  rw [Multiset.zero_add, Nat.zero_add] at hmatch
  unfold multisetCounts
  dsimp only
  generalize b.foldl _ _ = result at hmatch ⊢
  obtain ⟨counts, added⟩ := result
  exact Prod.ext hmatch.2 hmatch.1.2

/-! ## Hunks -/

section

variable {α : Type} {ops s kept rest : List (Edit α)} {op : Edit α}

theorem old_isSome (op : Edit α) : op.old.isSome = !op.isInsert := by
  cases op <;> rfl

theorem new_isSome (op : Edit α) : op.new.isSome = !op.isDelete := by
  cases op <;> rfl

theorem length_source : (source s).length = s.countP (!·.isInsert) := by
  rw [source, List.length_filterMap_eq_countP]
  exact List.countP_congr fun op _ => by rw [old_isSome]

theorem length_target : (target s).length = s.countP (!·.isDelete) := by
  rw [target, List.length_filterMap_eq_countP]
  exact List.countP_congr fun op _ => by rw [new_isSome]

theorem source_of_keeps (h : ∀ op ∈ s, op.isKeep = true) :
    source s = target s ∧ (source s).length = s.length := by
  induction s with
  | nil => exact ⟨rfl, rfl⟩
  | cons op s ih =>
      obtain ⟨hop, hrest⟩ := List.forall_mem_cons.mp h
      obtain ⟨hsame, hlength⟩ := ih hrest
      cases op with
      | keep c => exact ⟨by simp [hsame], by simp [hlength]⟩
      | delete c => cases hop
      | insert c => cases hop

/-- No change comes before the context of a hunk has ended. -/
def Clear (s : List (Edit α)) : Prop :=
  ∀ front op back, s = front ++ op :: back → op.isKeep = false → contextLines ≤ front.length

theorem Clear.of_keeps (h : ∀ op ∈ s, op.isKeep = true) : Clear s :=
  fun front op back heq hop => by
    have hkeep := h op (by rw [heq]; simp)
    rw [hop] at hkeep
    cases hkeep

theorem Clear.of_append (h : ∀ op ∈ kept, op.isKeep = true) (hlength : contextLines ≤ kept.length) :
    Clear (kept ++ rest) := by
  intro front op back heq hop
  by_contra hlt
  have hin : op ∈ kept := by
    have hat : (kept ++ rest)[front.length]? = some op := by simp [heq]
    rw [List.getElem?_append_left (by omega)] at hat
    exact List.mem_of_getElem? hat
  rw [h op hin] at hop
  cases hop

theorem hunkEnd_change {fuel : Nat} (hop : op.isKeep = false) :
    hunkEnd (ops ++ op :: rest) (fuel + 1) ops.length =
      hunkEnd (ops ++ op :: rest) fuel (ops.length + 1) := by
  have hhere : (ops ++ op :: rest)[ops.length]? = some op := by simp
  rw [hunkEnd, hhere]
  dsimp only
  rw [hop, if_neg Bool.false_ne_true]

theorem hunkEnd_gap {fuel : Nat} (hgap : ∀ op ∈ kept, op.isKeep = true) (hne : kept ≠ [])
    (hrest : ∀ op ∈ rest.head?, op.isKeep = false) :
    hunkEnd (ops ++ (kept ++ rest)) (fuel + 1) ops.length =
      if rest = [] ∨ 2 * contextLines < kept.length then
        ops.length + min (kept ++ rest).length contextLines
      else hunkEnd (ops ++ (kept ++ rest)) fuel (ops.length + kept.length) := by
  obtain ⟨op, kept', rfl⟩ := List.exists_cons_of_ne_nil hne
  have hhere : (ops ++ (op :: kept' ++ rest))[ops.length]? = some op := by simp
  have hend : gapEnd (ops ++ (op :: kept' ++ rest)) ops.length =
      ops.length + (op :: kept').length := by
    rw [gapEnd, List.drop_left]
    congr 2
    rw [List.takeWhile_append_of_pos hgap]
    cases rest with
    | nil => simp
    | cons next rest => rw [List.takeWhile_cons_of_neg (by simp [hrest next rfl]), List.append_nil]
  rw [hunkEnd, hhere]
  dsimp only
  rw [hgap op (List.mem_cons_self ..), if_pos rfl, hend]
  refine if_congr ?_ ?_ rfl
  · rw [List.length_append, List.length_append, ← List.length_eq_zero_iff]
    omega
  · rw [List.length_append]
    omega

/-- A hunk ends within the script, and the changes after it are further away than the context. -/
theorem hunkEnd_spec {fuel : Nat} (ops rest : List (Edit α)) (hfuel : rest.length ≤ fuel) :
    ∃ n ≤ rest.length, hunkEnd (ops ++ rest) fuel ops.length = ops.length + n ∧
      Clear (rest.drop n) := by
  induction fuel generalizing ops rest with
  | zero =>
      obtain rfl := List.eq_nil_of_length_eq_zero (Nat.le_zero.mp hfuel)
      exact ⟨0, Nat.le_refl _, rfl, Clear.of_keeps nofun⟩
  | succ fuel ih =>
      cases hrest : rest with
      | nil =>
          refine ⟨0, Nat.le_refl _, ?_, Clear.of_keeps nofun⟩
          rw [hunkEnd, List.append_nil, List.getElem?_eq_none (Nat.le_refl _)]
          rfl
      | cons op back =>
          cases hop : op.isKeep with
          | false =>
              rw [hrest] at hfuel
              obtain ⟨n, hn, hend, hclear⟩ := ih (ops ++ [op]) back (Nat.le_of_succ_le_succ hfuel)
              rw [List.append_assoc, List.length_append] at hend
              refine ⟨n + 1, Nat.succ_le_succ hn, (hunkEnd_change hop).trans (hend.trans ?_),
                hclear⟩
              rw [List.length_singleton, Nat.add_assoc, Nat.add_comm 1]
          | true =>
              have hsplit : rest = rest.takeWhile Edit.isKeep ++ rest.dropWhile Edit.isKeep :=
                List.takeWhile_append_dropWhile.symm
              have hgap : ∀ op ∈ rest.takeWhile Edit.isKeep, op.isKeep = true :=
                List.all_eq_true.mp List.all_takeWhile
              have hne : rest.takeWhile Edit.isKeep ≠ [] := by
                rw [hrest, List.takeWhile_cons_of_pos hop]
                exact List.cons_ne_nil _ _
              have hafter : ∀ op ∈ (rest.dropWhile Edit.isKeep).head?, op.isKeep = false :=
                fun op hop' => by
                  have hhead := List.head?_dropWhile_not Edit.isKeep rest
                  rw [Option.mem_def.mp hop'] at hhead
                  simpa using hhead
              rw [← hrest]
              generalize rest.takeWhile Edit.isKeep = kept at *
              generalize rest.dropWhile Edit.isKeep = after at *
              have hpos : 0 < kept.length := List.length_pos_iff.mpr hne
              rw [hsplit, hunkEnd_gap hgap hne hafter]
              split
              · next hends =>
                  refine ⟨min (kept ++ after).length contextLines, Nat.min_le_left .., rfl, ?_⟩
                  rcases hends with rfl | hlong
                  · rw [List.append_nil]
                    exact Clear.of_keeps fun op hin => hgap op (List.mem_of_mem_drop hin)
                  · have hmin : min (kept ++ after).length contextLines = contextLines := by
                      rw [List.length_append]
                      omega
                    rw [hmin, List.drop_append_of_le_length (by omega)]
                    exact Clear.of_append (fun op hin => hgap op (List.mem_of_mem_drop hin))
                      (by rw [List.length_drop]; omega)
              · next hjoins =>
                  rw [hsplit, List.length_append] at hfuel
                  obtain ⟨n, hn, hend, hclear⟩ := ih (ops ++ kept) after (by omega)
                  rw [List.append_assoc, List.length_append] at hend
                  exact ⟨kept.length + n, by rw [List.length_append]; omega,
                    hend.trans (Nat.add_assoc ..), by rwa [← List.drop_drop, List.drop_left]⟩

theorem hunkEnd_from (ops rest : List (Edit α)) (hop : op.isKeep = false) :
    ∃ n ≤ rest.length, hunkEnd (ops ++ op :: rest) (ops ++ op :: rest).length ops.length =
      ops.length + (n + 1) ∧ Clear (rest.drop n) := by
  have hlength : (ops ++ op :: rest).length = (ops.length + rest.length) + 1 := by
    rw [List.length_append, List.length_cons, Nat.add_assoc]
  obtain ⟨n, hn, hend, hclear⟩ := hunkEnd_spec (ops ++ [op]) rest
    (Nat.le_add_left rest.length ops.length)
  rw [List.append_assoc, List.length_append, List.length_singleton, Nat.add_right_comm] at hend
  refine ⟨n, hn, ?_, hclear⟩
  rw [hlength, hunkEnd_change hop]
  exact hend

/-- A hunk that has the end `lead` of what is kept and the steps `passed` is for its place, and
the hunks after it are for the rest. -/
theorem hunk_apply [DecidableEq α] {done front lead passed left : List (Edit α)} {fuel : Nat}
    (hkept : ∀ op ∈ front ++ lead, op.isKeep = true)
    (hleft : applyHunks (source (done ++ (front ++ lead) ++ passed)).length
      (target (done ++ (front ++ lead) ++ passed)).length
      (editorHunks (done ++ (front ++ lead) ++ passed ++ [] ++ left) fuel
        (done ++ (front ++ lead) ++ passed ++ []).length
        ((source (done ++ (front ++ lead) ++ passed ++ [])).length + 1)
        ((target (done ++ (front ++ lead) ++ passed ++ [])).length + 1))
      (source ([] ++ left)) = some (target ([] ++ left))) :
    let ops := done ++ (front ++ lead) ++ (passed ++ left)
    let i := (done ++ (front ++ lead)).length
    let start := done.length + front.length
    let stop := i + passed.length
    let oldLine := (source (done ++ (front ++ lead))).length + 1
    let newLine := (target (done ++ (front ++ lead))).length + 1
    let body := (ops.drop start).take (stop - start)
    let oldCount := body.countP (!·.isInsert)
    let newCount := body.countP (!·.isDelete)
    let range (start count : Nat) := if count = 0 then start - 1 else start
    let between := (ops.drop i).take (stop - i)
    applyHunks (source done).length (target done).length
      ({ oldStart := range (oldLine - (i - start)) oldCount, oldCount,
         newStart := range (newLine - (i - start)) newCount, newCount, body } ::
        editorHunks ops fuel stop (oldLine + between.countP (!·.isInsert))
          (newLine + between.countP (!·.isDelete)))
      (source (front ++ lead ++ (passed ++ left))) =
        some (target (front ++ lead ++ (passed ++ left))) := by
  intro ops i start stop oldLine newLine body oldCount newCount range between
  have hbody : body = lead ++ passed := by
    have hops : ops = done ++ front ++ (lead ++ passed ++ left) := by simp [ops]
    have hstop : stop - start = (lead ++ passed).length := by
      simp only [stop, start, i, List.length_append]
      omega
    show (ops.drop start).take (stop - start) = _
    rw [hstop, hops, show start = (done ++ front).length from (List.length_append ..).symm,
      List.drop_left, List.take_left]
  have hbetween : between = passed := by
    show (ops.drop i).take (stop - i) = _
    rw [Nat.add_sub_cancel_left, List.drop_left, List.take_left]
  obtain ⟨hfront, hfrontLength⟩ := source_of_keeps fun op hin =>
    hkept op (List.mem_append_left lead hin)
  obtain ⟨hlead, hleadLength⟩ := source_of_keeps fun op hin =>
    hkept op (List.mem_append_right front hin)
  have hold : oldCount = (source (lead ++ passed)).length := by rw [length_source, ← hbody]
  have hnew : newCount = (target (lead ++ passed)).length := by rw [length_target, ← hbody]
  have hrange : ∀ start' count, range (start' + 1) count = Hunk.startOf start' count :=
    fun start' count => by
      show (if count = 0 then start' + 1 - 1 else start' + 1) = _
      rw [Hunk.startOf, Nat.add_sub_cancel]
  have holdLine : oldLine - (i - start) = (source done).length + (source front).length + 1 := by
    simp only [oldLine, i, start, source_append, List.length_append]
    omega
  have hnewLine : newLine - (i - start) = (target done).length + (source front).length + 1 := by
    simp only [newLine, i, start, target_append, List.length_append, ← hfront, ← hlead]
    omega
  have hsource : source (front ++ lead ++ (passed ++ left)) =
      source front ++ source (lead ++ passed) ++ source left := by simp
  have htarget : target (front ++ lead ++ (passed ++ left)) =
      source front ++ target (lead ++ passed) ++ target left := by simp [hfront]
  rw [holdLine, hnewLine, hrange, hrange, hbody, hbetween, hsource, htarget,
    applyHunks_cons ⟨hold, hnew, rfl, rfl⟩]
  dsimp only
  have hops : ops = done ++ (front ++ lead) ++ passed ++ left := (List.append_assoc ..).symm
  have hstop : stop = (done ++ (front ++ lead) ++ passed).length := (List.length_append ..).symm
  have hreadOld : (source done).length + (source front).length + oldCount =
      (source (done ++ (front ++ lead) ++ passed)).length := by
    rw [hold]
    simp [Nat.add_assoc]
  have hreadNew : (target done).length + (source front).length + newCount =
      (target (done ++ (front ++ lead) ++ passed)).length := by
    rw [hnew, hfront]
    simp [Nat.add_assoc]
  have hnextOld : oldLine + passed.countP (!·.isInsert) =
      (source (done ++ (front ++ lead) ++ passed)).length + 1 := by
    rw [← length_source, source_append, List.length_append]
    exact Nat.add_right_comm ..
  have hnextNew : newLine + passed.countP (!·.isDelete) =
      (target (done ++ (front ++ lead) ++ passed)).length + 1 := by
    rw [← length_target, target_append, List.length_append]
    exact Nat.add_right_comm ..
  rw [List.append_nil, List.nil_append] at hleft
  rw [hreadOld, hreadNew, hnextOld, hnextNew, hstop, hops, hleft]
  rfl

/-- The hunks of a script are a patch from its source to its target. What is kept since the last
hunk is `kept`. -/
theorem editorHunks_apply [DecidableEq α] {fuel : Nat} (done kept rest : List (Edit α))
    (hkept : ∀ op ∈ kept, op.isKeep = true) (hclear : done = [] ∨ Clear (kept ++ rest))
    (hfuel : rest.length ≤ fuel) :
    applyHunks (source done).length (target done).length
      (editorHunks (done ++ kept ++ rest) fuel (done ++ kept).length
        ((source (done ++ kept)).length + 1) ((target (done ++ kept)).length + 1))
      (source (kept ++ rest)) = some (target (kept ++ rest)) := by
  induction fuel generalizing done kept rest with
  | zero =>
      obtain rfl := List.eq_nil_of_length_eq_zero (Nat.le_zero.mp hfuel)
      rw [List.append_nil, List.append_nil, editorHunks]
      exact congrArg some (source_of_keeps hkept).1
  | succ fuel ih =>
      cases rest with
      | nil =>
          rw [List.append_nil, List.append_nil, editorHunks,
            List.getElem?_eq_none (Nat.le_refl _)]
          exact congrArg some (source_of_keeps hkept).1
      | cons op back =>
          have hhere : (done ++ kept ++ op :: back)[(done ++ kept).length]? = some op := by simp
          rw [editorHunks, hhere]
          dsimp only
          cases hop : op.isKeep with
          | true =>
              have hkept' : ∀ op' ∈ kept ++ [op], op'.isKeep = true := fun op' hin => by
                rcases List.mem_append.mp hin with hin | hin
                · exact hkept op' hin
                · rwa [List.mem_singleton.mp hin]
              have hnext := ih done (kept ++ [op]) back hkept' (by simpa using hclear)
                (Nat.le_of_succ_le_succ hfuel)
              cases op with
              | delete c => cases hop
              | insert c => cases hop
              | keep c => simpa [Nat.add_assoc] using hnext
          | false =>
              rw [if_neg Bool.false_ne_true]
              -- the hunk has the end of what is kept, and the script up to its end
              obtain ⟨n, hn, hend, hnext⟩ := hunkEnd_from (done ++ kept) back hop
              have hlead : (done ++ kept).length - contextLines =
                  done.length + (kept.length - contextLines) := by
                rw [List.length_append]
                rcases hclear with rfl | hclear
                · simp
                · have hle := hclear kept op back rfl hop
                  omega
              have hkeeps : kept = kept.take (kept.length - contextLines) ++
                  kept.drop (kept.length - contextLines) := (List.take_append_drop ..).symm
              have hscript : op :: back = (op :: back.take n) ++ back.drop n := by
                rw [List.cons_append, List.take_append_drop]
              have hfront : (kept.take (kept.length - contextLines)).length =
                  kept.length - contextLines := List.length_take_of_le (Nat.sub_le ..)
              have hpassed : (op :: back.take n).length = n + 1 := by
                rw [List.length_cons, List.length_take_of_le hn]
              have hleft : (back.drop n).length ≤ fuel := by
                rw [List.length_drop]
                have hlength := Nat.le_of_succ_le_succ hfuel
                omega
              rw [hend, hlead, ← hfront, ← hpassed]
              generalize kept.take (kept.length - contextLines) = front at *
              generalize kept.drop (kept.length - contextLines) = lead at *
              generalize op :: back.take n = passed at *
              generalize back.drop n = left at *
              rw [hscript]
              subst hkeeps
              exact hunk_apply hkept (ih (done ++ (front ++ lead) ++ passed) [] left nofun
                (.inr (by simpa using hnext)) hleft)

end

/-! ## The diff -/

theorem middleOf_split (lines : List String) (ends : Nat × Nat) (hfirst : ends.1 ≤ lines.length)
    (hlast : ends.2 ≤ (lines.drop ends.1).length) :
    lines.drop (lines.length - ends.2) =
        (lines.drop ends.1).drop ((lines.drop ends.1).length - ends.2) ∧
      lines = lines.take ends.1 ++ middleOf lines ends ++ lines.drop (lines.length - ends.2) := by
  rw [List.length_drop] at hlast
  have hend : lines.drop (lines.length - ends.2) =
      (lines.drop ends.1).drop ((lines.drop ends.1).length - ends.2) := by
    rw [List.drop_drop, List.length_drop]
    congr 1
    omega
  refine ⟨hend, ?_⟩
  rw [hend, middleOf, List.length_drop, Nat.sub_right_comm, List.append_assoc,
    List.take_append_drop, List.take_append_drop]

theorem commonEnds_spec (a b : List String) :
    a = a.take (commonEnds a b).1 ++ middleOf a (commonEnds a b) ++
        a.drop (a.length - (commonEnds a b).2) ∧
      b = a.take (commonEnds a b).1 ++ middleOf b (commonEnds a b) ++
        a.drop (a.length - (commonEnds a b).2) := by
  generalize hends : commonEnds a b = ends
  obtain ⟨common, suffix⟩ := ends
  obtain ⟨hcommon, hsuffix⟩ := Prod.mk.inj hends
  have hle := commonLength_le (a := a) (b := b)
  have htake := commonLength_take (a := a) (b := b)
  have hleEnd := commonLength_le (a := (a.drop common).reverse) (b := (b.drop common).reverse)
  have htakeEnd := commonLength_take (a := (a.drop common).reverse) (b := (b.drop common).reverse)
  rw [hcommon] at hle htake hsuffix
  rw [hsuffix] at hleEnd htakeEnd
  rw [List.length_reverse, List.length_reverse] at hleEnd
  rw [List.take_reverse, List.take_reverse, List.reverse_inj] at htakeEnd
  obtain ⟨hendA, hsplitA⟩ := middleOf_split a (common, suffix) hle.1 hleEnd.1
  obtain ⟨hendB, hsplitB⟩ := middleOf_split b (common, suffix) hle.2 hleEnd.2
  refine ⟨hsplitA, ?_⟩
  conv => lhs; rw [hsplitB]
  dsimp only at hendA hendB ⊢
  rw [htake, hendA, hendB, htakeEnd]

/-- The text is the diff with the hunks; texts that differ in the last newline at most have no
hunks. -/
def IsDiff (path text : String) (hunks : List (Hunk String)) : Prop :=
  hunks = [] ∧ (text = "" ∨
      text = joinLines (diffHeader path ++ ["\\ final newline changed"])) ∨
    text = joinLines (diffHeader path ++
      hunks.flatMap fun hunk => hunk.header :: hunk.body.map opLine)

theorem scriptStats_spec (path : String) (ops : List (Edit String)) :
    ∃ text hunks, (scriptStats path ops).diff = some text ∧
      edits ops = (scriptStats path ops).added + (scriptStats path ops).removed ∧
      IsDiff path text hunks ∧ applyHunks 0 0 hunks (source ops) = some (target ops) := by
  unfold scriptStats
  dsimp only
  split
  · next hnone =>
      have hkeeps : ∀ op ∈ ops, op.isKeep = true := fun op hin => by
        have hinsert := List.countP_eq_zero.mp hnone.1 op hin
        have hdelete := List.countP_eq_zero.mp hnone.2 op hin
        cases op with
        | keep c => rfl
        | delete c => exact absurd rfl hdelete
        | insert c => exact absurd rfl hinsert
      refine ⟨_, [], rfl, ?_, .inl ⟨rfl, .inr rfl⟩, congrArg some (source_of_keeps hkeeps).1⟩
      rw [edits, hnone.1, hnone.2]
  · refine ⟨_, editorHunks ops ops.length 0 1 1, rfl, Nat.add_comm .., .inr rfl, ?_⟩
    exact editorHunks_apply [] [] ops (fun _ h => by cases h) (.inl rfl) (Nat.le_refl _)

theorem editorLineDiff_over (path : String) {before after : String} {maxEdits : Nat}
    (hne : before ≠ after)
    (hover : myers (middleOf (splitLines before) (commonEnds (splitLines before) (splitLines after)))
      (middleOf (splitLines after) (commonEnds (splitLines before) (splitLines after))) maxEdits =
        none) :
    editorLineDiff path before after maxEdits =
      let counts := multisetCounts
        (middleOf (splitLines before) (commonEnds (splitLines before) (splitLines after)))
        (middleOf (splitLines after) (commonEnds (splitLines before) (splitLines after)))
      ⟨counts.1, counts.2, none⟩ := by
  rw [editorLineDiff, if_neg hne]
  dsimp only
  rw [hover]

theorem editorLineDiff_within (path : String) {before after : String} {maxEdits : Nat}
    {middle : List (Edit String)} (hne : before ≠ after)
    (hwithin : myers
      (middleOf (splitLines before) (commonEnds (splitLines before) (splitLines after)))
      (middleOf (splitLines after) (commonEnds (splitLines before) (splitLines after))) maxEdits =
        some middle) :
    editorLineDiff path before after maxEdits =
      let a := splitLines before
      let ends := commonEnds a (splitLines after)
      scriptStats path ((a.take ends.1).map Edit.keep ++ middle ++
        (a.drop (a.length - ends.2)).map Edit.keep) := by
  rw [editorLineDiff, if_neg hne]
  dsimp only
  rw [hwithin]

/-- The diff is a patch between the lines of the texts with as few changes as any; it is left out
exactly when these are more than allowed, and then the counts are the multiset differences. -/
theorem editorLineDiff_spec (path before after : String) (maxEdits : Nat) :
    let a := splitLines before
    let b := splitLines after
    let midA := middleOf a (commonEnds a b)
    let midB := middleOf b (commonEnds a b)
    let stats := editorLineDiff path before after maxEdits
    ∃ d, IsDistance midA midB d ∧ IsDistance a b d ∧ (stats.diff = none ↔ maxEdits < d) ∧
      (stats.diff = none → stats.added = ((midB : Multiset String) - midA).card ∧
        stats.removed = ((midA : Multiset String) - midB).card) ∧
      ∀ text, stats.diff = some text → stats.added + stats.removed = d ∧
        ∃ hunks, IsDiff path text hunks ∧ applyHunks 0 0 hunks a = some b := by
  intro a b midA midB stats
  obtain ⟨hsplitA, hsplitB⟩ := commonEnds_spec a b
  obtain ⟨d, hdistance, hmyers⟩ := myers_spec midA midB maxEdits
  have hwhole : IsDistance a b d := by
    conv => arg 1; rw [hsplitA]
    conv => arg 2; rw [hsplitB]
    exact isDistance_append_right.mpr (isDistance_append.mpr hdistance)
  refine ⟨d, hdistance, hwhole, ?_⟩
  by_cases hsame : before = after
  · have hstats : stats = ⟨0, 0, some ""⟩ := if_pos hsame
    have hd : d = 0 := by
      have hkeep : 0 ∈ scriptEdits a b := by
        subst hsame
        exact ⟨a.map Edit.keep, source_map_keep, target_map_keep, edits_map_keep⟩
      exact Nat.le_zero.mp (hwhole.2 hkeep)
    rw [hstats, hd]
    refine ⟨⟨fun hnone => (by cases hnone), fun hlt => absurd hlt (Nat.not_lt_zero _)⟩,
      fun hnone => (by cases hnone), fun text htext => ⟨rfl, [], ?_, ?_⟩⟩
    · cases htext
      exact .inl ⟨rfl, .inl rfl⟩
    · subst hsame
      rfl
  · cases hresult : myers midA midB maxEdits with
    | none =>
        have hstats : stats = _ := editorLineDiff_over path hsame hresult
        rw [hresult] at hmyers
        rw [hstats, multisetCounts_spec]
        exact ⟨⟨fun _ => hmyers, fun _ => rfl⟩, fun _ => ⟨rfl, rfl⟩,
          fun text htext => by cases htext⟩
    | some middle =>
        have hstats : stats = _ := editorLineDiff_within path hsame hresult
        rw [hresult] at hmyers
        obtain ⟨hle, hsource, htarget, hedits⟩ := hmyers
        generalize hops : (a.take (commonEnds a b).1).map Edit.keep ++ middle ++
          (a.drop (a.length - (commonEnds a b).2)).map Edit.keep = ops
        replace hstats : stats = scriptStats path ops :=
          hstats.trans (congrArg (scriptStats path) hops)
        have hsourceOps : source ops = a := by
          rw [← hops, source_append, source_append, source_map_keep, source_map_keep, hsource]
          exact hsplitA.symm
        have htargetOps : target ops = b := by
          rw [← hops, target_append, target_append, target_map_keep, target_map_keep, htarget]
          exact hsplitB.symm
        have heditsOps : edits ops = d := by
          rw [← hops, edits_append, edits_append, edits_map_keep, edits_map_keep, hedits]
          omega
        obtain ⟨text, hunks, htext, hcount, hdiff, happly⟩ := scriptStats_spec path ops
        rw [hsourceOps, htargetOps] at happly
        rw [hstats, htext, ← heditsOps, hcount]
        refine ⟨⟨fun hnone => (by cases hnone), fun hlt => ?_⟩, fun hnone => (by cases hnone),
          fun text' htext' => ⟨rfl, hunks, ?_, happly⟩⟩
        · omega
        · cases htext'
          exact hdiff

end OmniRush.Server
