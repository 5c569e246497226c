import Mathlib.Algebra.Order.Ring.Int
import OmniRush.Proofs.TurnMarks

/-!
# The blocks lie between lines in common

Whatever the marks, if what they leave is the same on both sides the blocks read off them cut both
sides at the same places (`blocksFrom_spec`). The hunks are made from blocks that are cut so, and
turn the one side into the other (`hunksOf_spec`): two hunks are never so close that the context
of the second begins before the end of the first.
-/

namespace OmniRush.Server.TurnDiff

open Script

/-! ## Slices -/

section

variable {α : Type} {list a b : List α} {c : α} {i j k n : Nat}

theorem slice_append (hij : i ≤ j) (hjk : j ≤ k) :
    slice list i j ++ slice list j k = slice list i k := by
  obtain ⟨n, rfl⟩ := Nat.exists_eq_add_of_le hij
  obtain ⟨m, rfl⟩ := Nat.exists_eq_add_of_le hjk
  unfold slice
  rw [Nat.add_sub_cancel_left, Nat.add_sub_cancel_left, Nat.add_assoc, Nat.add_sub_cancel_left,
    List.take_add, List.drop_drop]

theorem slice_append_drop (hij : i ≤ j) : slice list i j ++ list.drop j = list.drop i := by
  obtain ⟨n, rfl⟩ := Nat.exists_eq_add_of_le hij
  unfold slice
  rw [Nat.add_sub_cancel_left, ← List.drop_drop, List.take_append_drop]

theorem length_slice (hj : j ≤ list.length) : (slice list i j).length = j - i := by
  unfold slice
  rw [List.length_take, List.length_drop]
  omega

theorem slice_self : slice list i i = [] := by
  unfold slice
  rw [Nat.sub_self, List.take_zero]

theorem slice_succ (h : list[i]? = some c) (hij : i < j) :
    slice list i j = c :: slice list (i + 1) j := by
  have hlength : j - i = (j - (i + 1)) + 1 := by omega
  unfold slice
  rw [drop_eq_cons h, hlength]
  rfl

theorem map_slice {β : Type} (g : α → β) : slice (list.map g) i j = (slice list i j).map g := by
  unfold slice
  rw [← List.map_drop, List.map_take]

/-! ## Cuts -/

/-- From a point on the sides are the same apart from the blocks. -/
def Cut (a b : List α) : Nat → Nat → List Block → Prop
  | i, j, [] => a.drop i = b.drop j
  | i, j, block :: rest =>
      (i ≤ block.aStart ∧ block.bStart = j + (block.aStart - i) ∧
        slice a i block.aStart = slice b j block.bStart) ∧
      (block.aStart ≤ block.aEnd ∧ block.aEnd ≤ a.length) ∧
      (block.bStart ≤ block.bEnd ∧ block.bEnd ≤ b.length) ∧
      0 < (block.aEnd - block.aStart) + (block.bEnd - block.bStart) ∧
      Cut a b block.aEnd block.bEnd rest

theorem Cut.map {β : Type} {blocks : List Block} (h : Cut a b i j blocks) (g : α → β) :
    Cut (a.map g) (b.map g) i j blocks := by
  induction blocks generalizing i j with
  | nil =>
      show (a.map g).drop i = (b.map g).drop j
      rw [← List.map_drop, ← List.map_drop, show a.drop i = b.drop j from h]
  | cons block rest ih =>
      obtain ⟨⟨hi, hj, hsame⟩, hA, hB, hpos, hrest⟩ := h
      refine ⟨⟨hi, hj, ?_⟩, by rwa [List.length_map], by rwa [List.length_map], hpos, ih hrest⟩
      rw [map_slice, map_slice, hsame]

theorem Cut.cons {blocks : List Block} (h : Cut a b (i + 1) (j + 1) blocks)
    (ha : a[i]? = some c) (hb : b[j]? = some c) : Cut a b i j blocks := by
  cases blocks with
  | nil =>
      show a.drop i = b.drop j
      rw [drop_eq_cons ha, drop_eq_cons hb, show a.drop (i + 1) = b.drop (j + 1) from h]
  | cons block rest =>
      obtain ⟨⟨hi, hj, hsame⟩, hrest⟩ := h
      refine ⟨⟨by omega, by omega, ?_⟩, hrest⟩
      rw [slice_succ ha hi, slice_succ hb (by omega), hsame]

theorem Cut.start {blocks : List Block} (h : Cut a b n n blocks) (hsame : a.take n = b.take n)
    (ha : n ≤ a.length) (hb : n ≤ b.length) : Cut a b 0 0 blocks := by
  induction n with
  | zero => exact h
  | succ n ih =>
      obtain ⟨c, hc⟩ : ∃ c, a[n]? = some c := ⟨_, List.getElem?_eq_getElem ha⟩
      have hc' : b[n]? = some c := by
        rw [← List.getElem?_take_of_lt (Nat.lt_succ_self n), ← hsame,
          List.getElem?_take_of_lt (Nat.lt_succ_self n), hc]
      have hless : a.take n = b.take n := by
        have htake := congrArg (List.take n) hsame
        rwa [List.take_take, List.take_take, Nat.min_eq_left (Nat.le_succ n)] at htake
      exact ih (h.cons hc hc') hless (by omega) (by omega)

theorem Cut.pass {blocks : List Block} (h : Cut a b i j blocks)
    (hn : ∀ block ∈ blocks.head?, i + n ≤ block.aStart) :
    Cut a b (i + n) (j + n) blocks ∧ slice a i (i + n) = slice b j (j + n) := by
  cases blocks with
  | nil =>
      have hdrop : a.drop i = b.drop j := h
      constructor
      · show a.drop (i + n) = b.drop (j + n)
        rw [← List.drop_drop, ← List.drop_drop, hdrop]
      · unfold slice
        rw [hdrop, Nat.add_sub_cancel_left, Nat.add_sub_cancel_left]
  | cons block rest =>
      obtain ⟨⟨hi, hj, hsame⟩, hrest⟩ := h
      have hle := hn block rfl
      rw [← slice_append (Nat.le_add_right i n) hle,
        ← slice_append (Nat.le_add_right j n) (by omega)] at hsame
      have hlength : (slice a i (i + n)).length = (slice b j (j + n)).length := by
        rw [length_slice (by omega), length_slice (by omega)]
        omega
      obtain ⟨hpassed, hleft⟩ := List.append_inj hsame hlength
      exact ⟨⟨⟨hle, by omega, hleft⟩, hrest⟩, hpassed⟩

theorem Cut.pass_le {blocks : List Block} (h : Cut a b i j blocks)
    (hn : ∀ block ∈ blocks.head?, i + n ≤ block.aStart) (ha : i + n ≤ a.length)
    (hj : j ≤ b.length) : j + n ≤ b.length := by
  cases blocks with
  | nil =>
      have hlength := congrArg List.length (show a.drop i = b.drop j from h)
      rw [List.length_drop, List.length_drop] at hlength
      omega
  | cons block rest =>
      obtain ⟨⟨hi, hbStart, -⟩, -, hB, -⟩ := h
      have hle := hn block rfl
      omega

end

/-! ## From the marks to the blocks -/

section

variable {α : Type} {a b : List α} {mask : Nat → Bool} {masks : Masks} {i j left : Nat}

theorem runEnd_spec (mask : Nat → Bool) (list : List α) (hleft : i + left = list.length) :
    i ≤ runEnd mask left i ∧ runEnd mask left i ≤ list.length ∧
      unmarked mask i (list.drop i) =
        unmarked mask (runEnd mask left i) (list.drop (runEnd mask left i)) := by
  induction left generalizing i with
  | zero => exact ⟨Nat.le_refl _, by rw [runEnd]; omega, rfl⟩
  | succ left ih =>
      rw [runEnd]
      split
      · next hmarked =>
          obtain ⟨hge, hle, hsame⟩ := ih (i := i + 1) (by omega)
          refine ⟨by omega, hle, ?_⟩
          rw [List.drop_eq_getElem_cons (by omega), unmarked, if_pos hmarked, hsame]
      · exact ⟨Nat.le_refl _, by omega, rfl⟩

theorem lt_runEnd (hpos : 0 < left) (h : mask i = true) : i < runEnd mask left i := by
  obtain ⟨left, rfl⟩ := Nat.exists_eq_succ_of_ne_zero hpos.ne'
  have hge : i + 1 ≤ runEnd mask left (i + 1) :=
    (runEnd_spec mask (List.replicate (i + 1 + left) ()) (by rw [List.length_replicate])).1
  rw [runEnd, if_pos h]
  exact hge

theorem marked_of_unmarked_nil {line : α} (h : unmarked mask i (line :: a) = []) :
    mask i = true := by
  rw [unmarked] at h
  split at h
  · assumption
  · cases h

/-- The blocks read off the marks, whatever these are, if what they leave is the same. -/
theorem blocksFrom_spec {endA endB fuel : Nat}
    (hsame : unmarked masks.removed i (a.drop i) = unmarked masks.added j (b.drop j))
    (hendA : ∀ r, endA ≤ r → masks.removed r = false) (hA : endA ≤ a.length)
    (hendB : ∀ r, endB ≤ r → masks.added r = false) (hB : endB ≤ b.length)
    (hi : i ≤ a.length) (hj : j ≤ b.length)
    (hfuel : (a.length - i) + (b.length - j) ≤ fuel) :
    Cut a b i j (blocksFrom masks a.length b.length endA endB fuel i j) := by
  induction fuel generalizing i j with
  | zero =>
      show a.drop i = b.drop j
      rw [List.drop_eq_nil_of_le (by omega), List.drop_eq_nil_of_le (by omega)]
  | succ fuel ih =>
      rw [blocksFrom]
      split
      · next hmore =>
          split
          · next hkept =>
              obtain ⟨hia, hjb, hremoved, hadded⟩ := hkept
              rw [List.drop_eq_getElem_cons hia, List.drop_eq_getElem_cons hjb, unmarked, unmarked,
                hremoved, hadded, if_neg Bool.false_ne_true, if_neg Bool.false_ne_true] at hsame
              obtain ⟨hline, hrest⟩ := List.cons.inj hsame
              have hcut := ih (i := i + 1) (j := j + 1) hrest hia hjb (by omega)
              exact hcut.cons (List.getElem?_eq_getElem hia)
                (by rw [hline, List.getElem?_eq_getElem hjb])
          · next hchange =>
              obtain ⟨hgeA, hleA, hunA⟩ := runEnd_spec masks.removed a (Nat.add_sub_of_le hi)
              obtain ⟨hgeB, hleB, hunB⟩ := runEnd_spec masks.added b (Nat.add_sub_of_le hj)
              -- one of the two sides has a marked line here
              have hpos : i < runEnd masks.removed (a.length - i) i ∨
                  j < runEnd masks.added (b.length - j) j := by
                by_cases hia : i < a.length
                · by_cases hjb : j < b.length
                  · cases hremoved : masks.removed i with
                    | true => exact .inl (lt_runEnd (by omega) hremoved)
                    | false =>
                        refine .inr (lt_runEnd (by omega) ?_)
                        by_contra hadded
                        exact hchange ⟨hia, hjb, hremoved, Bool.eq_false_iff.mpr hadded⟩
                  · rw [List.drop_eq_nil_of_le (Nat.le_of_not_lt hjb),
                      List.drop_eq_getElem_cons hia] at hsame
                    exact .inl (lt_runEnd (by omega) (marked_of_unmarked_nil hsame))
                · rw [List.drop_eq_nil_of_le (Nat.le_of_not_lt hia),
                    List.drop_eq_getElem_cons (by omega : j < b.length)] at hsame
                  exact .inr (lt_runEnd (by omega) (marked_of_unmarked_nil hsame.symm))
              rw [hunA, hunB] at hsame
              dsimp only
              generalize runEnd masks.removed (a.length - i) i = aEnd at *
              generalize runEnd masks.added (b.length - j) j = bEnd at *
              have hfuel' : (a.length - aEnd) + (b.length - bEnd) ≤ fuel := by omega
              refine ⟨⟨Nat.le_refl _, by simp, ?_⟩, ⟨hgeA, hleA⟩, ⟨hgeB, hleB⟩, ?_,
                ih hsame hleA hleB hfuel'⟩
              · dsimp only
                rw [slice_self, slice_self]
              · dsimp only
                omega
      · next hend =>
          rw [unmarked_none fun r hle _ => hendA r (by omega),
            unmarked_none fun r hle _ => hendB r (by omega)] at hsame
          exact hsame

end

/-! ## Hunks -/

theorem joined_spec (last : Block) (blocks : List Block) :
    (joined last blocks).1 ++ (joined last blocks).2 = blocks ∧
      ∀ block ∈ (joined last blocks).2.head?,
        2 * diffContextLines < block.aStart - ((joined last blocks).1.getLastD last).aEnd := by
  induction blocks generalizing last with
  | nil => exact ⟨rfl, nofun⟩
  | cons block rest ih =>
      rw [joined]
      split
      · obtain ⟨happend, hfar⟩ := ih block
        refine ⟨congrArg (block :: ·) happend, ?_⟩
        dsimp only
        rwa [List.getLastD_cons]
      · next hfar =>
          refine ⟨rfl, fun next hnext => ?_⟩
          cases hnext
          exact Nat.lt_of_not_le hfar

/-- The numbers of lines that the blocks take out and put in. -/
def deletionsOf (blocks : List Block) : Nat :=
  (blocks.map fun block => block.aEnd - block.aStart).sum

def additionsOf (blocks : List Block) : Nat :=
  (blocks.map fun block => block.bEnd - block.bStart).sum

section

variable {list : List Line}

theorem deletes_keep : (list.map Edit.keep).countP Edit.isDelete = 0 := by
  rw [List.countP_map]
  exact List.countP_eq_zero.mpr fun _ _ => Bool.false_ne_true

theorem inserts_keep : (list.map Edit.keep).countP Edit.isInsert = 0 := by
  rw [List.countP_map]
  exact List.countP_eq_zero.mpr fun _ _ => Bool.false_ne_true

theorem deletes_delete : (list.map Edit.delete).countP Edit.isDelete = list.length := by
  rw [List.countP_map]
  exact List.countP_eq_length.mpr fun _ _ => rfl

theorem inserts_delete : (list.map Edit.delete).countP Edit.isInsert = 0 := by
  rw [List.countP_map]
  exact List.countP_eq_zero.mpr fun _ _ => Bool.false_ne_true

theorem deletes_insert : (list.map Edit.insert).countP Edit.isDelete = 0 := by
  rw [List.countP_map]
  exact List.countP_eq_zero.mpr fun _ _ => Bool.false_ne_true

theorem inserts_insert : (list.map Edit.insert).countP Edit.isInsert = list.length := by
  rw [List.countP_map]
  exact List.countP_eq_length.mpr fun _ _ => rfl

end

section

variable {a b : List Line} {i j : Nat}

/-- The steps through blocks of a cut take the lines of the one side to those of the other. -/
theorem blockSteps_spec (blocks left : List Block) (h : Cut a b i j (blocks ++ left))
    (hi : i ≤ a.length) (hj : j ≤ b.length) :
    let (steps, i', j') := blockSteps a b i j blocks
    Cut a b i' j' left ∧ (i ≤ i' ∧ i' ≤ a.length) ∧ (j ≤ j' ∧ j' ≤ b.length) ∧
      source steps = slice a i i' ∧ target steps = slice b j j' ∧
      steps.countP Edit.isDelete = deletionsOf blocks ∧
      steps.countP Edit.isInsert = additionsOf blocks ∧
      ∀ last : Block, last.aEnd = i → last.bEnd = j →
        i' = (blocks.getLastD last).aEnd ∧ j' = (blocks.getLastD last).bEnd := by
  induction blocks generalizing i j with
  | nil =>
      refine ⟨h, ⟨Nat.le_refl _, hi⟩, ⟨Nat.le_refl _, hj⟩, slice_self.symm, slice_self.symm, rfl,
        rfl, ?_⟩
      rintro last rfl rfl
      exact ⟨rfl, rfl⟩
  | cons block rest ih =>
      obtain ⟨⟨hstart, hbStart, hsame⟩, hA, hB, -, hrest⟩ := h
      have hi' : i + (block.aStart - i) = block.aStart := Nat.add_sub_of_le hstart
      have hspec := ih hrest hA.2 hB.2
      rw [blockSteps]
      dsimp only
      rw [hi', ← hbStart, Nat.add_sub_of_le hA.1, Nat.add_sub_of_le hB.1]
      generalize blockSteps a b block.aEnd block.bEnd rest = result at hspec ⊢
      obtain ⟨steps, i', j'⟩ := result
      obtain ⟨hcut, hi'', hj'', hsource, htarget, hdeletes, hinserts, hlast⟩ := hspec
      have hlowB : j ≤ block.bStart := by omega
      refine ⟨hcut, ⟨hstart.trans (hA.1.trans hi''.1), hi''.2⟩,
        ⟨hlowB.trans (hB.1.trans hj''.1), hj''.2⟩, ?_, ?_, ?_, ?_, ?_⟩
      · rw [source_append, source_append, source_append, source_map_keep, source_map_delete,
          source_map_insert, hsource, ← hsame, List.append_nil, slice_append hstart hA.1,
          slice_append (hstart.trans hA.1) hi''.1]
      · rw [target_append, target_append, target_append, target_map_keep, target_map_delete,
          target_map_insert, htarget, List.append_nil, slice_append hlowB hB.1,
          slice_append (hlowB.trans hB.1) hj''.1]
      · rw [List.countP_append, List.countP_append, List.countP_append, deletes_keep,
          deletes_delete, deletes_insert, hdeletes, length_slice hA.2, Nat.zero_add]
        rfl
      · rw [List.countP_append, List.countP_append, List.countP_append, inserts_keep,
          inserts_delete, inserts_insert, hinserts, length_slice hB.2, Nat.zero_add]
        rfl
      · intro last _ _
        rw [List.getLastD_cons]
        exact hlast block rfl rfl

theorem Cut.lines_le {α : Type} {a b : List α} {blocks : List Block} (h : Cut a b i j blocks)
    (hi : i ≤ a.length) (hj : j ≤ b.length) :
    deletionsOf blocks + i ≤ a.length ∧ additionsOf blocks + j ≤ b.length := by
  induction blocks generalizing i j with
  | nil => exact ⟨(Nat.zero_add i).symm ▸ hi, (Nat.zero_add j).symm ▸ hj⟩
  | cons block rest ih =>
      obtain ⟨⟨hstart, hbStart, -⟩, hA, hB, -, hrest⟩ := h
      obtain ⟨hdeletions, hadditions⟩ := ih hrest hA.2 hB.2
      unfold deletionsOf additionsOf at *
      rw [List.map_cons, List.sum_cons, List.map_cons, List.sum_cons]
      omega

/-- A hunk takes the lines of the one side between two points to those of the other. -/
structure Covers (a b : List Line) (hunk : Hunk Line) (i j i' j' : Nat) : Prop where
  placed : hunk.Placed i j
  old : i ≤ i' ∧ i' ≤ a.length
  new : j ≤ j' ∧ j' ≤ b.length
  lines : source hunk.body = slice a i i'
  become : target hunk.body = slice b j j'

/-- The hunk of blocks that are so far from those left that both have their context. -/
theorem hunkOf_spec (first : Block) (more left : List Block)
    (h : Cut a b i j (first :: more ++ left)) (hi : i ≤ a.length) (hj : j ≤ b.length)
    (hlead : i + min diffContextLines first.aStart ≤ first.aStart)
    (hfar : ∀ block ∈ left.head?,
      2 * diffContextLines < block.aStart - (more.getLastD first).aEnd) :
    ∃ n i' j', slice a i (i + n) = slice b j (j + n) ∧
      Covers a b (hunkOf a b first more) (i + n) (j + n) i' j' ∧ Cut a b i' j' left ∧
      (∀ block ∈ left.head?, i' + diffContextLines ≤ block.aStart) ∧
      (hunkOf a b first more).body.countP Edit.isDelete = deletionsOf (first :: more) ∧
      (hunkOf a b first more).body.countP Edit.isInsert = additionsOf (first :: more) := by
  have hstart := h.1
  have hsize := h.2
  generalize hn : first.aStart - min diffContextLines first.aStart - i = n
  have haStart : first.aStart - min diffContextLines first.aStart = i + n := by omega
  have hbStart : first.bStart - min diffContextLines first.aStart = j + n := by omega
  have hbefore : ∀ block ∈ (first :: more ++ left).head?, i + n ≤ block.aStart :=
    fun block hblock => by
      cases hblock
      omega
  obtain ⟨hcut, hkept⟩ := h.pass hbefore
  have hspec := blockSteps_spec (first :: more) left hcut (by omega)
    (h.pass_le hbefore (by omega) hj)
  unfold hunkOf
  dsimp only
  rw [haStart, hbStart]
  generalize blockSteps a b (i + n) (j + n) (first :: more) = result at hspec ⊢
  obtain ⟨steps, i', j'⟩ := result
  obtain ⟨hrest, hi', hj', hsource, htarget, hdeletes, hinserts, hlast⟩ := hspec
  obtain ⟨hlastA, hlastB⟩ := hlast ⟨i + n, i + n, j + n, j + n⟩ rfl rfl
  rw [List.getLastD_cons] at hlastA hlastB
  dsimp only
  rw [← hlastA, ← hlastB]
  rw [← hlastA] at hfar
  generalize htrail : min diffContextLines (a.length - i') = trail
  have hafter : ∀ block ∈ left.head?, i' + trail ≤ block.aStart := fun block hblock => by
    have hblock := hfar block hblock
    omega
  obtain ⟨hleft, htrailing⟩ := hrest.pass hafter
  have hend := hrest.pass_le hafter (by omega) hj'.2
  have hsource' : source (steps ++ (slice b j' (j' + trail)).map .keep) =
      slice a (i + n) (i' + trail) := by
    rw [source_append, source_map_keep, hsource, ← htrailing, slice_append hi'.1 (by omega)]
  have htarget' : target (steps ++ (slice b j' (j' + trail)).map .keep) =
      slice b (j + n) (j' + trail) := by
    rw [target_append, target_map_keep, htarget, slice_append hj'.1 (by omega)]
  refine ⟨n, i' + trail, j' + trail, hkept, ⟨⟨?_, ?_, rfl, rfl⟩, ⟨by omega, by omega⟩,
    ⟨by omega, hend⟩, hsource', htarget'⟩, hleft, fun block hblock => ?_, ?_, ?_⟩
  · rw [hsource', length_slice (by omega)]
  · rw [htarget', length_slice hend]
  · have hblock := hfar block hblock
    omega
  · rw [List.countP_append, deletes_keep, hdeletes, Nat.add_zero]
  · rw [List.countP_append, inserts_keep, hinserts, Nat.add_zero]

theorem deletionsOf_append (blocks more : List Block) :
    deletionsOf (blocks ++ more) = deletionsOf blocks + deletionsOf more := by
  unfold deletionsOf
  rw [List.map_append, List.sum_append]

theorem additionsOf_append (blocks more : List Block) :
    additionsOf (blocks ++ more) = additionsOf blocks + additionsOf more := by
  unfold additionsOf
  rw [List.map_append, List.sum_append]

theorem hunksOf_spec {fuel : Nat} (blocks : List Block) (h : Cut a b i j blocks)
    (hi : i ≤ a.length) (hj : j ≤ b.length)
    (hlead : ∀ block ∈ blocks.head?, i + min diffContextLines block.aStart ≤ block.aStart)
    (hfuel : blocks.length ≤ fuel) :
    applyHunks i j (hunksOf a b fuel blocks) (a.drop i) = some (b.drop j) ∧
      ((hunksOf a b fuel blocks).flatMap Hunk.body).countP Edit.isDelete = deletionsOf blocks ∧
      ((hunksOf a b fuel blocks).flatMap Hunk.body).countP Edit.isInsert = additionsOf blocks := by
  induction fuel generalizing blocks i j with
  | zero =>
      obtain rfl := List.eq_nil_of_length_eq_zero (Nat.le_zero.mp hfuel)
      exact ⟨congrArg some h, rfl, rfl⟩
  | succ fuel ih =>
      cases blocks with
      | nil => exact ⟨congrArg some h, rfl, rfl⟩
      | cons first rest =>
          obtain ⟨hjoined, hfar⟩ := joined_spec first rest
          rw [hunksOf]
          generalize joined first rest = result at hjoined hfar ⊢
          obtain ⟨more, left⟩ := result
          dsimp only at hjoined hfar ⊢
          subst hjoined
          obtain ⟨n, i', j', hkept, hcovers, hleft, hgap, hdeletes, hinserts⟩ :=
            hunkOf_spec first more left h hi hj (hlead first rfl) hfar
          generalize hunkOf a b first more = hunk at *
          rw [List.length_cons, List.length_append] at hfuel
          obtain ⟨happly, hdeletes', hinserts'⟩ := ih left hleft hcovers.old.2 hcovers.new.2
            (fun block hblock => (Nat.add_le_add_left (Nat.min_le_left ..) i').trans
              (hgap block hblock)) (by omega)
          refine ⟨?_, ?_, ?_⟩
          · have hlength : (slice a i (i + n)).length = n := by
              rw [length_slice (hcovers.old.1.trans hcovers.old.2), Nat.add_sub_cancel_left]
            have hplaced : hunk.Placed (i + (slice a i (i + n)).length)
                (j + (slice a i (i + n)).length) := by
              rw [hlength]
              exact hcovers.placed
            have hold : i + n + hunk.oldCount = i' := by
              rw [hcovers.placed.1, hcovers.lines, length_slice hcovers.old.2,
                Nat.add_sub_of_le hcovers.old.1]
            have hnew : j + n + hunk.newCount = j' := by
              rw [hcovers.placed.2.1, hcovers.become, length_slice hcovers.new.2,
                Nat.add_sub_of_le hcovers.new.1]
            have hlines : a.drop i = slice a i (i + n) ++ source hunk.body ++ a.drop i' := by
              rw [hcovers.lines, slice_append (Nat.le_add_right i n) hcovers.old.1,
                slice_append_drop ((Nat.le_add_right i n).trans hcovers.old.1)]
            rw [hlines, applyHunks_cons hplaced, hlength, hold, hnew, happly, hkept,
              hcovers.become]
            refine congrArg some ?_
            show slice b j (j + n) ++ slice b (j + n) j' ++ b.drop j' = b.drop j
            rw [slice_append (Nat.le_add_right j n) hcovers.new.1,
              slice_append_drop ((Nat.le_add_right j n).trans hcovers.new.1)]
          · rw [List.flatMap_cons, List.countP_append, hdeletes, hdeletes', ← List.cons_append,
              deletionsOf_append]
          · rw [List.flatMap_cons, List.countP_append, hinserts, hinserts', ← List.cons_append,
              additionsOf_append]

end

end OmniRush.Server.TurnDiff
