import OmniRush.Proofs.TurnIds

/-!
# The marks leave a matching

However a file's lines are matched, by the exact search, by the greedy pass or not at all, the
lines that stay unmarked are the same on both sides, in order (`markChanges_spec`).
-/

namespace OmniRush.Server.TurnDiff

open Myers

/-! ## Unmarked lines -/

section

variable {α : Type}

/-- The lines from an index on that are not marked. -/
def unmarked (mask : Nat → Bool) : Nat → List α → List α
  | _, [] => []
  | i, line :: rest =>
      if mask i then unmarked mask (i + 1) rest else line :: unmarked mask (i + 1) rest

variable {mask mask' : Nat → Bool} {i : Nat} {a b : List α}

theorem unmarked_append :
    unmarked mask i (a ++ b) = unmarked mask i a ++ unmarked mask (i + a.length) b := by
  induction a generalizing i with
  | nil => rfl
  | cons line a ih =>
      rw [List.cons_append, unmarked, unmarked, ih, List.length_cons, Nat.add_right_comm,
        Nat.add_assoc]
      split <;> rfl

theorem unmarked_congr (h : ∀ j, i ≤ j → j < i + a.length → mask j = mask' j) :
    unmarked mask i a = unmarked mask' i a := by
  induction a generalizing i with
  | nil => rfl
  | cons line a ih =>
      rw [List.length_cons] at h
      rw [unmarked, unmarked, h i (Nat.le_refl i) (by omega),
        ih fun j hle hlt => h j (by omega) (by omega)]

theorem unmarked_none (h : ∀ j, i ≤ j → j < i + a.length → mask j = false) :
    unmarked mask i a = a := by
  induction a generalizing i with
  | nil => rfl
  | cons line a ih =>
      rw [List.length_cons] at h
      rw [unmarked, h i (Nat.le_refl i) (by omega), ih fun j hle hlt => h j (by omega) (by omega)]
      rfl

theorem unmarked_all (h : ∀ j, i ≤ j → j < i + a.length → mask j = true) :
    unmarked mask i a = [] := by
  induction a generalizing i with
  | nil => rfl
  | cons line a ih =>
      rw [List.length_cons] at h
      rw [unmarked, h i (Nat.le_refl i) (by omega), ih fun j hle hlt => h j (by omega) (by omega)]
      rfl

end

theorem fill_of_mem {mask : Nat → Bool} {start stop i : Nat} (hle : start ≤ i) (hlt : i < stop) :
    fill mask start stop i = true := by
  simp [fill, hle, hlt]

theorem fill_of_not_mem {mask : Nat → Bool} {start stop i : Nat} (h : i < start ∨ stop ≤ i) :
    fill mask start stop i = mask i := by
  have hnot : (decide (start ≤ i) && decide (i < stop)) = false := by
    simp only [Bool.and_eq_false_iff, decide_eq_false_iff_not]
    omega
  rw [fill, hnot, Bool.false_or]

/-! ## The exact search -/

section

variable {keys : Side → List String} {ids : LineIds} {v : List Nat} {max d left : Nat} {k : Int}

theorem exactRound_spec (budget : Int) (work : Nat)
    (h : Round (keys .a) (keys .b) max (max + 1) d k v)
    (hids : Sound keys ids) (hd : d ≤ max) (hk : k = d + 2 - 2 * left) (hleft : left ≤ d + 1) :
    let result := exactRound keys (keys .a).length (keys .b).length (max + 1) d budget left k v
      work ids
    Sound keys result.2.2.2 ∧ (result.1 = .found →
      ∃ k x, Furthest (keys .a) (keys .b) d k x ∧ AtEnd (keys .a) (keys .b) k x) ∧
      (result.1 = .next → Round (keys .a) (keys .b) max (max + 1) d (d + 2) result.2.1) := by
  induction left generalizing k v work ids with
  | zero =>
      have hlast : k = d + 2 := by omega
      subst hlast
      exact ⟨hids, fun hfound => (by cases hfound), fun _ => h⟩
  | succ left ih =>
      obtain ⟨hx, hids'⟩ := slide_spec (y := (enter v (max + 1) d k - k).toNat) hids
        (Nat.le_add_left (keys .a).length (enter v (max + 1) d k))
      rw [exactRound]
      dsimp only
      rw [hx]
      split
      · next hfound =>
          refine ⟨hids', fun _ => ⟨k, _, ?_, hfound⟩, fun hnext => by cases hnext⟩
          exact advance_furthest h.prior (by omega) (by omega) (by omega)
      · next hnot =>
          split
          · exact ⟨hids', fun hfound => (by cases hfound), fun hnext => by cases hnext⟩
          · exact ih _ (h.next hd (by omega) (by omega) (by omega) hnot) hids' (by omega) (by omega)

theorem exactRounds_spec (budget : Int) (work : Nat) {trace : List (List Nat)}
    (hlength : v.length = 2 * max + 3) (hprior : Prior (keys .a) (keys .b) v (max + 1) d)
    (htraced : Traced (keys .a) (keys .b) trace) (hids : Sound keys ids) (hd : trace.length = d)
    (hless : ∀ d' < d, ¬ EditPath (keys .a) (keys .b) d' (keys .a).length (keys .b).length)
    (hleft : d + left = max + 1) :
    let result := exactRounds keys (keys .a).length (keys .b).length (max + 1) budget left d v trace
      work ids
    Sound keys result.2.2 ∧ ∀ trace, result.1 = some trace → Traced (keys .a) (keys .b) trace ∧
      0 < trace.length ∧ Furthest (keys .a) (keys .b) (trace.length - 1)
        ((keys .a).length - (keys .b).length) (keys .a).length := by
  induction left generalizing d v trace work ids with
  | zero => exact ⟨hids, nofun⟩
  | succ left ih =>
      have hpush := htraced.push hd hprior (by omega : d + 1 ≤ max + 1)
      obtain ⟨hids', hfound, hnext⟩ := exactRound_spec budget work
        (Round.start hlength hprior) hids (by omega : d ≤ max)
        (by omega : (-d : Int) = d + 2 - 2 * (d + 1 : Nat)) (Nat.le_refl _)
      rw [exactRounds]
      dsimp only
      generalize exactRound keys _ _ (max + 1) d budget (d + 1) (-d) v work ids = result at *
      obtain ⟨roundEnd, v', work', ids'⟩ := result
      cases roundEnd with
      | found =>
          obtain ⟨k, x, hfurthest, hx, hy⟩ := hfound rfl
          obtain ⟨rfl, rfl, -⟩ := hfurthest.finish hx hy hless
          refine ⟨hids', fun trace' htrace => ?_⟩
          cases htrace
          rw [List.length_append, List.length_singleton, hd]
          exact ⟨hpush, Nat.succ_pos _, hfurthest⟩
      | spent => exact ⟨hids', nofun⟩
      | next =>
          have hround := hnext rfl
          refine ih _ hround.length hround.known hpush hids' (by simp [hd]) (fun d' hd' => ?_)
            (by omega)
          rcases Nat.lt_or_eq_of_le (Nat.le_of_lt_succ hd') with hlt | rfl
          · exact hless d' hlt
          · exact hround.not_reach

end

/-! ## Marks -/

/-- The marks within a stretch of each side leave the same lines there, and those elsewhere are as
they were. -/
structure Matches (a b : List String) (masks masks' : Masks) (i j : Nat) : Prop where
  same : unmarked masks'.removed i a = unmarked masks'.added j b
  removed : ∀ r, r < i ∨ i + a.length ≤ r → masks'.removed r = masks.removed r
  added : ∀ r, r < j ∨ j + b.length ≤ r → masks'.added r = masks.added r

/-- None of the lines of a stretch is marked yet. -/
structure Clean (masks : Masks) (i n j m : Nat) : Prop where
  removed : ∀ r, i ≤ r → r < i + n → masks.removed r = false
  added : ∀ r, j ≤ r → r < j + m → masks.added r = false

section

variable {a b a₁ a₂ b₁ b₂ : List String} {masks masks₁ masks' : Masks}
  {offset d x y i j n m : Nat}

theorem Matches.append (h : Matches a₁ b₁ masks₁ masks' i j)
    (hsame : unmarked masks₁.removed (i + a₁.length) a₂ =
      unmarked masks₁.added (j + b₁.length) b₂)
    (hremoved : ∀ r, r < i ∨ i + (a₁ ++ a₂).length ≤ r → masks₁.removed r = masks.removed r)
    (hadded : ∀ r, r < j ∨ j + (b₁ ++ b₂).length ≤ r → masks₁.added r = masks.added r) :
    Matches (a₁ ++ a₂) (b₁ ++ b₂) masks masks' i j := by
  rw [List.length_append] at hremoved hadded
  refine ⟨?_, fun r hr => ?_, fun r hr => ?_⟩
  · rw [unmarked_append, unmarked_append, h.same,
      unmarked_congr fun r hle _ => h.removed r (.inr hle),
      unmarked_congr fun r hle _ => h.added r (.inr hle), hsame]
  · rw [List.length_append] at hr
    rw [h.removed r (by omega), hremoved r hr]
  · rw [List.length_append] at hr
    rw [h.added r (by omega), hadded r hr]

theorem Matches.prepend (a₁ b₁ : List String)
    (h : Matches a₂ b₂ masks₁ masks' (i + a₁.length) (j + b₁.length))
    (hsame : unmarked masks₁.removed i a₁ = unmarked masks₁.added j b₁)
    (hremoved : ∀ r, r < i ∨ i + (a₁ ++ a₂).length ≤ r → masks₁.removed r = masks.removed r)
    (hadded : ∀ r, r < j ∨ j + (b₁ ++ b₂).length ≤ r → masks₁.added r = masks.added r) :
    Matches (a₁ ++ a₂) (b₁ ++ b₂) masks masks' i j := by
  rw [List.length_append] at hremoved hadded
  refine ⟨?_, fun r hr => ?_, fun r hr => ?_⟩
  · rw [unmarked_append, unmarked_append, h.same,
      unmarked_congr fun r _ hlt => h.removed r (.inl hlt),
      unmarked_congr fun r _ hlt => h.added r (.inl hlt), hsame]
  · rw [List.length_append] at hr
    rw [h.removed r (by omega), hremoved r hr]
  · rw [List.length_append] at hr
    rw [h.added r (by omega), hadded r hr]

theorem backtrack_spec {trace : List (List Nat)} (htraced : Traced a b trace)
    (hd : d < trace.length) (h : Furthest a b d (x - y) x) (hx : x ≤ a.length)
    (hy : y ≤ b.length) (hclean : Clean masks offset x offset y) :
    Matches (a.take x) (b.take y) masks (backtrack trace offset d x y masks) offset offset := by
  induction d generalizing x y masks with
  | zero =>
      obtain ⟨rights, downs, hedits, hdiagonal⟩ := h.reach.diagonal_eq
      obtain rfl : x = y := by omega
      rw [Int.sub_self] at h
      have hcommon : x = commonLength a b := h.unique furthest_zero
      refine ⟨?_, fun _ _ => rfl, fun _ _ => rfl⟩
      rw [backtrack, unmarked_none fun r hle hlt => hclean.removed r hle ?_,
        unmarked_none fun r hle hlt => hclean.added r hle ?_, hcommon, commonLength_take]
      · rwa [List.length_take_of_le hy] at hlt
      · rwa [List.length_take_of_le hx] at hlt
  | succ d ih =>
      have hknown := htraced d hd
      rw [backtrack]
      generalize (fun diagonal : Int =>
        valueAt (trace.getD (d + 1) []) (diagonal + (d + 1 : Nat) + 1)) = value at hknown ⊢
      generalize hk : (x : Int) - y = k
      cases hdown : isDown (d + 1) k (value (k - 1)) (value (k + 1)) with
      | true =>
          obtain ⟨y', n, hprevY, hprior, rfl, rfl, hcommon⟩ := back_down hknown h hk hdown
          rw [if_pos rfl, if_pos rfl, hprevY]
          generalize value (k + 1) = prevX at *
          obtain ⟨c, hc⟩ : ∃ c, b[y']? = some c := ⟨_, List.getElem?_eq_getElem (by omega)⟩
          have hsplit : b.take (y' + 1 + n) = b.take y' ++ c :: (b.drop (y' + 1)).take n := by
            rw [List.take_add (i := y' + 1), take_succ_of_getElem? hc, List.append_assoc]
            rfl
          have hprevLength : (a.take prevX).length = prevX := List.length_take_of_le (by omega)
          have hlengthY : (b.take y').length = y' := List.length_take_of_le (by omega)
          rw [List.take_add, hsplit]
          have hclean' : Clean ⟨masks.removed, fill masks.added (offset + y') (offset + y' + 1)⟩
              offset prevX offset y' :=
            ⟨fun r hle hlt => hclean.removed r hle (by omega), fun r hle hlt =>
              (fill_of_not_mem (.inl hlt)).trans (hclean.added r hle (by omega))⟩
          refine (ih (by omega) hprior (by omega) (by omega) hclean').append ?_ (fun _ _ => rfl)
            fun r hr => ?_
          · have hmark : fill masks.added (offset + y') (offset + y' + 1) (offset + y') = true :=
              fill_of_mem (Nat.le_refl _) (Nat.lt_succ_self _)
            dsimp only
            rw [hprevLength, hlengthY, unmarked, hmark, if_pos rfl,
              unmarked_none fun r hle hlt => hclean.removed r (by omega) ?_,
              unmarked_none fun r hle hlt =>
                (fill_of_not_mem (.inr hle)).trans (hclean.added r (by omega) ?_)]
            · exact hcommon
            · have hle := List.length_take_le n (b.drop (y' + 1))
              omega
            · have hle := List.length_take_le n (a.drop prevX)
              omega
          · refine fill_of_not_mem ?_
            rw [List.length_append, hlengthY, List.length_cons] at hr
            omega
      | false =>
          obtain ⟨y', n, hprevY, hprior, rfl, rfl, hcommon⟩ := back_right hknown h hk hdown
          rw [if_neg Bool.false_ne_true, if_neg Bool.false_ne_true, hprevY]
          generalize value (k - 1) = prevX at *
          obtain ⟨c, hc⟩ : ∃ c, a[prevX]? = some c := ⟨_, List.getElem?_eq_getElem (by omega)⟩
          have hsplit : a.take (prevX + 1 + n) =
              a.take prevX ++ c :: (a.drop (prevX + 1)).take n := by
            rw [List.take_add (i := prevX + 1), take_succ_of_getElem? hc, List.append_assoc]
            rfl
          have hprevLength : (a.take prevX).length = prevX := List.length_take_of_le (by omega)
          have hlengthY : (b.take y').length = y' := List.length_take_of_le (by omega)
          rw [List.take_add (l := b), hsplit]
          have hclean' : Clean ⟨fill masks.removed (offset + prevX) (offset + prevX + 1),
              masks.added⟩ offset prevX offset y' :=
            ⟨fun r hle hlt => (fill_of_not_mem (.inl hlt)).trans (hclean.removed r hle (by omega)),
              fun r hle hlt => hclean.added r hle (by omega)⟩
          refine (ih (by omega) hprior (by omega) (by omega) hclean').append ?_ (fun r hr => ?_)
            fun _ _ => rfl
          · have hmark : fill masks.removed (offset + prevX) (offset + prevX + 1)
                (offset + prevX) = true :=
              fill_of_mem (Nat.le_refl _) (Nat.lt_succ_self _)
            dsimp only
            rw [hprevLength, hlengthY, unmarked, hmark, if_pos rfl,
              unmarked_none fun r hle hlt =>
                (fill_of_not_mem (.inr hle)).trans (hclean.removed r (by omega) ?_),
              unmarked_none fun r hle hlt => hclean.added r (by omega) ?_]
            · exact hcommon
            · have hle := List.length_take_le n (b.drop y')
              omega
            · have hle := List.length_take_le n (a.drop (prevX + 1))
              omega
          · refine fill_of_not_mem ?_
            rw [List.length_append, hprevLength, List.length_cons] at hr
            omega

end

/-! ## The greedy pass -/

section

variable {keys : Side → List String} {ids : LineIds} {masks : Masks} {i j offset fuel : Nat}
  {budget : Int}

theorem lineUp_spec (offsets : List (Nat × Nat)) (work : Nat) (hids : Sound keys ids) :
    let result := lineUp keys (keys .a).length (keys .b).length i j offsets work ids
    Sound keys result.2.2 ∧ ∀ skip, result.1 = some skip →
      i + skip.1 < (keys .a).length ∧ j + skip.2 < (keys .b).length := by
  induction offsets generalizing work ids with
  | nil => exact ⟨hids, nofun⟩
  | cons offset offsets ih =>
      obtain ⟨skipA, skipB⟩ := offset
      rw [lineUp]
      split
      · next hin =>
          obtain ⟨hids', -⟩ := same_spec hids hin.1 hin.2
          dsimp only
          split
          · refine ⟨hids', fun skip hskip => ?_⟩
            cases hskip
            exact hin
          · exact ih (work + 1) hids'
      · exact ih (work + 1) hids

theorem fill_rest (hi : i ≤ (keys .a).length) (hj : j ≤ (keys .b).length) :
    Matches ((keys .a).drop i) ((keys .b).drop j) masks
      ⟨fill masks.removed (offset + i) (offset + (keys .a).length),
        fill masks.added (offset + j) (offset + (keys .b).length)⟩ (offset + i) (offset + j) := by
  refine ⟨?_, fun r hr => fill_of_not_mem ?_, fun r hr => fill_of_not_mem ?_⟩
  · rw [unmarked_all fun r hle hlt => fill_of_mem hle ?_,
      unmarked_all fun r hle hlt => fill_of_mem hle ?_]
    · rw [List.length_drop] at hlt
      omega
    · rw [List.length_drop] at hlt
      omega
  · rw [List.length_drop] at hr
    omega
  · rw [List.length_drop] at hr
    omega

theorem Clean.later {i' j' n m n' m' : Nat} (h : Clean masks i n j m) (hi : i ≤ i')
    (hj : j ≤ j') (hn : i' + n' ≤ i + n) (hm : j' + m' ≤ j + m) : Clean masks i' n' j' m' :=
  ⟨fun r hle hlt => h.removed r (by omega) (by omega),
    fun r hle hlt => h.added r (by omega) (by omega)⟩

/-- A stretch of each side is marked, up to the next lines that are the same. -/
theorem skip_spec {skipA skipB : Nat} {masks' : Masks} (hA : i + skipA ≤ (keys .a).length)
    (hB : j + skipB ≤ (keys .b).length)
    (h : Matches ((keys .a).drop (i + skipA)) ((keys .b).drop (j + skipB))
      ⟨fill masks.removed (offset + i) (offset + i + skipA),
        fill masks.added (offset + j) (offset + j + skipB)⟩ masks' (offset + (i + skipA))
      (offset + (j + skipB))) :
    Matches ((keys .a).drop i) ((keys .b).drop j) masks masks' (offset + i) (offset + j) := by
  have hlengthA : (((keys .a).drop i).take skipA).length = skipA :=
    List.length_take_of_le (by rw [List.length_drop]; omega)
  have hlengthB : (((keys .b).drop j).take skipB).length = skipB :=
    List.length_take_of_le (by rw [List.length_drop]; omega)
  rw [← List.take_append_drop skipA ((keys .a).drop i),
    ← List.take_append_drop skipB ((keys .b).drop j), List.drop_drop, List.drop_drop]
  refine Matches.prepend _ _ (by rwa [hlengthA, hlengthB, Nat.add_assoc, Nat.add_assoc]) ?_
    (fun r hr => fill_of_not_mem ?_) fun r hr => fill_of_not_mem ?_
  · rw [unmarked_all fun r hle hlt => fill_of_mem hle (by omega),
      unmarked_all fun r hle hlt => fill_of_mem hle (by omega)]
  · rw [List.length_append, hlengthA] at hr
    omega
  · rw [List.length_append, hlengthB] at hr
    omega

theorem drop_eq_cons {α : Type} {list : List α} {c : α} (h : list[i]? = some c) :
    list.drop i = [c] ++ list.drop (i + 1) := by
  obtain ⟨hlt, rfl⟩ := List.getElem?_eq_some_iff.mp h
  exact List.drop_eq_getElem_cons hlt

theorem greedy_spec (work : Nat) (hids : Sound keys ids) (hi : i ≤ (keys .a).length)
    (hj : j ≤ (keys .b).length)
    (hclean : Clean masks (offset + i) ((keys .a).length - i) (offset + j)
      ((keys .b).length - j)) :
    Matches ((keys .a).drop i) ((keys .b).drop j) masks
      (greedy keys (keys .a).length (keys .b).length offset budget fuel i j work ids masks)
      (offset + i) (offset + j) := by
  induction fuel generalizing i j work ids masks with
  | zero => exact fill_rest hi hj
  | succ fuel ih =>
      rw [greedy]
      split
      · next hin =>
          obtain ⟨hids', hsame⟩ := same_spec hids hin.1 hin.2.1
          dsimp only
          split
          · next hequal =>
              obtain ⟨c, hc, hc'⟩ := hsame.mp hequal
              have hrest := ih (work + 1) hids' hin.1 hin.2.1
                (hclean.later (Nat.le_succ _) (Nat.le_succ _) (by omega) (by omega))
              rw [drop_eq_cons hc, drop_eq_cons hc']
              refine Matches.prepend [c] [c] hrest ?_ (fun _ _ => rfl) fun _ _ => rfl
              rw [unmarked_none fun r hle hlt => hclean.removed r hle ?_,
                unmarked_none fun r hle hlt => hclean.added r hle ?_]
              · rw [List.length_singleton] at hlt
                omega
              · rw [List.length_singleton] at hlt
                omega
          · obtain ⟨hids'', hskip⟩ := lineUp_spec (i := i) (j := j) windowOffsets (work + 1) hids'
            generalize lineUp keys _ _ i j windowOffsets (work + 1) _ = result at *
            obtain ⟨found, work', ids'⟩ := result
            dsimp only at hids'' hskip ⊢
            have hle : i + (found.getD (1, 1)).1 ≤ (keys .a).length ∧
                j + (found.getD (1, 1)).2 ≤ (keys .b).length := by
              cases found with
              | none => exact ⟨hin.1, hin.2.1⟩
              | some skip => exact ⟨(hskip skip rfl).1.le, (hskip skip rfl).2.le⟩
            refine skip_spec hle.1 hle.2 (ih _ hids'' hle.1 hle.2 ⟨fun r hlow hhigh => ?_,
              fun r hlow hhigh => ?_⟩)
            · exact (fill_of_not_mem (.inr (by omega))).trans
                (hclean.removed r (by omega) (by omega))
            · exact (fill_of_not_mem (.inr (by omega))).trans
                (hclean.added r (by omega) (by omega))
      · exact fill_rest hi hj

end

/-- Whatever the budget, the lines that stay unmarked are the same on both sides. -/
theorem markChanges_spec (keys : Side → List String) (offset : Nat) (budget : Int) :
    Matches (keys .a) (keys .b) .zero
      (markChanges keys (keys .a).length (keys .b).length .zero offset budget) offset offset := by
  unfold markChanges
  split
  · exact fill_rest (i := 0) (j := 0) (Nat.zero_le _) (Nat.zero_le _)
  · have hzero := prior_zero (a := keys .a) (b := keys .b)
      (2 * min ((keys .a).length + (keys .b).length) maxEditDistance + 3)
      (min ((keys .a).length + (keys .b).length) maxEditDistance + 1)
    obtain ⟨hids, htrace⟩ := exactRounds_spec budget 0 List.length_replicate hzero
      traced_nil (sound_empty keys) rfl (fun d' hlt => by omega) (Nat.zero_add _)
    dsimp only
    generalize exactRounds keys _ _ _ budget _ 0 _ [] 0 .empty = result at *
    obtain ⟨trace, work, ids⟩ := result
    have hclean : ∀ n m, Clean .zero offset n offset m :=
      fun n m => ⟨fun _ _ _ => rfl, fun _ _ _ => rfl⟩
    cases trace with
    | none =>
        exact greedy_spec 0 hids (Nat.zero_le _) (Nat.zero_le _) (hclean _ _)
    | some trace =>
        obtain ⟨htraced, hpos, hfurthest⟩ := htrace trace rfl
        have hback := backtrack_spec htraced (Nat.sub_lt hpos Nat.one_pos) hfurthest
          (Nat.le_refl _) (Nat.le_refl _) (hclean _ _)
        rwa [List.take_length, List.take_length] at hback

end OmniRush.Server.TurnDiff
