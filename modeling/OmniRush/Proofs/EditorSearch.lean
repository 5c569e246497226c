import OmniRush.Server.EditorDiff

/-!
# The search finds the distance

A round that does not find the end leaves the array for the next one (`round_spec`), so the round
that finds it is the distance (`rounds_spec`), and the slices kept lead back along furthest points,
one edit a round (`walkBack_script`).
-/

namespace OmniRush.Server

open Myers

variable {α : Type} [DecidableEq α] {a b : List α} {v : List Nat} {max d left : Nat} {k : Int}

/-- A round finds the end on a diagonal, or leaves the array for the next one. -/
theorem round_spec (h : Round a b max (max + 1) d k v) (hd : d ≤ max) (hk : k = d + 2 - 2 * left)
    (hleft : left ≤ d + 1) :
    if (round a b (max + 1) d left k v).2 then ∃ k x, Furthest a b d k x ∧ AtEnd a b k x
    else Round a b max (max + 1) d (d + 2) (round a b (max + 1) d left k v).1 := by
  induction left generalizing k v with
  | zero =>
      have hlast : k = d + 2 := by omega
      subst hlast
      simpa [round] using h
  | succ left ih =>
      rw [round]
      split
      · next hfound =>
          rw [if_pos rfl]
          exact ⟨k, _, advance_furthest h.prior (by omega) (by omega) (by omega), hfound⟩
      · next hnot =>
          exact ih (h.next hd (by omega) (by omega) (by omega) hnot) (by omega) (by omega)

/-- The rounds end with the first one that reaches the end, or after the last one. -/
theorem rounds_spec {trace : List (List Nat)} (hlength : v.length = 2 * max + 3)
    (hprior : Prior a b v (max + 1) d) (htraced : Traced a b trace) (hd : trace.length = d)
    (hless : ∀ d' < d, ¬ EditPath a b d' a.length b.length) (hleft : d + left = max + 1) :
    match rounds a b (max + 1) left d v trace with
    | none => ∀ d' ≤ max, ¬ EditPath a b d' a.length b.length
    | some (found, trace) => found ≤ max ∧ Furthest a b found (a.length - b.length) a.length ∧
        (∀ d' < found, ¬ EditPath a b d' a.length b.length) ∧ Traced a b trace ∧
        trace.length = found + 1 := by
  induction left generalizing d v trace with
  | zero => exact fun d' hd' => hless d' (by omega)
  | succ left ih =>
      have hpush := htraced.push hd hprior (by omega : d + 1 ≤ max + 1)
      have hround := round_spec (Round.start hlength hprior) (by omega : d ≤ max)
        (by omega : (-d : Int) = d + 2 - 2 * (d + 1 : Nat)) (Nat.le_refl _)
      rw [rounds]
      dsimp only
      generalize round a b (max + 1) d (d + 1) (-d) v = result at hround ⊢
      obtain ⟨v', found⟩ := result
      cases found with
      | true =>
          obtain ⟨k, x, hfurthest, hx, hy⟩ := hround
          obtain ⟨rfl, rfl, -⟩ := hfurthest.finish hx hy hless
          exact ⟨by omega, hfurthest, hless, hpush, by simp [hd]⟩
      | false =>
          have hnext : Round a b max (max + 1) d (d + 2) v' := hround
          refine ih hnext.length hnext.known hpush (by simp [hd]) (fun d' hd' => ?_) (by omega)
          rcases Nat.lt_or_eq_of_le (Nat.le_of_lt_succ hd') with hlt | rfl
          · exact hless d' hlt
          · exact hnext.not_reach

/-! ## The way back -/

omit [DecidableEq α] in
theorem keepBack_spec {lowX lowY x y n : Nat} (ops : List (Edit α))
    (hlow : lowX = x ∧ lowY ≤ y ∨ lowY = y ∧ lowX ≤ x) (ha : x + n ≤ a.length) :
    keepBack a lowX lowY (x + n) (y + n) ops =
      (x, y, ((a.drop x).take n).map Edit.keep ++ ops) := by
  induction n generalizing ops with
  | zero =>
      cases x with
      | zero => rfl
      | succ x =>
          cases y with
          | zero => rfl
          | succ y =>
              show keepBack a lowX lowY (x + 1) (y + 1) ops = _
              rw [keepBack, if_neg (by omega)]
              rfl
  | succ n ih =>
      obtain ⟨c, hc⟩ : ∃ c, a[x + n]? = some c := ⟨_, List.getElem?_eq_getElem ha⟩
      show keepBack a lowX lowY (x + n + 1) (y + n + 1) ops = _
      rw [keepBack, if_pos (by omega), hc, ih _ (by omega),
        take_succ_of_getElem? (List.getElem?_drop.trans hc), List.map_append, List.append_assoc]
      rfl

/-- Back from a furthest point, the steps are a script of as many edits as there were rounds. -/
theorem walkBack_script {trace : List (List Nat)} {x y : Nat} (htraced : Traced a b trace)
    (hd : d < trace.length) (h : Furthest a b d (x - y) x) (hx : x ≤ a.length)
    (hy : y ≤ b.length) (ops : List (Edit α)) :
    ∃ s, walkBack a b trace d x y ops = s ++ ops ∧ Script.source s = a.take x ∧
      Script.target s = b.take y ∧ Script.edits s = d := by
  induction d generalizing x y ops with
  | zero =>
      obtain ⟨rights, downs, hedits, hdiagonal⟩ := h.reach.diagonal_eq
      obtain rfl : x = y := by omega
      have hcommon : x = commonLength a b := by
        rw [Int.sub_self] at h
        exact h.unique furthest_zero
      have hback : keepBack a 0 0 x x ops = (0, 0, (a.take x).map Edit.keep ++ ops) := by
        simpa using keepBack_spec (x := 0) (y := 0) ops (.inl ⟨rfl, Nat.le_refl _⟩) (by omega)
      refine ⟨(a.take x).map Edit.keep, by rw [walkBack, hback], Script.source_map_keep, ?_,
        Script.edits_map_keep⟩
      rw [Script.target_map_keep, hcommon, commonLength_take]
  | succ d ih =>
      have hknown := htraced d hd
      rw [walkBack]
      generalize (fun diagonal : Int =>
        valueAt (trace.getD (d + 1) []) (diagonal + (d + 1 : Nat) + 1)) = value at hknown ⊢
      generalize hk : (x : Int) - y = k
      cases hdown : isDown (d + 1) k (value (k - 1)) (value (k + 1)) with
      | true =>
          obtain ⟨y', n, hprevY, hprior, rfl, rfl, hcommon⟩ := back_down hknown h hk hdown
          rw [if_pos rfl, hprevY]
          generalize value (k + 1) = prevX at *
          obtain ⟨c, hc⟩ : ∃ c, b[y']? = some c := ⟨_, List.getElem?_eq_getElem (by omega)⟩
          rw [keepBack_spec ops (.inl ⟨rfl, by omega⟩) hx]
          dsimp only
          rw [if_pos rfl, Nat.add_sub_cancel, hc]
          obtain ⟨s, hwalk, hsource, htarget, hcount⟩ := ih (by omega) hprior (by omega) (by omega)
            ((some (Edit.insert c)).toList ++ (((a.drop prevX).take n).map Edit.keep ++ ops))
          refine ⟨s ++ .insert c :: ((a.drop prevX).take n).map Edit.keep, ?_, ?_, ?_, ?_⟩
          · rw [Option.map_some, hwalk]
            simp
          · rw [Script.source_append, hsource, Script.source_insert, Script.source_map_keep,
              List.take_add]
          · rw [Script.target_append, htarget, Script.target_insert, Script.target_map_keep,
              hcommon, List.take_add (i := y' + 1), take_succ_of_getElem? hc, List.append_assoc]
            rfl
          · rw [Script.edits_append, hcount, Script.edits_insert, Script.edits_map_keep]
      | false =>
          obtain ⟨y', n, hprevY, hprior, rfl, rfl, hcommon⟩ := back_right hknown h hk hdown
          rw [if_neg Bool.false_ne_true, hprevY]
          generalize value (k - 1) = prevX at *
          obtain ⟨c, hc⟩ : ∃ c, a[prevX]? = some c := ⟨_, List.getElem?_eq_getElem (by omega)⟩
          rw [keepBack_spec ops (.inr ⟨rfl, by omega⟩) hx]
          dsimp only
          rw [if_neg (by omega), Nat.add_sub_cancel, hc]
          obtain ⟨s, hwalk, hsource, htarget, hcount⟩ := ih (by omega) hprior (by omega) (by omega)
            ((some (Edit.delete c)).toList ++
              (((a.drop (prevX + 1)).take n).map Edit.keep ++ ops))
          refine ⟨s ++ .delete c :: ((a.drop (prevX + 1)).take n).map Edit.keep, ?_, ?_, ?_, ?_⟩
          · rw [Option.map_some, hwalk]
            simp
          · rw [Script.source_append, hsource, Script.source_delete, Script.source_map_keep,
              List.take_add (i := prevX + 1), take_succ_of_getElem? hc, List.append_assoc]
            rfl
          · rw [Script.target_append, htarget, Script.target_delete, Script.target_map_keep,
              hcommon, List.take_add]
          · rw [Script.edits_append, hcount, Script.edits_delete, Script.edits_map_keep]

/-- The search gives a shortest script, or none of the scripts is short enough. -/
theorem myers_spec (a b : List α) (maxEdits : Nat) : ∃ d, Script.IsDistance a b d ∧
    match myers a b maxEdits with
    | none => maxEdits < d
    | some s => d ≤ maxEdits ∧ Script.source s = a ∧ Script.target s = b ∧ Script.edits s = d := by
  obtain ⟨d, hleast⟩ := exists_reach_least a b
  refine ⟨d, isDistance_iff.mpr hleast, ?_⟩
  have hsum : d ≤ a.length + b.length := hleast.2 (reach_sum a b)
  have hzero := prior_zero (a := a) (b := b)
    (2 * min (a.length + b.length) maxEdits + 3) (min (a.length + b.length) maxEdits + 1)
  have hrounds := rounds_spec List.length_replicate hzero traced_nil rfl
    (fun d' hlt => by omega) (Nat.zero_add _)
  unfold myers
  dsimp only
  generalize rounds a b _ _ _ _ _ = result at hrounds ⊢
  match result with
  | none =>
      have hmax : min (a.length + b.length) maxEdits < d :=
        Nat.lt_of_not_le fun hle => hrounds d hle hleast.1
      show maxEdits < d
      omega
  | some (found, trace) =>
      obtain ⟨hle, hfurthest, hless, htraced, hlength⟩ := hrounds
      have hfound : found = d := by
        refine Nat.le_antisymm (Nat.le_of_not_lt fun hlt => hless d hlt hleast.1) ?_
        exact hleast.2 hfurthest.reach
      subst hfound
      obtain ⟨s, hwalk, hsource, htarget, hedits⟩ := walkBack_script htraced (by omega) hfurthest
        (Nat.le_refl _) (Nat.le_refl _) []
      rw [List.append_nil] at hwalk
      rw [List.take_length] at hsource htarget
      rw [Option.map_some, hwalk]
      exact ⟨by omega, hsource, htarget, hedits⟩

end OmniRush.Server
