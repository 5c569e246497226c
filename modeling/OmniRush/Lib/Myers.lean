import OmniRush.Lib.Furthest

/-!
# The furthest points in an array

Round `d` of the search for a shortest script works on an array with a value for each diagonal,
at an offset from its middle. After it the array has the furthest points of `d` edits on the
diagonals of that parity, and still those of the round before on the others (`Round`). What a
round reads is kept as a slice, and the slices lead back from the end, one edit a round
(`back_down`, `back_right`).
-/

namespace OmniRush.Myers

section

variable {α : Type} [DecidableEq α]

/-- The value at an index of an array of 32-bit numbers. -/
def valueAt (v : List Nat) (index : Int) : Nat := v.getD index.toNat 0

/-- Whether the diagonal is entered from the one above it, by an insertion. -/
def isDown (d : Nat) (k : Int) (before after : Nat) : Bool := k = -d || (k ≠ d && before < after)

/-- Where round `d` comes onto a diagonal. -/
def enter (v : List Nat) (offset d : Nat) (k : Int) : Nat :=
  let before := valueAt v (offset + k - 1)
  let after := valueAt v (offset + k + 1)
  if isDown d k before after then after else before + 1

/-- Where it gets to there. -/
def advance (a b : List α) (v : List Nat) (offset d : Nat) (k : Int) : Nat :=
  let x := enter v offset d k
  x + commonLength (a.drop x) (b.drop (x - k).toNat)

end

variable {α : Type} {a b : List α} {v : List Nat} {max offset d : Nat} {k : Int}

theorem valueAt_set {i j : Int} {x : Nat} (hi : 0 ≤ i) (hj : 0 ≤ j) (hlt : i < v.length) :
    valueAt (v.set i.toNat x) j = if i = j then x else valueAt v j := by
  unfold valueAt
  rw [List.getD_eq_getElem?_getD, List.getD_eq_getElem?_getD, List.getElem?_set]
  by_cases h : i = j
  · subst h
    rw [if_pos rfl, if_pos (by omega), if_pos rfl]
    rfl
  · rw [if_neg (by omega), if_neg h]

/-- What a round reads: the points of the round before, and at first a zero. -/
def Prior (a b : List α) (v : List Nat) (offset : Nat) : Nat → Prop
  | 0 => valueAt v (offset + 1) = 0
  | d + 1 => Known a b d fun k => valueAt v (offset + k)

/-! ## A round -/

/-- The point of a diagonal is past both ends. -/
def AtEnd (a b : List α) (k : Int) (x : Nat) : Prop := a.length ≤ x ∧ (b.length : Int) ≤ x - k

/-- In round `d`, before the diagonal `k`: the diagonals before it have their points of the round,
none of them at the end. -/
structure Round (a b : List α) (max offset d : Nat) (k : Int) (v : List Nat) : Prop where
  length : v.length = 2 * max + 3
  prior : Prior a b v offset d
  passed : ∀ k', -(d : Int) ≤ k' → k' ≤ d → (k' + d) % 2 = 0 → k' < k →
    Furthest a b d k' (valueAt v (offset + k')) ∧ ¬ AtEnd a b k' (valueAt v (offset + k'))

theorem Round.start (hlength : v.length = 2 * max + 3) (hprior : Prior a b v offset d) :
    Round a b max offset d (-d) v :=
  ⟨hlength, hprior, fun k' hle _ _ hlt => by omega⟩

theorem Round.known (h : Round a b max offset d (d + 2) v) :
    Known a b d fun k => valueAt v (offset + k) :=
  fun k hlow hhigh hparity => (h.passed k hlow hhigh hparity (by omega)).1

theorem Round.not_reach (h : Round a b max offset d (d + 2) v) :
    ¬ EditPath a b d a.length b.length := fun hreach => by
  obtain ⟨rights, downs, hd, hdiagonal⟩ := hreach.diagonal_eq
  obtain ⟨hfurthest, hend⟩ :=
    h.passed (a.length - b.length) (by omega) (by omega) (by omega) (by omega)
  exact hend (hreach.le_furthest rfl hfurthest)

/-! ## What is kept -/

/-- Each slice kept has the points of the round before. -/
def Traced (a b : List α) (trace : List (List Nat)) : Prop :=
  ∀ d, d + 1 < trace.length →
    Known a b d fun k => valueAt (trace.getD (d + 1) []) (k + (d + 1 : Nat) + 1)

theorem valueAt_slice (hd : d + 1 ≤ offset) (hlow : -(d + 1 : Int) ≤ k) (hhigh : k ≤ d + 1) :
    valueAt ((v.drop (offset - d - 1)).take (2 * d + 3)) (k + d + 1) = valueAt v (offset + k) := by
  unfold valueAt
  rw [List.getD_eq_getElem?_getD, List.getD_eq_getElem?_getD, List.getElem?_take,
    if_pos (by omega), List.getElem?_drop]
  have hindex : offset - d - 1 + (k + d + 1).toNat = (offset + k).toNat := by omega
  rw [hindex]

theorem Traced.push {trace : List (List Nat)} (h : Traced a b trace) (hlength : trace.length = d)
    (hprior : Prior a b v offset d) (hd : d + 1 ≤ offset) :
    Traced a b (trace ++ [(v.drop (offset - d - 1)).take (2 * d + 3)]) := by
  intro e he k hlow hhigh hparity
  rw [List.length_append, List.length_singleton] at he
  show Furthest a b e k (valueAt _ _)
  rcases Nat.lt_or_eq_of_le (Nat.le_of_lt_succ he) with hlt | heq
  · rw [List.getD_eq_getElem?_getD, List.getElem?_append_left hlt, ← List.getD_eq_getElem?_getD]
    exact h e hlt k hlow hhigh hparity
  · obtain rfl : d = e + 1 := by omega
    rw [List.getD_eq_getElem?_getD, List.getElem?_append_right hlength.le, hlength, Nat.sub_self]
    show Furthest a b e k (valueAt (List.take _ _) _)
    rw [valueAt_slice hd (by omega) (by omega)]
    exact hprior k hlow hhigh hparity

theorem traced_nil : Traced a b [] := fun _ hlt => absurd hlt (Nat.not_lt_zero _)

theorem prior_zero (n offset : Nat) : Prior a b (List.replicate n 0) offset 0 := by
  show valueAt _ _ = 0
  rw [valueAt, List.getD_eq_getElem?_getD, List.getElem?_replicate]
  split <;> rfl

section

variable [DecidableEq α]

theorem advance_furthest (h : Prior a b v offset d) (hlow : -d ≤ k) (hhigh : k ≤ d)
    (hparity : (k + d) % 2 = 0) : Furthest a b d k (advance a b v offset d k) := by
  cases d with
  | zero =>
      obtain rfl : k = 0 := by omega
      have hzero : valueAt v (offset + 1) = 0 := h
      unfold advance enter isDown
      simpa [hzero] using furthest_zero (a := a) (b := b)
  | succ d =>
      refine Known.succ h (by omega) (by omega) (by omega) ?_
      rw [← Int.add_sub_assoc, ← Int.add_assoc]
      refine ite_congr ?_ (fun _ => rfl) fun _ => rfl
      simp [isDown]

theorem Round.next (h : Round a b max (max + 1) d k v) (hd : d ≤ max) (hlow : -d ≤ k)
    (hhigh : k ≤ d) (hparity : (k + d) % 2 = 0)
    (hend : ¬ AtEnd a b k (advance a b v (max + 1) d k)) :
    Round a b max (max + 1) d (k + 2)
      (v.set ((max + 1 : Nat) + k).toNat (advance a b v (max + 1) d k)) := by
  have hset : ∀ k' : Int, -(max + 1 : Int) ≤ k' → valueAt
      (v.set ((max + 1 : Nat) + k).toNat (advance a b v (max + 1) d k)) ((max + 1 : Nat) + k') =
      if k = k' then advance a b v (max + 1) d k else valueAt v ((max + 1 : Nat) + k') :=
    fun k' hk' => by
      rw [valueAt_set (by omega) (by omega) (by rw [h.length]; omega)]
      exact if_congr (by omega) rfl rfl
  refine ⟨by rw [List.length_set, h.length], ?_, fun k' hlow' hhigh' hparity' hlt => ?_⟩
  · have hprior := h.prior
    cases d with
    | zero =>
        show valueAt _ _ = 0
        rw [hset 1 (by omega), if_neg (by omega)]
        exact hprior
    | succ d =>
        intro k' hlow' hhigh' hparity'
        show Furthest a b d k' (valueAt _ _)
        rw [hset k' (by omega), if_neg (by omega)]
        exact hprior k' hlow' hhigh' hparity'
  · rw [hset k' (by omega)]
    split
    · next heq =>
        subst heq
        exact ⟨advance_furthest h.prior hlow hhigh hparity, hend⟩
    · exact h.passed k' hlow' hhigh' hparity' (by omega)

/-- Back from a furthest point that an insertion and the agreement after it lead to. -/
theorem back_down {value : Int → Nat} {x y : Nat} (hknown : Known a b d value)
    (h : Furthest a b (d + 1) (x - y) x) (hk : (x : Int) - y = k)
    (hdown : isDown (d + 1) k (value (k - 1)) (value (k + 1)) = true) :
    ∃ y' n, ((value (k + 1) : Int) - (k + 1)).toNat = y' ∧
      Furthest a b d (value (k + 1) - y') (value (k + 1)) ∧ x = value (k + 1) + n ∧
      y = y' + 1 + n ∧ (a.drop (value (k + 1))).take n = (b.drop (y' + 1)).take n := by
  obtain ⟨rights, downs, hedits, hdiagonal⟩ := h.reach.diagonal_eq
  rw [hk] at h
  have hcond : k = -(d + 1 : Int) ∨ k ≠ d + 1 ∧ value (k - 1) < value (k + 1) := by
    simpa [isDown] using hdown
  obtain ⟨⟨y', hreach', hy'⟩, hmost⟩ := hknown (k + 1) (by omega) (by omega) (by omega)
  have hx := (Known.succ hknown (by omega) (by omega) (by omega) rfl).unique h
  rw [if_pos hcond] at hx
  have hplace : ((value (k + 1) : Int) - k).toNat = y' + 1 := by omega
  rw [hplace] at hx
  refine ⟨y', _, by omega, ?_, hx.symm, by omega, commonLength_take⟩
  rw [show (value (k + 1) : Int) - y' = k + 1 by omega]
  exact ⟨⟨y', hreach', hy'⟩, hmost⟩

/-- Back from a furthest point that a deletion and the agreement after it lead to. -/
theorem back_right {value : Int → Nat} {x y : Nat} (hknown : Known a b d value)
    (h : Furthest a b (d + 1) (x - y) x) (hk : (x : Int) - y = k)
    (hdown : isDown (d + 1) k (value (k - 1)) (value (k + 1)) = false) :
    ∃ y' n, ((value (k - 1) : Int) - (k - 1)).toNat = y' ∧
      Furthest a b d (value (k - 1) - y') (value (k - 1)) ∧ x = value (k - 1) + 1 + n ∧
      y = y' + n ∧ (a.drop (value (k - 1) + 1)).take n = (b.drop y').take n := by
  obtain ⟨rights, downs, hedits, hdiagonal⟩ := h.reach.diagonal_eq
  rw [hk] at h
  have hcond : ¬ (k = -(d + 1 : Int) ∨ k ≠ d + 1 ∧ value (k - 1) < value (k + 1)) := by
    simpa [isDown] using hdown
  obtain ⟨⟨y', hreach', hy'⟩, hmost⟩ := hknown (k - 1) (by omega) (by omega) (by omega)
  have hx := (Known.succ hknown (by omega) (by omega) (by omega) rfl).unique h
  rw [if_neg hcond] at hx
  have hplace : ((value (k - 1) + 1 : Nat) - k : Int).toNat = y' := by omega
  rw [hplace] at hx
  refine ⟨y', _, by omega, ?_, hx.symm, by omega, commonLength_take⟩
  rw [show (value (k - 1) : Int) - y' = k - 1 by omega]
  exact ⟨⟨y', hreach', hy'⟩, hmost⟩

end

end OmniRush.Myers
