import Mathlib.Data.List.Induction
import Mathlib.Data.Nat.Find
import OmniRush.Lib.EditScript

/-!
# Furthest points

A script from one list to another is a path in a grid: a deletion goes right, an insertion down,
and an element that is kept is a diagonal step where the lists agree. The paths here may leave the
grid, right and down. The furthest point on a diagonal that a path with `d` edits gets to is
one edit and the agreement after it away from the further of its neighbours with `d - 1` edits
(`furthest_succ`). A path that leaves the grid takes an edit more than it needs
(`EditPath.clip`), so the first one past both ends is at the end, and its edits are the distance
of the lists.
-/

namespace OmniRush

variable {α : Type} {a b : List α} {d x y n : Nat} {k : Int}

/-! ## Agreement -/

/-- Element `x` of one list is element `y` of the other. -/
def Agree (a b : List α) (x y : Nat) : Prop := ∃ c, a[x]? = some c ∧ b[y]? = some c

/-- The number of elements that two lists have in common at the start. -/
def commonLength [DecidableEq α] : List α → List α → Nat
  | c :: a, e :: b => if c = e then commonLength a b + 1 else 0
  | _, _ => 0

section

variable [DecidableEq α]

theorem commonLength_spec : (∀ i < commonLength a b, Agree a b i i) ∧
    ¬ Agree a b (commonLength a b) (commonLength a b) ∧
    a.take (commonLength a b) = b.take (commonLength a b) ∧
    commonLength a b ≤ a.length ∧ commonLength a b ≤ b.length := by
  fun_induction commonLength a b with
  | case1 a c b ih =>
      obtain ⟨hagree, hnot, htake, hle, hle'⟩ := ih
      refine ⟨fun i h => ?_, hnot, ?_, Nat.succ_le_succ hle, Nat.succ_le_succ hle'⟩
      · cases i with
        | zero => exact ⟨c, rfl, rfl⟩
        | succ i => exact hagree i (Nat.lt_of_succ_lt_succ h)
      · rw [List.take_succ_cons, List.take_succ_cons, htake]
  | case2 c a e b hne =>
      refine ⟨(fun i h => nomatch h), ?_, rfl, Nat.zero_le _, Nat.zero_le _⟩
      rintro ⟨f, hf, hf'⟩
      cases hf
      cases hf'
      exact hne rfl
  | case3 a b hnil =>
      refine ⟨(fun i h => nomatch h), ?_, rfl, Nat.zero_le _, Nat.zero_le _⟩
      rintro ⟨f, hf, hf'⟩
      cases a with
      | nil => cases hf
      | cons c a =>
          cases b with
          | nil => cases hf'
          | cons e b => exact hnil c a e b rfl rfl

theorem agree_of_lt_commonLength {i : Nat} (h : i < commonLength a b) : Agree a b i i :=
  commonLength_spec.1 i h

theorem not_agree_commonLength : ¬ Agree a b (commonLength a b) (commonLength a b) :=
  commonLength_spec.2.1

theorem commonLength_take : a.take (commonLength a b) = b.take (commonLength a b) :=
  commonLength_spec.2.2.1

theorem commonLength_le : commonLength a b ≤ a.length ∧ commonLength a b ≤ b.length :=
  commonLength_spec.2.2.2

end

theorem agree_drop {i : Nat} : Agree (a.drop x) (b.drop y) i i ↔ Agree a b (x + i) (y + i) := by
  simp only [Agree, List.getElem?_drop]

theorem Agree.lt (h : Agree a b x y) : x < a.length ∧ y < b.length := by
  obtain ⟨c, hx, hy⟩ := h
  exact ⟨(List.getElem?_eq_some_iff.mp hx).1, (List.getElem?_eq_some_iff.mp hy).1⟩

theorem commonLength_drop [DecidableEq α] (h : Agree a b x y) : commonLength (a.drop x) (b.drop y) =
    commonLength (a.drop (x + 1)) (b.drop (y + 1)) + 1 := by
  obtain ⟨c, hx, hy⟩ := h
  obtain ⟨hx', rfl⟩ := List.getElem?_eq_some_iff.mp hx
  obtain ⟨hy', hsame⟩ := List.getElem?_eq_some_iff.mp hy
  rw [List.drop_eq_getElem_cons hx', List.drop_eq_getElem_cons hy', commonLength,
    if_pos hsame.symm]

theorem commonLength_drop_eq_zero [DecidableEq α] (h : ¬ Agree a b x y) :
    commonLength (a.drop x) (b.drop y) = 0 :=
  Nat.eq_zero_of_not_pos fun hpos => h (agree_drop.mp (agree_of_lt_commonLength hpos))

/-! ## Paths -/

/-- A path with `d` edits leads to the point. -/
inductive EditPath (a b : List α) : Nat → Nat → Nat → Prop where
  | start : EditPath a b 0 0 0
  | diagonal {d x y : Nat} (h : EditPath a b d x y) (hagree : Agree a b x y) :
      EditPath a b d (x + 1) (y + 1)
  | right {d x y : Nat} (h : EditPath a b d x y) : EditPath a b (d + 1) (x + 1) y
  | down {d x y : Nat} (h : EditPath a b d x y) : EditPath a b (d + 1) x (y + 1)

/-- The edits are deletions and insertions, and their numbers say which diagonal the point is on. -/
theorem EditPath.diagonal_eq (h : EditPath a b d x y) :
    ∃ rights downs, rights + downs = d ∧ x + downs = y + rights := by
  induction h with
  | start => exact ⟨0, 0, rfl, rfl⟩
  | diagonal _ _ ih =>
      obtain ⟨rights, downs, hd, hx⟩ := ih
      exact ⟨rights, downs, hd, by omega⟩
  | right _ ih =>
      obtain ⟨rights, downs, hd, hx⟩ := ih
      exact ⟨rights + 1, downs, by omega, by omega⟩
  | down _ ih =>
      obtain ⟨rights, downs, hd, hx⟩ := ih
      exact ⟨rights, downs + 1, by omega, by omega⟩

theorem EditPath.slide (h : EditPath a b d x y) (hagree : ∀ i, i < n → Agree a b (x + i) (y + i)) :
    EditPath a b d (x + n) (y + n) := by
  induction n with
  | zero => exact h
  | succ n ih =>
      have hslide := ih fun i hi => hagree i (Nat.lt_succ_of_lt hi)
      exact hslide.diagonal (hagree n (Nat.lt_succ_self n))

theorem EditPath.clip (h : EditPath a b d x y) : ∃ d',
    EditPath a b d' (min x a.length) (min y b.length) ∧
      d' + (x - a.length) + (y - b.length) = d := by
  induction h with
  | start => exact ⟨0, by simpa using EditPath.start, by simp⟩
  | @diagonal d x y _ hagree ih =>
      obtain ⟨d', hreach, hd⟩ := ih
      obtain ⟨c, hx, hy⟩ := hagree
      have hx' := (List.getElem?_eq_some_iff.mp hx).1
      have hy' := (List.getElem?_eq_some_iff.mp hy).1
      rw [Nat.min_eq_left hx'.le, Nat.min_eq_left hy'.le] at hreach
      refine ⟨d', ?_, by omega⟩
      rw [Nat.min_eq_left hx', Nat.min_eq_left hy']
      exact hreach.diagonal ⟨c, hx, hy⟩
  | @right d x y _ ih =>
      obtain ⟨d', hreach, hd⟩ := ih
      by_cases hx : x < a.length
      · refine ⟨d' + 1, ?_, by omega⟩
        rw [Nat.min_eq_left hx.le] at hreach
        rw [Nat.min_eq_left hx]
        exact hreach.right
      · refine ⟨d', ?_, by omega⟩
        have hmin : min (x + 1) a.length = min x a.length := by omega
        rwa [hmin]
  | @down d x y _ ih =>
      obtain ⟨d', hreach, hd⟩ := ih
      by_cases hy : y < b.length
      · refine ⟨d' + 1, ?_, by omega⟩
        rw [Nat.min_eq_left hy.le] at hreach
        rw [Nat.min_eq_left hy]
        exact hreach.down
      · refine ⟨d', ?_, by omega⟩
        have hmin : min (y + 1) b.length = min y b.length := by omega
        rwa [hmin]

/-! ## Furthest points -/

/-- The furthest point on a diagonal that paths with `d` edits lead to. -/
def Furthest (a b : List α) (d : Nat) (k : Int) (x : Nat) : Prop :=
  IsGreatest {x : Nat | ∃ y : Nat, EditPath a b d x y ∧ (x : Int) = y + k} x

theorem Furthest.reach (h : Furthest a b d (x - y) x) : EditPath a b d x y := by
  obtain ⟨⟨y', hreach, hy'⟩, -⟩ := h
  obtain rfl : y' = y := by omega
  exact hreach

section

variable [DecidableEq α]

theorem furthest_slide (hreach : ∃ y : Nat, EditPath a b d x y ∧ (x : Int) = y + k)
    (hmost : ∀ x' y' : Nat, EditPath a b d x' y' → (x' : Int) = y' + k →
      (∃ x'' y'', x' = x'' + 1 ∧ y' = y'' + 1 ∧ EditPath a b d x'' y'' ∧ Agree a b x'' y'') ∨
        x' ≤ x) :
    Furthest a b d k (x + commonLength (a.drop x) (b.drop (x - k).toNat)) := by
  obtain ⟨y, hreach, hx⟩ := hreach
  have hy : ((x : Int) - k).toNat = y := by omega
  rw [hy]
  constructor
  · exact ⟨_, hreach.slide fun i hi => agree_drop.mp (agree_of_lt_commonLength hi), by omega⟩
  · rintro x' ⟨y', hreach', hx'⟩
    induction x' generalizing y' with
    | zero => exact Nat.zero_le _
    | succ x' ih =>
        rcases hmost _ y' hreach' hx' with ⟨x'', y'', hx'', rfl, hreach'', hagree⟩ | hle
        · obtain rfl := Nat.succ.inj hx''
          have hle := ih y'' hreach'' (by omega)
          rcases Nat.lt_or_eq_of_le hle with hlt | rfl
          · exact hlt
          · have hend : y'' = y + commonLength (a.drop x) (b.drop y) := by omega
            rw [hend] at hagree
            exact absurd (agree_drop.mpr hagree) not_agree_commonLength
        · exact hle.trans (Nat.le_add_right _ _)

theorem furthest_zero : Furthest a b 0 0 (commonLength a b) := by
  have h := furthest_slide (a := a) (b := b) (d := 0) (x := 0) (k := 0) ⟨0, .start, rfl⟩ ?_
  · simpa using h
  · intro x' y' hreach _
    cases hreach with
    | start => exact .inr (Nat.le_refl _)
    | diagonal h hagree => exact .inl ⟨_, _, rfl, rfl, h, hagree⟩

theorem furthest_succ {x₁ x₂ : Nat} (hright : k ≠ -(d + 1 : Int) → Furthest a b d (k - 1) x₁)
    (hdown : k ≠ d + 1 → Furthest a b d (k + 1) x₂) (hx : x =
      if k = -(d + 1 : Int) ∨ (k ≠ d + 1 ∧ x₁ < x₂) then x₂ else x₁ + 1) :
    Furthest a b (d + 1) k
      (x + commonLength (a.drop x) (b.drop (x - k).toNat)) := by
  refine furthest_slide ?_ ?_
  · split at hx
    · obtain ⟨⟨y, hreach, hy⟩, -⟩ := hdown (by omega)
      exact ⟨y + 1, hx ▸ hreach.down, by omega⟩
    · obtain ⟨⟨y, hreach, hy⟩, -⟩ := hright (by omega)
      exact ⟨y, hx ▸ hreach.right, by omega⟩
  · intro x' y' hreach hx'
    cases hreach with
    | diagonal h hagree => exact .inl ⟨_, _, rfl, rfl, h, hagree⟩
    | @right _ x' _ h =>
        obtain ⟨rights, downs, hd, hdiagonal⟩ := h.diagonal_eq
        have hle := (hright (by omega)).2 ⟨y', h, by omega⟩
        right
        split at hx <;> omega
    | @down _ _ y' h =>
        obtain ⟨rights, downs, hd, hdiagonal⟩ := h.diagonal_eq
        have hle := (hdown (by omega)).2 ⟨y', h, by omega⟩
        right
        split at hx <;> omega

/-- The furthest points of the diagonals that paths with `d` edits lead to. -/
def Known (a b : List α) (d : Nat) (value : Int → Nat) : Prop :=
  ∀ k : Int, -d ≤ k → k ≤ d → (k + d) % 2 = 0 → Furthest a b d k (value k)

theorem Known.succ {value : Int → Nat} (h : Known a b d value) (hlow : -(d + 1 : Int) ≤ k)
    (hhigh : k ≤ d + 1) (hparity : (k + d + 1) % 2 = 0) (hx : x =
      if k = -(d + 1 : Int) ∨ (k ≠ d + 1 ∧ value (k - 1) < value (k + 1)) then value (k + 1)
      else value (k - 1) + 1) :
    Furthest a b (d + 1) k (x + commonLength (a.drop x) (b.drop (x - k).toNat)) :=
  furthest_succ (fun hne => h _ (by omega) (by omega) (by omega))
    (fun hne => h _ (by omega) (by omega) (by omega)) hx

end

theorem Furthest.finish (h : Furthest a b d k x) (hx : a.length ≤ x)
    (hy : (b.length : Int) ≤ x - k) (hfirst : ∀ d' < d, ¬ EditPath a b d' a.length b.length) :
    x = a.length ∧ k = a.length - b.length ∧ EditPath a b d a.length b.length := by
  obtain ⟨⟨y, hreach, hk⟩, -⟩ := h
  obtain ⟨d', hreach', hd⟩ := hreach.clip
  rw [Nat.min_eq_right hx, Nat.min_eq_right (by omega)] at hreach'
  have hsame : d' = d := by
    rcases Nat.lt_or_eq_of_le (by omega : d' ≤ d) with hlt | heq
    · exact absurd hreach' (hfirst d' hlt)
    · exact heq
  subst hsame
  exact ⟨by omega, by omega, hreach'⟩

theorem EditPath.le_furthest {m : Nat} (h : EditPath a b d n m) (hk : k = n - m)
    (hfurthest : Furthest a b d k x) : n ≤ x ∧ (m : Int) ≤ x - k := by
  have hle := hfurthest.2 ⟨m, h, by omega⟩
  omega

/-! ## Scripts -/

theorem take_succ_of_getElem? {c : α} (h : a[x]? = some c) : a.take (x + 1) = a.take x ++ [c] := by
  rw [List.take_add_one, h]
  rfl

theorem EditPath.script (h : EditPath a b d x y) (hx : x ≤ a.length) (hy : y ≤ b.length) :
    ∃ s, Script.source s = a.take x ∧ Script.target s = b.take y ∧ Script.edits s = d := by
  induction h with
  | start => exact ⟨[], by simp, by simp, rfl⟩
  | diagonal _ hagree ih =>
      obtain ⟨s, hsource, htarget, hedits⟩ := ih (Nat.le_of_succ_le hx) (Nat.le_of_succ_le hy)
      obtain ⟨c, hc, hc'⟩ := hagree
      exact ⟨s ++ [.keep c], by simp [hsource, take_succ_of_getElem? hc],
        by simp [htarget, take_succ_of_getElem? hc'], by simp [hedits]⟩
  | right _ ih =>
      obtain ⟨s, hsource, htarget, hedits⟩ := ih (Nat.le_of_succ_le hx) hy
      obtain ⟨c, hc⟩ : ∃ c, a[_]? = some c := ⟨_, List.getElem?_eq_getElem hx⟩
      refine ⟨s ++ [.delete c], ?_, by simp [htarget], by simp [hedits]⟩
      rw [Script.source_append, hsource, take_succ_of_getElem? hc]
      rfl
  | down _ ih =>
      obtain ⟨s, hsource, htarget, hedits⟩ := ih hx (Nat.le_of_succ_le hy)
      obtain ⟨c, hc⟩ : ∃ c, b[_]? = some c := ⟨_, List.getElem?_eq_getElem hy⟩
      refine ⟨s ++ [.insert c], by simp [hsource], ?_, by simp [hedits]⟩
      rw [Script.target_append, htarget, take_succ_of_getElem? hc]
      rfl

theorem getElem?_of_append_prefix {p : List α} {c : α} (h : p ++ [c] <+: a) :
    a[p.length]? = some c := by
  obtain ⟨rest, rfl⟩ := h
  simp

theorem reach_script {s : List (Edit α)} (ha : Script.source s <+: a)
    (hb : Script.target s <+: b) :
    EditPath a b (Script.edits s) (Script.source s).length (Script.target s).length := by
  induction s using List.reverseRecOn with
  | nil => exact .start
  | append_singleton s e ih =>
      rw [Script.source_append] at ha
      rw [Script.target_append] at hb
      have hreach := ih ((List.prefix_append ..).trans ha) ((List.prefix_append ..).trans hb)
      cases e with
      | keep c =>
          simpa using hreach.diagonal
            ⟨c, getElem?_of_append_prefix ha, getElem?_of_append_prefix hb⟩
      | delete c => simpa using hreach.right
      | insert c => simpa using hreach.down

theorem reach_sum (a b : List α) : EditPath a b (a.length + b.length) a.length b.length := by
  have hright : ∀ n, EditPath a b n n 0 := fun n => by
    induction n with
    | zero => exact .start
    | succ n ih => exact ih.right
  have hdown : ∀ m, EditPath a b (a.length + m) a.length m := fun m => by
    induction m with
    | zero => exact hright _
    | succ m ih => exact ih.down
  exact hdown _

theorem exists_reach_least (a b : List α) :
    ∃ d, IsLeast {d | EditPath a b d a.length b.length} d := by
  classical
  have hex : ∃ d, EditPath a b d a.length b.length := ⟨_, reach_sum a b⟩
  exact ⟨Nat.find hex, Nat.find_spec hex, fun _ h => Nat.find_min' hex h⟩

/-- The distance is the least number of edits with which a path leads to the end. -/
theorem isDistance_iff :
    Script.IsDistance a b d ↔ IsLeast {d | EditPath a b d a.length b.length} d := by
  have hsame : Script.scriptEdits a b = {d | EditPath a b d a.length b.length} := by
    ext d
    constructor
    · rintro ⟨s, rfl, rfl, rfl⟩
      exact reach_script List.prefix_rfl List.prefix_rfl
    · intro h
      obtain ⟨s, hsource, htarget, hedits⟩ := h.script (Nat.le_refl _) (Nat.le_refl _)
      exact ⟨s, by rw [hsource, List.take_length], by rw [htarget, List.take_length], hedits⟩
  rw [Script.IsDistance, hsame]

end OmniRush
