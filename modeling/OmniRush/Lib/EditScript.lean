import Mathlib.Order.Bounds.Basic

/-!
# Edit scripts

A script keeps, deletes and inserts elements, and so turns a list, its source, into another, its
target. The distance of two lists is the least number of deletions and insertions with which one
is turned into the other. What the lists have in common at their ends does not count
(`isDistance_append`, `isDistance_append_right`).
-/

namespace OmniRush

inductive Edit (α : Type) where
  | keep (a : α)
  | delete (a : α)
  | insert (a : α)
  deriving DecidableEq, Repr

namespace Edit

variable {α : Type}

/-- The element the step takes from the source. -/
def old : Edit α → Option α
  | keep a | delete a => some a
  | insert _ => none

/-- The element the step gives to the target. -/
def new : Edit α → Option α
  | keep a | insert a => some a
  | delete _ => none

def isKeep : Edit α → Bool
  | keep _ => true
  | _ => false

def isDelete : Edit α → Bool
  | delete _ => true
  | _ => false

def isInsert : Edit α → Bool
  | insert _ => true
  | _ => false

/-- The step of the script back. -/
def swap : Edit α → Edit α
  | keep a => keep a
  | delete a => insert a
  | insert a => delete a

end Edit

namespace Script

variable {α : Type} {s t : List (Edit α)} {a b p : List α} {c : α} {d : Nat}

def source (s : List (Edit α)) : List α := s.filterMap Edit.old

def target (s : List (Edit α)) : List α := s.filterMap Edit.new

/-- The deletions and insertions. -/
def edits (s : List (Edit α)) : Nat := s.countP Edit.isDelete + s.countP Edit.isInsert

@[simp] theorem source_nil : source ([] : List (Edit α)) = [] := rfl
@[simp] theorem source_keep : source (.keep c :: s) = c :: source s := rfl
@[simp] theorem source_delete : source (.delete c :: s) = c :: source s := rfl
@[simp] theorem source_insert : source (.insert c :: s) = source s := rfl
@[simp] theorem target_nil : target ([] : List (Edit α)) = [] := rfl
@[simp] theorem target_keep : target (.keep c :: s) = c :: target s := rfl
@[simp] theorem target_delete : target (.delete c :: s) = target s := rfl
@[simp] theorem target_insert : target (.insert c :: s) = c :: target s := rfl
@[simp] theorem edits_nil : edits ([] : List (Edit α)) = 0 := rfl
@[simp] theorem edits_keep : edits (.keep c :: s) = edits s := rfl

@[simp] theorem edits_delete : edits (.delete c :: s) = edits s + 1 := by
  rw [edits, edits, List.countP_cons_of_pos rfl, List.countP_cons_of_neg (by simp [Edit.isInsert])]
  exact Nat.add_right_comm ..

@[simp] theorem edits_insert : edits (.insert c :: s) = edits s + 1 := by
  rw [edits, edits, List.countP_cons_of_neg (by simp [Edit.isDelete]), List.countP_cons_of_pos rfl]
  rfl

@[simp] theorem source_append : source (s ++ t) = source s ++ source t := List.filterMap_append ..

@[simp] theorem target_append : target (s ++ t) = target s ++ target t := List.filterMap_append ..

@[simp] theorem edits_append : edits (s ++ t) = edits s + edits t := by
  simp only [edits, List.countP_append]
  omega

@[simp] theorem source_reverse : source s.reverse = (source s).reverse :=
  List.filterMap_reverse

@[simp] theorem target_reverse : target s.reverse = (target s).reverse :=
  List.filterMap_reverse

@[simp] theorem edits_reverse : edits s.reverse = edits s := by
  rw [edits, edits, List.countP_reverse, List.countP_reverse]

theorem source_map_keep : source (p.map Edit.keep) = p := by
  induction p with
  | nil => rfl
  | cons c p ih => rw [List.map_cons, source_keep, ih]

theorem target_map_keep : target (p.map Edit.keep) = p := by
  induction p with
  | nil => rfl
  | cons c p ih => rw [List.map_cons, target_keep, ih]

theorem edits_map_keep : edits (p.map Edit.keep) = 0 := by
  induction p with
  | nil => rfl
  | cons c p ih => rw [List.map_cons, edits_keep, ih]

theorem source_map_delete : source (p.map Edit.delete) = p := by
  induction p with
  | nil => rfl
  | cons c p ih => rw [List.map_cons, source_delete, ih]

theorem target_map_delete : target (p.map Edit.delete) = [] := by
  induction p with
  | nil => rfl
  | cons c p ih => rw [List.map_cons, target_delete, ih]

theorem source_map_insert : source (p.map Edit.insert) = [] := by
  induction p with
  | nil => rfl
  | cons c p ih => rw [List.map_cons, source_insert, ih]

theorem target_map_insert : target (p.map Edit.insert) = p := by
  induction p with
  | nil => rfl
  | cons c p ih => rw [List.map_cons, target_insert, ih]

theorem source_swap : source (s.map Edit.swap) = target s := by
  induction s with
  | nil => rfl
  | cons e s ih => cases e <;> simp [Edit.swap, ih]

theorem target_swap : target (s.map Edit.swap) = source s := by
  induction s with
  | nil => rfl
  | cons e s ih => cases e <;> simp [Edit.swap, ih]

theorem edits_swap : edits (s.map Edit.swap) = edits s := by
  induction s with
  | nil => rfl
  | cons e s ih => cases e <;> simp [Edit.swap, ih]

/-! ## The distance -/

/-- The numbers of edits of the scripts from one list to another. -/
def scriptEdits (a b : List α) : Set Nat :=
  {d | ∃ s : List (Edit α), source s = a ∧ target s = b ∧ edits s = d}

/-- The least number of edits. -/
def IsDistance (a b : List α) (d : Nat) : Prop := IsLeast (scriptEdits a b) d

/-- Two pairs of lists of which each script for one gives one for the other that is as short
have one distance. -/
theorem isDistance_congr {a' b' : List α}
    (h : ∀ d ∈ scriptEdits a b, ∃ d' ∈ scriptEdits a' b', d' ≤ d)
    (h' : ∀ d ∈ scriptEdits a' b', ∃ d' ∈ scriptEdits a b, d' ≤ d) :
    IsDistance a b d ↔ IsDistance a' b' d := by
  constructor
  · rintro ⟨hin, hleast⟩
    obtain ⟨d', hd', hle⟩ := h d hin
    obtain ⟨d'', hd'', hle'⟩ := h' d' hd'
    have hsame : d' = d := Nat.le_antisymm hle ((hleast hd'').trans hle')
    refine ⟨hsame ▸ hd', fun e he => ?_⟩
    obtain ⟨e', he', hle''⟩ := h' e he
    exact (hleast he').trans hle''
  · rintro ⟨hin, hleast⟩
    obtain ⟨d', hd', hle⟩ := h' d hin
    obtain ⟨d'', hd'', hle'⟩ := h d' hd'
    have hsame : d' = d := Nat.le_antisymm hle ((hleast hd'').trans hle')
    refine ⟨hsame ▸ hd', fun e he => ?_⟩
    obtain ⟨e', he', hle''⟩ := h e he
    exact (hleast he').trans hle''

theorem exists_target_tail (h : target s = c :: b) :
    ∃ s', source s' = source s ∧ target s' = b ∧ edits s' ≤ edits s + 1 := by
  induction s with
  | nil => cases h
  | cons e s ih =>
      cases e with
      | keep x =>
          have htarget : target s = b := (List.cons.inj h).2
          exact ⟨.delete x :: s, by simp, by simp [htarget], by simp⟩
      | delete x =>
          obtain ⟨s', hsource, htarget, hedits⟩ := ih h
          exact ⟨.delete x :: s', by simp [hsource], by simp [htarget], by simpa using hedits⟩
      | insert x =>
          exact ⟨s, rfl, (List.cons.inj h).2, by simp only [edits_insert]; omega⟩

theorem exists_source_tail (h : source s = c :: a) :
    ∃ s', source s' = a ∧ target s' = target s ∧ edits s' ≤ edits s + 1 := by
  obtain ⟨s', hsource, htarget, hedits⟩ := exists_target_tail (target_swap.trans h)
  rw [source_swap] at hsource
  rw [edits_swap] at hedits
  exact ⟨s'.map Edit.swap, source_swap.trans htarget, target_swap.trans hsource,
    edits_swap.trans_le hedits⟩

theorem isDistance_append : IsDistance (p ++ a) (p ++ b) d ↔ IsDistance a b d := by
  induction p with
  | nil => rfl
  | cons c p ih =>
      rw [← ih, List.cons_append, List.cons_append]
      refine isDistance_congr ?_ ?_
      · rintro d ⟨s, hsource, htarget, rfl⟩
        cases s with
        | nil => cases hsource
        | cons e s =>
            cases e with
            | keep x =>
                exact ⟨_, ⟨s, (List.cons.inj hsource).2, (List.cons.inj htarget).2, rfl⟩, by simp⟩
            | delete x =>
                obtain ⟨s', hsource', htarget', hedits⟩ := exists_target_tail (s := s) htarget
                exact ⟨_, ⟨s', hsource'.trans (List.cons.inj hsource).2, htarget', rfl⟩,
                  by simpa using hedits⟩
            | insert x =>
                obtain ⟨s', hsource', htarget', hedits⟩ := exists_source_tail (s := s) hsource
                exact ⟨_, ⟨s', hsource', htarget'.trans (List.cons.inj htarget).2, rfl⟩,
                  by simpa using hedits⟩
      · rintro d ⟨s, hsource, htarget, rfl⟩
        exact ⟨_, ⟨.keep c :: s, by simp [hsource], by simp [htarget], rfl⟩, by simp⟩

theorem isDistance_reverse : IsDistance a.reverse b.reverse d ↔ IsDistance a b d := by
  refine isDistance_congr ?_ ?_
  · rintro d ⟨s, hsource, htarget, rfl⟩
    exact ⟨_, ⟨s.reverse, by simp [hsource], by simp [htarget], rfl⟩, by simp⟩
  · rintro d ⟨s, hsource, htarget, rfl⟩
    exact ⟨_, ⟨s.reverse, by simp [hsource], by simp [htarget], rfl⟩, by simp⟩

theorem isDistance_append_right : IsDistance (a ++ p) (b ++ p) d ↔ IsDistance a b d := by
  rw [← isDistance_reverse, List.reverse_append, List.reverse_append, isDistance_append,
    isDistance_reverse]

end Script

end OmniRush

/-!
## Unified patches

A hunk of a unified patch has a script for a range of lines, and says where the range is in the
file before the patch and in the file after it. A reader of the patch checks that the hunks come
in order, that each says where it is, and that the lines it keeps and deletes are those of the
file. What the patch turns the file into is pieced together hunk by hunk (`applyHunks_cons`).
-/

namespace OmniRush

structure Hunk (α : Type) where
  /-- The number of the first line of the range, or of the line before it if the range is empty. -/
  oldStart : Nat
  oldCount : Nat
  newStart : Nat
  newCount : Nat
  body : List (Edit α)
  deriving DecidableEq, Repr

namespace Hunk

variable {α : Type}

/-- How a range is written that has the given number of lines before it. -/
def startOf (before count : Nat) : Nat := if count = 0 then before else before + 1

/-- A count of one is left out. -/
def showRange (start count : Nat) : String :=
  if count = 1 then toString start else toString start ++ "," ++ toString count

def header (h : Hunk α) : String :=
  "@@ -" ++ showRange h.oldStart h.oldCount ++ " +" ++ showRange h.newStart h.newCount ++ " @@"

/-- The hunk says of its ranges what they are: the lines of its script, after the given numbers
of lines. -/
def Placed (h : Hunk α) (old new : Nat) : Prop :=
  h.oldCount = (Script.source h.body).length ∧ h.newCount = (Script.target h.body).length ∧
    h.oldStart = startOf old h.oldCount ∧ h.newStart = startOf new h.newCount

instance (h : Hunk α) (old new : Nat) : Decidable (h.Placed old new) := by
  unfold Placed
  infer_instance

/-- The lines before the old range, as the header has it. -/
def before (h : Hunk α) : Nat := if h.oldCount = 0 then h.oldStart else h.oldStart - 1

end Hunk

variable {α : Type} [DecidableEq α]

/-- The file after the patch, from the lines on that come after the ones read (`old`) and
written (`new`) so far; `none` if a hunk is not for the file or not where it says. -/
def applyHunks (old new : Nat) : List (Hunk α) → List α → Option (List α)
  | [], lines => some lines
  | h :: hunks, lines =>
      let skip := h.before - old
      if h.Placed (old + skip) (new + skip) ∧ skip ≤ lines.length ∧
          (lines.drop skip).take h.oldCount = Script.source h.body then
        (applyHunks (old + skip + h.oldCount) (new + skip + h.newCount) hunks
          (lines.drop (skip + h.oldCount))).map fun rest =>
            lines.take skip ++ Script.target h.body ++ rest
      else none

theorem applyHunks_cons {old new : Nat} {h : Hunk α} {hunks : List (Hunk α)} {kept rest : List α}
    (hplaced : h.Placed (old + kept.length) (new + kept.length)) :
    applyHunks old new (h :: hunks) (kept ++ Script.source h.body ++ rest) =
      (applyHunks (old + kept.length + h.oldCount) (new + kept.length + h.newCount) hunks rest).map
        fun rest => kept ++ Script.target h.body ++ rest := by
  have hskip : h.before - old = kept.length := by
    unfold Hunk.before
    rw [hplaced.2.2.1]
    unfold Hunk.startOf
    split <;> omega
  have hdrop : (kept ++ Script.source h.body ++ rest).drop kept.length =
      Script.source h.body ++ rest := by
    rw [List.append_assoc, List.drop_left]
  rw [applyHunks, hskip]
  rw [if_pos ⟨hplaced, by simp, by rw [hdrop, hplaced.1, List.take_left]⟩,
    ← List.drop_drop, hdrop, hplaced.1, List.drop_left, List.append_assoc kept, List.take_left]

end OmniRush
