import Mathlib.Data.List.Basic

/-!
# Wildcards in a name

A pattern for one name: a run of characters, one character, one of a set, or a character as it is.
A wildcard does not match a slash. The matcher tries every run (`matchItems`); what it decides is
that the name is cut into pieces that the items stand for (`Wildcard.Matches`).
-/

namespace OmniRush

inductive Wildcard where
  | many
  | one
  | char (c : Char)
  /-- A character in one of the ranges, or in none of them if `negated`. -/
  | set (negated : Bool) (ranges : List (Char × Char))
  deriving DecidableEq, Repr

namespace Wildcard

/-- Whether an item stands for a character. -/
def accepts : Wildcard → Char → Bool
  | .many, _ => false
  | .one, c => c ≠ '/'
  | .char d, c => c = d
  | .set negated ranges, c => (ranges.any fun range => range.1 ≤ c && c ≤ range.2) != negated

/-- What a pattern stands for. -/
inductive Matches : List Wildcard → List Char → Prop where
  | nil : Matches [] []
  | many {items : List Wildcard} {run rest : List Char} (hrun : ∀ c ∈ run, c ≠ '/')
      (hrest : Matches items rest) : Matches (.many :: items) (run ++ rest)
  | single {item : Wildcard} {items : List Wildcard} {c : Char} {rest : List Char}
      (hitem : item.accepts c = true) (hrest : Matches items rest) :
      Matches (item :: items) (c :: rest)

def matchItems : List Wildcard → List Char → Bool
  | [], [] => true
  | [], _ :: _ => false
  | .many :: items, [] => matchItems items []
  | .many :: items, c :: cs =>
      matchItems items (c :: cs) || (c ≠ '/' && matchItems (.many :: items) cs)
  | _ :: _, [] => false
  | item :: items, c :: cs => item.accepts c && matchItems items cs
termination_by items cs => items.length + cs.length

theorem Matches.skip {items : List Wildcard} {cs : List Char} (h : Matches items cs) :
    Matches (.many :: items) cs :=
  .many (fun _ hc => absurd hc List.not_mem_nil) h

theorem Matches.take {items : List Wildcard} {c : Char} {cs : List Char} (hc : c ≠ '/')
    (h : Matches (.many :: items) cs) : Matches (.many :: items) (c :: cs) := by
  generalize hall : Wildcard.many :: items = all at h
  cases h with
  | nil => cases hall
  | @many others run rest hrun hrest =>
      cases hall
      have hmore : ∀ d ∈ c :: run, d ≠ '/' := by
        intro d hd
        rcases List.mem_cons.mp hd with rfl | hin
        · exact hc
        · exact hrun d hin
      exact .many hmore hrest
  | single hitem hrest =>
      cases hall
      cases hitem

/-- **The matcher decides what a pattern stands for.** -/
theorem matchItems_iff (items : List Wildcard) (cs : List Char) :
    matchItems items cs = true ↔ Matches items cs := by
  constructor
  · intro h
    fun_induction matchItems items cs with
    | case1 => exact .nil
    | case2 => cases h
    | case3 items ih => exact (ih h).skip
    | case4 items c cs ih ih' =>
        rcases Bool.or_eq_true_iff.mp h with hskip | htake
        · exact (ih hskip).skip
        · rw [Bool.and_eq_true, decide_eq_true_eq] at htake
          exact (ih' htake.2).take htake.1
    | case5 => cases h
    | case6 item items c cs hitem ih =>
        rw [Bool.and_eq_true] at h
        exact .single h.1 (ih h.2)
  · intro h
    induction h with
    | nil => rw [matchItems]
    | @many items run rest hrun hrest ih =>
        induction run with
        | nil =>
            rw [List.nil_append]
            cases rest with
            | nil => rwa [matchItems]
            | cons c rest => rw [matchItems, ih, Bool.true_or]
        | cons c run ih' =>
            have hrest' := ih' fun d hd => hrun d (List.mem_cons_of_mem _ hd)
            have hc := hrun c List.mem_cons_self
            rw [List.cons_append, matchItems, hrest', decide_eq_true hc, Bool.and_true,
              Bool.or_true]
    | @single item items c rest hitem hrest ih =>
        cases item with
        | many => cases hitem
        | one =>
            rw [matchItems, hitem, ih, Bool.and_true]
            exact fun h => by cases h
        | char d =>
            rw [matchItems, hitem, ih, Bool.and_true]
            exact fun h => by cases h
        | set negated ranges =>
            rw [matchItems, hitem, ih, Bool.and_true]
            exact fun h => by cases h

end Wildcard

end OmniRush
