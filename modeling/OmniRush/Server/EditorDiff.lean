import Mathlib.Algebra.Order.Ring.Int
import OmniRush.Lib.Myers
import OmniRush.Lib.Record
import OmniRush.Lib.EditScript

/-!
# The diff of a saved file

`editor-diff.ts`: how many lines a save in the editor added and removed, and a unified diff of the
change. `v` is an array with a value for each diagonal, at an offset from its middle; what round
`d` reads of it is kept for the way back, as the slice for the diagonals from `-d - 1` on.
-/

namespace OmniRush.Server

open Myers

structure LineDiffStats where
  added : Nat
  removed : Nat
  /-- None when the change was too large to diff. -/
  diff : Option String
  deriving DecidableEq, Repr

def contextLines : Nat := 3

def splitLines (text : String) : List String :=
  if text = "" then []
  else
    let lines := (text.toList.splitOn '\n').map String.ofList
    if lines.getLast? = some "" then lines.dropLast else lines

/-! ## The search -/

section

variable {α : Type} [DecidableEq α]

/-- The diagonals of round `d` from one on, so many are left, and whether the end was found. -/
def round (a b : List α) (offset d : Nat) : Nat → Int → List Nat → List Nat × Bool
  | 0, _, v => (v, false)
  | left + 1, k, v =>
      let x := advance a b v offset d k
      let v := v.set (offset + k).toNat x
      if a.length ≤ x ∧ (b.length : Int) ≤ x - k then (v, true)
      else round a b offset d left (k + 2) v

/-- The rounds from one on: the round that found the end, and the slices kept. -/
def rounds (a b : List α) (offset : Nat) : Nat → Nat → List Nat → List (List Nat) →
    Option (Nat × List (List Nat))
  | 0, _, _, _ => none
  | left + 1, d, v, trace =>
      let trace := trace ++ [(v.drop (offset - d - 1)).take (2 * d + 3)]
      let (v, found) := round a b offset d (d + 1) (-d) v
      if found then some (d, trace) else rounds a b offset left (d + 1) v trace

/-- The lines kept on the way back to the point, in front of the steps so far. -/
def keepBack (a : List α) (lowX lowY : Nat) : Nat → Nat → List (Edit α) →
    Nat × Nat × List (Edit α)
  | x + 1, y + 1, ops =>
      if lowX < x + 1 ∧ lowY < y + 1 then
        keepBack a lowX lowY x y ((a[x]?.map Edit.keep).toList ++ ops)
      else (x + 1, y + 1, ops)
  | x, y, ops => (x, y, ops)

/-- The way back from a point of round `d`. -/
def walkBack (a b : List α) (trace : List (List Nat)) : Nat → Nat → Nat → List (Edit α) →
    List (Edit α)
  | 0, x, y, ops => (keepBack a 0 0 x y ops).2.2
  | d + 1, x, y, ops =>
      let prev := trace.getD (d + 1) []
      let valueOf (diagonal : Int) := valueAt prev (diagonal + (d + 1 : Nat) + 1)
      let k : Int := x - y
      let prevK := if isDown (d + 1) k (valueOf (k - 1)) (valueOf (k + 1)) then k + 1 else k - 1
      let prevX := valueOf prevK
      let prevY := (prevX - prevK).toNat
      let (x, y, ops) := keepBack a prevX prevY x y ops
      let step := if x = prevX then b[y - 1]?.map Edit.insert else a[x - 1]?.map Edit.delete
      walkBack a b trace d prevX prevY (step.toList ++ ops)

def myers (a b : List α) (maxEdits : Nat) : Option (List (Edit α)) :=
  let max := min (a.length + b.length) maxEdits
  let offset := max + 1
  (rounds a b offset (max + 1) 0 (List.replicate (2 * max + 3) 0) []).map fun (found, trace) =>
    walkBack a b trace found a.length b.length []

end

/-- The lines of the one text not matched in the other, and the other way round. -/
def multisetCounts (a b : List String) : Nat × Nat :=
  let counts := a.foldl (fun counts line => counts.set line ((counts.get line).getD 0 + 1))
    (Record.empty : Record Nat)
  let (counts, added) := b.foldl (fun (counts, added) line =>
    let left := (counts.get line).getD 0
    if 0 < left then (counts.set line (left - 1), added) else (counts, added + 1)) (counts, 0)
  (added, (counts.entries.map Prod.snd).sum)

/-! ## Hunks -/

section

variable {α : Type}

/-- The first step from an index on that is a change. -/
def gapEnd (ops : List (Edit α)) (gap : Nat) : Nat :=
  gap + ((ops.drop gap).takeWhile Edit.isKeep).length

/-- Where a hunk ends: changes are joined while the gap is at most twice the context. -/
def hunkEnd (ops : List (Edit α)) : Nat → Nat → Nat
  | 0, stop => stop
  | fuel + 1, stop =>
      match ops[stop]? with
      | none => stop
      | some op =>
          if op.isKeep then
            let gap := gapEnd ops stop
            if ops.length ≤ gap ∨ 2 * contextLines < gap - stop then
              min ops.length (stop + contextLines)
            else hunkEnd ops fuel gap
          else hunkEnd ops fuel (stop + 1)

/-- The hunks from an index on, and the lines there in both texts. -/
def editorHunks (ops : List (Edit α)) : Nat → Nat → Nat → Nat → List (Hunk α)
  | 0, _, _, _ => []
  | fuel + 1, i, oldLine, newLine =>
      match ops[i]? with
      | none => []
      | some op =>
          if op.isKeep then editorHunks ops fuel (i + 1) (oldLine + 1) (newLine + 1)
          else
            let start := i - contextLines
            let stop := hunkEnd ops ops.length i
            let lead := i - start
            let body := (ops.drop start).take (stop - start)
            let oldCount := body.countP (!·.isInsert)
            let newCount := body.countP (!·.isDelete)
            let range (start count : Nat) := if count = 0 then start - 1 else start
            let passed := (ops.drop i).take (stop - i)
            { oldStart := range (oldLine - lead) oldCount, oldCount
              newStart := range (newLine - lead) newCount, newCount, body } ::
            editorHunks ops fuel stop (oldLine + passed.countP (!·.isInsert))
              (newLine + passed.countP (!·.isDelete))

end

def opLine : Edit String → String
  | .keep line => " " ++ line
  | .delete line => "-" ++ line
  | .insert line => "+" ++ line

def diffHeader (path : String) : List String := ["--- a/" ++ path, "+++ b/" ++ path]

def joinLines (lines : List String) : String := "\n".intercalate lines ++ "\n"

/-- The counts and the text of a script. -/
def scriptStats (path : String) (ops : List (Edit String)) : LineDiffStats :=
  let added := ops.countP Edit.isInsert
  let removed := ops.countP Edit.isDelete
  if added = 0 ∧ removed = 0 then
    ⟨0, 0, some (joinLines (diffHeader path ++ ["\\ final newline changed"]))⟩
  else
    let hunks := editorHunks ops ops.length 0 1 1
    ⟨added, removed, some (joinLines (diffHeader path ++
      hunks.flatMap fun hunk => hunk.header :: hunk.body.map opLine))⟩

/-- The numbers of lines in common at the start and, after these, at the end. -/
def commonEnds (a b : List String) : Nat × Nat :=
  let common := commonLength a b
  (common, commonLength (a.drop common).reverse (b.drop common).reverse)

/-- The lines between the two ends. -/
def middleOf (lines : List String) (ends : Nat × Nat) : List String :=
  (lines.drop ends.1).take (lines.length - ends.2 - ends.1)

def editorLineDiff (path before after : String) (maxEdits : Nat) : LineDiffStats :=
  if before = after then ⟨0, 0, some ""⟩
  else
    let a := splitLines before
    let b := splitLines after
    let ends := commonEnds a b
    let midA := middleOf a ends
    let midB := middleOf b ends
    match myers midA midB maxEdits with
    | none => ⟨(multisetCounts midA midB).1, (multisetCounts midA midB).2, none⟩
    | some middle =>
        scriptStats path ((a.take ends.1).map Edit.keep ++ middle ++
          (a.drop (a.length - ends.2)).map Edit.keep)

end OmniRush.Server
