import Mathlib.Algebra.Order.Ring.Int
import OmniRush.Lib.Json
import OmniRush.Lib.Myers
import OmniRush.Lib.Record
import OmniRush.Lib.EditScript

/-!
# The diff of a turn

`turn-diff.ts`: the unified diff of a file that a turn changed. Lines are compared by ids that are
given out when the diff first reaches them, so the search takes the table along. The lines outside
a matching are marked, one mask for each side, and the hunks are written from the masks.
-/

namespace OmniRush.Server.TurnDiff

open Myers

def diffContextLines : Nat := 3

/-- Past this edit distance the exact diff gives way to a greedy one. -/
def maxEditDistance : Nat := 1500

/-- How far ahead the greedy diff looks, on each side. -/
def greedyWindow : Nat := 32

/-! ## Lines -/

structure Lines where
  lines : List String
  eofNewline : Bool
  deriving DecidableEq, Repr

def splitLines (text : String) : Lines :=
  if text = "" then ⟨[], true⟩
  else
    let lines := (text.toList.splitOn '\n').map String.ofList
    let eofNewline : Bool := lines.getLast? = some ""
    ⟨if eofNewline then lines.dropLast else lines, eofNewline⟩

/-- A line of a side, and whether a newline ends it. -/
structure Line where
  text : String
  newline : Bool
  deriving DecidableEq, Repr

def Lines.all (side : Lines) : List Line :=
  side.lines.mapIdx fun index text =>
    ⟨text, !(index + 1 = side.lines.length && !side.eofNewline)⟩

/-- A last line without a newline differs from the same line with one. -/
def key (line : Line) : String := if line.newline then line.text else line.text ++ "\x00"

/-! ## Ids -/

inductive Side where
  | a
  | b
  deriving DecidableEq, Repr

/-- `intern`: the id of a text, and the table with it. -/
def intern (table : Record Nat) (text : String) : Nat × Record Nat :=
  match table.get text with
  | some id => (id, table)
  | none => (table.entries.length, table.set text table.entries.length)

/-- The ids given out so far, those of each side from its first line on. -/
structure LineIds where
  table : Record Nat
  done : Side → List Nat

namespace LineIds

def empty : LineIds := ⟨.empty, fun _ => []⟩

variable (keys : Side → List String)

/-- The next line of a side gets its id. -/
def next (ids : LineIds) (side : Side) : LineIds :=
  let (id, table) := intern ids.table ((keys side).getD (ids.done side).length "")
  ⟨table, fun s => if s = side then ids.done side ++ [id] else ids.done s⟩

/-- `idA` and `idB`. -/
def idOf (ids : LineIds) (side : Side) (index : Nat) : Nat × LineIds :=
  let ids := (fun ids => ids.next keys side)^[index + 1 - (ids.done side).length] ids
  ((ids.done side).getD index 0, ids)

def idA (ids : LineIds) (index : Nat) : Nat × LineIds := ids.idOf keys .a index

def idB (ids : LineIds) (index : Nat) : Nat × LineIds := ids.idOf keys .b index

def same (ids : LineIds) (x y : Nat) : Bool × LineIds :=
  let (idX, ids) := ids.idA keys x
  let (idY, ids) := ids.idB keys y
  (idX = idY, ids)

end LineIds

/-! ## Marks -/

/-- The lines of each side that have no counterpart. -/
structure Masks where
  removed : Nat → Bool
  added : Nat → Bool

def Masks.zero : Masks := ⟨fun _ => false, fun _ => false⟩

def fill (mask : Nat → Bool) (start stop : Nat) : Nat → Bool :=
  fun i => (start ≤ i && i < stop) || mask i

section

variable (keys : Side → List String) (n m : Nat)

/-- On along a diagonal while the lines are the same. -/
def slide : Nat → LineIds → Nat → Nat → Nat × LineIds
  | 0, ids, x, _ => (x, ids)
  | fuel + 1, ids, x, y =>
      if x < n ∧ y < m then
        let (same, ids) := ids.same keys x y
        if same then slide fuel ids (x + 1) (y + 1) else (x, ids)
      else (x, ids)

/-- How the exact search goes on after some diagonals of a round. -/
inductive RoundEnd where
  | found
  | spent
  | next
  deriving DecidableEq, Repr

/-- The diagonals of round `d` from one on, so many are left. Half of the budget is for this
search. -/
def exactRound (middle d : Nat) (budget : Int) : Nat → Int → List Nat → Nat → LineIds →
    RoundEnd × List Nat × Nat × LineIds
  | 0, _, v, work, ids => (.next, v, work, ids)
  | left + 1, k, v, work, ids =>
      let start := enter v middle d k
      let (x, ids) := slide keys n m n ids start (start - k).toNat
      let work := work + 1 + x - start
      let v := v.set (middle + k).toNat x
      if n ≤ x ∧ (m : Int) ≤ x - k then (.found, v, work, ids)
      else if budget < 2 * work then (.spent, v, work, ids)
      else exactRound middle d budget left (k + 2) v work ids

/-- The rounds from one on: the slices kept if the end is found, and the work done. -/
def exactRounds (middle : Nat) (budget : Int) : Nat → Nat → List Nat → List (List Nat) → Nat →
    LineIds → Option (List (List Nat)) × Nat × LineIds
  | 0, _, _, _, work, ids => (none, work, ids)
  | left + 1, d, v, trace, work, ids =>
      let trace := trace ++ [(v.drop (middle - d - 1)).take (2 * d + 3)]
      match exactRound keys n m middle d budget (d + 1) (-d) v work ids with
      | (.found, _, work, ids) => (some trace, work, ids)
      | (.spent, _, work, ids) => (none, work, ids)
      | (.next, v, work, ids) => exactRounds middle budget left (d + 1) v trace work ids

/-- The offsets the greedy diff looks at, the nearest first. -/
def windowOffsets : List (Nat × Nat) :=
  (List.range (2 * greedyWindow)).flatMap fun before =>
    let distance := before + 1
    ((List.range (min distance greedyWindow + 1)).drop (distance - greedyWindow)).map fun x =>
      (x, distance - x)

/-- The first offset at which the lines are the same again. -/
def lineUp (i j : Nat) : List (Nat × Nat) → Nat → LineIds → Option (Nat × Nat) × Nat × LineIds
  | [], work, ids => (none, work, ids)
  | (skipA, skipB) :: offsets, work, ids =>
      if i + skipA < n ∧ j + skipB < m then
        let (same, ids) := ids.same keys (i + skipA) (j + skipB)
        if same then (some (skipA, skipB), work + 1, ids) else lineUp i j offsets (work + 1) ids
      else lineUp i j offsets (work + 1) ids

def greedy (offset : Nat) (budget : Int) : Nat → Nat → Nat → Nat → LineIds → Masks → Masks
  | 0, i, j, _, _, masks =>
      ⟨fill masks.removed (offset + i) (offset + n), fill masks.added (offset + j) (offset + m)⟩
  | fuel + 1, i, j, work, ids, masks =>
      if i < n ∧ j < m ∧ work < budget then
        let work := work + 1
        let (same, ids) := ids.same keys i j
        if same then greedy offset budget fuel (i + 1) (j + 1) work ids masks
        else
          let (found, work, ids) := lineUp keys n m i j windowOffsets work ids
          let (skipA, skipB) := found.getD (1, 1)
          greedy offset budget fuel (i + skipA) (j + skipB) work ids
            ⟨fill masks.removed (offset + i) (offset + i + skipA),
              fill masks.added (offset + j) (offset + j + skipB)⟩
      else
        ⟨fill masks.removed (offset + i) (offset + n), fill masks.added (offset + j) (offset + m)⟩

/-- The one edit of each round is marked, back from a point of round `d`. -/
def backtrack (trace : List (List Nat)) (offset : Nat) : Nat → Nat → Nat → Masks → Masks
  | 0, _, _, masks => masks
  | d + 1, x, y, masks =>
      let v := trace.getD (d + 1) []
      let valueOf (diagonal : Int) := valueAt v (diagonal + (d + 1 : Nat) + 1)
      let k : Int := x - y
      let down := isDown (d + 1) k (valueOf (k - 1)) (valueOf (k + 1))
      let previousX := valueOf (if down then k + 1 else k - 1)
      let previousY := (previousX - (if down then k + 1 else k - 1)).toNat
      backtrack trace offset d previousX previousY
        (if down then
          { masks with added := fill masks.added (offset + previousY) (offset + previousY + 1) }
        else
          { masks with
            removed := fill masks.removed (offset + previousX) (offset + previousX + 1) })

def markChanges (masks : Masks) (offset : Nat) (budget : Int) : Masks :=
  if n = 0 ∨ m = 0 then
    ⟨fill masks.removed offset (offset + n), fill masks.added offset (offset + m)⟩
  else
    let limit := min (n + m) maxEditDistance
    let middle := limit + 1
    match exactRounds keys n m middle budget (limit + 1) 0 (List.replicate (2 * limit + 3) 0) [] 0
        .empty with
    | (some trace, _, _) => backtrack trace offset (trace.length - 1) n m masks
    | (none, work, ids) => greedy keys n m offset (budget - work) (n + m) 0 0 0 ids masks

end

/-! ## Hunks -/

structure Block where
  aStart : Nat
  aEnd : Nat
  bStart : Nat
  bEnd : Nat
  deriving DecidableEq, Repr

def runEnd (mask : Nat → Bool) : Nat → Nat → Nat
  | 0, i => i
  | left + 1, i => if mask i then runEnd mask left (i + 1) else i

/-- The changes from a point on, up to the lines `endA` and `endB`. -/
def blocksFrom (masks : Masks) (nA nB endA endB : Nat) : Nat → Nat → Nat → List Block
  | 0, _, _ => []
  | fuel + 1, i, j =>
      if i < endA ∨ j < endB then
        if i < nA ∧ j < nB ∧ masks.removed i = false ∧ masks.added j = false then
          blocksFrom masks nA nB endA endB fuel (i + 1) (j + 1)
        else
          let aEnd := runEnd masks.removed (nA - i) i
          let bEnd := runEnd masks.added (nB - j) j
          ⟨i, aEnd, j, bEnd⟩ :: blocksFrom masks nA nB endA endB fuel aEnd bEnd
      else []

def slice {α : Type} (list : List α) (start stop : Nat) : List α :=
  (list.drop start).take (stop - start)

/-- The blocks within twice the context of the one before, and the rest. -/
def joined (last : Block) : List Block → List Block × List Block
  | [] => ([], [])
  | block :: rest =>
      if block.aStart - last.aEnd ≤ 2 * diffContextLines then
        let (more, left) := joined block rest
        (block :: more, left)
      else ([], block :: rest)

/-- The steps from a point to the end of the last block, and where they end. -/
def blockSteps (a b : List Line) : Nat → Nat → List Block → List (Edit Line) × Nat × Nat
  | i, j, [] => ([], i, j)
  | i, j, block :: rest =>
      let j' := j + (block.aStart - i)
      let i' := i + (block.aStart - i)
      let iEnd := i' + (block.aEnd - i')
      let jEnd := j' + (block.bEnd - j')
      let (steps, last) := blockSteps a b iEnd jEnd rest
      ((slice b j j').map .keep ++ (slice a i' iEnd).map .delete ++ (slice b j' jEnd).map .insert ++
        steps, last)

def hunkOf (a b : List Line) (first : Block) (more : List Block) : Hunk Line :=
  let last := more.getLastD first
  let lead := min diffContextLines first.aStart
  let trail := min diffContextLines (a.length - last.aEnd)
  let aStart := first.aStart - lead
  let bStart := first.bStart - lead
  let aLength := last.aEnd + trail - aStart
  let bLength := last.bEnd + trail - bStart
  let (steps, _, j) := blockSteps a b aStart bStart (first :: more)
  { oldStart := Hunk.startOf aStart aLength, oldCount := aLength
    newStart := Hunk.startOf bStart bLength, newCount := bLength
    body := steps ++ (slice b j (j + trail)).map .keep }

def hunksOf (a b : List Line) : Nat → List Block → List (Hunk Line)
  | 0, _ | _, [] => []
  | fuel + 1, first :: rest =>
      let (more, left) := joined first rest
      hunkOf a b first more :: hunksOf a b fuel left

/-! ## The text -/

def noNewline : String := "\\ No newline at end of file"

/-- `emit`: the line, and the marker of one that no newline ends. -/
def emit : Edit Line → List String
  | .keep line => (" " ++ line.text) :: if line.newline then [] else [noNewline]
  | .delete line => ("-" ++ line.text) :: if line.newline then [] else [noNewline]
  | .insert line => ("+" ++ line.text) :: if line.newline then [] else [noNewline]

/-- Bytes a line costs in the event: JSON-escaped, with its escaped newline in place of the
quotes. -/
def lineCost (line : String) : Nat := (String.ofList (Json.quote line)).utf8ByteSize

/-- The lines that are pushed before the first one that does not fit, their bytes, and whether
there is one. -/
def pushLines (maxBytes : Nat) : List String → Nat → List String × Nat × Bool
  | [], bytes => ([], bytes, false)
  | line :: lines, bytes =>
      if maxBytes < bytes + lineCost line then ([], bytes, true)
      else
        let (out, result) := pushLines maxBytes lines (bytes + lineCost line)
        (line :: out, result)

structure UnifiedDiff where
  diff : String
  additions : Nat
  deletions : Nat
  truncated : Bool
  bytes : Nat
  deriving DecidableEq, Repr

/-- The lines of the diff as they are pushed, and the counts of the blocks. -/
def diffLines (path : String) (before after : Option String) (maxComparisons : Int) :
    List String × Nat × Nat :=
  let a := (splitLines (before.getD "")).all
  let b := (splitLines (after.getD "")).all
  let keysA := a.map key
  let keysB := b.map key
  let common := commonLength keysA keysB
  let suffix := commonLength (keysA.drop common).reverse (keysB.drop common).reverse
  let n := a.length - common - suffix
  let m := b.length - common - suffix
  let keys : Side → List String
    | .a => (keysA.drop common).take n
    | .b => (keysB.drop common).take m
  let masks := markChanges keys n m .zero common maxComparisons
  let blocks := blocksFrom masks a.length b.length (a.length - suffix) (b.length - suffix)
    (a.length + b.length) common common
  let lines := if blocks = [] then [] else
    ("--- " ++ if before = none then "/dev/null" else "a/" ++ path) ::
    ("+++ " ++ if after = none then "/dev/null" else "b/" ++ path) ::
    (hunksOf a b blocks.length blocks).flatMap fun hunk => hunk.header :: hunk.body.flatMap emit
  (lines, (blocks.map fun block => block.bEnd - block.bStart).sum,
    (blocks.map fun block => block.aEnd - block.aStart).sum)

def unifiedDiff (path : String) (before after : Option String) (maxBytes : Nat)
    (maxComparisons : Int) : UnifiedDiff :=
  let (lines, additions, deletions) := diffLines path before after maxComparisons
  let (out, bytes, truncated) := pushLines maxBytes lines 0
  { diff := if out = [] then "" else "\n".intercalate out ++ "\n"
    additions, deletions, truncated, bytes }

end OmniRush.Server.TurnDiff
