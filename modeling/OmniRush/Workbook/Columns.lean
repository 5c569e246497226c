import OmniRush.Lib.Numeral

/-!
# The columns of a sheet

`columnLetters` and `columnIndex` of `xlsx-workbook.ts`. Both count with JavaScript's numbers, so
with doubles. A column of letters that no double can hold has an infinite index, `none` here.
-/

namespace OmniRush.Workbook

/-- The digits of `columnLetters`, with the most rounds there can be: each makes the value less. -/
def columnLettersFrom : Nat → Nat → List Char
  | 0, _ => []
  | rounds + 1, value =>
      if value > 0 then
        let before := (toDouble (value - 1)).getD 0
        let remainder := before % 26
        columnLettersFrom rounds (floorDiv before 26) ++ [Char.ofNat (65 + remainder)]
      else []

def columnLetters (column : Nat) : String := String.ofList (columnLettersFrom column column)

/-- `toUpperCase` of a character. Where it gives other letters than A to Z, `columnIndex` answers
the same for them as for the character. -/
def upperCase (c : Char) : List Char :=
  match c with
  | 'ı' => ['I']
  | 'ſ' => ['S']
  | 'ß' => ['S', 'S']
  | 'ﬀ' => ['F', 'F']
  | 'ﬁ' => ['F', 'I']
  | 'ﬂ' => ['F', 'L']
  | 'ﬃ' => ['F', 'F', 'I']
  | 'ﬄ' => ['F', 'F', 'L']
  | 'ﬅ' => ['S', 'T']
  | 'ﬆ' => ['S', 'T']
  | c => [c.toUpper]

/-- `value * 26 + digit`. -/
def nextIndex (value : Option Nat) (digit : Nat) : Option Nat :=
  value.bind fun value => (toDouble (value * 26)).bind fun product => toDouble (product + digit)

def columnIndexFrom (value : Option Nat) : List Char → Option Nat
  | [] => value
  | c :: letters =>
      if c.toNat < 65 || c.toNat > 90 then some 0
      else columnIndexFrom (nextIndex value (c.toNat - 64)) letters

def columnIndex (letters : String) : Option Nat :=
  columnIndexFrom (some 0) (letters.toList.flatMap upperCase)

end OmniRush.Workbook
