import OmniRush.Lib.Cut

/-!
# Words of a shell script

How a POSIX shell reads a script that is a list of simple commands joined by `&&`: token
recognition, quoting by single quotes and backslashes, and what each command runs. A script with
anything else in it (an expansion, a redirection, another operator, a reserved word, an assignment
before a command) is not read (`none`), so what is read is run as it stands, with no expansion and
no splitting.

`readWords` goes on with a word that is begun. A quoting function is right if it takes the reader
from any word that is begun to that word with the quoted text after it.
-/

namespace OmniRush

abbrev ShellWord := List Char

/-- The characters that mean something to a shell outside quotes, some of them only at certain
places. -/
def shellSpecials : List Char := "|&;<>()$\x60\\\"\x27 \t\n*?[#~\x7b\x7d!^".toList

/-- A character that stands for itself wherever in a word it is. -/
def isPlain (c : Char) : Bool := !shellSpecials.contains c

/-- Words at the head of a script's first command. -/
def addWords (words : List ShellWord) : List (List ShellWord) → List (List ShellWord)
  | [] => [words]
  | command :: rest => (words ++ command) :: rest

/-- The commands of a script, each as its words. -/
def readWords : Bool → Option ShellWord → List Char → Option (List (List ShellWord))
  | false, word, [] => some [word.toList]
  | true, _, [] => none
  | true, word, c :: cs =>
      if c = '\'' then readWords false word cs
      else readWords true (some (word.getD [] ++ [c])) cs
  | false, word, '\'' :: cs => readWords true (some (word.getD [])) cs
  | false, word, '\\' :: '\n' :: cs => readWords false word cs
  | false, word, '\\' :: c :: cs => readWords false (some (word.getD [] ++ [c])) cs
  | false, word, ' ' :: cs => (readWords false none cs).map (addWords word.toList)
  | false, word, '\t' :: cs => (readWords false none cs).map (addWords word.toList)
  | false, word, '&' :: '&' :: cs => (readWords false none cs).map (word.toList :: ·)
  | false, word, c :: cs =>
      if isPlain c then readWords false (some (word.getD [] ++ [c])) cs else none

def reservedWords : List ShellWord :=
  ["!", "\x7b", "\x7d", "[[", "]]", "case", "do", "done", "elif", "else", "esac", "fi", "for",
    "function", "if", "in", "select", "then", "time", "until", "while"].map String.toList

/-- The programs that commands run one after the other, as long as each succeeds. What `exec` runs
takes the shell's place. -/
def shellPrograms : List (List ShellWord) → Option (List (List ShellWord))
  | [] => some []
  | [] :: _ => none
  | (name :: args) :: rest =>
      if name = "exec".toList then
        match args with
        | [] => none
        | program :: _ => if program.head? = some '-' then none else some [args]
      else if name ∈ reservedWords ∨ '=' ∈ name then none
      else (shellPrograms rest).map ((name :: args) :: ·)

/-- The programs a script runs. -/
def shellRuns (script : List Char) : Option (List (List ShellWord)) :=
  (readWords false none script).bind shellPrograms

/-- What `env` sets, and what it runs: its operands up to the first without an equals sign are
assignments. Options are not read. -/
def envRuns : List ShellWord → Option (List (ShellWord × ShellWord) × List ShellWord)
  | [] => some ([], [])
  | operand :: rest =>
      if operand.head? = some '-' then none
      else
        match cutFirst '=' operand with
        | none => some ([], operand :: rest)
        | some assignment => (envRuns rest).map fun (set, command) => (assignment :: set, command)

/-! ## Reading what was written -/

/-- Words with a blank between any two. -/
def joinWords : List (List Char) → List Char
  | [] => []
  | [word] => word
  | word :: next :: words => word ++ ' ' :: joinWords (next :: words)

/-- The reader takes `text` for `word`, wherever it is in a word. -/
def ReadsAs (text : List Char) (word : ShellWord) : Prop :=
  ∀ begun rest, readWords false begun (text ++ rest) =
    readWords false (some (begun.getD [] ++ word)) rest

theorem ReadsAs.append {text text' : List Char} {word word' : ShellWord} (h : ReadsAs text word)
    (h' : ReadsAs text' word') : ReadsAs (text ++ text') (word ++ word') := by
  intro begun rest
  rw [List.append_assoc, h, h', Option.getD_some, List.append_assoc]

theorem readWords_plain {c : Char} (h : isPlain c = true) (begun : Option ShellWord)
    (rest : List Char) :
    readWords false begun (c :: rest) = readWords false (some (begun.getD [] ++ [c])) rest := by
  have hne : c ≠ '\'' ∧ c ≠ '\\' ∧ c ≠ ' ' ∧ c ≠ '\t' ∧ c ≠ '&' := by
    refine ⟨?_, ?_, ?_, ?_, ?_⟩ <;> (intro heq; subst heq; revert h; decide)
  rw [readWords.eq_def]
  split <;> simp_all

theorem readsAs_plain {text : List Char} (hne : text ≠ []) (h : text.all isPlain = true) :
    ReadsAs text text := by
  induction text with
  | nil => exact absurd rfl hne
  | cons c text ih =>
      rw [List.all_cons, Bool.and_eq_true] at h
      intro begun rest
      rw [List.cons_append, readWords_plain h.1]
      cases text with
      | nil => rfl
      | cons d text =>
          rw [ih (List.cons_ne_nil d text) h.2, Option.getD_some, List.append_assoc]
          rfl

/-- In single quotes everything stands for itself but a single quote, which ends them. -/
theorem readWords_quoted {c : Char} (hc : c ≠ '\'') (begun rest : List Char) :
    readWords true (some begun) (c :: rest) = readWords true (some (begun ++ [c])) rest := by
  rw [readWords, if_neg hc]
  rfl

theorem readWords_blank (begun : Option ShellWord) (rest : List Char) :
    readWords false begun (' ' :: rest) = (readWords false none rest).map (addWords begun.toList) :=
  rfl

theorem addWords_addWords (words words' : List ShellWord) (script : List (List ShellWord)) :
    addWords words (addWords words' script) = addWords (words ++ words') script := by
  cases script with
  | nil => rfl
  | cons command rest => simp only [addWords, List.append_assoc]

section

variable {β : Type} {text : β → List Char} {word : β → ShellWord} {xs : List β}

theorem readWords_joined (h : ∀ x ∈ xs, ReadsAs (text x) (word x)) (hne : xs ≠ [])
    (rest : List Char) :
    readWords false none (joinWords (xs.map text) ++ ' ' :: rest) =
      (readWords false none rest).map (addWords (xs.map word)) := by
  induction xs with
  | nil => exact absurd rfl hne
  | cons x xs ih =>
      have hx := h x List.mem_cons_self
      cases xs with
      | nil =>
          rw [List.map_cons, List.map_nil, joinWords, hx, readWords_blank]
          rfl
      | cons y ys =>
          rw [List.map_cons, List.map_cons, joinWords, List.append_assoc, hx, List.cons_append,
            readWords_blank, ← List.map_cons,
            ih (fun z hz => h z (List.mem_cons_of_mem x hz)) (List.cons_ne_nil y ys),
            Option.map_map]
          congr 1
          funext script
          exact addWords_addWords ..

theorem readWords_joined_end (h : ∀ x ∈ xs, ReadsAs (text x) (word x)) (hne : xs ≠ []) :
    readWords false none (joinWords (xs.map text)) = some [xs.map word] := by
  induction xs with
  | nil => exact absurd rfl hne
  | cons x xs ih =>
      have hx := h x List.mem_cons_self
      cases xs with
      | nil =>
          have hend := hx none []
          rw [List.append_nil] at hend
          rw [List.map_cons, List.map_nil, joinWords, hend]
          rfl
      | cons y ys =>
          rw [List.map_cons, List.map_cons, joinWords, hx, readWords_blank, ← List.map_cons,
            ih (fun z hz => h z (List.mem_cons_of_mem x hz)) (List.cons_ne_nil y ys)]
          rfl

end

theorem readWords_and (rest : List Char) :
    readWords false none ('&' :: '&' :: ' ' :: rest) =
      (readWords false none rest).map fun script => [] :: addWords [] script := by
  rw [show readWords false none ('&' :: '&' :: ' ' :: rest) =
    (readWords false none (' ' :: rest)).map ([] :: ·) from rfl, readWords_blank, Option.map_map]
  rfl

end OmniRush
