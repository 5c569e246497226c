import Mathlib.Data.List.TakeWhile
import OmniRush.Shell.Classify

/-!
# Lines of plain words

A line without quotes, operators or line ends, none of whose words begins a comment or is
a brace, is one segment, and its tokens are its words. The scanner takes one character
after the other, since none of them is a separator where it stands.
-/

namespace OmniRush.Shell

def isBlank (c : Char) : Bool := c = ' ' || c = '\t'

/-- A character that ends no word and quotes nothing. -/
def isPlainChar (c : Char) : Bool := !isSpace c && !"'\"\\\x60;&|()<>".toList.contains c

/-- The line is plain from a place on, where a word may begin or goes on. -/
def isPlainFrom (first : Bool) : List Char → Bool
  | [] => true
  | c :: rest =>
      if isBlank c then isPlainFrom true rest
      else isPlainChar c && !(first && c = '#')
        && !(first && (c = '\x7b' || c = '\x7d') && rest.head?.all isBlank)
        && isPlainFrom false rest

def isPlainLine (line : List Char) : Bool := isPlainFrom true line

/-- The words after one that is under way. -/
def wordsFrom (current : List Char) : List Char → List (List Char)
  | [] => if current = [] then [] else [current]
  | c :: rest =>
      if isBlank c then (if current = [] then [] else [current]) ++ wordsFrom [] rest
      else wordsFrom (current ++ [c]) rest

def words (line : List Char) : List (List Char) := wordsFrom [] line

def tokens (line : List Char) : List String := (words line).map String.ofList

/-! ## Words -/

theorem isBlank_isSpace {c : Char} (h : isBlank c = true) : isSpace c = true := by
  simp only [isBlank, Bool.or_eq_true, decide_eq_true_eq] at h
  rcases h with rfl | rfl <;> rfl

theorem isPlainChar_ne {c : Char} (h : isPlainChar c = true) :
    isSpace c = false ∧ c ≠ '\'' ∧ c ≠ '"' ∧ c ≠ '\\' ∧ c ≠ '\x60' ∧ c ≠ ';' ∧ c ≠ '&' ∧ c ≠ '|' ∧
      c ≠ '(' ∧ c ≠ ')' ∧ c ≠ '<' ∧ c ≠ '>' := by
  have hlist : "'\"\\\x60;&|()<>".toList
      = ['\'', '"', '\\', '\x60', ';', '&', '|', '(', ')', '<', '>'] := rfl
  rw [isPlainChar, hlist] at h
  simpa [Bool.and_eq_true, and_assoc] using h

theorem wordsFrom_blank {current rest : List Char} {c : Char} (h : isBlank c = true) :
    wordsFrom current (c :: rest) = wordsFrom current [] ++ words rest := by
  simp only [wordsFrom, h, if_true]
  rfl

theorem wordsFrom_append {current cs rest : List Char} {c : Char} (h : isBlank c = true) :
    wordsFrom current (cs ++ c :: rest) = wordsFrom current cs ++ words rest := by
  induction cs generalizing current with
  | nil => exact wordsFrom_blank h
  | cons d cs ih =>
      rw [List.cons_append]
      by_cases hd : isBlank d = true
      · rw [wordsFrom_blank hd, wordsFrom_blank hd, List.append_assoc]
        exact congrArg _ ih
      · simp only [wordsFrom, hd]
        exact ih

theorem words_append {cs rest : List Char} {c : Char} (h : isBlank c = true) :
    words (cs ++ c :: rest) = words cs ++ words rest := wordsFrom_append h

theorem tokens_append {cs rest : List Char} {c : Char} (h : isBlank c = true) :
    tokens (cs ++ c :: rest) = tokens cs ++ tokens rest := by
  simp only [tokens, words_append h, List.map_append]

/-! ## Tokens of plain text -/

/-- The text of the token under way, none before its first character. -/
def textOf (current : Option Token) : List Char := (current.map (·.text)).getD []

theorem textOf_push (current : Option Token) (index : Nat) (c : Char) :
    textOf (pushChar current index [c]) = textOf current ++ [c] := by
  cases current <;> rfl

/-- A token under way has a character. -/
def Begun (current : Option Token) : Prop := current ≠ none → textOf current ≠ []

theorem begun_push {current : Option Token} {index : Nat} {c : Char} :
    Begun (pushChar current index [c]) := by
  intro _
  rw [textOf_push]
  simp

theorem texts_current {current : Option Token} (h : Begun current) :
    current.toList.map (·.text) = wordsFrom (textOf current) [] := by
  cases current with
  | none => rfl
  | some token =>
      have hne : token.text ≠ [] := h (by simp)
      simp [textOf, wordsFrom, hne]

theorem tokenizeFrom_plain {index : Nat} {current : Option Token} {line : List Char}
    (hbegun : Begun current) (hplain : isPlainFrom current.isNone line = true) :
    (tokenizeFrom index none current line).map (·.text) = wordsFrom (textOf current) line := by
  induction line generalizing index current with
  | nil =>
      rw [tokenizeFrom]
      exact texts_current hbegun
  | cons c rest ih =>
      by_cases hblank : isBlank c = true
      · rw [isPlainFrom, if_pos hblank] at hplain
        have hne : c ≠ '\'' ∧ c ≠ '"' ∧ c ≠ '\\' := by
          simp only [isBlank, Bool.or_eq_true, decide_eq_true_eq] at hblank
          rcases hblank with rfl | rfl <;> decide
        have hstep : tokenizeFrom index none current (c :: rest)
            = current.toList ++ tokenizeFrom (index + 1) none none rest := by
          rw [tokenizeFrom]
          · simp [hne.1, hne.2.1, isBlank_isSpace hblank]
          · rintro next rest' rfl
            exact absurd rfl hne.2.2
        rw [hstep, List.map_append, texts_current hbegun,
          @ih _ none (fun h => absurd rfl h) hplain, wordsFrom_blank hblank]
        rfl
      · rw [isPlainFrom, if_neg hblank] at hplain
        simp only [Bool.and_eq_true, Bool.not_eq_true'] at hplain
        obtain ⟨⟨⟨hchar, hcomment⟩, -⟩, hrest⟩ := hplain
        obtain ⟨hspace, hsingle, hdouble, hslash, -⟩ := isPlainChar_ne hchar
        have hstep : tokenizeFrom index none current (c :: rest)
            = tokenizeFrom (index + 1) none (pushChar current index [c]) rest := by
          have hhash : ¬ (c = '#' ∧ current = none) := by
            rintro ⟨rfl, rfl⟩
            simp at hcomment
          rw [tokenizeFrom]
          · simp [hsingle, hdouble, hspace, hhash]
          · rintro next rest' rfl
            exact absurd rfl hslash
        have hnone : (pushChar current index [c]).isNone = false := by cases current <;> rfl
        rw [hstep, ih begun_push (by rw [hnone]; exact hrest), textOf_push, wordsFrom,
          if_neg hblank]

theorem tokenizeSegment_plain {line : List Char} (h : isPlainLine line = true) :
    (tokenizeSegment line).map (·.text) = words line :=
  tokenizeFrom_plain (fun h => absurd rfl h) h

/-! ## The scan of a plain line -/

/-- What comes before a place where a word may begin or goes on. -/
def Follows (first : Bool) (prev : Option Char) : Prop :=
  if first then prev.all isBlank = true else prev.any isPlainChar = true

theorem startsWith_cons (c d : Char) (rest cs : List Char) (head : String)
    (h : head.toList = d :: cs) :
    startsWith (c :: rest) head = (d == c && cs.isPrefixOf rest) := by
  rw [startsWith, h]
  rfl

theorem startsWith_ne (head : String) {c d : Char} {rest cs : List Char}
    (h : head.toList = d :: cs) (hne : c ≠ d) : startsWith (c :: rest) head = false := by
  rw [startsWith_cons c d rest cs head h, beq_eq_false_iff_ne.mpr hne.symm, Bool.false_and]

/-- Of the separators, only a brace can begin at a plain character or a blank. -/
theorem find_separators {c : Char} {rest : List Char} (hn : c ≠ '\n')
    (hc : c ≠ ';' ∧ c ≠ '&' ∧ c ≠ '|' ∧ c ≠ '(' ∧ c ≠ ')' ∧ c ≠ '\x60')
    (hdollar : startsWith (c :: rest) "$(" = false) :
    separators.find? (startsWith (c :: rest))
      = if c = '\x7b' then some "\x7b" else if c = '\x7d' then some "\x7d" else none := by
  obtain ⟨h1, h2, h3, h4, h5, h6⟩ := hc
  have hopen : startsWith (c :: rest) "\x7b" = decide (c = '\x7b') := by
    rw [startsWith_cons c '\x7b' rest [] _ rfl, List.isPrefixOf, Bool.and_true, BEq.comm]
    rfl
  have hclose : startsWith (c :: rest) "\x7d" = decide (c = '\x7d') := by
    rw [startsWith_cons c '\x7d' rest [] _ rfl, List.isPrefixOf, Bool.and_true, BEq.comm]
    rfl
  have hbefore : ["&&", "||", ";;", "|&", ";", "|", "&", "\n", "(", ")"].find?
      (startsWith (c :: rest)) = none := by
    simp only [List.find?_cons, startsWith_ne "&&" rfl h2,
      startsWith_ne "||" rfl h3, startsWith_ne ";;" rfl h1,
      startsWith_ne "|&" rfl h3, startsWith_ne ";" rfl h1,
      startsWith_ne "|" rfl h3, startsWith_ne "&" rfl h2,
      startsWith_ne "\n" rfl hn, startsWith_ne "(" rfl h4,
      startsWith_ne ")" rfl h5, List.find?_nil]
  have hsplit : separators = ["&&", "||", ";;", "|&", ";", "|", "&", "\n", "(", ")"]
      ++ ["\x7b", "\x7d", "\x60", "$("] := rfl
  rw [hsplit, List.find?_append, hbefore, Option.none_or]
  simp only [List.find?_cons, hopen, hclose, startsWith_ne "\x60" rfl h6, hdollar,
    List.find?_nil]
  by_cases hb : c = '\x7b'
  · simp [hb]
  · by_cases hd : c = '\x7d'
    · simp [hd]
    · simp [hb, hd]

theorem Follows.beginsWord {prev : Option Char} (h : Follows false prev) {s : Scan}
    (hs : s.prev = prev) : s.beginsWord ";|&()" = false := by
  obtain ⟨d, rfl, hd⟩ : ∃ d, prev = some d ∧ isPlainChar d = true := by
    cases prev with
    | none => cases h
    | some d => exact ⟨d, rfl, h⟩
  obtain ⟨hspace, -, -, -, -, h1, h2, h3, h4, h5, -⟩ := isPlainChar_ne hd
  have hlist : ";|&()".toList = [';', '|', '&', '(', ')'] := rfl
  rw [Scan.beginsWord, hs, hlist]
  simp [hspace, h1, h2, h3, h4, h5]

theorem isPlainFrom_head {first : Bool} {c : Char} {rest : List Char}
    (h : isPlainFrom first (c :: rest) = true) :
    (isBlank c = true ∧ isPlainFrom true rest = true) ∨
      (isPlainChar c = true ∧ isPlainFrom false rest = true ∧
        (first = true → (c = '\x7b' ∨ c = '\x7d') → ∃ d, rest.head? = some d ∧
          isPlainChar d = true)) := by
  rw [isPlainFrom] at h
  split at h
  · next hblank => exact .inl ⟨hblank, h⟩
  · simp only [Bool.and_eq_true, Bool.not_eq_true'] at h
    obtain ⟨⟨⟨hchar, -⟩, hbrace⟩, hrest⟩ := h
    refine .inr ⟨hchar, hrest, fun hfirst hc => ?_⟩
    have hall : rest.head?.all isBlank = false := by
      rcases hc with rfl | rfl <;> simpa [hfirst] using hbrace
    cases rest with
    | nil => simp at hall
    | cons d rest =>
        have hd : isBlank d = false := by simpa using hall
        rw [isPlainFrom, hd] at hrest
        simp only [Bool.false_eq_true, if_false, Bool.and_eq_true] at hrest
        exact ⟨d, rfl, hrest.1.1.1⟩

theorem dollar_plain {first : Bool} {c : Char} {rest : List Char}
    (h : isPlainFrom first (c :: rest) = true) : startsWith (c :: rest) "$(" = false := by
  have hparen : ∀ first, isPlainFrom first rest = true → rest.head? ≠ some '(' := by
    intro first hrest hhead
    cases rest with
    | nil => cases hhead
    | cons d rest =>
        cases hhead
        rcases isPlainFrom_head hrest with ⟨hblank, -⟩ | ⟨hchar, -⟩
        · exact absurd hblank (by decide)
        · exact absurd hchar (by decide)
  have hne : rest.head? ≠ some '(' := by
    rcases isPlainFrom_head h with ⟨-, hrest⟩ | ⟨-, hrest, -⟩
    · exact hparen _ hrest
    · exact hparen _ hrest
  rw [startsWith_cons c '$' rest ['('] _ rfl]
  cases rest with
  | nil => simp [List.isPrefixOf]
  | cons d rest =>
      have hd : d ≠ '(' := fun heq => hne (by rw [heq]; rfl)
      simp [List.isPrefixOf, Ne.symm hd]

theorem separator_plain {first : Bool} {c : Char} {rest : List Char} {s : Scan}
    (hfollows : Follows first s.prev) (h : isPlainFrom first (c :: rest) = true) :
    s.separator (c :: rest) = none := by
  have hdollar := dollar_plain h
  rw [Scan.separator]
  rcases isPlainFrom_head h with ⟨hblank, -⟩ | ⟨hchar, -, hbrace⟩
  · have hfind : separators.find? (startsWith (c :: rest)) = none := by
      simp only [isBlank, Bool.or_eq_true, decide_eq_true_eq] at hblank
      rw [find_separators (by rcases hblank with rfl | rfl <;> decide)
        (by rcases hblank with rfl | rfl <;> decide) hdollar]
      rcases hblank with rfl | rfl <;> rfl
    rw [hfind]
    rfl
  · obtain ⟨hspace, -, -, -, h6, h1, h2, h3, h4, h5, -, -⟩ := isPlainChar_ne hchar
    have hnewline : c ≠ '\n' := by
      rintro rfl
      exact absurd hspace (by decide)
    rw [find_separators hnewline ⟨h1, h2, h3, h4, h5, h6⟩ hdollar]
    have hword : c = '\x7b' ∨ c = '\x7d' → (s.beginsWord ";|&()"
        && rest.head?.all fun c => isSpace c || ";|&()".toList.contains c) = false := by
      intro hc
      cases first with
      | false => rw [hfollows.beginsWord rfl, Bool.false_and]
      | true =>
          obtain ⟨d, hd, hplain⟩ := hbrace rfl hc
          obtain ⟨hspace, -, -, -, -, h1, h2, h3, h4, h5, -⟩ := isPlainChar_ne hplain
          have hlist : ";|&()".toList = [';', '|', '&', '(', ')'] := rfl
          rw [hd, hlist]
          simp [hspace, h1, h2, h3, h4, h5]
    by_cases hopen : c = '\x7b'
    · have hfalse := hword (.inl hopen)
      simp only [if_pos hopen, Option.filter_some, List.tail_cons, hfalse]
      simp
    · rw [if_neg hopen]
      by_cases hclose : c = '\x7d'
      · have hfalse := hword (.inr hclose)
        simp only [if_pos hclose, Option.filter_some, List.tail_cons, hfalse]
        simp
      · rw [if_neg hclose]
        rfl

theorem newline_notMem {first : Bool} {line : List Char} (h : isPlainFrom first line = true) :
    '\n' ∉ line := by
  induction line generalizing first with
  | nil => simp
  | cons c rest ih =>
      intro hmem
      rcases isPlainFrom_head h with ⟨hblank, hrest⟩ | ⟨hchar, hrest, -⟩
      · rcases List.mem_cons.mp hmem with rfl | hmem
        · exact absurd hblank (by decide)
        · exact ih hrest hmem
      · rcases List.mem_cons.mp hmem with rfl | hmem
        · exact absurd hchar (by decide)
        · exact ih hrest hmem

/-- Nothing opens or ends at a character of a plain line, save for a comment that the
tokens do not see. -/
theorem scan_take {fuel : Nat} {first : Bool} {s : Scan} {c : Char} {rest : List Char}
    (hquote : s.quote = none) (hstack : s.stack = []) (hheredocs : s.heredocs = [])
    (hfollows : Follows first s.prev) (h : isPlainFrom first (c :: rest) = true) :
    scan (fuel + 1) s (c :: rest) = scan fuel (s.take [c]) rest ∨
      scan (fuel + 1) s (c :: rest) = scan fuel (s.take (c :: rest)) [] := by
  have hne : c ≠ '\'' ∧ c ≠ '"' ∧ c ≠ '\\' ∧ c ≠ '<' := by
    rcases isPlainFrom_head h with ⟨hblank, -⟩ | ⟨hchar, -, -⟩
    · simp only [isBlank, Bool.or_eq_true, decide_eq_true_eq] at hblank
      rcases hblank with rfl | rfl <;> decide
    · obtain ⟨-, h1, h2, h3, -, -, -, -, -, -, h4, -⟩ := isPlainChar_ne hchar
      exact ⟨h1, h2, h3, h4⟩
  have hnewline : '\n' ∉ c :: rest := newline_notMem h
  have hdollar := dollar_plain h
  have hseparator := separator_plain hfollows h
  have hheredoc : startsWith (c :: rest) "<<" = false := startsWith_ne "<<" rfl hne.2.2.2
  have hslash : ∀ next tail, c = '\\' → rest = next :: tail → False := fun _ _ heq _ =>
    hne.2.2.1 heq
  by_cases hcomment : c = '#' ∧ s.beginsWord ";|&()\x7b\x7d\x60" = true
  · right
    have hall : ∀ d ∈ rest, (!decide (d = '\n')) = true := fun d hd => by
      have hne : d ≠ '\n' := fun heq => hnewline (List.mem_cons_of_mem _ (heq ▸ hd))
      simpa using hne
    have htake : rest.takeWhile (fun d => !decide (d = '\n')) = rest :=
      List.takeWhile_eq_self_iff.mpr hall
    have hdrop : rest.dropWhile (fun d => !decide (d = '\n')) = [] :=
      List.dropWhile_eq_nil_iff.mpr hall
    obtain ⟨rfl, hbegins⟩ := hcomment
    rw [scan]
    · simp [hquote, hbegins, htake, hdrop]
    · exact hslash
  · left
    rw [scan]
    · simp [hquote, hstack, hheredocs, hne.1, hne.2.1, hcomment, hheredoc, hdollar, hseparator]
    · exact hslash

theorem scan_plain {fuel : Nat} {first : Bool} {s : Scan} {line : List Char}
    (hfuel : line.length < fuel) (hquote : s.quote = none) (hstack : s.stack = [])
    (hheredocs : s.heredocs = []) (hfollows : Follows first s.prev)
    (h : isPlainFrom first line = true) :
    scan fuel s line = segmentOf s.start (s.pending ++ line) := by
  induction line generalizing fuel first s with
  | nil =>
      obtain ⟨fuel, rfl⟩ := Nat.exists_eq_add_of_lt hfuel
      rw [List.append_nil, scan]
      rfl
  | cons c rest ih =>
      obtain ⟨fuel, rfl⟩ : ∃ n, fuel = n + 1 := ⟨fuel - 1, by omega⟩
      rw [List.length_cons] at hfuel
      rcases @scan_take fuel first s c rest hquote hstack hheredocs hfollows h with hstep | hstep
      · have hnext : ∃ next, Follows next (s.take [c]).prev ∧ isPlainFrom next rest = true := by
          rcases isPlainFrom_head h with ⟨hblank, hrest⟩ | ⟨hchar, hrest, -⟩
          · exact ⟨true, hblank, hrest⟩
          · exact ⟨false, hchar, hrest⟩
        obtain ⟨next, hnext, hrest⟩ := hnext
        rw [hstep, ih (s := s.take [c]) (by omega) hquote hstack hheredocs hnext hrest]
        show segmentOf s.start ((s.pending ++ [c]) ++ rest) = _
        rw [List.append_assoc]
        rfl
      · obtain ⟨fuel, rfl⟩ : ∃ n, fuel = n + 1 := ⟨fuel - 1, by omega⟩
        rw [hstep, scan]
        rfl

/-- A plain line with a first word that is not reserved is one segment of its words. -/
theorem splitShellCommand_plain {line : List Char} (h : isPlainLine line = true) {first : String}
    {rest : List String} (htokens : tokens line = first :: rest) (hne : first ≠ "")
    (hreserved : reservedWords.contains first = false) :
    ∃ segment, splitShellCommand line = [segment] ∧ segment.tokens = first :: rest := by
  have htexts := tokenizeSegment_plain h
  have hscan : splitShellCommand line = segmentOf 0 line := by
    have hplain := @scan_plain (line.length + 1) true {} line (by omega) rfl rfl rfl rfl h
    exact hplain
  have hstrings : (tokenizeSegment line).map (fun token => String.ofList token.text)
      = first :: rest := by
    rw [← htokens, tokens, ← htexts, List.map_map]
    rfl
  rw [hscan, segmentOf]
  cases htoken : tokenizeSegment line with
  | nil =>
      rw [htoken] at hstrings
      cases hstrings
  | cons token more =>
      rw [htoken, List.map_cons, List.cons.injEq] at hstrings
      obtain ⟨rfl, rfl⟩ := hstrings
      have hkept : dropReserved (token :: more) = token :: more := by
        have hnot : token.isReserved = false := hreserved
        cases more <;> simp [dropReserved, hnot]
      have htext : token.text ≠ [] := fun hnil => hne (by rw [hnil])
      simp [hkept, htext]

example : (splitShellCommand "git log  -1".toList).map (·.tokens) = [["git", "log", "-1"]] := by
  decide +kernel

end OmniRush.Shell
