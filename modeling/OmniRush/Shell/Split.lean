/-!
# Splitting a command line

`splitShellCommand` and `tokenizeSegment` of `git-command-policy.ts`. A command line is
scanned once. What was read since the last separator is the segment under way, and a
segment is kept when something is left of it once its reserved words are dropped.

The scanner holds one quote, a stack of what it was inside of at each open `$(`, and the
heredocs whose bodies begin at the next line. Positions are offsets in the whole command
line. A loop of the source is bounded by the length of the text it consumes.
-/

namespace OmniRush.Shell

/-- `\s`. -/
def isSpace (c : Char) : Bool :=
  let n := c.toNat
  (9 ≤ n && n ≤ 13) || n = 0x20 || n = 0xa0 || n = 0x1680 || (0x2000 ≤ n && n ≤ 0x200a)
    || n = 0x2028 || n = 0x2029 || n = 0x202f || n = 0x205f || n = 0x3000 || n = 0xfeff

/-! ## Tokens -/

structure Token where
  text : List Char
  /-- Offset of the token in the segment text. -/
  offset : Nat
  deriving DecidableEq, Repr

/-- The token under way with one more character, begun at `index` if there is none. -/
def pushChar (current : Option Token) (index : Nat) (cs : List Char) : Option Token :=
  match current with
  | none => some ⟨cs, index⟩
  | some token => some { token with text := token.text ++ cs }

/-- `tokenizeSegment` from an index on. -/
def tokenizeFrom (index : Nat) (quote : Option Char) (current : Option Token) :
    List Char → List Token
  | [] => current.toList
  | '\\' :: next :: rest =>
      if quote = some '\'' then
        tokenizeFrom (index + 1) quote (pushChar current index ['\\']) (next :: rest)
      else if next = '\n' ∧ quote = none then
        -- a line continuation
        tokenizeFrom (index + 2) quote current rest
      else tokenizeFrom (index + 2) quote (pushChar current index [next]) rest
  | char :: rest =>
      if quote = some '\'' ∨ quote = some '"' then
        if quote = some char then tokenizeFrom (index + 1) none current rest
        else tokenizeFrom (index + 1) quote (pushChar current index [char]) rest
      else if char = '\'' ∨ char = '"' then
        tokenizeFrom (index + 1) (some char) (pushChar current index []) rest
      else if isSpace char then current.toList ++ tokenizeFrom (index + 1) quote none rest
      else if char = '#' ∧ current = none then []
      else tokenizeFrom (index + 1) quote (pushChar current index [char]) rest

def tokenizeSegment (text : List Char) : List Token := tokenizeFrom 0 none none text

/-! ## Segments -/

structure ShellSegment where
  text : List Char
  /-- Offset of the first non-blank character. -/
  start : Nat
  /-- Offset of the command proper, after reserved words. -/
  commandStart : Nat
  tokens : List String
  deriving DecidableEq, Repr

/-- `RESERVED_PREFIX`. -/
def reservedWords : List String :=
  ["if", "then", "else", "elif", "while", "until", "do", "!", "coproc", "time"]

def Token.isReserved (token : Token) : Bool := reservedWords.contains (String.ofList token.text)

/-- The tokens after the reserved words, and after the `-p` of a `time`. -/
def dropReserved : List Token → List Token
  | [] => []
  | [token] => if token.isReserved then [] else [token]
  | token :: next :: rest =>
      if !token.isReserved then token :: next :: rest
      else if token.text = "time".toList ∧ next.text = "-p".toList then dropReserved rest
      else dropReserved (next :: rest)

/-- What `flush` pushes for a text that begins at `start`. -/
def segmentOf (start : Nat) (text : List Char) : List ShellSegment :=
  match dropReserved (tokenizeSegment text) with
  | [] => []
  | first :: rest =>
      if (first :: rest).all fun token => token.text = [] then []
      else
        [{ text
           start := start + (text.takeWhile isSpace).length
           commandStart := start + first.offset
           tokens := (first :: rest).map fun token => String.ofList token.text }]

/-! ## Heredocs -/

structure PendingHeredoc where
  delimiter : List Char
  /-- A quoted delimiter disables expansion. -/
  quoted : Bool
  stripTabs : Bool
  deriving DecidableEq, Repr

def startsWith (text : List Char) (head : String) : Bool := head.toList.isPrefixOf text

/-- The delimiter word and what is left after it. -/
def readDelimiter (delimiter : List Char) (quoted : Bool) :
    Nat → List Char → List Char × Bool × List Char
  | 0, text => (delimiter, quoted, text)
  | _ + 1, [] => (delimiter, quoted, [])
  | fuel + 1, char :: rest =>
      if isSpace char || ";&|<>()".toList.contains char then (delimiter, quoted, char :: rest)
      else if char = '\'' ∨ char = '"' then
        readDelimiter (delimiter ++ rest.takeWhile (· ≠ char)) true fuel
          (rest.dropWhile (· ≠ char)).tail
      else
        match char, rest with
        | '\\', next :: rest => readDelimiter (delimiter ++ [next]) true fuel rest
        | _, _ => readDelimiter (delimiter ++ [char]) quoted fuel rest

/-- `readHeredocOperator`, on the text after `<<`. -/
def readHeredocOperator (text : List Char) : PendingHeredoc × List Char :=
  let stripTabs := startsWith text "-"
  let text := if stripTabs then text.tail else text
  let text := text.dropWhile fun c => c = ' ' || c = '\t'
  let (delimiter, quoted, rest) := readDelimiter [] false text.length text
  (⟨delimiter, quoted, stripTabs⟩, rest)

/-- `readHeredocBody`: the body and what is left after the terminator line. -/
def readHeredocBody (heredoc : PendingHeredoc) : Nat → List Char → List Char × List Char
  | 0, text => (text, [])
  | fuel + 1, text =>
      let line := text.takeWhile (· ≠ '\n')
      let after := text.dropWhile (· ≠ '\n')
      let compare := if heredoc.stripTabs then line.dropWhile (· = '\t') else line
      if compare = heredoc.delimiter then ([], after.tail)
      else
        match after with
        | [] => (text, [])
        | newline :: rest =>
            let (body, left) := readHeredocBody heredoc fuel rest
            (line ++ newline :: body, left)

/-- The text up to the parenthesis that closes `depth` open ones, and what is left. -/
def closeParentheses (depth : Nat) : List Char → List Char × List Char
  | [] => ([], [])
  | '\\' :: [] => (['\\'], [])
  | '\\' :: next :: rest =>
      let (inner, left) := closeParentheses depth rest
      ('\\' :: next :: inner, left)
  | char :: rest =>
      if char = ')' ∧ depth = 1 then ([], rest)
      else
        let depth := if char = '(' then depth + 1 else if char = ')' then depth - 1 else depth
        let (inner, left) := closeParentheses depth rest
        (char :: inner, left)

/-- `substitutionRanges`: the substitutions of a text, each with its offset. -/
def substitutionRanges (index : Nat) : Nat → List Char → List (Nat × List Char)
  | 0, _ => []
  | _ + 1, [] => []
  | fuel + 1, char :: rest =>
      if char = '\\' then substitutionRanges (index + 2) fuel rest.tail
      else if startsWith (char :: rest) "$(" then
        let (inner, left) := closeParentheses 1 rest.tail
        (index + 2, inner) :: substitutionRanges (index + 2 + inner.length + 1) fuel left
      else if char = '\x60' then
        let inner := rest.takeWhile (· ≠ '\x60')
        (index + 1, inner) :: substitutionRanges (index + 1 + inner.length + 1) fuel
          (rest.dropWhile (· ≠ '\x60')).tail
      else substitutionRanges (index + 1) fuel rest

/-! ## The scanner -/

/-- `SEPARATORS`. -/
def separators : List String :=
  ["&&", "||", ";;", "|&", ";", "|", "&", "\n", "(", ")", "\x7b", "\x7d", "\x60", "$("]

structure Scan where
  /-- The character before the index. -/
  prev : Option Char := none
  /-- Offset of the segment under way. -/
  start : Nat := 0
  /-- Its text so far. -/
  pending : List Char := []
  quote : Option Char := none
  stack : List (Option Char) := []
  heredocs : List PendingHeredoc := []
  deriving DecidableEq, Repr

def Scan.index (s : Scan) : Nat := s.start + s.pending.length

/-- The characters are read and stay in the segment. -/
def Scan.take (s : Scan) (cs : List Char) : Scan :=
  { s with pending := s.pending ++ cs, prev := cs.getLast?.or s.prev }

/-- The segment ends before the characters, and the next one begins after them. -/
def Scan.skip (s : Scan) (cs : List Char) : Scan :=
  { s with start := s.index + cs.length, pending := [], prev := cs.getLast?.or s.prev }

def Scan.flush (s : Scan) : List ShellSegment := segmentOf s.start s.pending

/-- A place where a comment or a brace word may begin. -/
def Scan.beginsWord (s : Scan) (delimiters : String) : Bool :=
  s.prev.all fun c => isSpace c || delimiters.toList.contains c

/-- The separator at a text, unless it is part of a redirection or of a word. -/
def Scan.separator (s : Scan) (text : List Char) : Option String :=
  (separators.find? (startsWith text)).filter fun separator =>
    let redirection := separator = "&"
      && (s.prev = some '>' || s.prev = some '<' || startsWith text.tail ">")
    let brace := separator = "\x7b" || separator = "\x7d"
    let braceWord := s.beginsWord ";|&()"
      && text.tail.head?.all fun c => isSpace c || ";|&()".toList.contains c
    !redirection && (!brace || braceWord)

/-- The bodies of the pending heredocs from a text on, each with its offset, and what is
left after the last one. -/
def heredocBodies (index : Nat) : List PendingHeredoc → List Char →
    List (PendingHeredoc × Nat × List Char) × List Char
  | [], text => ([], text)
  | heredoc :: heredocs, text =>
      let (body, left) := readHeredocBody heredoc (text.length + 1) text
      let (bodies, last) := heredocBodies (index + (text.length - left.length)) heredocs left
      ((heredoc, index, body) :: bodies, last)

def scan : Nat → Scan → List Char → List ShellSegment
  | 0, _, _ => []
  | _ + 1, s, [] => s.flush
  | fuel + 1, s, char :: rest =>
      if s.quote = some '\'' then
        let quote := if char = '\'' then none else s.quote
        scan fuel { s.take [char] with quote } rest
      else
        match char, rest with
        | '\\', next :: rest => scan fuel (s.take ['\\', next]) rest
        | _, _ =>
            if s.quote = some '"' then
              if char = '"' then scan fuel { s.take [char] with quote := none } rest
              else if startsWith (char :: rest) "$(" then
                s.flush ++ scan fuel
                  { s.skip ['$', '('] with quote := none, stack := some '"' :: s.stack } rest.tail
              else scan fuel (s.take [char]) rest
            else if char = '\'' ∨ char = '"' then
              scan fuel { s.take [char] with quote := some char } rest
            else if char = '#' ∧ s.beginsWord ";|&()\x7b\x7d\x60" = true then
              -- a comment runs to the end of the line
              scan fuel (s.take (char :: rest.takeWhile (· ≠ '\n'))) (rest.dropWhile (· ≠ '\n'))
            else if startsWith (char :: rest) "<<" ∧ ¬ startsWith rest.tail "<" then
              let (heredoc, left) := readHeredocOperator rest.tail
              let s' := s.take ((char :: rest).take (rest.length + 1 - left.length))
              let heredocs := if heredoc.delimiter = [] then s.heredocs
                else s.heredocs ++ [heredoc]
              scan fuel { s' with heredocs } left
            else if char = '\n' ∧ s.heredocs ≠ [] then
              let (bodies, left) := heredocBodies (s.index + 1) s.heredocs rest
              -- an unquoted body has its substitutions run
              s.flush ++
                (bodies.flatMap fun (heredoc, index, body) =>
                  if heredoc.quoted then []
                  else (substitutionRanges index body.length body).flatMap fun (start, text) =>
                    scan fuel { start } text) ++
                scan fuel { s.skip ((char :: rest).take (rest.length + 1 - left.length)) with
                  heredocs := [] } left
            else if char = ')' ∧ s.stack ≠ [] then
              s.flush ++ scan fuel
                { s.skip [char] with quote := s.stack.head?.join, stack := s.stack.tail } rest
            else if startsWith (char :: rest) "$(" then
              s.flush ++ scan fuel { s.skip ['$', '('] with stack := none :: s.stack } rest.tail
            else
              match s.separator (char :: rest) with
              | some separator =>
                  s.flush ++ scan fuel (s.skip separator.toList)
                    ((char :: rest).drop separator.length)
              | none => scan fuel (s.take [char]) rest

/-- `splitShellCommand`. -/
def splitShellCommand (command : List Char) : List ShellSegment :=
  scan (command.length + 1) {} command

end OmniRush.Shell
