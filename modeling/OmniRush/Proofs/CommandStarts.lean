import OmniRush.Shell.Rules

/-!
# Where commands start

A segment is a slice of the command line that begins at its start or after a separator, a
parenthesis, a backtick or a blank (`Sliced`), and its first token begins there or after a blank.
So no command starts in the middle of a word (`destructive_wordAt`).
-/

namespace OmniRush.Shell

/-- What may stand before a command. -/
def isBoundary (c : Char) : Bool := isSpace c || ";|&()\x7b\x7d\x60".toList.contains c

/-- A word begins at the position, and what is before it is a boundary. -/
def WordAt (command : List Char) (position : Nat) : Prop :=
  ∃ before c after, command = before ++ c :: after ∧ before.length = position ∧
    isSpace c = false ∧ before.getLast?.all isBoundary = true

/-! ## Tokens -/

/-- The token under way begins at the offset, or it is that of a character after a blank. -/
def BeginsIn (index : Nat) (prev : Option Char) (current : Option Token) (text : List Char)
    (offset : Nat) : Prop :=
  (∃ cur, current = some cur ∧ offset = cur.offset) ∨
    ∃ before c after, text = before ++ c :: after ∧ offset = index + before.length ∧
      isSpace c = false ∧ (before.getLast?.or prev).all isSpace = true

section

variable {index offset : Nat} {prev : Option Char} {current current' : Option Token}
  {text rest : List Char} {token : Token} {c : Char}

/-- What begins after some characters, or is under way then, is looked at from before them. -/
theorem BeginsIn.after (cs : List Char) {last : Char} (hlast : cs.getLast? = some last)
    (h : BeginsIn (index + cs.length) (some last) current' rest offset)
    (hcurrent : ∀ cur, current' = some cur → BeginsIn index prev current (cs ++ rest) cur.offset) :
    BeginsIn index prev current (cs ++ rest) offset := by
  rcases h with ⟨cur, hcur, rfl⟩ | ⟨before, c, after, rfl, rfl, hc, hbefore⟩
  · exact hcurrent cur hcur
  · refine .inr ⟨cs ++ before, c, after, by simp, by simp [Nat.add_assoc], hc, ?_⟩
    rw [List.getLast?_append, hlast]
    cases hb : before.getLast? with
    | none => rwa [hb] at hbefore
    | some b => rwa [hb] at hbefore

theorem BeginsIn.pushed {pushed : List Char} (hc : current = none →
    isSpace c = false ∧ prev.all isSpace = true) (rest : List Char) {cur : Token}
    (hcur : pushChar current index pushed = some cur) :
    BeginsIn index prev current (c :: rest) cur.offset := by
  cases current with
  | none =>
      cases hcur
      exact .inr ⟨[], c, rest, rfl, rfl, hc rfl⟩
  | some old =>
      cases hcur
      exact .inl ⟨old, rfl, rfl⟩

theorem pushChar_ne_none (current : Option Token) (index : Nat) (cs : List Char) :
    pushChar current index cs ≠ none := by
  cases current <;> exact nofun

theorem tokenizeFrom_begins {quote : Option Char}
    (hquote : ∀ q, quote = some q → (q = '\'' ∨ q = '"') ∧ current ≠ none)
    (hprev : current = none → prev.all isSpace = true)
    (h : token ∈ tokenizeFrom index quote current text) :
    BeginsIn index prev current text token.offset := by
  fun_induction tokenizeFrom index quote current text generalizing prev with
  | case1 =>
      obtain hcur := Option.mem_toList.mp h
      exact .inl ⟨token, hcur, rfl⟩
  | case2 index current next rest ih =>
      refine BeginsIn.after ['\\'] rfl
        (ih (fun q hq => ⟨(hquote q hq).1, pushChar_ne_none _ _ _⟩)
          (fun hnone => absurd hnone (pushChar_ne_none _ _ _)) h)
        fun cur hcur => BeginsIn.pushed (fun hnone => ⟨by decide, hprev hnone⟩) _ hcur
  | case3 index quote current next rest hsingle hcontinued ih =>
      obtain ⟨rfl, rfl⟩ := hcontinued
      exact BeginsIn.after ['\\', '\n'] rfl (ih hquote (fun _ => by decide) h)
        fun cur hcur => .inl ⟨cur, hcur, rfl⟩
  | case4 index quote current next rest hsingle hnot ih =>
      exact BeginsIn.after ['\\', next] rfl
        (ih (fun q hq => ⟨(hquote q hq).1, pushChar_ne_none _ _ _⟩)
          (fun hnone => absurd hnone (pushChar_ne_none _ _ _)) h)
        fun cur hcur => BeginsIn.pushed (fun hnone => ⟨by decide, hprev hnone⟩) _ hcur
  | case5 index current char rest hplain hquoted ih =>
      have hunder : current ≠ none := (hquote char rfl).2
      exact BeginsIn.after [char] rfl (ih nofun (fun hnone => absurd hnone hunder) h)
        fun cur hcur => .inl ⟨cur, hcur, rfl⟩
  | case6 index quote current char rest hplain hquoted hclosed ih =>
      have hunder : current ≠ none := by
        rcases hquoted with rfl | rfl <;> exact (hquote _ rfl).2
      exact BeginsIn.after [char] rfl
        (ih (fun q hq => ⟨(hquote q hq).1, pushChar_ne_none _ _ _⟩)
          (fun hnone => absurd hnone (pushChar_ne_none _ _ _)) h)
        fun cur hcur => BeginsIn.pushed (fun hnone => absurd hnone hunder) _ hcur
  | case7 index quote current char rest hplain hunquoted hopens ih =>
      refine BeginsIn.after [char] rfl
        (ih (fun q hq => ⟨?_, pushChar_ne_none _ _ _⟩)
          (fun hnone => absurd hnone (pushChar_ne_none _ _ _)) h)
        fun cur hcur => BeginsIn.pushed (fun hnone => ⟨?_, hprev hnone⟩) _ hcur
      · cases hq
        exact hopens
      · rcases hopens with rfl | rfl <;> decide
  | case8 index quote current char rest hplain hunquoted hplain' hblank ih =>
      rcases List.mem_append.mp h with h | h
      · exact .inl ⟨token, Option.mem_toList.mp h, rfl⟩
      · refine BeginsIn.after [char] rfl (ih (fun q hq => ?_) (fun _ => hblank) h) nofun
        rcases (hquote q hq).1 with rfl | rfl
        · exact absurd (.inl hq) hunquoted
        · exact absurd (.inr hq) hunquoted
  | case9 => cases h
  | case10 index quote current char rest hplain hunquoted hplain' hword hnocomment ih =>
      exact BeginsIn.after [char] rfl
        (ih (fun q hq => ⟨(hquote q hq).1, pushChar_ne_none _ _ _⟩)
          (fun hnone => absurd hnone (pushChar_ne_none _ _ _)) h)
        fun cur hcur =>
          BeginsIn.pushed (fun hnone => ⟨Bool.eq_false_iff.mpr hword, hprev hnone⟩) _ hcur

theorem dropReserved_subset (tokens : List Token) : dropReserved tokens ⊆ tokens := by
  fun_induction dropReserved tokens with
  | case1 => exact List.Subset.refl _
  | case2 => exact List.nil_subset _
  | case3 => exact List.Subset.refl _
  | case4 => exact List.Subset.refl _
  | case5 token next rest _ _ ih =>
      exact fun t ht => List.mem_cons_of_mem _ (List.mem_cons_of_mem _ (ih ht))
  | case6 token next rest _ _ ih => exact fun t ht => List.mem_cons_of_mem _ (ih ht)

end

/-! ## Slices -/

/-- The segment under way and the text after it are a slice of the line, at the place of the
segment, and a boundary comes before it. -/
def Sliced (command : List Char) (start : Nat) (pending text : List Char) : Prop :=
  ∃ before after, command = before ++ (pending ++ text) ++ after ∧ before.length = start ∧
    (pending ++ text ≠ [] → before.getLast?.all isBoundary = true)

section

variable {command pending text rest : List Char} {start : Nat}

theorem Sliced.take (cs : List Char) (h : Sliced command start pending (cs ++ rest)) :
    Sliced command start (pending ++ cs) rest := by
  rwa [Sliced, List.append_assoc]

theorem Sliced.skip (cs : List Char) (h : Sliced command start pending (cs ++ rest))
    (hcs : rest ≠ [] → ∃ last, cs.getLast? = some last ∧ isBoundary last = true) :
    Sliced command (start + pending.length + cs.length) [] rest := by
  obtain ⟨before, after, hcommand, hstart, -⟩ := h
  refine ⟨before ++ pending ++ cs, after, by rw [hcommand]; simp, by simp [hstart, Nat.add_assoc],
    fun hrest => ?_⟩
  obtain ⟨last, hlast, hboundary⟩ := hcs hrest
  rw [List.getLast?_append, hlast]
  exact hboundary

theorem Sliced.inner {front inner back : List Char}
    (h : Sliced command start pending (front ++ inner ++ back))
    (hfront : ∃ last, front.getLast? = some last ∧ isBoundary last = true) :
    Sliced command (start + pending.length + front.length) [] inner := by
  obtain ⟨before, after, hcommand, hstart, -⟩ := h
  obtain ⟨last, hlast, hboundary⟩ := hfront
  refine ⟨before ++ pending ++ front, back ++ after, by rw [hcommand]; simp,
    by simp [hstart, Nat.add_assoc], fun _ => ?_⟩
  rw [List.getLast?_append, hlast]
  exact hboundary

theorem Sliced.segmentOf (h : Sliced command start pending text) {segment : ShellSegment}
    (hin : segment ∈ segmentOf start pending) : WordAt command segment.commandStart := by
  obtain ⟨before, after, rfl, rfl, hboundary⟩ := h
  unfold OmniRush.Shell.segmentOf at hin
  split at hin
  · cases hin
  · next first rest hfirst =>
      split at hin
      · cases hin
      · obtain rfl := List.mem_singleton.mp hin
        have htoken : first ∈ tokenizeSegment pending := by
          refine dropReserved_subset _ ?_
          rw [hfirst]
          exact List.mem_cons_self ..
        have hbegins : BeginsIn 0 none none pending first.offset :=
          tokenizeFrom_begins (fun _ hq => by cases hq) (fun _ => rfl) htoken
        rcases hbegins with ⟨cur, hcur, -⟩ | ⟨front, c, back, rfl, hoffset, hc, hfront⟩
        · cases hcur
        · refine ⟨before ++ front, c, back ++ text ++ after, by simp, by simp [hoffset], hc, ?_⟩
          rw [List.getLast?_append]
          cases hlast : front.getLast? with
          | none => exact hboundary (by simp)
          | some last =>
              rw [hlast] at hfront
              show (isSpace last || _) = true
              rw [show isSpace last = true from hfront]
              rfl

end

/-! ## Heredocs -/

theorem readDelimiter_suffix (delimiter : List Char) (quoted : Bool) (fuel : Nat)
    (text : List Char) : (readDelimiter delimiter quoted fuel text).2.2 <:+ text := by
  fun_induction readDelimiter delimiter quoted fuel text with
  | case1 => exact List.suffix_rfl
  | case2 => exact List.suffix_rfl
  | case3 => exact List.suffix_rfl
  | case4 _ _ _ char rest _ _ ih =>
      exact ih.trans ((List.tail_suffix _).trans
        ((List.dropWhile_suffix _).trans (List.suffix_cons ..)))
  | case5 _ _ _ _ _ next rest ih =>
      exact ih.trans ((List.suffix_cons ..).trans (List.suffix_cons ..))
  | case6 _ _ _ _ _ _ _ _ ih => exact ih.trans (List.suffix_cons ..)

theorem readHeredocOperator_suffix (text : List Char) : (readHeredocOperator text).2 <:+ text := by
  unfold readHeredocOperator
  dsimp only
  refine (readDelimiter_suffix ..).trans ((List.dropWhile_suffix _).trans ?_)
  split
  · exact List.tail_suffix _
  · exact List.suffix_rfl

/-- What is read up to the rest of the text ends a line. -/
def EndsLine (read left : List Char) : Prop := left = [] ∨ read.getLast? = some '\n'

theorem readHeredocBody_split (heredoc : PendingHeredoc) (fuel : Nat) (text : List Char) :
    ∃ terminator, text = (readHeredocBody heredoc fuel text).1 ++ terminator ++
        (readHeredocBody heredoc fuel text).2 ∧
      EndsLine ((readHeredocBody heredoc fuel text).1 ++ terminator)
        (readHeredocBody heredoc fuel text).2 := by
  induction fuel generalizing text with
  | zero => exact ⟨[], by simp [readHeredocBody], .inl rfl⟩
  | succ fuel ih =>
      have htext : text = text.takeWhile (· ≠ '\n') ++ text.dropWhile (· ≠ '\n') :=
        List.takeWhile_append_dropWhile.symm
      have hnewline : ∀ newline rest, text.dropWhile (· ≠ '\n') = newline :: rest →
          newline = '\n' := fun newline rest h => by
        have hhead := List.head?_dropWhile_not (fun c => decide (c ≠ '\n')) text
        rw [h] at hhead
        simpa using hhead
      unfold readHeredocBody
      dsimp only
      generalize (if heredoc.stripTabs then (text.takeWhile (· ≠ '\n')).dropWhile (· = '\t')
        else text.takeWhile (· ≠ '\n')) = compare
      generalize text.takeWhile (· ≠ '\n') = line at *
      generalize text.dropWhile (· ≠ '\n') = after at *
      split
      · cases after with
        | nil => exact ⟨text, by simp, .inl rfl⟩
        | cons newline rest =>
            obtain rfl := hnewline newline rest rfl
            exact ⟨line ++ ['\n'], by simp [htext], .inr (by simp)⟩
      · cases after with
        | nil => exact ⟨[], by simp, .inl rfl⟩
        | cons newline rest =>
            obtain rfl := hnewline newline rest rfl
            obtain ⟨terminator, hrest, hends⟩ := ih rest
            refine ⟨terminator, ?_, hends.imp_right fun hlast => ?_⟩
            · conv => lhs; rw [htext, hrest]
              simp
            · rw [List.append_assoc, List.cons_append, List.getLast?_append, List.getLast?_cons,
                hlast]
              rfl

/-- The bodies are slices of the text, and what is left begins a line, if there was a heredoc. -/
theorem heredocBodies_split (index : Nat) (heredocs : List PendingHeredoc) (text : List Char) :
    (∀ entry ∈ (heredocBodies index heredocs text).1, ∃ front back,
      text = front ++ entry.2.2 ++ back ∧ entry.2.1 = index + front.length) ∧
    ∃ read, text = read ++ (heredocBodies index heredocs text).2 ∧
      (read = [] ∨ EndsLine read (heredocBodies index heredocs text).2) := by
  induction heredocs generalizing index text with
  | nil => exact ⟨nofun, [], rfl, .inl rfl⟩
  | cons heredoc heredocs ih =>
      obtain ⟨terminator, htext, hends⟩ := readHeredocBody_split heredoc (text.length + 1) text
      unfold heredocBodies
      dsimp only
      generalize readHeredocBody heredoc (text.length + 1) text = split at *
      obtain ⟨body, left⟩ := split
      dsimp only at htext hends ⊢
      have hindex : text.length - left.length = (body ++ terminator).length := by
        rw [htext, List.length_append, Nat.add_sub_cancel]
      obtain ⟨hbodies, read, hleft, hread⟩ := ih (index + (text.length - left.length)) left
      constructor
      · intro entry hentry
        rcases List.mem_cons.mp hentry with rfl | hentry
        · exact ⟨[], terminator ++ left, by simp [htext], rfl⟩
        · obtain ⟨front, back, hslice, hat⟩ := hbodies entry hentry
          refine ⟨body ++ terminator ++ front, back, ?_, ?_⟩
          · conv => lhs; rw [htext, hslice]
            simp
          · rw [hat, hindex]
            simp [Nat.add_assoc]
      · refine ⟨body ++ terminator ++ read, ?_, .inr ?_⟩
        · conv => lhs; rw [htext, hleft]
          simp
        · rcases hread with rfl | hnil | hlast
          · rw [List.append_nil]
            rw [List.nil_append] at hleft
            rwa [← hleft]
          · exact .inl hnil
          · right
            rw [List.getLast?_append, hlast]
            rfl

/-! ## Substitutions -/

theorem closeParentheses_split (depth : Nat) (text : List Char) : ∃ middle,
    text = (closeParentheses depth text).1 ++ middle ++ (closeParentheses depth text).2 ∧
      ((closeParentheses depth text).2 = [] ∨ middle.length = 1) := by
  fun_induction closeParentheses depth text with
  | case1 => exact ⟨[], rfl, .inl rfl⟩
  | case2 => exact ⟨[], rfl, .inl rfl⟩
  | case3 depth next rest inner left heq ih =>
      obtain ⟨middle, hrest, hends⟩ := ih
      rw [heq] at hrest hends
      exact ⟨middle, by simpa using hrest, hends⟩
  | case4 depth char rest _ _ h => exact ⟨[char], rfl, .inr rfl⟩
  | case5 depth char rest _ _ _ depth' inner left heq ih =>
      obtain ⟨middle, hrest, hends⟩ := ih
      rw [heq] at hrest hends
      exact ⟨middle, by simpa using hrest, hends⟩

theorem startsWith_iff {text : List Char} {head : String} :
    startsWith text head = true ↔ ∃ rest, text = head.toList ++ rest := by
  rw [startsWith, List.isPrefixOf_iff_prefix]
  exact exists_congr fun rest => eq_comm

theorem startsWith_open {char : Char} {rest : List Char}
    (h : startsWith (char :: rest) "$(" = true) : ∃ after, char = '$' ∧ rest = '(' :: after := by
  obtain ⟨after, heq⟩ := startsWith_iff.mp h
  have hhead : "$(".toList = ['$', '('] := rfl
  rw [hhead] at heq
  exact ⟨after, (List.cons.inj heq).1, (List.cons.inj heq).2⟩

/-- The entry is a slice of the text, after a boundary. -/
def Inside (index : Nat) (text : List Char) (entry : Nat × List Char) : Prop :=
  ∃ front back, text = front ++ entry.2 ++ back ∧ entry.1 = index + front.length ∧
    ∃ last, front.getLast? = some last ∧ isBoundary last = true

theorem Inside.later {index : Nat} (cs : List Char) {text : List Char} {entry : Nat × List Char}
    (h : Inside (index + cs.length) text entry) : Inside index (cs ++ text) entry := by
  obtain ⟨front, back, rfl, hat, last, hlast, hboundary⟩ := h
  refine ⟨cs ++ front, back, by simp, by simp [hat, Nat.add_assoc], last, ?_, hboundary⟩
  rw [List.getLast?_append, hlast]
  rfl

theorem substitutionRanges_nil (index fuel : Nat) : substitutionRanges index fuel [] = [] := by
  cases fuel <;> rfl

theorem substitutionRanges_split (fuel index : Nat) (text : List Char) :
    ∀ entry ∈ substitutionRanges index fuel text, Inside index text entry := by
  induction fuel generalizing index text with
  | zero => exact nofun
  | succ fuel ih =>
      cases text with
      | nil => exact nofun
      | cons char rest =>
          intro entry hentry
          unfold substitutionRanges at hentry
          split at hentry
          · cases rest with
            | nil =>
                rw [List.tail_nil, substitutionRanges_nil] at hentry
                cases hentry
            | cons next rest => exact Inside.later [char, next] (ih (index + 2) rest entry hentry)
          · split at hentry
            · next hopen =>
                obtain ⟨after, rfl, rfl⟩ := startsWith_open hopen
                obtain ⟨middle, hrest, hends⟩ := closeParentheses_split 1 after
                dsimp only [List.tail_cons] at hentry
                generalize closeParentheses 1 after = split at *
                obtain ⟨inner, left⟩ := split
                dsimp only at hentry hrest hends
                rcases List.mem_cons.mp hentry with rfl | hentry
                · exact ⟨['$', '('], middle ++ left, by simp [hrest], rfl, '(', rfl, rfl⟩
                · rcases hends with rfl | hone
                  · rw [substitutionRanges_nil] at hentry
                    cases hentry
                  · have hat : index + 2 + inner.length + 1 =
                        index + ('$' :: '(' :: (inner ++ middle)).length := by
                      simp only [List.length_cons, List.length_append, hone]
                      omega
                    rw [hat] at hentry
                    rw [hrest]
                    exact Inside.later ('$' :: '(' :: (inner ++ middle)) (ih _ left entry hentry)
            · split at hentry
              · next hbacktick =>
                  subst hbacktick
                  have hrest : rest = rest.takeWhile (· ≠ '\x60') ++ rest.dropWhile (· ≠ '\x60') :=
                    List.takeWhile_append_dropWhile.symm
                  dsimp only at hentry
                  generalize rest.takeWhile (· ≠ '\x60') = inner at *
                  generalize rest.dropWhile (· ≠ '\x60') = after at *
                  subst hrest
                  rcases List.mem_cons.mp hentry with rfl | hentry
                  · exact ⟨['\x60'], after, rfl, rfl, '\x60', rfl, rfl⟩
                  · cases after with
                    | nil =>
                        rw [List.tail_nil, substitutionRanges_nil] at hentry
                        cases hentry
                    | cons close left =>
                        have hat : index + 1 + inner.length + 1 =
                            index + ('\x60' :: (inner ++ [close])).length := by
                          simp only [List.length_cons, List.length_append, List.length_nil]
                          omega
                        rw [hat] at hentry
                        have hlater := Inside.later ('\x60' :: (inner ++ [close]))
                          (ih _ left entry hentry)
                        rwa [List.cons_append, List.append_assoc] at hlater
              · exact Inside.later [char] (ih (index + 1) rest entry hentry)

/-! ## The scanner -/

theorem Scan.separator_split {s : Scan} {text : List Char} {separator : String}
    (h : s.separator text = some separator) :
    text = separator.toList ++ text.drop separator.length ∧
      ∃ last, separator.toList.getLast? = some last ∧ isBoundary last = true := by
  obtain ⟨hfind, -⟩ := Option.filter_eq_some_iff.mp h
  obtain ⟨after, rfl⟩ := startsWith_iff.mp (List.find?_some hfind)
  constructor
  · rw [← String.length_toList, List.drop_left]
  · have hall : ∀ separator ∈ separators, separator.toList.getLast?.any isBoundary = true := by
      decide
    exact (Option.any_eq_true _ _).mp (hall separator (List.mem_of_find?_eq_some hfind))

theorem scan_words {command : List Char} (fuel : Nat) (s : Scan) (text : List Char)
    (h : Sliced command s.start s.pending text) :
    ∀ segment ∈ scan fuel s text, WordAt command segment.commandStart := by
  induction fuel generalizing s text with
  | zero => exact nofun
  | succ fuel ih =>
      cases text with
      | nil => exact fun segment hin => h.segmentOf hin
      | cons char rest =>
          have hflush : ∀ segment ∈ s.flush, WordAt command segment.commandStart :=
            fun segment hin => h.segmentOf hin
          have htake : Sliced command s.start (s.pending ++ [char]) rest := h.take [char]
          intro segment hin
          unfold scan at hin
          split at hin
          · exact ih _ _ htake segment hin
          · split at hin
            · next next rest => exact ih _ _ (h.take ['\\', next]) segment hin
            · split at hin
              · split at hin
                · exact ih _ _ htake segment hin
                · split at hin
                  · next hopen =>
                      obtain ⟨after, rfl, rfl⟩ := startsWith_open hopen
                      rcases List.mem_append.mp hin with hin | hin
                      · exact hflush segment hin
                      · exact ih _ _ (h.skip ['$', '('] fun _ => ⟨'(', rfl, rfl⟩) segment hin
                  · exact ih _ _ htake segment hin
              · split at hin
                · exact ih _ _ htake segment hin
                · split at hin
                  · have hcomment : Sliced command s.start s.pending
                        (char :: rest.takeWhile (· ≠ '\n') ++ rest.dropWhile (· ≠ '\n')) := by
                      rw [List.cons_append, List.takeWhile_append_dropWhile]
                      exact h
                    exact ih _ _ (hcomment.take _) segment hin
                  · split at hin
                    · have hsuffix : (readHeredocOperator rest.tail).2 <:+ char :: rest :=
                        (readHeredocOperator_suffix _).trans
                          ((List.tail_suffix _).trans (List.suffix_cons ..))
                      have htext := List.suffix_iff_eq_append.mp hsuffix
                      rw [← htext] at h
                      exact ih _ _ (h.take _) segment hin
                    · split at hin
                      · next hnewline =>
                          obtain ⟨rfl, hsome⟩ := hnewline
                          obtain ⟨hbodies, read, hrest, hread⟩ :=
                            heredocBodies_split (s.index + 1) s.heredocs rest
                          dsimp only at hin
                          generalize heredocBodies (s.index + 1) s.heredocs rest = split at *
                          obtain ⟨bodies, left⟩ := split
                          dsimp only at hin hbodies hrest hread
                          rcases List.mem_append.mp hin with hin | hin
                          · rcases List.mem_append.mp hin with hin | hin
                            · exact hflush segment hin
                            · obtain ⟨⟨heredoc, index, body⟩, hentry, hin⟩ :=
                                List.mem_flatMap.mp hin
                              dsimp only at hin
                              split at hin
                              · cases hin
                              · obtain ⟨⟨start, inner⟩, hrange, hin⟩ := List.mem_flatMap.mp hin
                                obtain ⟨front, back, hslice, hat⟩ := hbodies _ hentry
                                obtain ⟨front', back', hbody, hstart, last, hlast, hboundary⟩ :=
                                  substitutionRanges_split _ _ _ _ hrange
                                dsimp only at hslice hat hbody hstart hin
                                have hplace : s.start + s.pending.length +
                                    ('\n' :: front ++ front').length = start := by
                                  rw [hstart, hat, Scan.index]
                                  simp only [List.length_cons, List.length_append]
                                  omega
                                have hslices : Sliced command s.start s.pending
                                    (('\n' :: front ++ front') ++ inner ++ (back' ++ back)) := by
                                  simpa [hslice, hbody] using h
                                have hinner := hslices.inner
                                  ⟨last, by rw [List.getLast?_append, hlast]; rfl, hboundary⟩
                                rw [hplace] at hinner
                                exact ih { start } inner hinner segment hin
                          · have htaken : ('\n' :: rest).take (rest.length + 1 - left.length) =
                                '\n' :: read := by
                              rw [hrest, List.length_append, Nat.add_right_comm,
                                Nat.add_sub_cancel]
                              exact congrArg _ List.take_left
                            have hends : left ≠ [] → ('\n' :: read).getLast? = some '\n' :=
                              fun hleft => by
                                rcases hread with rfl | hnil | hlast
                                · rfl
                                · exact absurd hnil hleft
                                · rw [List.getLast?_cons, hlast]
                                  rfl
                            rw [htaken] at hin
                            rw [hrest] at h
                            exact ih _ left (h.skip ('\n' :: read) fun hleft =>
                              ⟨'\n', hends hleft, by decide⟩) segment hin
                      · split at hin
                        · next hclose =>
                            obtain ⟨rfl, -⟩ := hclose
                            rcases List.mem_append.mp hin with hin | hin
                            · exact hflush segment hin
                            · exact ih _ _ (h.skip [')'] fun _ => ⟨')', rfl, rfl⟩) segment hin
                        · split at hin
                          · next hopen =>
                              obtain ⟨after, rfl, rfl⟩ := startsWith_open hopen
                              rcases List.mem_append.mp hin with hin | hin
                              · exact hflush segment hin
                              · exact ih _ _ (h.skip ['$', '('] fun _ => ⟨'(', rfl, rfl⟩)
                                  segment hin
                          · split at hin
                            · next separator hseparator =>
                                obtain ⟨htext, hlast⟩ := Scan.separator_split hseparator
                                rw [htext] at h
                                rcases List.mem_append.mp hin with hin | hin
                                · exact hflush segment hin
                                · exact ih _ _ (h.skip separator.toList fun _ => hlast) segment hin
                            · exact ih _ _ htake segment hin

/-! ## Destructive commands -/

theorem classifyProgram_segment {segment : ShellSegment} {commitIdentity : IdentityFields}
    {program : String} {args : List String} {entry : ClassifiedCommand}
    (h : classifyProgram segment commitIdentity program args = some entry) :
    entry.segment = segment := by
  unfold classifyProgram at h
  dsimp only at h
  repeat' split at h
  all_goals cases h
  all_goals rfl

theorem merged_segment {segment : ShellSegment} {commitIdentity : IdentityFields}
    {nested : List ClassifiedCommand} (h : ∀ entry ∈ nested, entry.segment = segment) :
    let classified := nested.filter fun entry => entry.kind ≠ .other
    ∀ entry ∈ (if classified = [] then
        [ClassifiedCommand.plain segment commitIdentity .other none]
      else classified.map fun entry =>
        { entry with commitIdentity := entry.commitIdentity.or commitIdentity }),
      entry.segment = segment := by
  intro classified entry hentry
  split at hentry
  · obtain rfl := List.mem_singleton.mp hentry
    rfl
  · obtain ⟨inner, hinner, rfl⟩ := List.mem_map.mp hentry
    exact h inner (List.mem_filter.mp hinner).1

theorem classifyTokens_segment {segment : ShellSegment} {depth : Nat} {tokens : List String} :
    ∀ entry ∈ classifyTokens segment depth tokens, entry.segment = segment := by
  induction depth generalizing tokens with
  | zero =>
      intro entry hentry
      unfold classifyTokens at hentry
      dsimp only at hentry
      obtain rfl := List.mem_singleton.mp hentry
      generalize hprogram : classifyProgram segment _ _ _ = program
      cases program with
      | none => rfl
      | some classified => exact classifyProgram_segment hprogram
  | succ depth ih =>
      intro entry hentry
      unfold classifyTokens at hentry
      dsimp only at hentry
      split at hentry
      · next classified hprogram =>
          obtain rfl := List.mem_singleton.mp hentry
          exact classifyProgram_segment hprogram
      · refine merged_segment (fun entry hin => ?_) entry hentry
        split at hin
        · cases hin
        · obtain ⟨inner, -, hinner⟩ := List.mem_flatMap.mp hin
          exact ih entry hinner
        · exact ih entry hin

theorem destructive_wordAt {command : List Char} {entry : ClassifiedCommand}
    (h : entry ∈ destructiveCommands command) : WordAt command entry.segment.commandStart := by
  obtain ⟨segment, hsegment, hentry⟩ := List.mem_flatMap.mp (List.mem_filter.mp h).1
  rw [classifyTokens_segment entry hentry]
  exact scan_words _ {} command ⟨[], [], by simp, rfl, fun _ => rfl⟩ segment hsegment

end OmniRush.Shell
