import OmniRush.Proofs.GitListings
import OmniRush.Shell.Rules

/-!
# The read-only patterns

A read-only pattern has literal characters up to a last ` *`. It fixes the first words of
the lines it matches and leaves the others open or allows none (`Spells`). So what the
classifier says of these words holds for the lines (`GitPattern.reads`,
`GhPattern.reads`).
-/

namespace OmniRush.Shell

/-! ## The texts a pattern matches -/

/-- A character that a pattern matches as it is. -/
def isLiteral (c : Char) : Bool := c ≠ '*' && c ≠ '?' && c ≠ '\\'

theorem isLiteral_ne {c : Char} (h : isLiteral c = true) : c ≠ '*' ∧ c ≠ '?' ∧ c ≠ '\\' := by
  simpa [isLiteral, and_assoc] using h

theorem slashed_of_notMem {cs : List Char} (h : '\\' ∉ cs) : slashed cs = cs := by
  refine (List.map_congr_left fun c hc => ?_).trans (List.map_id _)
  have hne : c ≠ '\\' := fun heq => h (heq ▸ hc)
  rw [if_neg hne]
  rfl

theorem matchesGlob_cons {c : Char} {pattern text : List Char} (h : isLiteral c = true) :
    matchesGlob (c :: pattern) text = (text.head? = some c && matchesGlob pattern text.tail) := by
  obtain ⟨hstar, hquery, -⟩ := isLiteral_ne h
  rw [matchesGlob]
  · exact fun heq => hstar heq
  · exact fun heq => hquery heq

theorem matchesGlob_append {cs pattern text : List Char} (h : cs.all isLiteral = true) :
    matchesGlob (cs ++ pattern) text = true ↔
      ∃ rest, text = cs ++ rest ∧ matchesGlob pattern rest = true := by
  induction cs generalizing text with
  | nil => simp
  | cons c cs ih =>
      rw [List.all_cons, Bool.and_eq_true] at h
      rw [List.cons_append, matchesGlob_cons h.1, Bool.and_eq_true, decide_eq_true_eq, ih h.2]
      cases text with
      | nil => simp
      | cons d text =>
          simp only [List.head?_cons, Option.some.injEq, List.tail_cons, List.cons_append,
            List.cons.injEq]
          constructor
          · rintro ⟨rfl, rest, rfl, hrest⟩
            exact ⟨rest, ⟨rfl, rfl⟩, hrest⟩
          · rintro ⟨rest, ⟨rfl, rfl⟩, hrest⟩
            exact ⟨rfl, rest, rfl, hrest⟩

theorem matchesGlob_literal {cs text : List Char} (h : cs.all isLiteral = true) :
    matchesGlob cs text = true ↔ text = cs := by
  have happend := @matchesGlob_append cs [] text h
  rw [List.append_nil] at happend
  rw [happend]
  constructor
  · rintro ⟨rest, rfl, hrest⟩
    have hnil : rest = [] := of_decide_eq_true hrest
    rw [hnil, List.append_nil]
  · rintro rfl
    exact ⟨[], (List.append_nil _).symm, rfl⟩

theorem matchesGlob_star (text : List Char) : matchesGlob ['*'] text = true := by
  rw [matchesGlob, List.any_eq_true]
  exact ⟨[], by simp, rfl⟩

/-- What a pattern says of a line: its first words, and whether others may follow. -/
def patternBody (pattern : List Char) : List Char × Bool :=
  if [' ', '*'].isSuffixOf pattern then (pattern.take (pattern.length - 2), true)
  else (pattern, false)

theorem matches_body {line pattern : List Char} (hline : '\\' ∉ line)
    (hbody : (patternBody pattern).1.all isLiteral = true)
    (h : matchesPermissionPattern line pattern = true) :
    ∃ extra, tokens line = tokens (patternBody pattern).1 ++ extra ∧
      ((patternBody pattern).2 = false → extra = []) := by
  have hslash : ∀ cs : List Char, cs.all isLiteral = true → '\\' ∉ cs := fun cs hcs hmem =>
    (isLiteral_ne (List.all_eq_true.mp hcs _ hmem)).2.2 rfl
  unfold patternBody at hbody ⊢
  by_cases hopen : [' ', '*'].isSuffixOf pattern = true
  · rw [if_pos hopen] at hbody ⊢
    dsimp only at hbody ⊢
    have hpattern : pattern = pattern.take (pattern.length - 2) ++ [' ', '*'] := by
      obtain ⟨body, rfl⟩ := List.isSuffixOf_iff_suffix.mp hopen
      simp
    generalize pattern.take (pattern.length - 2) = body at hbody hpattern
    subst hpattern
    have hslashed : slashed (body ++ [' ', '*']) = body ++ [' ', '*'] := by
      refine slashed_of_notMem fun hmem => ?_
      rcases List.mem_append.mp hmem with hmem | hmem
      · exact hslash body hbody hmem
      · revert hmem
        decide
    rw [matchesPermissionPattern, slashed_of_notMem hline, hslashed, if_pos hopen,
      Bool.or_eq_true] at h
    have htake : (body ++ [' ', '*']).take ((body ++ [' ', '*']).length - 2) = body := by simp
    rw [htake] at h
    rcases h with h | h
    · rw [(matchesGlob_literal hbody).mp h]
      exact ⟨[], (List.append_nil _).symm, fun _ => rfl⟩
    · have hsplit : body ++ [' ', '*'] = (body ++ [' ']) ++ ['*'] := by simp
      rw [hsplit, matchesGlob_append (by rw [List.all_append, hbody]; rfl)] at h
      obtain ⟨rest, rfl, -⟩ := h
      rw [List.append_assoc, List.singleton_append, tokens_append rfl]
      exact ⟨_, rfl, fun h => by cases h⟩
  · rw [if_neg hopen] at hbody ⊢
    dsimp only at hbody ⊢
    rw [matchesPermissionPattern, slashed_of_notMem hline, slashed_of_notMem (hslash _ hbody),
      if_neg hopen, matchesGlob_literal hbody] at h
    rw [h]
    exact ⟨[], (List.append_nil _).symm, fun _ => rfl⟩

/-! ## The read-only patterns -/

/-- The text is one of literal words, open for others or not. -/
structure Spells (text : List Char) (known : List String) (more : Bool) : Prop where
  length : 2 ≤ text.length
  literal : (patternBody text).1.all isLiteral = true
  more : (patternBody text).2 = more
  words : tokens (patternBody text).1 = known

/-- What stands before the words of a pattern. -/
def gitHead : List Char := ['g', 'i', 't', ' ']

def ghHead : List Char := ['g', 'h', ' ']

/-- A read-only git pattern after its head, by what its words settle. -/
inductive GitPattern (text : List Char) : Prop
  | read (sub : String) (h : Spells text [sub] true) (hsub : sub ∈ gitRead)
  | settled (sub verb : String) (h : Spells text [sub, verb] true)
      (hform : (sub, verb) ∈ settledForms)
  | branch (verb : String) (h : Spells text ["branch", verb] true)
      (hverb : verb ∈ branchPatternFlags)
  | tag (verb : String) (h : Spells text ["tag", verb] true)
  | config (verb : String) (h : Spells text ["config", verb] true)
      (hverb : verb ∈ configReadFlags)
  | fixed (known : List String) (h : Spells text known false)
      (hread : (classifyGitTokens known).1.kind = .read)
      (hnone : changesDespiteListing known = false)
  | tagCount (h : text = ['t', 'a', 'g', ' ', '-', 'n', '*'])

theorem readOnlyGitPatterns_spelled : ∀ pattern ∈ readOnlyGitPatterns,
    ∃ text, pattern = String.ofList (gitHead ++ text) ∧ GitPattern text := by
  simp only [readOnlyGitPatterns, List.forall_mem_cons, List.not_mem_nil, false_implies,
    implies_true, and_true]
  repeat' apply And.intro
  all_goals refine ⟨_, rfl, ?_⟩
  all_goals first
    | exact .tagCount rfl
    | exact .read _ ⟨by decide, rfl, rfl, rfl⟩ (by simp [gitRead])
    | exact .tag _ ⟨by decide, rfl, rfl, rfl⟩
    | exact .branch _ ⟨by decide, rfl, rfl, rfl⟩ (by simp [branchPatternFlags])
    | exact .config _ ⟨by decide, rfl, rfl, rfl⟩ (by simp [configReadFlags])
    | exact .settled _ _ ⟨by decide, rfl, rfl, rfl⟩ (by simp [settledForms])
    | exact .fixed _ ⟨by decide, rfl, rfl, rfl⟩ (by decide +kernel) (by decide +kernel)

/-- A read-only gh pattern after its head. -/
inductive GhPattern (text : List Char) : Prop
  | plain (command : String) (h : Spells text [command] true)
      (hcommand : command ∈ ["version", "help", "status", "search"])
  | verb (command verb : String) (h : Spells text [command, verb] true)
      (hdash : begins command "-" = false) (hapi : command ≠ "api")
      (hread : classifyGhCommand command (some verb) [] = .read)
  | fixed (known : List String) (h : Spells text known false)
      (hread : (classifyGhTokens known).1 = .read)

theorem readOnlyGhPatterns_spelled : ∀ pattern ∈ readOnlyGhPatterns,
    ∃ text, pattern = String.ofList (ghHead ++ text) ∧ GhPattern text := by
  simp only [readOnlyGhPatterns, List.forall_mem_cons, List.not_mem_nil, false_implies,
    implies_true, and_true]
  repeat' apply And.intro
  all_goals refine ⟨_, rfl, ?_⟩
  all_goals first
    | exact .plain _ ⟨by decide, rfl, rfl, rfl⟩ (by simp)
    | exact .verb _ _ ⟨by decide, rfl, rfl, rfl⟩ (by decide +kernel) (by simp) (by decide +kernel)
    | exact .fixed _ ⟨by decide, rfl, rfl, rfl⟩ (by decide +kernel)

/-! ## Lines of a read-only pattern -/

theorem patternBody_append {head text : List Char} (h : 2 ≤ text.length) :
    patternBody (head ++ text) = (head ++ (patternBody text).1, (patternBody text).2) := by
  have hsuffix : [' ', '*'].isSuffixOf (head ++ text) = [' ', '*'].isSuffixOf text := by
    rw [Bool.eq_iff_iff, List.isSuffixOf_iff_suffix, List.isSuffixOf_iff_suffix]
    refine ⟨fun hs => ?_, fun hs => hs.trans (List.suffix_append ..)⟩
    exact List.suffix_of_suffix_length_le hs (List.suffix_append ..) h
  unfold patternBody
  rw [hsuffix]
  split
  · rw [List.length_append, Nat.add_sub_assoc h, List.take_length_add_append]
  · rfl

/-- A word and a blank. -/
structure Leads (head : List Char) (first : List String) : Prop where
  literal : head.all isLiteral = true
  words : ∀ text, tokens (head ++ text) = first ++ tokens text

theorem leads_word (word : List Char) (h : word.all isLiteral = true) :
    Leads (word ++ [' ']) (tokens word) where
  literal := by rw [List.all_append, h]; rfl
  words text := by
    rw [List.append_assoc, List.singleton_append]
    exact tokens_append (c := ' ') rfl

theorem Leads.append {head head' : List Char} {first first' : List String}
    (h : Leads head first) (h' : Leads head' first') : Leads (head ++ head') (first ++ first') where
  literal := by rw [List.all_append, h.literal, h'.literal]; rfl
  words text := by rw [List.append_assoc, h.words, h'.words, List.append_assoc]

theorem notMem_slash {line : List Char} {first : Bool} (h : isPlainFrom first line = true) :
    '\\' ∉ line := by
  induction line generalizing first with
  | nil => simp
  | cons c rest ih =>
      intro hmem
      rcases isPlainFrom_head h with ⟨hblank, hrest⟩ | ⟨hchar, hrest, -⟩
      · rcases List.mem_cons.mp hmem with rfl | hmem
        · exact absurd hblank (by decide)
        · exact ih hrest hmem
      · rcases List.mem_cons.mp hmem with rfl | hmem
        · exact absurd rfl (isPlainChar_ne hchar).2.2.2.1
        · exact ih hrest hmem

theorem Spells.matches {text : List Char} {known : List String} {more : Bool}
    (h : Spells text known more) {head : List Char} {first : List String} (hhead : Leads head first)
    {line : List Char} (hline : isPlainLine line = true)
    (hmatch : matchesPermissionPattern line (head ++ text) = true) :
    ∃ extra, tokens line = first ++ (known ++ extra) ∧ (more = false → extra = []) := by
  have hbody := @patternBody_append head text h.length
  obtain ⟨extra, htokens, hextra⟩ := matches_body (notMem_slash hline)
    (by rw [hbody, List.all_append, hhead.literal, h.literal]; rfl) hmatch
  rw [hbody, hhead.words, h.words] at htokens
  rw [hbody, h.more] at hextra
  exact ⟨extra, by rw [htokens, List.append_assoc], hextra⟩

/-- A line of a read-only git pattern has no other reads after its head than the listings. -/
theorem GitPattern.reads {text : List Char} (h : GitPattern text) {head : List Char}
    {first : List String} (hhead : Leads head first) {line : List Char}
    (hline : isPlainLine line = true)
    (hmatch : matchesPermissionPattern line (head ++ text) = true) :
    ∃ args, tokens line = first ++ args ∧ ReadsUnlessListing args := by
  cases h with
  | read sub h hsub =>
      obtain ⟨extra, htokens, -⟩ := h.matches hhead hline hmatch
      obtain ⟨hdash, hne, hbranch, htag, hconfig⟩ := KnownWords.read knownWords sub hsub
      exact ⟨_, htokens,
        readsUnlessListing_read hdash hne hbranch htag hconfig (gitRead_reads hsub extra)⟩
  | settled sub verb h hform =>
      obtain ⟨extra, htokens, -⟩ := h.matches hhead hline hmatch
      obtain ⟨hdash, hne, hbranch, htag, hconfig⟩ := settledForms_word _ hform
      exact ⟨_, htokens,
        readsUnlessListing_read hdash hne hbranch htag hconfig (settledForms_read hform extra)⟩
  | branch verb h hverb =>
      obtain ⟨extra, htokens, -⟩ := h.matches hhead hline hmatch
      exact ⟨_, htokens, readsUnlessListing_branch hverb extra⟩
  | tag verb h =>
      obtain ⟨extra, htokens, -⟩ := h.matches hhead hline hmatch
      exact ⟨_, htokens, readsUnlessListing_tag (verb :: extra)⟩
  | config verb h hverb =>
      obtain ⟨extra, htokens, -⟩ := h.matches hhead hline hmatch
      exact ⟨_, htokens, readsUnlessListing_config hverb extra⟩
  | fixed known h hread hnone =>
      obtain ⟨extra, htokens, hextra⟩ := h.matches hhead hline hmatch
      rw [hextra rfl, List.append_nil] at htokens
      exact ⟨_, htokens, fun _ => hnone, fun _ => hread⟩
  | tagCount h =>
      -- the count may go on in the same word
      subst h
      have hword : Leads ['t', 'a', 'g', ' '] ["tag"] :=
        leads_word ['t', 'a', 'g'] (by decide)
      have hsplit : head ++ ['t', 'a', 'g', ' ', '-', 'n', '*']
          = (head ++ ['t', 'a', 'g', ' ']) ++ (['-', 'n'] ++ ['*']) := by simp
      have hliteral : slashed (head ++ ['t', 'a', 'g', ' ', '-', 'n', '*'])
          = head ++ ['t', 'a', 'g', ' ', '-', 'n', '*'] := by
        refine slashed_of_notMem fun hmem => ?_
        rcases List.mem_append.mp hmem with hmem | hmem
        · exact (isLiteral_ne (List.all_eq_true.mp hhead.literal _ hmem)).2.2 rfl
        · revert hmem
          decide
      have hsuffix : ¬ [' ', '*'].isSuffixOf (head ++ ['t', 'a', 'g', ' ', '-', 'n', '*']) = true := by
        rw [List.isSuffixOf_iff_suffix]
        intro hs
        have hshort := List.suffix_of_suffix_length_le hs
          (List.suffix_append head ['t', 'a', 'g', ' ', '-', 'n', '*']) (by simp)
        revert hshort
        decide
      rw [matchesPermissionPattern, slashed_of_notMem (notMem_slash hline), hliteral,
        if_neg hsuffix, hsplit, matchesGlob_append (by rw [List.all_append, hhead.literal]; rfl)]
        at hmatch
      obtain ⟨rest, rfl, -⟩ := hmatch
      rw [List.append_assoc, hhead.words, hword.words]
      exact ⟨_, rfl, readsUnlessListing_tag _⟩

theorem ghOptions_command {command : String} (h : begins command "-" = false)
    (args : List String) : ghOptions (command :: args) = some (command :: args) := by
  cases args <;> simp [ghOptions, h]

theorem classifyGhCommand_rest {command : String} (h : command ≠ "api") (verb : Option String)
    (rest rest' : List String) :
    classifyGhCommand command verb rest = classifyGhCommand command verb rest' := by
  unfold classifyGhCommand
  simp only [h, if_false]

theorem GhPattern.reads {text : List Char} (h : GhPattern text) {line : List Char}
    (hline : isPlainLine line = true)
    (hmatch : matchesPermissionPattern line (ghHead ++ text) = true) :
    ∃ args, tokens line = "gh" :: args ∧ (classifyGhTokens args).1 = .read := by
  have hhead : Leads ghHead ["gh"] := leads_word ['g', 'h'] (by decide)
  cases h with
  | plain command h hcommand =>
      obtain ⟨extra, htokens, -⟩ := h.matches hhead hline hmatch
      have hdash : ∀ command ∈ ["version", "help", "status", "search"],
          begins command "-" = false ∧ ∀ verb rest, classifyGhCommand command verb rest = .read := by
        intro command hcommand
        refine ⟨by revert command; decide +kernel, fun verb rest => ?_⟩
        rw [classifyGhCommand, if_pos (List.contains_iff_mem.mpr (List.mem_cons_of_mem _ hcommand))]
      obtain ⟨hdash, hread⟩ := hdash command hcommand
      refine ⟨_, htokens, ?_⟩
      show (classifyGhTokens (command :: extra)).1 = _
      rw [classifyGhTokens, ghOptions_command hdash]
      exact hread _ _
  | verb command verb h hdash hapi hread =>
      obtain ⟨extra, htokens, -⟩ := h.matches hhead hline hmatch
      refine ⟨_, htokens, ?_⟩
      show (classifyGhTokens (command :: verb :: extra)).1 = _
      rw [classifyGhTokens, ghOptions_command hdash]
      exact (classifyGhCommand_rest hapi _ _ _).trans hread
  | fixed known h hread =>
      obtain ⟨extra, htokens, hextra⟩ := h.matches hhead hline hmatch
      rw [hextra rfl, List.append_nil] at htokens
      exact ⟨_, htokens, hread⟩

end OmniRush.Shell
