import OmniRush.Proofs.PlainLine

/-!
# What the words of a git command settle

For most subcommands the first words make a command a read, whatever follows
(`settledForms`). For `branch`, `tag` and `config` they do not: a listing may carry a flag
that the classifier takes for a change (`changesDespiteListing`), and it is a read if and
only if it carries none.
-/

namespace OmniRush.Shell

/-! ## Words

The facts about fixed words are settled in one evaluation and used by name. -/

/-- What the classifier's own words look like to its tests. -/
structure KnownWords : Prop where
  program : ∀ program ∈ ["git", "gh"], reservedWords.contains program = false ∧
    isAssignment program = false ∧ wrappers.contains (programName (some program)) = false ∧
    programName (some program) = program
  dashed : ∀ word ∈ ["--version", "--help", "-h"], begins word "-" = true
  listing : ∀ sub ∈ ["branch", "tag", "config"], begins sub "-" = false
  pager : ∀ option ∈ ["--no-pager", "-P"], begins option "-" = true ∧
    option ≠ "--" ∧ option.toList.takeWhile (· ≠ '=') = option.toList ∧
    gitOptionsWithValue.contains (String.ofList option.toList) = false ∧
    continues option "-C" = false
  delete : ∀ flag ∈ ["-d", "--delete"], isBranchReadFlag flag = false ∧
    '=' ∉ flag.toList ∧ branchReadFlags.contains flag = false ∧
    flag.toList.head? = some '-' ∧ begins flag "-" = true
  forced : shortFlagHas "-D" 'D' = true
  /-- The letters of a branch listing are not those that delete. -/
  letters : ∀ letter ∈ ['D', 'd', '='], "alrvi".toList.contains letter = false
  branch : ∀ flag ∈ branchReadFlags, shortFlagHas flag 'D' = false ∧
    shortFlagHas flag 'd' = false
  read : ∀ sub ∈ gitRead, begins sub "-" = false ∧ sub ≠ "" ∧ sub ≠ "branch" ∧ sub ≠ "tag" ∧
    sub ≠ "config"

theorem knownWords : KnownWords where
  program := by decide +kernel
  dashed := by decide +kernel
  listing := by decide +kernel
  pager := by decide +kernel
  delete := by decide +kernel
  forced := by decide +kernel
  letters := by
    intro letter hletter
    simp only [List.mem_cons, List.not_mem_nil, or_false] at hletter
    rcases hletter with rfl | rfl | rfl <;> decide +kernel
  branch := by decide +kernel
  read := by decide +kernel

/-! ## Plain commands of git and gh -/

theorem splitProgramTokens_plain {program : String} {args : List String}
    (hassignment : isAssignment program = false)
    (hwrapper : wrappers.contains (programName (some program)) = false) :
    splitProgramTokens (program :: args) = ([], program :: args) := by
  rw [splitProgramTokens, splitProgramFrom]
  simp only [hassignment, hwrapper, Bool.not_false, if_true, Nat.reduceEqDiff, if_false,
    Bool.false_eq_true]

theorem classify_git {line : List Char} {args : List String} (h : isPlainLine line = true)
    (htokens : tokens line = "git" :: args) :
    (classifyShellCommand line).map (·.kind) = [(classifyGitTokens args).1.kind] := by
  obtain ⟨hreserved, hassignment, hwrapper, hname⟩ :=
    KnownWords.program knownWords "git" (by simp)
  obtain ⟨segment, hsegments, hargs⟩ := splitShellCommand_plain h htokens (by decide) hreserved
  have hsplit := @splitProgramTokens_plain "git" args hassignment hwrapper
  rw [classifyShellCommand, hsegments, List.flatMap_singleton, classifySegment, hargs,
    maxInterpreterDepth, classifyTokens, hsplit]
  simp only [List.head?_cons, List.tail_cons, hname, classifyProgram, if_true, List.map_cons,
    List.map_nil]

theorem classify_gh {line : List Char} {args : List String} (h : isPlainLine line = true)
    (htokens : tokens line = "gh" :: args) :
    (classifyShellCommand line).map (·.kind) = [(classifyGhTokens args).1] := by
  obtain ⟨hreserved, hassignment, hwrapper, hname⟩ :=
    KnownWords.program knownWords "gh" (by simp)
  obtain ⟨segment, hsegments, hargs⟩ := splitShellCommand_plain h htokens (by decide) hreserved
  have hsplit := @splitProgramTokens_plain "gh" args hassignment hwrapper
  have hne : ¬ "gh" = "git" := by decide
  rw [classifyShellCommand, hsegments, List.flatMap_singleton, classifySegment, hargs,
    maxInterpreterDepth, classifyTokens, hsplit]
  simp only [List.head?_cons, List.tail_cons, hname, classifyProgram, hne, if_true, if_false,
    ClassifiedCommand.plain, List.map_cons, List.map_nil]

/-! ## Listings that change something -/

/-- A `branch` with a flag that is none of a listing, a `tag` that deletes, annotates or
does not list, or a `config` that writes. -/
def changesDespiteListing (args : List String) : Bool :=
  match (gitOptions {} args).2 with
  | [] => false
  | sub :: args =>
      if sub = "branch" then !(args.filter fun arg => begins arg "-").all isBranchReadFlag
      else if sub = "tag" then
        args ≠ [] && (deletesTag args || annotatesTag args || !listsTags args)
      else if sub = "config" then configWriteFlags.any fun flag => hasFlag args [flag]
      else false

/-- The tokens after `git` are a read, save for such a listing. -/
def ReadsUnlessListing (args : List String) : Prop :=
  (classifyGitTokens args).1.kind = .read ↔ changesDespiteListing args = false

theorem gitOptions_sub {options : GitOptions} {sub : String} {args : List String}
    (h : begins sub "-" = false) : gitOptions options (sub :: args) = (options, sub :: args) := by
  rw [gitOptions]
  simp [h]

theorem gitOptions_pager {option : String} (h : option = "--no-pager" ∨ option = "-P")
    (options : GitOptions) (args : List String) :
    gitOptions options (option :: args) = gitOptions options args := by
  obtain ⟨hdash, hne, hname, hvalue, hdirectory⟩ :=
    KnownWords.pager knownWords option (by simpa using h)
  rw [gitOptions]
  simp only [hdash, hne, hname, hvalue, hdirectory, Bool.not_true, Bool.false_or,
    Bool.false_eq_true, if_false, decide_false]

theorem ReadsUnlessListing.pager {option : String} {args : List String}
    (h : option = "--no-pager" ∨ option = "-P") (hargs : ReadsUnlessListing args) :
    ReadsUnlessListing (option :: args) := by
  unfold ReadsUnlessListing classifyGitTokens changesDespiteListing at hargs ⊢
  rw [gitOptions_pager h]
  exact hargs

theorem classifyGit_sub {sub : String} {args : List String} (h : begins sub "-" = false)
    (hne : sub ≠ "") : (classifyGitTokens (sub :: args)).1 = classifySubcommand sub args := by
  have hflags : sub ≠ "--version" ∧ sub ≠ "--help" ∧ sub ≠ "-h" := by
    have hdashed := KnownWords.dashed knownWords
    refine ⟨?_, ?_, ?_⟩ <;> (rintro rfl; rw [hdashed _ (by simp)] at h; cases h)
  rw [classifyGitTokens, gitOptions_sub h]
  show classifyGit (some sub) args = _
  unfold classifyGit
  split
  · next heq => cases heq
  · next heq => exact absurd (Option.some.inj heq) hne
  · next heq => exact absurd (Option.some.inj heq) hflags.1
  · next heq => exact absurd (Option.some.inj heq) hflags.2.1
  · next heq => exact absurd (Option.some.inj heq) hflags.2.2
  · next heq => rw [Option.some.inj heq]

theorem changesDespiteListing_sub {sub : String} {args : List String}
    (h : begins sub "-" = false) : changesDespiteListing (sub :: args)
      = if sub = "branch" then !(args.filter fun arg => begins arg "-").all isBranchReadFlag
        else if sub = "tag" then
          args ≠ [] && (deletesTag args || annotatesTag args || !listsTags args)
        else if sub = "config" then configWriteFlags.any fun flag => hasFlag args [flag]
        else false := by
  rw [changesDespiteListing, gitOptions_sub h]

theorem readsUnlessListing_read {sub : String} {args : List String} (h : begins sub "-" = false)
    (hne : sub ≠ "") (hbranch : sub ≠ "branch") (htag : sub ≠ "tag") (hconfig : sub ≠ "config")
    (hread : (classifySubcommand sub args).kind = .read) : ReadsUnlessListing (sub :: args) := by
  rw [ReadsUnlessListing, classifyGit_sub h hne, changesDespiteListing_sub h, hread]
  simp [hbranch, htag, hconfig]

/-! ### Subcommands that read whatever follows -/

theorem gitRead_reads {sub : String} (h : sub ∈ gitRead) (args : List String) :
    (classifySubcommand sub args).kind = .read := by
  simp only [gitRead, List.mem_cons, List.not_mem_nil, or_false] at h
  repeat' (rcases h with rfl | h)
  all_goals rfl

/-- The words that make a command a read, whatever follows. -/
def settledForms : List (String × String) :=
  [("remote", "show"), ("remote", "get-url"), ("worktree", "list"), ("stash", "list"),
    ("stash", "show"), ("reflog", "show"), ("submodule", "status"), ("submodule", "summary"),
    ("lfs", "ls-files"), ("lfs", "status"), ("notes", "list"), ("notes", "show"),
    ("clean", "-n"), ("clean", "--dry-run")]

theorem settledForms_word : ∀ form ∈ settledForms, begins form.1 "-" = false ∧ form.1 ≠ "" ∧
    form.1 ≠ "branch" ∧ form.1 ≠ "tag" ∧ form.1 ≠ "config" := by decide +kernel

theorem hasFlag_head (flag : String) (args flags : List String) (h : flag ∈ flags) :
    hasFlag (flag :: args) flags = true := by
  rw [hasFlag, List.any_cons, Bool.or_eq_true]
  exact .inl (List.any_eq_true.mpr ⟨flag, h, by simp⟩)

theorem settledForms_read {sub verb : String} (h : (sub, verb) ∈ settledForms)
    (args : List String) : (classifySubcommand sub (verb :: args)).kind = .read := by
  have hclean : ∀ flag ∈ ["-n", "--dry-run"], classifyClean (flag :: args) = .read := by
    intro flag hflag
    rw [classifyClean, hasFlag_head flag args _ hflag]
    rfl
  simp only [settledForms, List.mem_cons, Prod.mk.injEq, List.not_mem_nil, or_false] at h
  repeat' (rcases h with h | h)
  all_goals
    subst_vars
    simp [classifySubcommand, verbIn, hclean]

/-! ### Listings -/

theorem begins_flag {arg flag : String} (h : begins arg (flag ++ "=") = true) :
    ∃ value, arg.toList = flag.toList ++ '=' :: value := by
  obtain ⟨value, hvalue⟩ := List.isPrefixOf_iff_prefix.mp h
  refine ⟨value, ?_⟩
  rw [← hvalue, String.toList_append]
  simp

theorem branchReadFlag_short {arg : String} {letter : Char} (hletter : letter = 'D' ∨ letter = 'd')
    (h : isBranchReadFlag arg = true) : shortFlagHas arg letter = false := by
  by_contra hshort
  rw [Bool.not_eq_false] at hshort
  have hword := hshort
  unfold shortFlagHas at hword
  unfold isBranchReadFlag at h
  rw [Bool.or_eq_true] at h
  split at hword
  · next letters hletters =>
      simp only [Bool.and_eq_true, decide_eq_true_eq] at hword
      obtain ⟨⟨hne, hall⟩, hmem⟩ := hword
      have hmem := List.contains_iff_mem.mp hmem
      rcases h with hname | hlisting
      · have hplain : arg.toList.takeWhile (fun c => decide (c ≠ '=')) = arg.toList := by
          refine List.takeWhile_eq_self_iff.mpr fun c hc => decide_eq_true ?_
          rintro rfl
          rw [hletters] at hc
          rcases List.mem_cons.mp hc with heq | hc
          · exact absurd heq (by decide)
          · exact absurd (List.all_eq_true.mp hall _ hc) (by decide)
        rw [hplain, String.ofList_toList] at hname
        have hnone := KnownWords.branch knownWords arg (List.contains_iff_mem.mp hname)
        rcases hletter with rfl | rfl
        · rw [hnone.1] at hshort
          cases hshort
        · rw [hnone.2] at hshort
          cases hshort
      · rw [hletters] at hlisting
        simp only [Bool.and_eq_true] at hlisting
        have hin := List.all_eq_true.mp hlisting.2 _ hmem
        rw [KnownWords.letters knownWords _ (by simpa using hletter.imp_right .inl)] at hin
        cases hin
  · cases hword

theorem branchReadFlag_delete {arg : String} (h : isBranchReadFlag arg = true) :
    (["-d", "--delete"].any fun flag => arg = flag || begins arg (flag ++ "=")) = false := by
  by_contra hdelete
  rw [Bool.not_eq_false, List.any_eq_true] at hdelete
  obtain ⟨flag, hflag, hdelete⟩ := hdelete
  rw [Bool.or_eq_true, decide_eq_true_eq] at hdelete
  obtain ⟨hbare, hequals, hnone, hdash, -⟩ := KnownWords.delete knownWords flag hflag
  rcases hdelete with rfl | hvalue
  · rw [hbare] at h
    cases h
  · obtain ⟨value, hvalue⟩ := begins_flag hvalue
    have hname : arg.toList.takeWhile (fun c => decide (c ≠ '=')) = flag.toList := by
      rw [hvalue, List.takeWhile_append_of_pos]
      · simp
      · intro c hc
        exact decide_eq_true fun heq => hequals (heq ▸ hc)
    rw [isBranchReadFlag, hname, String.ofList_toList, hnone, hvalue, Bool.false_or] at h
    obtain ⟨letters, hletters⟩ := List.head?_eq_some_iff.mp hdash
    rw [hletters, List.cons_append] at h
    simp only [Bool.and_eq_true] at h
    have hin := List.all_eq_true.mp h.2 '=' (by simp)
    rw [KnownWords.letters knownWords '=' (by simp)] at hin
    cases hin

theorem classifyBranch_listing {args : List String}
    (hpattern : branchPatternFlags.any (fun flag => hasFlag args [flag]) = true) :
    classifyBranch args = .read
      ↔ (args.filter fun arg => begins arg "-").all isBranchReadFlag = true := by
  constructor
  · intro hread
    by_contra hall
    rw [Bool.not_eq_true] at hall
    unfold classifyBranch at hread
    split at hread
    · cases hread
    · split at hread
      · cases hread
      · split at hread
        · next hnil =>
            rw [hnil] at hall
            cases hall
        · rw [hall, Bool.not_false, if_pos rfl] at hread
          cases hread
  · intro hall
    have hflag : ∀ arg ∈ args, begins arg "-" = true → isBranchReadFlag arg = true :=
      fun arg harg hdash => List.all_eq_true.mp hall arg (List.mem_filter.mpr ⟨harg, hdash⟩)
    have hshort : ∀ letter, letter = 'D' ∨ letter = 'd' → ∀ arg ∈ args,
        shortFlagHas arg letter = false := by
      intro letter hletter arg harg
      by_cases hdash : begins arg "-" = true
      · exact branchReadFlag_short hletter (hflag arg harg hdash)
      · unfold shortFlagHas
        split
        · next letters hletters =>
            refine absurd ?_ hdash
            rw [begins, startsWith, hletters]
            rfl
        · rfl
    have hupper : (args.any fun arg => arg = "-D" || shortFlagHas arg 'D') = false := by
      rw [List.any_eq_false]
      intro arg harg
      rw [hshort 'D' (.inl rfl) arg harg, Bool.or_false, decide_eq_true_eq]
      rintro rfl
      have hnone := hshort 'D' (.inl rfl) "-D" harg
      rw [KnownWords.forced knownWords] at hnone
      cases hnone
    have hlower : (hasFlag args ["-d", "--delete"] || args.any fun arg => shortFlagHas arg 'd')
        = false := by
      rw [Bool.or_eq_false_iff, hasFlag, List.any_eq_false, List.any_eq_false]
      refine ⟨fun arg harg => ?_, fun arg harg => by rw [hshort 'd' (.inr rfl) arg harg]; simp⟩
      by_cases hdash : begins arg "-" = true
      · rw [branchReadFlag_delete (hflag arg harg hdash)]
        simp
      · rw [Bool.not_eq_true, List.any_eq_false]
        intro flag hmem
        obtain ⟨-, -, -, hhead, hdashed⟩ := KnownWords.delete knownWords flag hmem
        rw [Bool.or_eq_true, decide_eq_true_eq, not_or]
        refine ⟨fun heq => hdash (heq ▸ hdashed), fun hvalue => hdash ?_⟩
        obtain ⟨value, hvalue⟩ := begins_flag hvalue
        obtain ⟨letters, hletters⟩ := List.head?_eq_some_iff.mp hhead
        rw [begins, startsWith, hvalue, hletters]
        rfl
    rw [classifyBranch, hupper, hlower, hall, hpattern]
    simp only [Bool.false_and, Bool.false_eq_true, if_false, Bool.not_true, if_true]
    split
    · rfl
    · split <;> rfl

theorem readsUnlessListing_branch {verb : String} (h : verb ∈ branchPatternFlags)
    (args : List String) : ReadsUnlessListing ("branch" :: verb :: args) := by
  have hpattern : branchPatternFlags.any (fun flag => hasFlag (verb :: args) [flag]) = true :=
    List.any_eq_true.mpr ⟨verb, h, hasFlag_head verb args _ (List.mem_singleton.mpr rfl)⟩
  have hword := KnownWords.listing knownWords "branch" (by simp)
  have hsub : classifySubcommand "branch" (verb :: args) = ⟨classifyBranch (verb :: args), false, none⟩ :=
    rfl
  rw [ReadsUnlessListing, classifyGit_sub hword (by decide), hsub,
    changesDespiteListing_sub hword, classifyBranch_listing hpattern, if_pos rfl]
  cases ((verb :: args).filter fun arg => begins arg "-").all isBranchReadFlag <;> simp

theorem readsUnlessListing_tag (args : List String) : ReadsUnlessListing ("tag" :: args) := by
  have hword := KnownWords.listing knownWords "tag" (by simp)
  have hsub : classifySubcommand "tag" args = classifyTag args := rfl
  rw [ReadsUnlessListing, classifyGit_sub hword (by decide), hsub,
    changesDespiteListing_sub hword, if_neg (by decide), if_pos rfl]
  by_cases hnil : args = []
  · subst hnil
    exact ⟨fun _ => rfl, fun _ => rfl⟩
  · rw [classifyTag]
    cases deletesTag args <;> cases annotatesTag args <;> cases listsTags args <;> simp [hnil]

theorem readsUnlessListing_config {verb : String} (h : verb ∈ configReadFlags)
    (args : List String) : ReadsUnlessListing ("config" :: verb :: args) := by
  have hread : configReadFlags.any (fun flag => hasFlag (verb :: args) [flag]) = true :=
    List.any_eq_true.mpr ⟨verb, h, hasFlag_head verb args _ (List.mem_singleton.mpr rfl)⟩
  have hword := KnownWords.listing knownWords "config" (by simp)
  have hsub : classifySubcommand "config" (verb :: args) = classifyGitConfig (verb :: args) := rfl
  rw [ReadsUnlessListing, classifyGit_sub hword (by decide), hsub,
    changesDespiteListing_sub hword, if_neg (by decide), if_neg (by decide),
    if_pos rfl, classifyGitConfig]
  dsimp only
  rw [hread]
  cases configWriteFlags.any fun flag => hasFlag (verb :: args) [flag] <;> simp

end OmniRush.Shell
