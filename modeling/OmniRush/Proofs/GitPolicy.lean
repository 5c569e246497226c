import OmniRush.Proofs.GitRules

/-!
# What the rules let run

A line of plain words is allowed when a read-only pattern matches it and no pattern after
them asks. A read-only pattern fixes the first words of the line and, if it ends in `*`,
leaves the rest open, so the line is a read unless it is a listing that changes something.
The destructive patterns ask again for some of these listings only.

So an allowed line is a read if and only if it is no such listing
(`allowed_is_read_iff`).
-/

namespace OmniRush.Shell

/-! ## Assigned rules -/

theorem assign_cases {rules : Rules} {pattern : String} {action : RuleAction}
    (hsame : ∀ rule ∈ rules, rule.1 = pattern → rule.2 = action) :
    (rules.assign pattern action = rules ∧ (pattern, action) ∈ rules) ∨
      rules.assign pattern action = rules ++ [(pattern, action)] := by
  unfold Rules.assign
  split
  · next hany =>
      obtain ⟨rule, hrule, hkey⟩ := List.any_eq_true.mp hany
      have hkey : rule.1 = pattern := of_decide_eq_true hkey
      refine .inl ⟨?_, ?_⟩
      · refine (List.map_congr_left fun rule hrule => ?_).trans (List.map_id _)
        split
        · next heq => rw [← heq, ← hsame rule hrule heq]; rfl
        · rfl
      · rw [← hkey, ← hsame rule hrule hkey]
        exact hrule
  · exact .inr rfl

/-- New patterns come after the rules there were, and the others stay where they are. -/
theorem assignAll_spec {rules : Rules} {patterns : List String} {action : RuleAction}
    (hsame : ∀ rule ∈ rules, rule.1 ∈ patterns → rule.2 = action) :
    ∃ added : List String, rules.assignAll patterns action
        = rules ++ added.map (fun pattern => (pattern, action)) ∧
      (∀ pattern ∈ added, pattern ∈ patterns) ∧
      ∀ pattern ∈ patterns, pattern ∈ added ∨ (pattern, action) ∈ rules := by
  induction patterns generalizing rules with
  | nil => exact ⟨[], by simp [Rules.assignAll], by simp, by simp⟩
  | cons pattern patterns ih =>
      have hstep : rules.assignAll (pattern :: patterns) action
          = (rules.assign pattern action).assignAll patterns action := rfl
      have hcases := @assign_cases rules pattern action fun rule hrule heq =>
        hsame rule hrule (by rw [heq]; exact List.mem_cons_self ..)
      rcases hcases with ⟨hkept, hmem⟩ | happended
      · obtain ⟨added, hrules, hadded, hall⟩ := ih fun rule hrule hkey =>
          hsame rule hrule (List.mem_cons_of_mem _ hkey)
        refine ⟨added, by rw [hstep, hkept, hrules], fun q hq => List.mem_cons_of_mem _ (hadded q hq),
          fun q hq => ?_⟩
        rcases List.mem_cons.mp hq with rfl | hq
        · exact .inr hmem
        · exact hall q hq
      · obtain ⟨added, hrules, hadded, hall⟩ := @ih (rules ++ [(pattern, action)])
          fun rule hrule hkey => by
            rcases List.mem_append.mp hrule with hold | hnew
            · exact hsame rule hold (List.mem_cons_of_mem _ hkey)
            · rw [List.mem_singleton.mp hnew]
        refine ⟨pattern :: added, by rw [hstep, happended, hrules]; simp, fun q hq => ?_,
          fun q hq => ?_⟩
        · rcases List.mem_cons.mp hq with rfl | hq
          · exact List.mem_cons_self ..
          · exact List.mem_cons_of_mem _ (hadded q hq)
        · rcases List.mem_cons.mp hq with rfl | hq
          · exact .inl (List.mem_cons_self ..)
          · rcases hall q hq with hin | hin
            · exact .inl (List.mem_cons_of_mem _ hin)
            · rcases List.mem_append.mp hin with hold | hnew
              · exact .inr hold
              · cases List.mem_singleton.mp hnew
                exact .inl (List.mem_cons_self ..)

/-! ## Allowed lines -/

theorem mem_assign {rules : Rules} {pattern : String} {action : RuleAction}
    {rule : String × RuleAction} (h : rule ∈ rules.assign pattern action) :
    rule ∈ rules ∨ rule = (pattern, action) := by
  unfold Rules.assign at h
  split at h
  · obtain ⟨old, hold, heq⟩ := List.mem_map.mp h
    split at heq
    · exact .inr heq.symm
    · exact .inl (heq ▸ hold)
  · rcases List.mem_append.mp h with h | h
    · exact .inl h
    · exact .inr (List.mem_singleton.mp h)

theorem mem_assignAll {rules : Rules} {patterns : List String} {action : RuleAction}
    {rule : String × RuleAction} (h : rule ∈ rules.assignAll patterns action) :
    rule ∈ rules ∨ (rule.1 ∈ patterns ∧ rule.2 = action) := by
  induction patterns generalizing rules with
  | nil => exact .inl h
  | cons pattern patterns ih =>
      rcases ih h with hin | ⟨hin, haction⟩
      · rcases mem_assign hin with hold | rfl
        · exact .inl hold
        · exact .inr ⟨List.mem_cons_self .., rfl⟩
      · exact .inr ⟨List.mem_cons_of_mem _ hin, haction⟩

/-- The rules that match a line, in order. -/
def Rules.matching (rules : Rules) (line : List Char) : Rules :=
  rules.filter fun rule => matchesPermissionPattern line rule.1.toList

theorem winningRule_eq (rules : Rules) (line : List Char) :
    rules.winningRule line = (rules.matching line).getLast? := by
  rw [Rules.winningRule, Rules.matching, ← List.head?_filter, List.filter_reverse,
    List.head?_reverse]

theorem matching_append (rules rules' : Rules) (line : List Char) :
    (rules ++ rules').matching line = rules.matching line ++ rules'.matching line :=
  List.filter_append ..

theorem matching_assign {rules : Rules} {pattern : String} {action : RuleAction}
    {line : List Char} (h : matchesPermissionPattern line pattern.toList = false) :
    (rules.assign pattern action).matching line = rules.matching line := by
  unfold Rules.assign
  split
  · have hkept : ∀ rule : String × RuleAction,
        matchesPermissionPattern line (if rule.1 = pattern then (pattern, action) else rule).1.toList
          = matchesPermissionPattern line rule.1.toList := by
      intro rule
      split
      · next heq => rw [heq]
      · rfl
    rw [Rules.matching, List.filter_map, Rules.matching]
    simp only [Function.comp_def, hkept]
    refine (List.map_congr_left fun rule hrule => ?_).trans (List.map_id _)
    rw [if_neg]
    · rfl
    · intro heq
      rw [List.mem_filter, heq, h] at hrule
      exact absurd hrule.2 (by decide)
  · rw [Rules.matching, List.filter_append]
    simp [Rules.matching, h]

theorem matching_assignAll {rules : Rules} {patterns : List String} {action : RuleAction}
    {line : List Char} (h : ∀ pattern ∈ patterns, matchesPermissionPattern line pattern.toList = false) :
    (rules.assignAll patterns action).matching line = rules.matching line := by
  induction patterns generalizing rules with
  | nil => rfl
  | cons pattern patterns ih =>
      exact (ih fun q hq => h q (List.mem_cons_of_mem _ hq)).trans
        (matching_assign (h pattern (List.mem_cons_self ..)))

/-- The patterns of the rules that stand first. -/
def basePatterns : List String := ["git *", "gh *", "sudo *"]

def allowPatterns : List String := readOnlyGitPatterns.flatMap pagerForms ++ readOnlyGhPatterns

def askPatterns : List String :=
  interpreterPatterns ++ destructivePatterns ++ [destructiveMarker ++ " *"]

theorem assignAll_append (rules : Rules) (patterns patterns' : List String) (action : RuleAction) :
    rules.assignAll (patterns ++ patterns') action
      = (rules.assignAll patterns action).assignAll patterns' action := List.foldl_append

theorem assignAll_singleton (rules : Rules) (pattern : String) (action : RuleAction) :
    rules.assignAll [pattern] action = rules.assign pattern action := rfl

theorem gitWorkflowPermissionRules_eq : gitWorkflowPermissionRules =
    (Rules.assignAll (Rules.assignAll (basePatterns.map fun pattern => (pattern, .ask))
      allowPatterns .allow) askPatterns .ask) := by
  rw [askPatterns, assignAll_append, assignAll_append, assignAll_singleton, allowPatterns,
    assignAll_append, basePatterns, List.map_cons, List.map_cons, List.map_cons, List.map_nil,
    gitWorkflowPermissionRules]

/-- The rules let the line run. -/
def isAllowed (line : List Char) : Bool :=
  (gitWorkflowPermissionRules.winningRule line).any fun rule => rule.2 = .allow

theorem matches_of_isAllowed {line : List Char} (h : isAllowed line = true) :
    ∃ pattern ∈ allowPatterns, matchesPermissionPattern line pattern.toList = true := by
  obtain ⟨rule, hrule, haction⟩ := (Option.any_eq_true ..).mp h
  have haction : rule.2 = .allow := of_decide_eq_true haction
  rw [Rules.winningRule] at hrule
  have hmatch := List.find?_some hrule
  have hmem := List.mem_reverse.mp (List.mem_of_find?_eq_some hrule)
  rw [gitWorkflowPermissionRules_eq] at hmem
  rcases mem_assignAll hmem with hmem | ⟨-, hask⟩
  · rcases mem_assignAll hmem with hmem | ⟨hin, -⟩
    · obtain ⟨pattern, -, rfl⟩ := List.mem_map.mp hmem
      cases haction
    · exact ⟨rule.1, hin, hmatch⟩
  · rw [haction] at hask
    cases hask

/-! ### Lines of an allowed pattern -/

/-- The command is a listing that changes something, and only git has such. -/
def isChangingListing : List String → Bool
  | [] => false
  | command :: args => command = "git" && changesDespiteListing args

/-- The command is a read, save for a listing that changes something. -/
def IsReadUnlessListing (line : List Char) : Prop :=
  (classifyShellCommand line).map (·.kind) = [.read] ↔ isChangingListing (tokens line) = false

theorem isReadUnlessListing_git {line : List Char} {args : List String}
    (hline : isPlainLine line = true) (htokens : tokens line = "git" :: args)
    (hargs : ReadsUnlessListing args) : IsReadUnlessListing line := by
  rw [IsReadUnlessListing, classify_git hline htokens, htokens, isChangingListing]
  simpa [ReadsUnlessListing] using hargs

theorem isReadUnlessListing_gh {line : List Char} {args : List String}
    (hline : isPlainLine line = true) (htokens : tokens line = "gh" :: args)
    (hargs : (classifyGhTokens args).1 = .read) : IsReadUnlessListing line := by
  rw [IsReadUnlessListing, classify_gh hline htokens, htokens, isChangingListing, hargs]
  simp

/-- What the forms of a git pattern begin with. -/
def gitHeads : List (List Char) :=
  [gitHead, gitHead ++ (['-', '-', 'n', 'o', '-', 'p', 'a', 'g', 'e', 'r'] ++ [' ']),
    gitHead ++ (['-', 'P'] ++ [' '])]

theorem pagerForms_spelled {text : List Char} {pattern : String}
    (h : pattern ∈ pagerForms (String.ofList (gitHead ++ text))) :
    ∃ head ∈ gitHeads, pattern.toList = head ++ text := by
  have hafter : after (String.ofList (gitHead ++ text)) 4 = String.ofList text := by
    rw [after, String.toList_ofList]
    rfl
  rw [pagerForms, hafter] at h
  simp only [List.mem_cons, List.not_mem_nil, or_false] at h
  rcases h with rfl | rfl | rfl
  · exact ⟨_, by simp [gitHeads], String.toList_ofList⟩
  · refine ⟨gitHead ++ (['-', '-', 'n', 'o', '-', 'p', 'a', 'g', 'e', 'r'] ++ [' ']),
      by simp [gitHeads], ?_⟩
    rw [String.toList_append, String.toList_ofList, String.toList_ofList]
    rfl
  · refine ⟨gitHead ++ (['-', 'P'] ++ [' ']), by simp [gitHeads], ?_⟩
    rw [String.toList_append, String.toList_ofList, String.toList_ofList]
    rfl

theorem gitHeads_leads {head : List Char} (h : head ∈ gitHeads) :
    Leads head ["git"] ∨ Leads head ["git", "--no-pager"] ∨ Leads head ["git", "-P"] := by
  have hgit : Leads gitHead ["git"] := leads_word ['g', 'i', 't'] (by decide)
  simp only [gitHeads, List.mem_cons, List.not_mem_nil, or_false] at h
  rcases h with rfl | rfl | rfl
  · exact .inl hgit
  · exact .inr (.inl (hgit.append (leads_word _ (by decide))))
  · exact .inr (.inr (hgit.append (leads_word _ (by decide))))

theorem GitPattern.isReadUnlessListing {text : List Char} (h : GitPattern text)
    {line : List Char} (hline : isPlainLine line = true) {pattern : String}
    (hpattern : pattern ∈ pagerForms (String.ofList (gitHead ++ text)))
    (hmatch : matchesPermissionPattern line pattern.toList = true) : IsReadUnlessListing line := by
  obtain ⟨head, hhead, heq⟩ := pagerForms_spelled hpattern
  rw [heq] at hmatch
  rcases gitHeads_leads hhead with hleads | hleads | hleads
  all_goals
    obtain ⟨args, htokens, hargs⟩ := h.reads hleads hline hmatch
    refine isReadUnlessListing_git hline htokens ?_
  · exact hargs
  · exact hargs.pager (.inl rfl)
  · exact hargs.pager (.inr rfl)

/-! ## Lines that are allowed -/

theorem GitPattern.length {text : List Char} (h : GitPattern text) : 2 ≤ text.length := by
  cases h with
  | tagCount h => subst h; decide
  | _ => next h _ => exact Spells.length ‹_›

theorem GhPattern.length {text : List Char} (h : GhPattern text) : 2 ≤ text.length := by
  cases h <;> exact Spells.length ‹_›

theorem basePatterns_fresh {pattern : String} (hbase : pattern ∈ basePatterns) :
    pattern ∉ allowPatterns := by
  have hbase : pattern.toList = ['g', 'i', 't', ' ', '*'] ∨ pattern.toList = ['g', 'h', ' ', '*'] ∨
      pattern.toList = ['s', 'u', 'd', 'o', ' ', '*'] := by
    simp only [basePatterns, List.mem_cons, List.not_mem_nil, or_false] at hbase
    rcases hbase with rfl | rfl | rfl
    · exact .inl String.toList_ofList
    · exact .inr (.inl String.toList_ofList)
    · exact .inr (.inr String.toList_ofList)
  intro hallow
  rcases List.mem_append.mp hallow with hgit | hgh
  · obtain ⟨form, hform, hpager⟩ := List.mem_flatMap.mp hgit
    obtain ⟨text, rfl, htext⟩ := readOnlyGitPatterns_spelled form hform
    obtain ⟨head, hhead, heq⟩ := pagerForms_spelled hpager
    have hlength := htext.length
    rw [heq] at hbase
    simp only [gitHeads, gitHead, List.mem_cons, List.not_mem_nil, or_false] at hhead
    rcases hhead with rfl | rfl | rfl <;> rcases hbase with hbase | hbase | hbase <;>
      simp_all
  · obtain ⟨text, rfl, htext⟩ := readOnlyGhPatterns_spelled pattern hgh
    have hlength := htext.length
    rw [String.toList_ofList] at hbase
    rcases hbase with hbase | hbase | hbase <;> simp_all [ghHead]

theorem isAllowed_of_matches {line : List Char} {pattern : String}
    (hpattern : pattern ∈ allowPatterns)
    (hmatch : matchesPermissionPattern line pattern.toList = true)
    (hasks : ∀ ask ∈ askPatterns, matchesPermissionPattern line ask.toList = false) :
    isAllowed line = true := by
  obtain ⟨added, hrules, hadded, hall⟩ :=
    @assignAll_spec (basePatterns.map fun pattern => (pattern, .ask)) allowPatterns .allow
      fun rule hrule hkey => by
        obtain ⟨base, hbase, rfl⟩ := List.mem_map.mp hrule
        exact absurd hkey (basePatterns_fresh hbase)
  have hnew : (pattern, RuleAction.allow) ∈ added.map fun pattern => (pattern, RuleAction.allow) := by
    refine List.mem_map.mpr ⟨pattern, ?_, rfl⟩
    refine (hall pattern hpattern).resolve_right fun hmem => ?_
    obtain ⟨base, -, heq⟩ := List.mem_map.mp hmem
    cases heq
  have hlast : Rules.matching (added.map fun pattern => (pattern, .allow)) line ≠ [] :=
    List.ne_nil_of_mem (List.mem_filter.mpr ⟨hnew, hmatch⟩)
  rw [isAllowed, winningRule_eq, gitWorkflowPermissionRules_eq, matching_assignAll hasks, hrules,
    matching_append, List.getLast?_append_of_ne_nil _ hlast]
  obtain ⟨rule, hrule⟩ := Option.isSome_iff_exists.mp (List.getLast?_isSome.mpr hlast)
  rw [hrule]
  obtain ⟨allow, -, rfl⟩ := List.mem_map.mp (List.mem_of_mem_filter (List.mem_of_getLast? hrule))
  rfl

/-- The strings are these texts. -/
inductive Texts : List String → List (List Char) → Prop
  | nil : Texts [] []
  | cons {cs : List Char} {ps : List String} {xs : List (List Char)} (h : Texts ps xs) :
      Texts (String.ofList cs :: ps) (cs :: xs)

theorem Texts.mem {ps : List String} {xs : List (List Char)} (h : Texts ps xs) {p : String}
    (hp : p ∈ ps) : p.toList ∈ xs := by
  induction h with
  | nil => cases hp
  | cons _ ih =>
      rcases List.mem_cons.mp hp with rfl | hp
      · rw [String.toList_ofList]
        exact List.mem_cons_self ..
      · exact List.mem_cons_of_mem _ (ih hp)

theorem interpreterPatterns_eq : interpreterPatterns =
    ["bash -*c *", "sh -*c *", "zsh -*c *", "dash -*c *", "ksh -*c *", "/bin/bash -*c *",
      "/bin/sh -*c *", "/bin/zsh -*c *", "/bin/dash -*c *", "/bin/ksh -*c *",
      "/usr/bin/bash -*c *", "/usr/bin/sh -*c *", "/usr/bin/zsh -*c *", "/usr/bin/dash -*c *",
      "/usr/bin/ksh -*c *", "/usr/local/bin/bash -*c *", "/usr/local/bin/sh -*c *",
      "/usr/local/bin/zsh -*c *", "/usr/local/bin/dash -*c *", "/usr/local/bin/ksh -*c *",
      "/opt/homebrew/bin/bash -*c *", "/opt/homebrew/bin/sh -*c *",
      "/opt/homebrew/bin/zsh -*c *", "/opt/homebrew/bin/dash -*c *",
      "/opt/homebrew/bin/ksh -*c *", "eval *", "env -S *", "env --split-string*", "su *"] := rfl

/-- Two lines that no pattern asks about: a status, and a listing without the pager that
deletes a branch. -/
theorem askPatterns_none : ∀ ask ∈ askPatterns,
    matchesPermissionPattern "git status -s".toList ask.toList = false ∧
      matchesPermissionPattern "git --no-pager branch --list -D main".toList ask.toList = false := by
  have hmarker : destructiveMarker ++ " *" = "DESTRUCTIVE_COMMAND=1 *" := rfl
  obtain ⟨asks, hasks, hnone⟩ : ∃ asks, Texts askPatterns asks ∧ (asks.all fun text =>
      !matchesPermissionPattern "git status -s".toList text &&
        !matchesPermissionPattern "git --no-pager branch --list -D main".toList text) = true := by
    rw [askPatterns, interpreterPatterns_eq, destructivePatterns, hmarker, String.toList_ofList,
      String.toList_ofList]
    simp only [List.cons_append, List.nil_append]
    apply Exists.intro
    constructor
    · repeat' constructor
    · decide +kernel
  intro ask hask
  have hask := List.all_eq_true.mp hnone _ (hasks.mem hask)
  rw [Bool.and_eq_true, Bool.not_eq_true', Bool.not_eq_true'] at hask
  exact hask

theorem isAllowed_status : isAllowed "git status -s".toList = true := by
  have hpattern : "git status *" ∈ allowPatterns :=
    List.mem_append_left _ (List.mem_flatMap.mpr
      ⟨"git status *", List.mem_cons_self .., List.mem_cons_self ..⟩)
  refine isAllowed_of_matches hpattern ?_ fun ask hask => (askPatterns_none ask hask).1
  rw [String.toList_ofList, String.toList_ofList]
  decide +kernel

theorem isAllowed_listing : isAllowed "git --no-pager branch --list -D main".toList = true := by
  have hform : "git branch --list *" ∈ readOnlyGitPatterns := by simp [readOnlyGitPatterns]
  have hpattern : "git --no-pager branch --list *" ∈ allowPatterns :=
    List.mem_append_left _ (List.mem_flatMap.mpr
      ⟨"git branch --list *", hform, List.mem_cons_of_mem _ (List.mem_cons_self ..)⟩)
  refine isAllowed_of_matches hpattern ?_ fun ask hask => (askPatterns_none ask hask).2
  rw [String.toList_ofList, String.toList_ofList]
  decide +kernel

/-! ## The result -/

/-- **A line that the rules let run is a read if and only if it is no listing that changes
something.** -/
theorem allowed_is_read_iff (line : List Char) (hline : isPlainLine line = true)
    (hallowed : isAllowed line = true) :
    (classifyShellCommand line).map (·.kind) = [.read]
      ↔ isChangingListing (tokens line) = false := by
  obtain ⟨pattern, hpattern, hmatch⟩ := matches_of_isAllowed hallowed
  rcases List.mem_append.mp hpattern with hgit | hgh
  · obtain ⟨form, hform, hpager⟩ := List.mem_flatMap.mp hgit
    obtain ⟨text, rfl, htext⟩ := readOnlyGitPatterns_spelled form hform
    exact htext.isReadUnlessListing hline hpager hmatch
  · obtain ⟨text, rfl, htext⟩ := readOnlyGhPatterns_spelled pattern hgh
    rw [String.toList_ofList] at hmatch
    obtain ⟨args, htokens, hargs⟩ := htext.reads hline hmatch
    exact isReadUnlessListing_gh hline htokens hargs

theorem allowed_is_read_status :
    (classifyShellCommand "git status -s".toList).map (·.kind) = [.read] :=
  (allowed_is_read_iff _ (by rw [String.toList_ofList]; decide +kernel) isAllowed_status).mpr
    (by rw [String.toList_ofList]; decide +kernel)

/-- The rules let a listing run that the classifier calls destructive. -/
theorem listing_is_destructive : ¬ ∀ line, isPlainLine line = true → isAllowed line = true →
    (classifyShellCommand line).map (·.kind) = [.read] := by
  intro h
  have hline : isPlainLine "git --no-pager branch --list -D main".toList = true := by
    rw [String.toList_ofList]
    decide +kernel
  have htokens : tokens "git --no-pager branch --list -D main".toList
      = ["git", "--no-pager", "branch", "--list", "-D", "main"] := by
    rw [String.toList_ofList]
    rfl
  have hread := h _ hline isAllowed_listing
  rw [classify_git hline htokens] at hread
  revert hread
  decide +kernel

end OmniRush.Shell
