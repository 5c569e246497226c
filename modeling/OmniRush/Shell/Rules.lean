import Mathlib.Data.List.Infix
import Mathlib.Data.List.Sort
import OmniRush.Shell.Classify

/-!
# The permission rules for git and gh

`gitWorkflowPermissionRules` of `git-command-policy.ts`, and how the engine reads a rule
set: the last rule whose pattern matches the text of a command decides.

The rules are a record of patterns. A pattern that is assigned again keeps its place.
-/

namespace OmniRush.Shell

/-! ## Patterns -/

/-- The regular expression of a pattern: `*` is any run, `?` one character. -/
def matchesGlob : List Char → List Char → Bool
  | [], text => text = []
  | '*' :: pattern, text => text.tails.any (matchesGlob pattern)
  | '?' :: pattern, text => text ≠ [] && matchesGlob pattern text.tail
  | char :: pattern, text => text.head? = some char && matchesGlob pattern text.tail

def slashed (text : List Char) : List Char := text.map fun c => if c = '\\' then '/' else c

/-- `matchesPermissionPattern`. A trailing ` *` is optional. -/
def matchesPermissionPattern (input pattern : List Char) : Bool :=
  let pattern := slashed pattern
  if [' ', '*'].isSuffixOf pattern then
    matchesGlob (pattern.take (pattern.length - 2)) (slashed input)
      || matchesGlob pattern (slashed input)
  else matchesGlob pattern (slashed input)

inductive RuleAction where
  | allow
  | ask
  deriving DecidableEq, Repr

abbrev Rules := List (String × RuleAction)

/-- `rules[pattern] = action`. -/
def Rules.assign (rules : Rules) (pattern : String) (action : RuleAction) : Rules :=
  if rules.any fun rule => rule.1 = pattern then
    rules.map fun rule => if rule.1 = pattern then (pattern, action) else rule
  else rules ++ [(pattern, action)]

def Rules.assignAll (rules : Rules) (patterns : List String) (action : RuleAction) : Rules :=
  patterns.foldl (fun rules pattern => rules.assign pattern action) rules

/-- `winningRule`: the last rule that matches decides. -/
def Rules.winningRule (rules : Rules) (input : List Char) : Option (String × RuleAction) :=
  rules.reverse.find? fun rule => matchesPermissionPattern input rule.1.toList

/-! ## The rules -/

/-- `READ_ONLY_GIT_PATTERNS`. -/
def readOnlyGitPatterns : List String :=
  ["git status *", "git log *", "git diff *", "git show *", "git fetch *", "git remote",
    "git remote -v", "git remote --verbose", "git remote show *", "git remote get-url *",
    "git worktree list *", "git branch", "git branch --list *", "git branch -l *", "git branch -a",
    "git branch --all", "git branch -r", "git branch --remotes", "git branch -v", "git branch -vv",
    "git branch --verbose", "git branch -av", "git branch -avv", "git branch -ra", "git branch -rv",
    "git branch --show-current", "git branch --merged *", "git branch --no-merged *",
    "git branch --contains *", "git branch --points-at *", "git tag", "git tag -l *",
    "git tag --list *", "git tag -n*", "git tag --contains *", "git tag --points-at *",
    "git stash list *", "git stash show *", "git config --get *", "git config --get-all *",
    "git config --get-regexp *", "git config --list *", "git config -l *",
    "git config --show-origin *", "git config user.name", "git config user.email",
    "git config --local user.name", "git config --local user.email", "git rev-parse *",
    "git rev-list *", "git ls-files *", "git ls-tree *", "git ls-remote *", "git cat-file *",
    "git describe *", "git blame *", "git shortlog *", "git grep *", "git count-objects *",
    "git check-ignore *", "git name-rev *", "git merge-base *", "git for-each-ref *", "git reflog",
    "git reflog show *", "git show-ref *", "git version", "git --version", "git help *",
    "git --help", "git diff-tree *", "git whatchanged *", "git cherry *", "git range-diff *",
    "git var *", "git submodule status *", "git submodule summary *", "git lfs ls-files *",
    "git lfs status *", "git lfs env", "git notes list *", "git notes show *",
    "git sparse-checkout list", "git clean -n *", "git clean --dry-run *"]

/-- `READ_ONLY_GH_PATTERNS`. -/
def readOnlyGhPatterns : List String :=
  ["gh pr list *", "gh pr view *", "gh pr status *", "gh pr checks *", "gh pr diff *",
    "gh issue list *", "gh issue view *", "gh issue status *", "gh repo view *", "gh repo list *",
    "gh run list *", "gh run view *", "gh run watch *", "gh workflow list *", "gh workflow view *",
    "gh release list *", "gh release view *", "gh auth status *", "gh search *", "gh label list *",
    "gh gist list *", "gh gist view *", "gh config get *", "gh config list *", "gh alias list *",
    "gh extension list *", "gh ssh-key list *", "gh cache list *", "gh status *", "gh version",
    "gh --version", "gh help *", "gh --help"]

/-- `SHELL_PATH_PREFIXES`. -/
def shellPathPrefixes : List String :=
  ["", "/bin/", "/usr/bin/", "/usr/local/bin/", "/opt/homebrew/bin/"]

/-- `INTERPRETER_PATTERNS`. -/
def interpreterPatterns : List String :=
  (shellPathPrefixes.flatMap fun path =>
    ["bash", "sh", "zsh", "dash", "ksh"].map fun shell => path ++ shell ++ " -*c *") ++
    ["eval *", "env -S *", "env --split-string*", "su *"]

/-- `DESTRUCTIVE_PATTERNS`. -/
def destructivePatterns : List String :=
  ["git push --force*", "git push -f*", "git push * --force*", "git push * -f*",
    "git push --delete *", "git push -d *", "git push * --delete *", "git push * :*",
    "git push --mirror*", "git push * --mirror*", "git push --prune*", "git push * --prune*",
    "git reset --hard*", "git reset * --hard*", "git clean -*f*", "git clean --force*",
    "git clean * --force*", "git branch -D *", "git branch * -D*", "git branch --delete --force *",
    "git branch --force --delete *", "git rebase -i*", "git rebase --interactive*",
    "git rebase * -i*", "git rebase * --interactive*", "git filter-branch*", "git filter-repo*",
    "git stash drop*", "git stash clear*", "git reflog expire*", "git reflog delete*",
    "git worktree remove --force*", "git worktree remove -f *", "git worktree remove * --force*",
    "git worktree remove * -f*", "git update-ref -d *", "gh repo delete *", "rm -rf *", "rm -fr *",
    "rm -Rf *", "rm -fR *", "rm -r -f *", "rm -f -r *", "rm -R -f *", "rm -f -R *",
    "rm --recursive --force *", "rm --force --recursive *", "rm -r --force *",
    "rm -f --recursive *"]

/-- `DESTRUCTIVE_MARKER`. -/
def destructiveMarker : String := "DESTRUCTIVE_COMMAND=1"

/-- A read-only git pattern, also without the pager. -/
def pagerForms (pattern : String) : List String :=
  [pattern, "git --no-pager " ++ after pattern 4, "git -P " ++ after pattern 4]

/-- `gitWorkflowPermissionRules`. -/
def gitWorkflowPermissionRules : Rules :=
  let rules : Rules := [("git *", .ask), ("gh *", .ask), ("sudo *", .ask)]
  let rules := rules.assignAll (readOnlyGitPatterns.flatMap pagerForms) .allow
  let rules := rules.assignAll readOnlyGhPatterns .allow
  let rules := rules.assignAll interpreterPatterns .ask
  let rules := rules.assignAll destructivePatterns .ask
  rules.assign (destructiveMarker ++ " *") .ask

/-!
## Marking destructive commands

`stripDestructiveMarkers` and `markDestructiveCommands` of `git-command-policy.ts`. The expression
of the former takes a marker at the start of the line or after a blank, with the blanks that
follow it; it goes over the line once, and what is before a match is the line as it was.
-/

/-- The marker earlier versions wrote. -/
def legacyDestructiveMarker : String := "OMNIRUSH_DESTRUCTIVE=1"

/-- The length of a marker at a text and the blanks after it. -/
def markerRun (marker : String) (text : List Char) : Option Nat :=
  let blanks := (text.drop marker.length).takeWhile isSpace
  if startsWith text marker ∧ blanks ≠ [] then some (marker.length + blanks.length) else none

/-- The length of the match at a text, given the character before it. -/
def markerMatch (prev : Option Char) (text : List Char) : Option Nat :=
  if prev.all isSpace then
    (markerRun destructiveMarker text).or (markerRun legacyDestructiveMarker text)
  else none

/-- What is left of a text; the number counts the characters that a match still has. -/
def stripFrom : Nat → Option Char → List Char → List Char
  | _, _, [] => []
  | n + 1, _, c :: rest => stripFrom n (some c) rest
  | 0, prev, c :: rest =>
      match markerMatch prev (c :: rest) with
      | some n => stripFrom (n - 1) (some c) rest
      | none => c :: stripFrom 0 (some c) rest

def stripDestructiveMarkers (command : List Char) : List Char := stripFrom 0 none command

def destructiveCommands (command : List Char) : List ClassifiedCommand :=
  (classifyShellCommand command).filter fun entry => entry.kind = .destructive

/-- The marked line and the destructive commands. -/
def markDestructiveCommands (command : List Char) : List Char × List ClassifiedCommand :=
  let clean := stripDestructiveMarkers command
  let destructive := destructiveCommands clean
  if destructive = [] then (clean, destructive)
  else
    let offsets := (destructive.map fun entry => entry.segment.commandStart).eraseDups.insertionSort
      (· ≥ ·)
    (offsets.foldl (fun result offset =>
      result.take offset ++ ((destructiveMarker ++ " ").toList ++ result.drop offset)) clean,
      destructive)

end OmniRush.Shell
