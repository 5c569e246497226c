import Mathlib.Algebra.Order.Ring.Int
import OmniRush.Shell.Split

/-!
# The classes of a command

`classifyShellCommand` of `git-command-policy.ts`: every segment of a command line is a
read, a write, destructive or something else. A program is looked at behind environment
assignments, wrappers such as `sudo`, and interpreters such as `bash -c`.

Programs, subcommands and flags are strings; a regular expression of the source is a test
of the characters.
-/

namespace OmniRush.Shell

inductive ShellCommandKind where
  | read
  | write
  | destructive
  | other
  deriving DecidableEq, Repr

structure IdentityFields where
  name : Bool := false
  email : Bool := false
  deriving DecidableEq, Repr

inductive IdentityScope where
  | repository
  | global
  deriving DecidableEq, Repr

structure ClassifiedCommand where
  kind : ShellCommandKind
  family : Option String
  gitDirectory : Option String
  createsCommit : Bool
  commitIdentity : IdentityFields
  identityWrite : Option (IdentityFields × IdentityScope)
  segment : ShellSegment
  deriving DecidableEq, Repr

/-! ## Words -/

def begins (text head : String) : Bool := startsWith text.toList head

/-- The text after its first `n` characters. -/
def after (text : String) (n : Nat) : String := String.ofList (text.toList.drop n)

/-- `.` of a regular expression. -/
def isAnyChar (c : Char) : Bool :=
  c ≠ '\n' && c ≠ '\r' && c.toNat ≠ 0x2028 && c.toNat ≠ 0x2029

/-- The text is the head and at least one more character. -/
def continues (text head : String) : Bool :=
  begins text head && ((text.toList.drop head.length).head?).any isAnyChar

def isAsciiLetter (c : Char) : Bool := c.isAlpha

def isAsciiAlphanumeric (c : Char) : Bool := c.isAlpha || c.isDigit

/-- `ASSIGNMENT`, `^[A-Za-z_][A-Za-z0-9_]*=`. -/
def isAssignment (token : String) : Bool :=
  match token.toList with
  | [] => false
  | first :: rest => (isAsciiLetter first || first = '_')
      && (rest.dropWhile fun c => isAsciiAlphanumeric c || c = '_').head? = some '='

/-- `toLowerCase`, as far as it leads to ASCII letters. -/
def lowerChar (c : Char) : Char := if c.toNat = 0x212a then 'k' else c.toLower

/-- What is left after the last `/` or `\`. -/
def baseName (cs : List Char) : List Char :=
  (cs.reverse.takeWhile fun c => c ≠ '/' && c ≠ '\\').reverse

def dropExe (cs : List Char) : List Char :=
  if ".exe".toList.isSuffixOf cs then cs.take (cs.length - 4) else cs

def programName (token : Option String) : String :=
  String.ofList (dropExe ((baseName (token.getD "").toList).map lowerChar))

/-- `^-[A-Za-z0-9]+$` with the letter in it. -/
def shortFlagHas (token : String) (letter : Char) : Bool :=
  match token.toList with
  | '-' :: flags => flags ≠ [] && flags.all isAsciiAlphanumeric && flags.contains letter
  | _ => false

def hasFlag (args flags : List String) : Bool :=
  args.any fun arg => flags.any fun flag => arg = flag || begins arg (flag ++ "=")

/-! ## Wrappers -/

/-- `WRAPPERS`. -/
def wrappers : List String :=
  ["sudo", "doas", "command", "exec", "env", "nohup", "time", "builtin", "nice", "caffeinate",
    "timeout", "xargs"]

/-- `WRAPPER_VALUE_FLAGS`. -/
def wrapperValueFlags (wrapper : String) : List String :=
  match wrapper with
  | "sudo" => ["-u", "-g", "-h", "-p", "-C", "-D", "-r", "-t", "-T", "-U"]
  | "doas" => ["-u", "-C"]
  | "env" => ["-u", "--unset", "-C", "--chdir"]
  | "nice" => ["-n", "--adjustment"]
  | "caffeinate" => ["-t", "-w"]
  | "timeout" => ["-s", "--signal", "-k", "--kill-after"]
  | "xargs" =>
      ["-I", "-n", "-P", "-L", "-s", "-d", "-E", "-a", "-J", "-R", "-S", "--max-args",
        "--max-procs", "--max-lines", "--max-chars", "--delimiter", "--eof", "--arg-file",
        "--process-slot-var", "--replace"]
  | _ => []

def tokenTexts (script : String) : List String :=
  (tokenizeSegment script.toList).map fun token => String.ofList token.text

/-- The words `env -S` puts in its place, and the rest. -/
def splitString (option : String) (rest : List String) : Option (List String) :=
  if option = "-S" ∨ option = "--split-string" then
    some (tokenTexts (rest.head?.getD "") ++ rest.tail)
  else if begins option "-S" then some (tokenTexts (after option 2) ++ rest)
  else if begins option "--split-string=" then some (tokenTexts (after option 15) ++ rest)
  else none

/-- The options of a wrapper: its assignments and what is left. -/
def wrapperOptions (wrapper : String) : Nat → List String → List String × List String
  | 0, list => ([], list)
  | _ + 1, [] => ([], [])
  | fuel + 1, option :: rest =>
      if wrapper = "env" ∧ isAssignment option = true then
        let (assignments, left) := wrapperOptions wrapper fuel rest
        (option :: assignments, left)
      else if option = "--" then ([], rest)
      else if !begins option "-" then ([], option :: rest)
      else
        match if wrapper = "env" then splitString option rest else none with
        | some list => wrapperOptions wrapper fuel list
        | none =>
            if (wrapperValueFlags wrapper).contains option then
              wrapperOptions wrapper fuel rest.tail
            else wrapperOptions wrapper fuel rest

/-- A bound on the options a list can turn into. -/
def textLength (list : List String) : Nat := (list.map fun token => token.length + 1).sum

/-- `splitProgramTokens`: the assignments, and the program with its arguments. The first
number bounds the loop, the second counts the wrappers left. -/
def splitProgramFrom : Nat → Nat → List String → List String × List String
  | 0, _, list => ([], list)
  | _ + 1, _, [] => ([], [])
  | fuel + 1, hops, token :: rest =>
      if hops = 0 then ([], token :: rest)
      else if isAssignment token then
        let (assignments, program) := splitProgramFrom fuel hops rest
        (token :: assignments, program)
      else
        let wrapper := programName (some token)
        if !wrappers.contains wrapper then ([], token :: rest)
        else
          let (inline, left) := wrapperOptions wrapper (textLength rest + 1) rest
          -- `timeout` has a duration before its command
          let left := if wrapper = "timeout" then left.tail else left
          let (assignments, program) := splitProgramFrom fuel (hops - 1) left
          (inline ++ assignments, program)

def splitProgramTokens (tokens : List String) : List String × List String :=
  splitProgramFrom (textLength tokens + 1) 16 tokens

/-! ## git -/

/-- `GIT_OPTIONS_WITH_VALUE`. -/
def gitOptionsWithValue : List String :=
  ["-C", "-c", "--git-dir", "--work-tree", "--namespace", "--exec-path", "--config-env",
    "--super-prefix", "--list-cmds", "--attr-source"]

/-- `GIT_READ`. -/
def gitRead : List String :=
  ["status", "log", "diff", "show", "fetch", "ls-files", "ls-tree", "ls-remote", "cat-file",
    "rev-parse", "rev-list", "describe", "blame", "annotate", "shortlog", "grep",
    "count-objects", "check-ignore", "check-attr", "check-ref-format", "check-mailmap",
    "name-rev", "merge-base", "merge-tree", "for-each-ref", "var", "version", "help",
    "whatchanged", "show-ref", "show-branch", "verify-commit", "verify-tag", "diff-tree",
    "diff-index", "diff-files", "cherry", "range-diff", "format-patch", "patch-id",
    "stripspace", "interpret-trailers", "fsck", "get-tar-commit-id"]

/-- `GIT_COMMIT_STOP_FLAGS`. -/
def gitCommitStopFlags : List String := ["--abort", "--quit", "--skip"]

/-- `BRANCH_READ_FLAGS`. -/
def branchReadFlags : List String :=
  ["--list", "-l", "-a", "--all", "-r", "--remotes", "-v", "-vv", "-vvv", "--verbose",
    "--show-current", "--merged", "--no-merged", "--contains", "--no-contains", "--points-at",
    "--sort", "--format", "--color", "--no-color", "--column", "--no-column", "-i",
    "--ignore-case", "--abbrev", "--no-abbrev"]

/-- `BRANCH_PATTERN_FLAGS`. -/
def branchPatternFlags : List String :=
  ["--list", "-l", "--contains", "--no-contains", "--merged", "--no-merged", "--points-at"]

/-- `CONFIG_READ_FLAGS`. -/
def configReadFlags : List String :=
  ["-l", "--list", "--get", "--get-all", "--get-regexp", "--get-urlmatch", "--get-color",
    "--get-colorbool", "--show-origin", "--show-scope"]

/-- `CONFIG_WRITE_FLAGS`. -/
def configWriteFlags : List String :=
  ["--add", "--unset", "--unset-all", "--replace-all", "--rename-section", "--remove-section",
    "--edit", "-e"]

/-- `CONFIG_VALUE_FLAGS`. -/
def configValueFlags : List String := ["-f", "--file", "--blob", "--type", "--default"]

/-- `CONFIG_READ_SUBCOMMANDS`. -/
def configReadSubcommands : List String := ["get", "list"]

structure GitVerdict where
  kind : ShellCommandKind
  createsCommit : Bool := false
  identityWrite : Option (IdentityFields × IdentityScope) := none
  deriving DecidableEq, Repr

/-- The arguments that are no flags and no values of one. -/
def configPositional : List String → List String
  | [] => []
  | [arg] => if configValueFlags.contains arg || begins arg "-" then [] else [arg]
  | arg :: value :: rest =>
      if configValueFlags.contains arg then configPositional rest
      else if begins arg "-" then configPositional (value :: rest)
      else arg :: configPositional (value :: rest)

def classifyGitConfig (args : List String) : GitVerdict :=
  let positional := configPositional args
  if configWriteFlags.any fun flag => hasFlag args [flag] then ⟨.write, false, none⟩
  else if configReadFlags.any fun flag => hasFlag args [flag] then ⟨.read, false, none⟩
  else if positional.head?.any configReadSubcommands.contains then ⟨.read, false, none⟩
  else
    let named := if positional.head? = some "set" then positional.tail else positional
    match named with
    | [] | [_] => ⟨.read, false, none⟩
    | key :: _ :: _ =>
        let scope := if hasFlag args ["--global", "--system", "-f", "--file", "--blob"] then
          IdentityScope.global else .repository
        let identityWrite := if key = "user.name" ∨ key = "user.email" then
          some (⟨key = "user.name", key = "user.email"⟩, scope) else none
        ⟨.write, false, identityWrite⟩

/-- A refspec that deletes or forces, `^\+` or `^:.`. -/
def forcesRefspec (arg : String) : Bool :=
  begins arg "+" || continues arg ":"

def forcesPush (arg : String) : Bool :=
  arg = "--force" || begins arg "--force-with-lease" || arg = "--force-if-includes"
    || arg = "--delete" || arg = "--mirror" || arg = "--prune" || shortFlagHas arg 'f'
    || shortFlagHas arg 'd'

/-- The flag without its value, `-` and letters of `alrvi` alike. -/
def isBranchReadFlag (flag : String) : Bool :=
  let name := String.ofList (flag.toList.takeWhile (· ≠ '='))
  branchReadFlags.contains name ||
    match flag.toList with
    | '-' :: letters => letters ≠ [] && letters.all fun c => "alrvi".toList.contains c
    | _ => false

def classifyBranch (args : List String) : ShellCommandKind :=
  if args.any fun arg => arg = "-D" || shortFlagHas arg 'D' then .destructive
  else if (hasFlag args ["-d", "--delete"] || args.any fun arg => shortFlagHas arg 'd')
      && (hasFlag args ["-f", "--force"] || args.any fun arg => shortFlagHas arg 'f') then
    .destructive
  else if args = [] then .read
  else if !(args.filter fun arg => begins arg "-").all isBranchReadFlag then .write
  else if args.all fun arg => begins arg "-" then .read
  else if branchPatternFlags.any fun flag => hasFlag args [flag] then .read
  else .write

/-- `^-[asuF]` or `^-m.`. -/
def annotatesShortly (arg : String) : Bool :=
  ["-a", "-s", "-u", "-F"].any (begins arg ·) || continues arg "-m"

def annotatesTag (args : List String) : Bool :=
  hasFlag args ["-a", "--annotate", "-s", "--sign", "-m", "--message", "-F", "--file", "-u",
    "--local-user"] || args.any annotatesShortly

def deletesTag (args : List String) : Bool :=
  hasFlag args ["-d", "--delete"] || args.any fun arg => shortFlagHas arg 'd'

/-- `^-n\d*$`. -/
def isLineCount (arg : String) : Bool :=
  match arg.toList with
  | '-' :: 'n' :: digits => digits.all Char.isDigit
  | _ => false

def listsTags (args : List String) : Bool :=
  hasFlag args ["-l", "--list", "--contains", "--no-contains", "--points-at", "--merged",
    "--no-merged"] || args.any fun arg => isLineCount arg || shortFlagHas arg 'l'

def classifyTag (args : List String) : GitVerdict :=
  if deletesTag args then ⟨.write, false, none⟩
  else if args = [] ∨ (annotatesTag args = false ∧ listsTags args = true) then
    ⟨.read, false, none⟩
  else ⟨.write, annotatesTag args, none⟩

/-- `!verb`. -/
def noVerb (verb : Option String) : Bool := verb.all (· = "")

def verbIn (verb : Option String) (verbs : List String) : Bool := verb.any verbs.contains

def classifyClean (args : List String) : ShellCommandKind :=
  if hasFlag args ["-n", "--dry-run"] || args.any fun arg => shortFlagHas arg 'n' then .read
  else if hasFlag args ["--force"] || args.any fun arg => shortFlagHas arg 'f' then .destructive
  else .write

/-- `classifyGit` for a subcommand. -/
def classifySubcommand (sub : String) (args : List String) : GitVerdict :=
  let positional := args.filter fun arg => !begins arg "-"
  let verb := args.head?
  let readIf := fun read : Bool => (⟨if read then .read else .write, false, none⟩ : GitVerdict)
  let stops := gitCommitStopFlags.any fun flag => hasFlag args [flag]
  match sub with
  | "push" =>
      ⟨if args.any (fun arg => forcesPush arg || forcesRefspec arg) then .destructive else .write,
        false, none⟩
  | "reset" => ⟨if hasFlag args ["--hard"] then .destructive else .write, false, none⟩
  | "clean" => ⟨classifyClean args, false, none⟩
  | "branch" => ⟨classifyBranch args, false, none⟩
  | "remote" => readIf (noVerb verb || verbIn verb ["-v", "--verbose", "show", "get-url"])
  | "worktree" =>
      if noVerb verb || verbIn verb ["list"] then ⟨.read, false, none⟩
      else if verbIn verb ["remove"] && (hasFlag args ["--force", "-f"]
          || args.any fun arg => shortFlagHas arg 'f') then ⟨.destructive, false, none⟩
      else ⟨.write, false, none⟩
  | "tag" => classifyTag args
  | "stash" =>
      if verbIn verb ["list", "show"] then ⟨.read, false, none⟩
      else if verbIn verb ["drop", "clear"] then ⟨.destructive, false, none⟩
      else ⟨.write, noVerb verb || verb.any (begins · "-") || verbIn verb ["push", "save", "create"],
        none⟩
  | "config" => classifyGitConfig args
  | "reflog" =>
      if noVerb verb || verbIn verb ["show"] || verb.any (begins · "-") then ⟨.read, false, none⟩
      else ⟨if verbIn verb ["expire", "delete"] then .destructive else .write, false, none⟩
  | "notes" =>
      if noVerb verb || verbIn verb ["list", "show", "get-ref"] then ⟨.read, false, none⟩
      else ⟨.write, true, none⟩
  | "submodule" => readIf (noVerb verb || verbIn verb ["status", "summary"])
  | "symbolic-ref" => readIf (positional.length ≤ 1)
  | "sparse-checkout" => readIf (verbIn verb ["list"])
  | "lfs" => readIf (verbIn verb ["ls-files", "status", "env", "version", "logs"])
  | "update-ref" => ⟨if hasFlag args ["-d"] then .destructive else .write, false, none⟩
  | "hash-object" => ⟨if hasFlag args ["-w"] then .write else .read, false, none⟩
  | "rebase" =>
      if hasFlag args ["-i", "--interactive"] || args.any (shortFlagHas · 'i') then
        ⟨.destructive, false, none⟩
      else ⟨.write, !stops, none⟩
  | "filter-branch" | "filter-repo" => ⟨.destructive, false, none⟩
  | "commit" | "commit-tree" => ⟨.write, true, none⟩
  | "merge" | "cherry-pick" | "revert" | "am" => ⟨.write, !stops, none⟩
  | _ => readIf (gitRead.contains sub)

def classifyGit (sub : Option String) (args : List String) : GitVerdict :=
  match sub with
  | none | some "" | some "--version" | some "--help" | some "-h" => ⟨.read, false, none⟩
  | some sub => classifySubcommand sub args

/-- `joinGitDirectory`. -/
def joinGitDirectory (previous : Option String) (next : String) : String :=
  let absolute := begins next "/" ||
    match next.toList with
    | drive :: ':' :: slash :: _ => isAsciiLetter drive && (slash = '/' || slash = '\\')
    | _ => false
  match previous with
  | none | some "" => next
  | some previous =>
      if absolute then next
      else String.ofList ((previous.toList.reverse.dropWhile (· = '/')).reverse) ++ "/" ++ next

structure GitOptions where
  gitDirectory : Option String := none
  inline : IdentityFields := {}
  deriving DecidableEq, Repr

/-- What an option with a value sets. -/
def GitOptions.set (options : GitOptions) (name value : String) : GitOptions :=
  if name = "-C" then
    { options with gitDirectory := some (joinGitDirectory options.gitDirectory value) }
  else if name = "-c" then
    { options with inline :=
        ⟨options.inline.name || continues value "user.name=",
          options.inline.email || continues value "user.email="⟩ }
  else options

/-- The options before the subcommand, and the tokens from it on. -/
def gitOptions (options : GitOptions) : List String → GitOptions × List String
  | [] => (options, [])
  | token :: rest =>
      if !begins token "-" || token = "--" then (options, token :: rest)
      else
        let name := token.toList.takeWhile (· ≠ '=')
        let inlineValue :=
          if name.length < token.length then some (after token (name.length + 1)) else none
        if gitOptionsWithValue.contains (String.ofList name) then
          match inlineValue, rest with
          | some value, rest => gitOptions (options.set (String.ofList name) value) rest
          | none, [] => (options.set (String.ofList name) "", [])
          | none, value :: rest => gitOptions (options.set (String.ofList name) value) rest
        else if continues token "-C" then gitOptions (options.set "-C" (after token 2)) rest
        else gitOptions options rest

/-- `classifyGitTokens`, on the tokens after the program. -/
def classifyGitTokens (tokens : List String) : GitVerdict × String × GitOptions :=
  let (options, left) := gitOptions {} tokens
  let family := match left.head? with
    | none | some "" => "git"
    | some sub => if begins sub "-" then "git" else "git " ++ sub
  (classifyGit left.head? left.tail, family, options)

/-! ## gh -/

/-- `GH_GLOBAL_VALUE_FLAGS`. -/
def ghGlobalValueFlags : List String := ["-R", "--repo"]

/-- `GH_READ_VERBS`. -/
def ghReadVerbs : List String := ["list", "view", "status", "checks", "diff", "watch"]

/-- The tokens from the command on, none when the version or the help is asked for. -/
def ghOptions : List String → Option (List String)
  | [] => some []
  | [token] =>
      if !begins token "-" then some [token]
      else if token = "--version" ∨ token = "--help" then none
      else some []
  | token :: value :: rest =>
      if !begins token "-" then some (token :: value :: rest)
      else if token = "--version" ∨ token = "--help" then none
      else if ghGlobalValueFlags.contains token then ghOptions rest
      else ghOptions (value :: rest)

/-- The first argument that follows `-X` or `--method`. -/
def ghMethodAfter : List String → Option String
  | flag :: value :: rest =>
      if flag = "-X" ∨ flag = "--method" then some value else ghMethodAfter (value :: rest)
  | _ => none

def ghMethod (rest : List String) : Option String :=
  (ghMethodAfter rest).or
    ((rest.find? (begins · "--method=")).map fun arg => after arg "--method=".length)

/-- An argument that sends a field or a body. -/
def ghSends (arg : String) : Bool :=
  ["-f", "-F", "--field", "--raw-field", "--input"].contains arg || begins arg "--field="
    || begins arg "--raw-field=" || continues arg "-f" || continues arg "-F"

def classifyGhCommand (command : String) (verb : Option String) (rest : List String) :
    ShellCommandKind :=
  if ["", "version", "help", "status", "search"].contains command then .read
  else if command = "auth" then if verb = some "status" then .read else .write
  else if command = "api" then
    let mutating := (ghMethod rest).any fun method =>
      method ≠ "" && method.toList.map Char.toUpper ≠ "GET".toList
    if mutating || rest.any ghSends then .write else .read
  else if command = "repo" ∧ verb = some "delete" then .destructive
  else if command = "config" then if verbIn verb ["get", "list"] then .read else .write
  else if ["alias", "extension", "ssh-key", "gpg-key", "cache", "label", "secret", "variable",
      "ruleset", "attestation"].contains command then
    if verb = some "list" then .read else .write
  else if verbIn verb ghReadVerbs then .read
  else .write

def ghFamily (command : String) (verb : Option String) : String :=
  match verb with
  | none | some "" => "gh " ++ command
  | some verb =>
      if begins verb "-" || command = "api" then "gh " ++ command
      else "gh " ++ command ++ " " ++ verb

/-- `classifyGhTokens`, on the tokens after the program. -/
def classifyGhTokens (tokens : List String) : ShellCommandKind × String :=
  match ghOptions tokens with
  | none | some [] => (.read, "gh")
  | some (command :: rest) =>
      (classifyGhCommand command rest.head? rest,
        if command = "" then "gh" else ghFamily command rest.head?)

/-! ## Other programs -/

def classifyRm (args : List String) : ShellCommandKind :=
  let flags := args.filter (begins · "-")
  let recursive := flags.any fun flag =>
    flag = "--recursive" || shortFlagHas flag 'r' || shortFlagHas flag 'R'
  let forced := flags.any fun flag => flag = "--force" || shortFlagHas flag 'f'
  if recursive && forced then .destructive else .other

/-- `SHELLS`. -/
def shells : List String := ["bash", "sh", "zsh", "dash", "ksh", "mksh", "ash", "fish"]

/-- `FIND_EXEC_FLAGS`. -/
def findExecFlags : List String := ["-exec", "-execdir", "-ok", "-okdir"]

/-- A short flag with `c` in it, `^-[A-Za-z]*c[A-Za-z]*$`. -/
def isCommandFlag (token : String) : Bool :=
  match token.toList with
  | '-' :: letters => letters.all isAsciiLetter && letters.contains 'c'
  | _ => false

/-- The script a shell is given, if a command flag came before it. -/
def shellScript (sawCommandFlag : Bool) : List String → Option String
  | [] => none
  | token :: rest =>
      let script := fun (saw : Bool) (list : List String) => if saw then list.head? else none
      if token = "--" then script sawCommandFlag rest
      else if begins token "--command=" then some (after token "--command=".length)
      else if ["-o", "+o", "-O", "+O"].contains token then
        match rest with
        | [] => none
        | _ :: rest => shellScript sawCommandFlag rest
      else if !begins token "-" && !begins token "+" then script sawCommandFlag (token :: rest)
      else shellScript (sawCommandFlag || isCommandFlag token || token = "--command") rest

inductive Interpreted where
  | script (text : String)
  | tokens (tokens : List String)
  deriving DecidableEq, Repr

/-- `interpreterScript`, on the arguments of the program. -/
def interpreterScript (program : String) (args : List String) : Option Interpreted :=
  if shells.contains program then (shellScript false args).map .script
  else if program = "eval" then
    let script := " ".intercalate args
    if script = "" then none else some (.script script)
  else if program = "su" then
    let command := (args.dropWhile fun arg => arg ≠ "-c" && arg ≠ "--command").tail
    ((command.head?).or ((args.find? (begins · "--command=")).map fun arg =>
      after arg "--command=".length)).map .script
  else if program = "find" then
    let inner := ((args.dropWhile fun arg => !findExecFlags.contains arg).tail).takeWhile fun arg =>
      arg ≠ ";" && arg ≠ "+"
    if inner = [] then none else some (.tokens inner)
  else none

def identityFromAssignments (assignments : List String) : IdentityFields :=
  let set := fun name : String => assignments.any fun entry => continues entry (name ++ "=")
  ⟨set "GIT_AUTHOR_NAME" && set "GIT_COMMITTER_NAME",
    set "GIT_AUTHOR_EMAIL" && set "GIT_COMMITTER_EMAIL"⟩

def IdentityFields.or (fields other : IdentityFields) : IdentityFields :=
  ⟨fields.name || other.name, fields.email || other.email⟩

/-- The class of a program that is no git command and writes no commit. -/
def ClassifiedCommand.plain (segment : ShellSegment) (commitIdentity : IdentityFields)
    (kind : ShellCommandKind) (family : Option String) : ClassifiedCommand :=
  ⟨kind, family, none, false, commitIdentity, none, segment⟩

/-- `classifyTokens` for a program that is no interpreter. -/
def classifyProgram (segment : ShellSegment) (commitIdentity : IdentityFields)
    (program : String) (args : List String) : Option ClassifiedCommand :=
  if program = "git" then
    let (verdict, family, options) := classifyGitTokens args
    some ⟨verdict.kind, some family, options.gitDirectory, verdict.createsCommit,
      commitIdentity.or options.inline, verdict.identityWrite, segment⟩
  else if program = "gh" then
    let (kind, family) := classifyGhTokens args
    some (.plain segment commitIdentity kind (some family))
  else if program = "rm" then
    let kind := classifyRm args
    some (.plain segment commitIdentity kind
      (some (if kind = .destructive then "rm -rf" else "rm")))
  else if program = "export" ∨ program = "declare" ∨ program = "typeset" then
    let exported := identityFromAssignments (args.filter isAssignment)
    some { ClassifiedCommand.plain segment commitIdentity .other none with
      identityWrite := if exported.name || exported.email then some (exported, .global) else none }
  else none

/-- `MAX_INTERPRETER_DEPTH`. -/
def maxInterpreterDepth : Nat := 4

/-- `classifyTokens`. The number counts the interpreters still looked into. -/
def classifyTokens (segment : ShellSegment) : Nat → List String → List ClassifiedCommand
  | 0, segmentTokens =>
      let (assignments, tokens) := splitProgramTokens segmentTokens
      let commitIdentity := identityFromAssignments assignments
      [(classifyProgram segment commitIdentity (programName tokens.head?) tokens.tail).getD
        (.plain segment commitIdentity .other none)]
  | depth + 1, segmentTokens =>
      let (assignments, tokens) := splitProgramTokens segmentTokens
      let commitIdentity := identityFromAssignments assignments
      let program := programName tokens.head?
      match classifyProgram segment commitIdentity program tokens.tail with
      | some classified => [classified]
      | none =>
          let nested : List ClassifiedCommand :=
            match interpreterScript program tokens.tail with
            | none => []
            | some (.script script) =>
                (splitShellCommand script.toList).flatMap fun entry : ShellSegment =>
                  classifyTokens segment depth entry.tokens
            | some (.tokens inner) => classifyTokens segment depth inner
          let classified := nested.filter fun entry => entry.kind ≠ .other
          if classified = [] then [.plain segment commitIdentity .other none]
          else classified.map fun entry =>
            { entry with commitIdentity := entry.commitIdentity.or commitIdentity }

def classifySegment (segment : ShellSegment) : List ClassifiedCommand :=
  classifyTokens segment maxInterpreterDepth segment.tokens

/-- `classifyShellCommand`. -/
def classifyShellCommand (command : List Char) : List ClassifiedCommand :=
  (splitShellCommand command).flatMap classifySegment

end OmniRush.Shell
