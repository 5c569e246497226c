import Mathlib.Data.List.Sort
import OmniRush.Lib.FileTree
import OmniRush.Lib.Utf16
import OmniRush.Lib.Wildcards

/-!
# The files that a glob of a command names

`expandGlob` of `turn-files.ts` on a POSIX system. A pattern is a path that was resolved, so its
components are names. The components before the first wildcard are the base; the others are walked,
each of the three kinds in its own way, and `**` stands for any number of folders.

The walk goes through folders of a tree that does not change meanwhile.
-/

namespace OmniRush.Archive

/-! ## Patterns -/

/-- `/[*?[]/`. -/
def hasWildcard (component : String) : Bool :=
  component.toList.any fun c => c = '*' || c = '?' || c = '['

/-- The ranges of a class, `none` where one is out of order. -/
def classRanges : List Char → Option (List (Char × Char))
  | low :: '-' :: high :: rest =>
      if low ≤ high then (classRanges rest).map fun ranges => (low, high) :: ranges else none
  | c :: rest => (classRanges rest).map fun ranges => (c, c) :: ranges
  | [] => some []

/-- The class that `[` begins, and what follows its `]`. A `]` right after the `[` is in it. -/
def classBody : List Char → Option (List Char × List Char)
  | [] => none
  | first :: cs =>
      if ']' ∈ cs then
        some (first :: cs.takeWhile (· ≠ ']'), (cs.dropWhile (· ≠ ']')).drop 1)
      else none

theorem classBody_length {cs body rest : List Char} (h : classBody cs = some (body, rest)) :
    rest.length < cs.length := by
  cases cs with
  | nil => cases h
  | cons first cs =>
      rw [classBody] at h
      split at h
      · cases h
        have hle := (List.dropWhile_suffix (l := cs) fun c => decide (c ≠ ']')).length_le
        rw [List.length_drop, List.length_cons]
        omega
      · cases h

def classItem (body : List Char) : Option Wildcard :=
  let negated := body.head? = some '!' || body.head? = some '^'
  (classRanges (if negated then body.drop 1 else body)).map (Wildcard.set negated)

/-- The items of a component, `none` where they are no regular expression: a `]` of no class is
refused with the `u` flag. -/
def componentItems : List Char → Option (List Wildcard)
  | [] => some []
  | '*' :: cs => (componentItems cs).map (Wildcard.many :: ·)
  | '?' :: cs => (componentItems cs).map (Wildcard.one :: ·)
  | ']' :: _ => none
  | '[' :: cs =>
      match _hbody : classBody cs with
      | none => (componentItems cs).map (Wildcard.char '[' :: ·)
      | some (body, rest) =>
          (classItem body).bind fun item => (componentItems rest).map (item :: ·)
  | c :: cs => (componentItems cs).map (Wildcard.char c :: ·)
termination_by cs => cs.length
decreasing_by
  all_goals simp only [List.length_cons]
  all_goals first
    | omega
    | exact Nat.lt_succ_of_lt (classBody_length _hbody)

/-- `componentPattern(component)?.test(name)`. -/
def matchesComponent (component name : String) : Bool :=
  hasWildcard component &&
    (componentItems component.toList).any fun items => Wildcard.matchItems items name.toList

/-! ## Folders -/

/-- `path.replaceAll("\\", "/")`, as its components. -/
def portable (path : Path) : List String :=
  path.flatMap fun name => (name.toList.splitOn '\\').map String.ofList

/-- `toLowerCase`, of what it makes a letter from a to z. -/
def lowerCase (c : Char) : Char := if c = Char.ofNat 0x212a then 'k' else c.toLower

def secretFolderNames : List String :=
  ["google", "chrome", "chrome-beta", "chrome-canary", "chrome beta", "chrome canary", "chromium",
    "bravesoftware", "brave-browser", "microsoft edge", "microsoft-edge", "vivaldi", "opera",
    "opera software", "mozilla", "firefox", "thunderbird", "safari", "arc", "1password",
    "bitwarden", "keepass", "keepassxc", "lastpass", "dashlane", "enpass", "keychain", "keychains",
    "keyring", "keyrings", "password-store", ".password-store", ".gnupg", ".ssh", "credentials",
    "cookies"]

/-- `^1password \d+$`. -/
def isNumberedPassword (part : String) : Bool :=
  let start := "1password ".toList
  start.isPrefixOf part.toList && (part.toList.drop start.length).all Char.isDigit &&
    start.length < part.toList.length

def isSecretPart (part : String) : Bool :=
  let lower := String.ofList (part.toList.map lowerCase)
  lower ∈ secretFolderNames || isNumberedPassword lower

def isSecretFolder (path : Path) : Bool := (portable path).any isSecretPart

def skippedExpansionDirs : List String :=
  [".git", ".hg", ".svn", "node_modules", ".venv", "venv", "__pycache__", ".tox", ".mypy_cache",
    ".pytest_cache", ".cache"]

def systemFolders : List (List String) :=
  [["usr"], ["etc"], ["bin"], ["sbin"], ["lib"], ["lib32"], ["lib64"], ["libx32"], ["proc"],
    ["sys"], ["dev"], ["run"], ["boot"], ["var", "lib"], ["var", "log"], ["var", "cache"], ["snap"],
    ["System"], ["Library"], ["private", "etc"], ["private", "var", "db"], ["Applications"]]

/-- `^(?:\/private)?\/var\/folders\/[^/]+\/[^/]+(?:\/T)?$`. -/
def isDarwinTemp (parts : List String) : Bool :=
  let parts := if parts.head? = some "private" then parts.drop 1 else parts
  match parts with
  | ["var", "folders", a, b] => a ≠ "" && b ≠ ""
  | ["var", "folders", a, b, "T"] => a ≠ "" && b ≠ ""
  | _ => false

structure ExpansionContext where
  roots : List Path
  home : Option Path
  temps : List Path
  /-- Whether the archive excludes a folder. -/
  exclusion : Path → Bool

/-- `unsafeFolder`. A folder is itself or an ancestor of another if it is a prefix of it. -/
def unsafeFolder (dir : Path) (context : ExpansionContext) : Bool :=
  let parts := portable dir
  parts.length ≤ 1 || context.home.any (fun home => dir.isPrefixOf home) ||
    context.temps.any (fun temp => dir.isPrefixOf temp) || isDarwinTemp parts ||
    systemFolders.any (fun folder => folder.isPrefixOf parts) ||
    context.roots.any (fun root => dir.isPrefixOf root) || isSecretFolder dir ||
    context.exclusion dir

/-! ## The walk -/

def maxExpansionFiles : Nat := 256
def maxExpansionDepth : Nat := 6

/-- The files found so far, and how many entries may still be looked at. -/
structure ExpansionState where
  found : List Path
  budget : Int

def ExpansionState.isFull (s : ExpansionState) : Bool :=
  s.found.length ≥ maxExpansionFiles || s.budget ≤ 0

/-- Whether a child is walked into. What a folder lists of an entry is what `lstat` tells. -/
def isWalked (tree : Tree) (dir : Path) (name : String) : Bool :=
  (tree.lstat (dir ++ [name])).any OmniRush.Node.isFolder && name ∉ skippedExpansionDirs &&
    !isSecretFolder [name]

def isFile : OmniRush.Node → Bool
  | .file .. => true
  | _ => false

/-- The children of a folder by name. A name that cannot be listed has none. -/
def sortedChildren (tree : Tree) (dir : Path) : List String :=
  (tree.readDir dir).insertionSort fun a b => ¬ utf16 b.toList < utf16 a.toList

/-- One child of `dir`, with the walks of the folders below. -/
def visitChild (tree : Tree) (walk : Path → List String → ExpansionState → ExpansionState)
    (dir : Path) (component : String) (rest : List String) (s : ExpansionState) (name : String) :
    ExpansionState :=
  if s.isFull then s
  else
    let s := { s with budget := s.budget - 1 }
    if name.startsWith "." && !component.startsWith "." then s
    else if component = "**" then
      if isWalked tree dir name then walk (dir ++ [name]) (component :: rest) s else s
    else if !matchesComponent component name then s
    else if rest = [] then
      if (tree.lstat (dir ++ [name])).any isFile then { s with found := s.found ++ [dir ++ [name]] }
      else s
    else if isWalked tree dir name then walk (dir ++ [name]) rest s
    else s

/-- The walk below a real folder, with the rounds that are left: it ends when `depth` is over twice
`MAX_EXPANSION_DEPTH`, so at `depth` there are `2 * MAX_EXPANSION_DEPTH + 1 - depth` of them. -/
def walkGlob (tree : Tree) : Nat → Path → List String → ExpansionState → ExpansionState
  | 0, _, _, s => s
  | _ + 1, _, [], s => s
  | rounds + 1, dir, component :: rest, s =>
      if s.isFull then s
      else if component = "**" then
        let s := walkGlob tree rounds dir rest s
        if 2 * maxExpansionDepth - rounds ≥ maxExpansionDepth then s
        else
          (sortedChildren tree dir).foldl
            (visitChild tree (walkGlob tree rounds) dir component rest) s
      else if !hasWildcard component then
        if rest = [] then { s with found := s.found ++ [dir ++ [component]] }
        else if (tree.lstat (dir ++ [component])).any OmniRush.Node.isFolder &&
            component ∉ skippedExpansionDirs then
          walkGlob tree rounds (dir ++ [component]) rest s
        else s
      else
        (sortedChildren tree dir).foldl
          (visitChild tree (walkGlob tree rounds) dir component rest) s

/-- The components of a path that was resolved. -/
structure GlobPath where
  parts : List String
  proper : ∀ part ∈ parts, properName part = true

def GlobPath.base (pattern : GlobPath) : Path :=
  pattern.parts.takeWhile fun part => !hasWildcard part

def GlobPath.rest (pattern : GlobPath) : List String :=
  pattern.parts.dropWhile fun part => !hasWildcard part

/-- `realpath`, `none` where there is nothing. -/
def realpath (tree : Tree) (path : Path) : Option Path :=
  (tree.resolve path).filter fun found => found = [] || (tree.get found).isSome

def expandGlob (tree : Tree) (context : ExpansionContext) (pattern : GlobPath) (budget : Int) :
    ExpansionState :=
  if pattern.rest = [] then ⟨[], budget⟩
  else
    match realpath tree pattern.base with
    | none => ⟨[], budget⟩
    | some realBase =>
        if unsafeFolder realBase context then ⟨[], budget⟩
        else walkGlob tree (2 * maxExpansionDepth + 1) realBase pattern.rest ⟨[], budget⟩

end OmniRush.Archive
