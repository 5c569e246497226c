import OmniRush.Lib.Json
import OmniRush.Lib.Utf16
import OmniRush.Lib.ShellWords
import OmniRush.Mcp.Environment

/-!
# How an allowed server is started in the sandbox

`normalizeRules` (what it keeps of variables), `launchCommand`, `shellQuote` and the end of
`evaluateMcp` of `mcp-allow.mjs`: the variables a server's rules name, with their values, and the
script that the sandbox's shell reads. Where a path is and whether it is inside the project is the
platform's.
-/

namespace OmniRush.Mcp

/-! ## The rules about variables -/

/-- `^[A-Z_][A-Z0-9_]{0,63}$`. -/
def isEnvName (name : String) : Bool :=
  match name.toList with
  | [] => false
  | first :: rest =>
      (first.isUpper || first = '_') && rest.length ≤ 63 &&
        rest.all fun c => c.isUpper || c.isDigit || c = '_'

/-- `FIXED_ENV_REFUSED`, for a name of a variable. -/
def fixedEnvRefused (name : String) : Bool :=
  let name := letters name
  ["PATH", "PATHEXT", "HOME", "USERPROFILE", "COMSPEC", "SHELL", "TMPDIR", "TEMP", "TMP",
    "VIRTUAL_ENV"].any (name = ·.toList) ||
  ["NODE_", "NPM_", "LD_", "DYLD_", "PYTHON", "UV_", "BUN_", "DENO_", "OMNIRUSH_",
    "OPENCODE_"].any (leads · name) ||
  "_PROXY".toList.isSuffixOf name ||
  ["KEY", "TOKEN", "SECRET", "PASSWORD"].any (holds · name)

/-- `^[A-Za-z0-9._-]{1,64}$`. -/
def isFixedValue (value : String) : Bool :=
  0 < value.toList.length && value.toList.length ≤ 64 &&
    value.toList.all fun c => c.isAlphanum || c = '.' || c = '_' || c = '-'

/-- The variables an entry's rules name: `path_env` with the fallbacks, and `fixed_env`. -/
structure EnvRules where
  pathEnv : List (String × String)
  fixedEnv : List (String × String)
  names : ∀ entry ∈ pathEnv ++ fixedEnv, isEnvName entry.1 = true

def fieldsOf : Option Json → List (String × Json)
  | some (.obj fields) => fields
  | _ => []

/-- The fields of a record that hold a text and pass a check, `limit` of them at most. -/
def textFields (limit : Nat) (keep : String → String → Bool) (raw : Option Json) :
    List (String × String) :=
  ((fieldsOf raw).filterMap fun (name, value) =>
    match value with
    | .str text => if keep name text then some (name, text) else none
    | _ => none).take limit

theorem mem_textFields {limit : Nat} {keep : String → String → Bool} {raw : Option Json}
    {entry : String × String} (h : entry ∈ textFields limit keep raw) :
    keep entry.1 entry.2 = true := by
  obtain ⟨⟨name, value⟩, -, hentry⟩ := List.mem_filterMap.mp (List.mem_of_mem_take h)
  cases value with
  | str text =>
      simp only at hentry
      split at hentry
      · next hkeep =>
          cases hentry
          exact hkeep
      · cases hentry
  | _ => cases hentry

def pathEnvKept (isAbsolute : String → Bool) (name fallback : String) : Bool :=
  !mcpEnvNever name && isEnvName name && (utf16 fallback.toList).length < 200 &&
    !isAbsolute fallback &&
    !(fallback.toList.splitOnP fun c => c = '/' || c = '\\').contains "..".toList

/-- `strings` of `secret_env`, and which of them are names. -/
def secretEnv (raw : Option Json) : List String :=
  match raw with
  | some (.arr items) =>
      ((items.filterMap fun
        | .str text =>
            if 0 < (utf16 text.toList).length ∧ (utf16 text.toList).length < 300 then some text
            else none
        | _ => none).take 4).filter fun name => isEnvName name && !mcpEnvNever name
  | _ => []

/-- What `normalizeRules` keeps of the variables. -/
def normalizeEnvRules (isAbsolute : String → Bool) (rules : Option Json) : EnvRules :=
  let fields := fieldsOf rules
  let pathEnv := textFields 8 (pathEnvKept isAbsolute) (Json.field fields "path_env")
  let taken := pathEnv.map Prod.fst ++ secretEnv (Json.field fields "secret_env")
  { pathEnv
    fixedEnv := textFields 8 (fun name value =>
      isEnvName name && !fixedEnvRefused name && !taken.contains name && isFixedValue value)
      (Json.field fields "fixed_env")
    names := by
      intro entry hentry
      rcases List.mem_append.mp hentry with hpath | hfixed
      · have hkeep := mem_textFields hpath
        simp only [pathEnvKept, Bool.and_eq_true] at hkeep
        exact hkeep.1.1.1.2
      · have hkeep := mem_textFields hfixed
        simp only [Bool.and_eq_true] at hkeep
        exact hkeep.1.1.1 }

/-! ## The variables of a server -/

/-- The project folder, as the paths of a server's variables go. -/
structure ProjectPaths where
  inside : String → Bool
  /-- Where a fallback is, and where a given path is, as the server sees it. -/
  fallbackPath : String → String
  resolved : String → String

/-- `path_env`, one after the other; none when a path is outside the project. -/
def setPathEnv (paths : ProjectPaths) : List (String × String) → Record String →
    Option (Record String)
  | [], environment => some environment
  | (name, fallback) :: rest, environment =>
      match environment.get name with
      | none => setPathEnv paths rest (environment.set name (paths.fallbackPath fallback))
      | some value =>
          if value = "" then
            setPathEnv paths rest (environment.set name (paths.fallbackPath fallback))
          else if paths.inside value then
            setPathEnv paths rest (environment.set name (paths.resolved value))
          else none

/-- `environment` of `evaluateMcp`, from what the configuration gives. -/
def serverEnvironment (rules : EnvRules) (paths : ProjectPaths) (given : Option Json) :
    Option (Record String) :=
  let kept := (fieldsOf given).filterMap fun (name, value) =>
    match value with
    | .str text => if (rules.pathEnv.map Prod.fst).contains name then some (name, text) else none
    | _ => none
  (setPathEnv paths rules.pathEnv (Record.empty.setAll kept)).map fun environment =>
    environment.setAll rules.fixedEnv

/-! ## The command -/

inductive Runtime where
  | npm
  | pypi
  deriving DecidableEq, Repr

def boxNpmPrefix : String := "/tmp/omnirush-mcp-npx"

/-- `launchCommand`. -/
def launchCommand (runtime : Runtime) (package : String) (bin : Option String)
    (version npmPrefix : String) : List String :=
  match runtime with
  | .npm =>
      let spec := package ++ "@" ++ version
      ["npx", "--prefix", npmPrefix, "-y"] ++
        match bin with
        | some bin => ["-p", spec, bin]
        | none => [spec]
  | .pypi =>
      ["uvx", "--no-config"] ++
        match bin with
        | some bin => ["--from", package ++ "==" ++ version, bin]
        | none => [package ++ "@" ++ version]

/-- `argv` of `evaluateMcp`, in the sandbox. -/
def serverArgv (runtime : Runtime) (package : String) (bin : Option String) (version : String)
    (rest : List String) : List String :=
  launchCommand runtime package bin version boxNpmPrefix ++ rest

/-- A character that is left without quotes. -/
def isUnquoted (c : Char) : Bool := c.isAlphanum || "_@%+=:,.-/".toList.contains c

def shellQuote (s : ShellWord) : List Char :=
  if s ≠ [] ∧ s.all isUnquoted then s
  else '\'' :: s.flatMap (fun c => if c = '\'' then ['\'', '\\', '\'', '\''] else [c]) ++ ['\'']

/-- The script for the sandbox's shell. -/
def sandboxScript (runtime : Runtime) (environment : List (String × String))
    (argv : List String) : List Char :=
  let envWords := environment.map fun (name, value) =>
    name.toList ++ '=' :: shellQuote value.toList
  (if runtime = .npm then ("mkdir -p " ++ boxNpmPrefix ++ " && ").toList else []) ++
    "exec ".toList ++
    (if envWords ≠ [] then "env ".toList ++ joinWords envWords ++ [' '] else []) ++
    joinWords (argv.map fun word => shellQuote word.toList)

end OmniRush.Mcp
