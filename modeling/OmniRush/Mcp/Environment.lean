import OmniRush.Lib.Record

/-!
# The variables a local MCP server gets

`mcpServerEnvironment` of `mcp-allow.mjs`, in both its modes. An engine that starts a server
with its basics and the server's `environment` alone is told what to pass; one that passes
its whole environment is told what to empty.

The expressions compare letters without case and are not in Unicode mode, so that only the
letters of ASCII have a case for them. What `toUpperCase` does beyond them is the
platform's.
-/

namespace OmniRush.Mcp

/-! ## Classes of names -/

def mcpEnvAllow : List String :=
  ["PATH", "HOME", "USER", "LOGNAME", "SHELL", "TMPDIR", "TMP", "TEMP", "LANG", "LANGUAGE",
    "TZ", "TERM", "COLORTERM", "SYSTEMROOT", "WINDIR", "COMSPEC", "PATHEXT", "USERPROFILE",
    "USERNAME", "USERDOMAIN", "APPDATA", "LOCALAPPDATA", "PROGRAMDATA", "PROGRAMFILES",
    "PROGRAMFILES(X86)", "PROGRAMW6432", "COMMONPROGRAMFILES", "COMMONPROGRAMFILES(X86)",
    "HOMEDRIVE", "HOMEPATH", "SYSTEMDRIVE", "ALLUSERSPROFILE", "PUBLIC", "COMPUTERNAME", "OS",
    "NUMBER_OF_PROCESSORS", "PROCESSOR_ARCHITECTURE", "__CF_USER_TEXT_ENCODING",
    "HTTP_PROXY", "HTTPS_PROXY", "NO_PROXY", "ALL_PROXY",
    "NODE_EXTRA_CA_CERTS", "SSL_CERT_FILE", "SSL_CERT_DIR", "REQUESTS_CA_BUNDLE",
    "NPM_CONFIG_REGISTRY", "NPM_CONFIG_CAFILE", "NPM_CONFIG_PROXY", "NPM_CONFIG_HTTPS_PROXY",
    "NPM_CONFIG_NOPROXY", "NPM_CONFIG_STRICT_SSL",
    "UV_INDEX_URL", "UV_DEFAULT_INDEX", "UV_NATIVE_TLS", "PIP_INDEX_URL",
    "UV_INDEX", "UV_EXTRA_INDEX_URL", "UV_INSECURE_HOST", "CURL_CA_BUNDLE", "PIP_CERT",
    "NPM_CONFIG_USERCONFIG",
    "DISPLAY", "WAYLAND_DISPLAY", "XAUTHORITY", "DBUS_SESSION_BUS_ADDRESS",
    "PLAYWRIGHT_BROWSERS_PATH"]

/-- A name as the expressions see it. -/
def letters (name : String) : List Char := name.toList.map Char.toUpper

def leads (word : String) (name : List Char) : Bool := word.toList.isPrefixOf name

def holds (word : String) (name : List Char) : Bool := name.tails.any (leads word)

def mcpEnvAllowPrefix (name : String) : Bool :=
  ["LC_", "XDG_", "VOLTA_", "GIT_", "UV_", "PIP_", "NPM_CONFIG_"].any (leads · (letters name))

/-- `AUTH`, but not at the head of `AUTHOR` unless that goes on as in `AUTHORIZE`. -/
def holdsAuth (name : List Char) : Bool :=
  name.tails.any fun rest => leads "AUTH" rest &&
    !(leads "OR" (rest.drop 4) && !(leads "ORIS" (rest.drop 4) || leads "ORIZ" (rest.drop 4)))

def mcpEnvGitCredential (name : String) : Bool :=
  let name := letters name
  ["GIT_ASKPASS", "GIT_CONFIG_PARAMETERS", "GIT_CONFIG_COUNT"].any (name = ·.toList) ||
  ["GIT_CREDENTIAL", "GIT_HTTP_EXTRAHEADER", "GIT_CONFIG_KEY_", "GIT_CONFIG_VALUE_"].any
    (leads · name) ||
  ["TOKEN", "SECRET", "PASSW", "PASSPHRASE", "CREDENTIAL", "COOKIE", "KEY", "ASKPASS"].any
    (holds · name) ||
  (name.splitOn '_').contains "PASS".toList || holdsAuth name ||
  (name.splitOn '_').getLast? = some "OTP".toList

/-- Never reaches a server, whatever its rules say. -/
def mcpEnvNever (name : String) : Bool :=
  leads "OMNIRUSH_" (letters name) || leads "OPENCODE_SERVER_" (letters name) ||
    letters name = "OPENCODE_PASSWORD".toList

/-! ## The platform -/

structure Platform where
  win32 : Bool
  toUpperCase : String → String
  /-- The names that are one for `engineEnv[key]` have one spelling. A plain object tells all
  names apart, `process.env` on Windows takes what differs in case for one. -/
  spelling : String → String
  spelling_one : ∀ a b, spelling a = spelling b →
    a = b ∨ win32 = true ∧ toUpperCase a = toUpperCase b

def Platform.norm (p : Platform) (name : String) : String :=
  if p.win32 then p.toUpperCase name else name

variable (p : Platform)

def allowedName (key : String) : Bool :=
  ((mcpEnvAllow.map p.toUpperCase).contains (p.toUpperCase key) ||
    (mcpEnvAllowPrefix key && !mcpEnvGitCredential key)) && !mcpEnvNever key

/-- The engine: its variables, no two of one name, and which of them it starts every server
with when it leaves out the rest. -/
structure Engine where
  env : Record (Option String)
  distinct : (env.names.map p.norm).Nodup
  basic : String → Bool
  basic_allowed : ∀ name, basic name = true → allowedName p name = true

/-! ## The environment of a server -/

variable {p}

/-- `engineEnv[key]`. -/
def Engine.lookup (engine : Engine p) (key : String) : Option String :=
  (engine.env.entries.find? fun entry => p.spelling entry.1 = p.spelling key).bind Prod.snd

def Engine.variables (engine : Engine p) : List (String × String) :=
  engine.env.entries.filterMap fun entry => entry.2.map fun value => (entry.1, value)

/-- What the engine has: set and not empty. -/
def Engine.set (engine : Engine p) : List (String × String) :=
  engine.variables.filter fun entry => entry.2 ≠ ""

/-- The names a server's rules keep. -/
def keptNames (p : Platform) (keep : List String) : List String :=
  (keep.filter fun key => !mcpEnvNever key).map p.norm

def ownNames (p : Platform) (own : Record String) : List String := own.names.map p.norm

/-- Allowed, or kept by the server's rules. -/
def passedName (p : Platform) (keep : List String) (key : String) : Bool :=
  allowedName p key || (keptNames p keep).contains (p.norm key)

/-- The allowed and the kept variables with their values, then the server's own. -/
def envOnlyEnvironment (engine : Engine p) (own : Record String) (keep : List String) :
    Record String :=
  (Record.empty.setAll (engine.set.filter fun entry =>
    !(ownNames p own).contains (p.norm entry.1) && passedName p keep entry.1)).setAll
  (own.entries.filter fun entry => !mcpEnvNever entry.1)

/-- An own variable. One that never reaches a server is empty, if the engine has it. -/
def ownOrEmpty (engine : Engine p) (entry : String × String) : Option (String × String) :=
  if !mcpEnvNever entry.1 then some entry
  else if (engine.lookup entry.1).any (· ≠ "") then some (entry.1, "")
  else none

/-- Every other variable empty, then the server's own. -/
def blankedEnvironment (engine : Engine p) (own : Record String) (keep : List String) :
    Record String :=
  (Record.empty.setAll (engine.set.filterMap fun entry =>
    if (ownNames p own).contains (p.norm entry.1) then none
    else if passedName p keep entry.1 then none
    else some (entry.1, ""))).setAll
  (own.entries.filterMap (ownOrEmpty engine))

def mcpServerEnvironment (engine : Engine p) (own : Record String) (keep : List String)
    (envOnly : Bool) : Record String :=
  if envOnly then envOnlyEnvironment engine own keep else blankedEnvironment engine own keep

/-! ## What the engine starts the server with -/

/-- Variables over others, compared as the platform compares names. -/
def overlay (p : Platform) (base top : List (String × String)) : List (String × String) :=
  base.filter (fun entry => !(top.map (p.norm ·.1)).contains (p.norm entry.1)) ++ top

/-- The basics or the whole environment, under what the server gets from the app. -/
def serverVariables (engine : Engine p) (own : Record String) (keep : List String)
    (envOnly : Bool) : List (String × String) :=
  overlay p
    (if envOnly then engine.variables.filter (fun entry => engine.basic entry.1)
      else engine.variables)
    (mcpServerEnvironment engine own keep envOnly).entries

end OmniRush.Mcp
