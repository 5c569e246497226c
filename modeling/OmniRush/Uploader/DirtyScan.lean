import OmniRush.Lib.Record

/-!
# Scans of a workspace

`scanWorkspaceFull` and `scanDirtyPaths` of `session-uploader.ts`. A full scan inspects every file
that the listing names. A targeted one inspects what the watcher reported since the last capture
and folds it into a copy of the last manifest; under a reported path that is no longer a file, it
inspects what the manifest has.

A path is a text with slashes, and a workspace has what stands at each path that no link is on the
way to. The cache of a scan is left out: it answers for an unchanged file what reading it gives.
-/

namespace OmniRush.Uploader

inductive WorkspaceNode where
  | folder
  | link
  | special
  /-- A file, with its content if it can be read. -/
  | file (size : Nat) (content : Option (List UInt8))
  deriving DecidableEq, Repr

/-- What comes before each slash, after what was read already (`seen`, the last character first). -/
def beforeSlashes (seen : List Char) : List Char → List String
  | [] => []
  | c :: rest =>
      if c = '/' then String.ofList seen.reverse :: beforeSlashes (c :: seen) rest
      else beforeSlashes (c :: seen) rest

/-- The folders on the way to a path: `path.slice(0, slash)` for each slash. -/
def foldersAbove (path : String) : List String := beforeSlashes [] path.toList

/-- A workspace at some moment, with git's answers then. -/
structure Workspace where
  nodes : Record WorkspaceNode
  above : ∀ path ∈ nodes.names, ∀ a ∈ foldersAbove path, nodes.get a = some .folder
  isIgnored : String → Bool

def maxUploadFileBytes : Nat := 4 * 1024 * 1024

/-- `MAX_FILES`. -/
def maxFiles : Nat := 50000

/-- What the scan asks of a path and of a file's content: `isUploadFileDenied`, `binaryReason`,
`sha256Hex`, and the digest of the text that is left when it is redacted. -/
structure ScanRules where
  isDenied : String → Bool
  isBinary : String → List UInt8 → Bool
  sha256 : List UInt8 → String
  textSha256 : String → List UInt8 → String

structure ManifestEntry where
  binary : Bool
  sha256 : String
  deriving DecidableEq, Repr

abbrev Manifest := Record ManifestEntry

structure ScanResult where
  manifest : Manifest
  /-- All files count as changed where this is absent. -/
  changed : Option (List String)
  removed : Nat

section

variable (rules : ScanRules) (workspace : Workspace)

def hasRealAncestors (path : String) : Bool :=
  (foldersAbove path).all fun a => workspace.nodes.get a ≠ some .link

def inspectFile (path : String) : Option ManifestEntry :=
  if !hasRealAncestors workspace path then none
  else
    match workspace.nodes.get path with
    | some (.file size content) =>
        if size > maxUploadFileBytes then none
        else content.map fun bytes =>
          if rules.isBinary path bytes then ⟨true, rules.sha256 bytes⟩
          else ⟨false, rules.textSha256 path bytes⟩
    | _ => none

/-- What the listing names: files and links that git does not ignore and that may be uploaded. -/
def isListed (path : String) : Bool :=
  !workspace.isIgnored path && !rules.isDenied path &&
    match workspace.nodes.get path with
    | some (.file ..) => true
    | some .link => true
    | _ => false

def countRemoved (previous : Option Manifest) (manifest : Manifest) : Nat :=
  match previous with
  | none => 0
  | some previous => (previous.names.filter fun path => (manifest.get path).isNone).length

/-! ## The full scan -/

structure ScanState where
  manifest : Manifest
  changed : List String

/-- Whether the last manifest has something else at a path. -/
def isChanged (previous : Option Manifest) (path : String) (entry : ManifestEntry) : Bool :=
  (previous.bind fun manifest => manifest.get path).map (·.sha256) ≠ some entry.sha256

def keepListed (previous : Option Manifest) (s : ScanState) (path : String) : ScanState :=
  match inspectFile rules workspace path with
  | none => s
  | some entry =>
      if entry.binary then s
      else if s.manifest.entries.length ≥ maxFiles then s
      else
        { manifest := s.manifest.set path entry
          changed := if isChanged previous path entry then s.changed ++ [path] else s.changed }

def scanWorkspaceFull (previous : Option Manifest) (includeAll : Bool) : ScanResult :=
  let listing := workspace.nodes.names.filter (isListed rules workspace)
  let s := listing.foldl (keepListed rules workspace previous) ⟨.empty, []⟩
  { manifest := s.manifest
    changed := if includeAll then none else some s.changed
    removed := countRemoved previous s.manifest }

/-! ## The targeted scan -/

structure FoldState where
  manifest : Manifest
  changed : List String
  vanished : List String

/-- `fold`, of what inspecting a path gave. -/
def foldEntry (previous : Manifest) (s : FoldState) (path : String) : FoldState :=
  match inspectFile rules workspace path with
  | none =>
      { s with
        manifest := s.manifest.delete path
        vanished :=
          if (s.manifest.get path).isNone then s.vanished ++ [path] else s.vanished }
  | some entry =>
      if entry.binary then { s with manifest := s.manifest.delete path }
      else if (s.manifest.get path).isNone ∧ s.manifest.entries.length ≥ maxFiles then s
      else
        { s with
          manifest := s.manifest.set path entry
          changed :=
            if isChanged (some previous) path entry then s.changed ++ [path] else s.changed }

/-- What the manifest has below a path that has vanished. -/
def insideVanished (s : FoldState) (dirty : List String) : List String :=
  s.manifest.names.filter fun path =>
    path ∉ dirty ∧ ∃ a ∈ foldersAbove path, a ∈ s.vanished

def scanDirtyPaths (previous : Manifest) (dirty ignored : List String) : ScanResult :=
  let targets := dirty.filter (· ∉ ignored)
  let manifest := (dirty.filter (· ∈ ignored)).foldl Record.delete previous
  let s := targets.foldl (foldEntry rules workspace previous) ⟨manifest, [], []⟩
  let s := (insideVanished s dirty).foldl (foldEntry rules workspace previous) s
  { manifest := s.manifest, changed := some s.changed, removed := countRemoved previous s.manifest }

/-- The targeted scan of `uploadWorkspace`: what may not be uploaded is not asked about, and what
git ignores now is told to the scan. -/
def scanReported (previous : Manifest) (dirty : List String) : ScanResult :=
  let reported := dirty.filter fun path => !rules.isDenied path
  scanDirtyPaths rules workspace previous reported (reported.filter workspace.isIgnored)

end

end OmniRush.Uploader
