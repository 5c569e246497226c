import OmniRush.Archive.Manifest

/-!
# Pass 1: the scans

The walk of a folder is the operating system's answer and stays an input here:
`Folder` holds what `lstat`, `readlink`, a file's hash and the exclusion rules
say about each path, and the entry list of the tree walk. What the archiver does
with the answers is modelled as it does it: `scanTouchedFiles` visits every
reported path once and follows a link inside the folder to the path it names,
`scanWholeFolder` adds what the ignore rules left out of the walk, and the
merges add the entries that come from elsewhere.

A path is visited once in one `scanTouchedFiles`, so its entries name no path
twice (`scanTouchedFiles_nodup`). Nothing in `scanWholeFolder` gives the same
for its two lists together: a link among the keepers is followed to a path the
tree walk may already hold.

Exclusion counts are left out, they only reach the manifest's statistics.
-/

namespace OmniRush.Archive

open OmniRush

/-- A file pass 1 may list: what it read of it besides the path. -/
structure FileInfo where
  mode : Int
  size : Int
  /-- Its hash, none when it cannot be read. -/
  sha256 : Option String
  mtime : Int := 0
  statKey : Option StatKey := none
  dev : Nat := 0
  deriving DecidableEq, Repr

/-- What `lstat` finds at a path: `missing` is ENOENT or ENOTDIR, a symlink
comes with the path inside the root it leads to (`linkTargetInside`). -/
inductive Node where
  | missing
  | unreadable
  | dir
  | special
  | symlink (inside : Option String)
  | file (info : FileInfo)
  deriving DecidableEq, Repr

structure Folder where
  lstat : String → Node
  /-- Under an excluded application directory. -/
  appState : String → Bool := fun _ => false
  /-- `isArchiveCredentialPath` or `needsCodeCheck`. -/
  credential : String → Bool := fun _ => false
  isArchiveCodeFile : String → Bool := fun _ => false
  /-- The checked content of a code file and its hash (`readCleanCodeFile`). -/
  cleanCode : String → Option (List UInt8 × String) := fun _ => none
  /-- The entries of `scanArchiveTree`. -/
  tree : List ScannedEntry := []
  /-- `findLockfiles`. -/
  lockfiles : List String := []

/-- The entries of a scan and the touched paths that hold no file any more. -/
structure TouchedScanResult where
  entries : List ScannedEntry := []
  gone : List String := []
  deriving Repr

/-! ## Touched files -/

def maxLinkHops : Nat := 8

def maxTouchedPathChars : Nat := 4096

def reservedRoots : List String := ["__omnirush__", "__outside__", "__enclosing_repo__"]

def pathParts (path : String) : List String :=
  (path.toList.splitOn '/').map String.ofList

def touchedPathParts (path : String) : Option (List String) :=
  if path.isEmpty || (utf16 path.toList).length > maxTouchedPathChars
      || path.toList.contains (Char.ofNat 0) || path.toList.head? = some '/' then none
  else if (pathParts path).any fun part => part = "" || part = "." || part = ".." then none
  else some (pathParts path)

inductive DirState where
  | dir
  | gone
  | unreadable
  deriving DecidableEq, Repr

def joinPath (parts : List String) : String := String.intercalate "/" parts

/-- Whether the folder above a path is a real one under real folders, from the
root down. -/
def dirState (folder : Folder) : List String → List String → DirState
  | _, [] => .dir
  | above, part :: parts =>
      match folder.lstat (joinPath (above ++ [part])) with
      | .dir => dirState folder (above ++ [part]) parts
      | .unreadable => .unreadable
      | _ => .gone

/-- The sets a touched scan fills while it visits. -/
structure Visit where
  seen : List String := []
  gone : List String := []
  entries : List ScannedEntry := []
  /-- The entries to keep only with clean content. -/
  codeChecks : List String := []
  deriving Repr

def fileEntry (path : String) (info : FileInfo) : ScannedEntry where
  path := path
  type := .file
  mode := info.mode
  size := info.size
  sha256 := info.sha256
  mtime := info.mtime
  statKey := info.statKey
  dev := info.dev

/-- `visit`, with the links that may still be followed. -/
def visit (folder : Folder) : Nat → String → Visit → Visit
  | hops, path, v =>
      if path ∈ v.seen then v else
      let v := { v with seen := path :: v.seen }
      match touchedPathParts path with
      | none => v
      | some parts =>
          if parts.head?.any (· ∈ reservedRoots) then v
          else if folder.appState path then v
          else if folder.credential path && !folder.isArchiveCodeFile path then v
          else
            match dirState folder [] parts.dropLast with
            | .unreadable => v
            | .gone => { v with gone := path :: v.gone }
            | .dir =>
                match folder.lstat path with
                | .missing => { v with gone := path :: v.gone }
                | .unreadable => v
                | .dir => { v with gone := path :: v.gone }
                | .special => { v with gone := path :: v.gone }
                | .symlink inside =>
                    let v := { v with gone := path :: v.gone }
                    match hops, inside with
                    | hops + 1, some target => visit folder hops target v
                    | _, _ => v
                | .file info =>
                    { v with
                      entries := v.entries ++ [fileEntry path info]
                      codeChecks :=
                        if folder.credential path then path :: v.codeChecks
                        else v.codeChecks }

/-- A code file named like a key store, with the checked bytes; none drops it. -/
def checkCode (folder : Folder) (codeChecks : List String) (entry : ScannedEntry) :
    Option ScannedEntry :=
  if entry.path ∈ codeChecks then
    (folder.cleanCode entry.path).map fun clean =>
      { entry with content := some clean.1, size := clean.1.length, sha256 := some clean.2 }
  else some entry

/-- `scanTouchedFiles`, as the archiver calls it: ignored files are kept. -/
def scanTouchedFiles (folder : Folder) (paths : List String) : TouchedScanResult :=
  let v := paths.foldl (fun v path => visit folder maxLinkHops path v) {}
  let checked := v.entries.filterMap (checkCode folder v.codeChecks)
  let dropped := v.entries.filter fun e => (checkCode folder v.codeChecks e).isNone
  let kept := checked.filter fun e => e.content.isSome || e.sha256.isSome
  { entries := sortByPath (fun e => e.path) kept
    gone := v.gone ++ dropped.map (·.path) }

/-! ## The whole folder -/

def regenerableDirNames : List String :=
  ["node_modules", ".venv", "venv", "__pycache__", ".tox", ".nox", ".mypy_cache",
    ".pytest_cache", ".ruff_cache", "dist", "build", "target", "out", ".next", ".nuxt",
    ".svelte-kit", ".turbo", ".parcel-cache", ".cache", ".gradle", ".dart_tool", "Pods",
    "DerivedData", "vendor", "bower_components", "site-packages"]

def inGitDir (path : String) : Bool := (pathParts path).dropLast.any (· = ".git")

def inRegenerableDir (path : String) : Bool :=
  (pathParts path).dropLast.any fun part => part = ".git" || part ∈ regenerableDirNames

def maxTouchedFileBytes : Int := 1024 * 1024 * 1024

def capOversized (held : List String) (entries : List ScannedEntry) : List ScannedEntry :=
  entries.filter fun e => e.path ∈ held || e.size ≤ maxTouchedFileBytes

/-- The touched paths and lockfiles the tree walk does not hold. -/
def keepers (folder : Folder) (v2 : Bool) (touched : List String) : List String :=
  (touched.filter (fun path => if v2 then !inGitDir path else !inRegenerableDir path)
      ++ folder.lockfiles.filter fun path => !inRegenerableDir path).filter
    fun path => path ∉ folder.tree.map (·.path)

def scanWholeFolder (folder : Folder) (v2 : Bool) (touched : List String) :
    List ScannedEntry :=
  if keepers folder v2 touched = [] then folder.tree
  else
    let kept := (scanTouchedFiles folder (keepers folder v2 touched)).entries
    let kept := if v2 then capOversized (folder.tree.map (·.path)) kept else kept
    if kept = [] then folder.tree else sortByPath (fun e => e.path) (folder.tree ++ kept)

/-! ## What comes from elsewhere -/

/-- `mergeScans`: the entries of another scan in archive order. -/
def mergeScans (scan other : TouchedScanResult) : TouchedScanResult where
  entries :=
    if other.entries = [] then scan.entries
    else sortByPath (fun e => e.path) (scan.entries ++ other.entries)
  gone := scan.gone ++ other.gone

/-- `mergeStaged`: staged copies replace what the scan found at their paths. -/
def mergeStaged (scan : TouchedScanResult) (staged : List ScannedEntry) :
    TouchedScanResult :=
  if staged = [] then scan
  else { scan with
    entries := sortByPath (fun e => e.path)
      (scan.entries.filter (fun e => e.path ∉ staged.map (·.path)) ++ staged) }

/-- The modification time in milliseconds a stat key holds. -/
def entryMtimeMs (entry : ScannedEntry) : Option Nat :=
  entry.statKey.map fun key => key.mtimeNs / 1000000

/-- `scanAsOf`: a file changed at or after `before` takes the chain's entry, or
is left out when the chain has none. `held` is a map from the chain's entries,
where a later one of the same path wins. -/
def scanAsOf (held : List ArchiveEntry) (before : Nat) (entries : List ScannedEntry) :
    List ScannedEntry :=
  entries.filterMap fun entry =>
    if entry.type ≠ .file ∨ entry.source ≠ none ∨ entry.content ≠ none then some entry
    else
      match entryMtimeMs entry with
      | none => some entry
      | some mtime =>
          if mtime < before then some entry
          else
            match held.reverse.find? (fun e => e.path = entry.path) with
            | none => none
            | some previous =>
                if previous.sha256 = entry.sha256 then some entry
                else some { previous with mtime := entry.mtime, dev := entry.dev }

/-! ## Touched files against the chain -/

structure TouchedChange where
  files : List ScannedEntry
  deleted : List String
  next : List ArchiveEntry
  deriving Repr

/-- `touchedChange`; `previous` is a map from the baseline's paths, where a later
entry of the same path wins. -/
def touchedChange (baseline : List ArchiveEntry) (scan : TouchedScanResult) :
    TouchedChange :=
  let current := scan.entries.map (·.path)
  let unseen := baseline.filter fun e => e.path ∉ current
  { files := scan.entries.filter fun e =>
      match baseline.reverse.find? (fun old => old.path = e.path) with
      | none => true
      | some old => isArchiveEntryModified old e.toArchiveEntry
    deleted := sortByPath id ((unseen.filter fun e => e.path ∈ scan.gone).map (·.path))
    next := sortByPath ArchiveEntry.path
      (scan.entries.map (·.toArchiveEntry) ++ unseen.filter fun e => e.path ∉ scan.gone) }

end OmniRush.Archive
