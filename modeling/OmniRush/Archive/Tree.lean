import OmniRush.Archive.TouchedStore

/-!
# The walk of the whole folder, and what is merged with it

`scanArchiveTree` lists a folder a level at a time and looks at every name of the level. As in
`Folder`, what the operating system and the ignore rules say is an input; a folder's names are
distinct and none holds a slash, and no folder lies deeper than `depth`.

Reads go on in any order: `visit` and the hashes run side by side, so the order of the touched
paths is not the store's. What is archived of them is given for any order (`scanKeepers`).

The other entries of an archive come from their own stores, each under its own root: files
outside the folder, attachments, images, the box's checkpoints, staged copies, and the git
directory of a repository above.
-/

namespace OmniRush.Archive

open OmniRush

/-! ## The walk -/

/-- The names that `scanArchiveTree` leaves out at the root. -/
def reservedNames : List String :=
  ["__omnirush__", "__outside__", "__attachments__", "__enclosing_repo__", "__sandbox__",
    "__media__"]

def maxScrubbedConfigBytes : Int := 1024 * 1024

/-- `parts.lastIndexOf(".git")`, as what stands behind it. -/
def afterGit (parts : List String) : Option (List String) :=
  if ".git" ∈ parts then some (parts.reverse.takeWhile (· ≠ ".git")).reverse else none

def isGitConfigPath (path : String) : Bool :=
  let parts := pathParts path
  let last := parts.getLastD ""
  if last ≠ "config" ∧ last ≠ "config.worktree" then false
  else
    match afterGit parts with
    | none => false
    | some behind =>
        let inside := behind.dropLast
        if inside = [] then true
        else if inside.head? = some "worktrees" ∧ inside.length = 2 then last = "config.worktree"
        else if inside.head? = some "modules" then
          decide (inside.length ≥ 2) && inside.all fun part => part ≠ "objects" && part ≠ "refs"
        else false

structure Workspace where
  /-- What is asked about one path; its `tree` is not read. -/
  folder : Folder
  /-- `readdir`, none where it fails. A name that is not UTF-8 is none. -/
  names : List String → Option (List (Option String))
  depth : Nat
  /-- What `lstat` says of a folder or a link. -/
  stats : String → FileInfo
  /-- In a git scope, and ignored there. -/
  gitIgnores : String → Bool := fun _ => false
  /-- In a scope of rules, and ignored there as a file or a folder. -/
  rulesIgnore : String → Bool → Bool := fun _ _ => false
  /-- `excludedRelativeDirs`. -/
  prunedDir : String → Bool := fun _ => false
  pruneRegenerable : Bool := false
  /-- `isArchiveCredentialPath`, where credential files are left out. -/
  credentialPath : String → Bool := fun _ => false
  /-- `readlink`, where it succeeds and is UTF-8. -/
  readlink : String → Option String := fun _ => none
  /-- `isBrokenLink`, where excluded entries are listed. -/
  isBrokenLink : String → Bool := fun _ => false
  /-- The scrubbed text of a git config, its hash and whether it changed. -/
  scrubConfig : String → Option (List UInt8 × String × Bool) := fun _ => none
  /-- A root that cannot be listed ends the scan. -/
  root : (names []).isSome
  distinct : ∀ dir listed, names dir = some listed → (listed.filterMap id).Nodup
  plain : ∀ dir listed, names dir = some listed → ∀ name ∈ listed.filterMap id,
    name ≠ "" ∧ '/' ∉ name.toList
  bounded : ∀ dir, (names dir).isSome → dir.length ≤ depth

namespace Workspace

variable (w : Workspace)

/-- The names of a folder that are looked at. -/
def listed (dir : List String) : List String :=
  (((w.names dir).getD []).filterMap id).filter fun name => dir ≠ [] || name ∉ reservedNames

def statEntry (path : String) (type : ArchiveEntryType) : ScannedEntry where
  path := path
  type := type
  mode := (w.stats path).mode
  size := 0
  sha256 := none
  mtime := (w.stats path).mtime
  statKey := (w.stats path).statKey
  dev := (w.stats path).dev

/-- `inspect`, with the hash pass that may drop what it took in. -/
def inspect (dir : List String) (name : String) : Option ScannedEntry :=
  let path := joinPath (dir ++ [name])
  if w.gitIgnores path then none
  else
    match w.folder.lstat path with
    | .missing | .unreadable => none
    | .dir =>
        if w.rulesIgnore path true then none
        else if w.prunedDir path then none
        else if w.pruneRegenerable && name ∈ regenerableDirNames then none
        else some (w.statEntry path .dir)
    | .special => none
    | .symlink _ =>
        if w.rulesIgnore path false then none
        else if w.credentialPath path then none
        else (w.readlink path).map fun target =>
          { w.statEntry path .symlink with
            target := some target, broken := w.isBrokenLink path }
    | .file info =>
        if w.rulesIgnore path false then none
        else if w.folder.credential path then
          if w.folder.isArchiveCodeFile path then
            (w.folder.cleanCode path).map fun clean =>
              { fileEntry path info with
                content := some clean.1, size := clean.1.length, sha256 := some clean.2 }
          else none
        else if isGitConfigPath path then
          if info.size > maxScrubbedConfigBytes then none
          else (w.scrubConfig path).map fun scrub =>
            { fileEntry path info with
              content := some scrub.1, size := scrub.1.length, scrubbed := scrub.2.2,
              sha256 := some scrub.2.1 }
        else if info.sha256.isSome then some (fileEntry path info)
        else none

/-- The names of a level, each with its folder. -/
def level (dirs : List (List String)) : List (List String × String) :=
  dirs.flatMap fun dir => (w.listed dir).map fun name => (dir, name)

/-- The folders that a level leads to. -/
def next (dirs : List (List String)) : List (List String) :=
  ((w.level dirs).filter fun item =>
    (w.inspect item.1 item.2).any (·.type = .dir)).map fun item => item.1 ++ [item.2]

def walk : Nat → List (List String) → List ScannedEntry
  | 0, _ => []
  | depth + 1, dirs =>
      (w.level dirs).filterMap (fun item => w.inspect item.1 item.2) ++ walk depth (w.next dirs)

def scanArchiveTree : List ScannedEntry :=
  sortByPath (fun e => e.path) (w.walk (w.depth + 1) [[]])

/-- The folder with the entries of the walk. -/
def scanned : Folder := { w.folder with tree := w.scanArchiveTree }

end Workspace

/-! ## Touched paths, in any order -/

/-- `scanWholeFolder`, from the paths the tree walk does not hold. -/
def scanKeepers (folder : Folder) (v2 : Bool) (keepers : List String) : List ScannedEntry :=
  if keepers = [] then folder.tree
  else
    let kept := (scanTouchedFiles folder keepers).entries
    let kept := if v2 then capOversized (folder.tree.map (·.path)) kept else kept
    if kept = [] then folder.tree else sortByPath (fun e => e.path) (folder.tree ++ kept)

/-- The paths of a touched-files capture: touched, lockfiles, and what the chain holds. -/
def touchedPaths (folder : Folder) (v2 : Bool) (touched : List String)
    (baseline : List ArchiveEntry) : List String :=
  (touched.filter (fun path => if v2 then !inGitDir path else !inRegenerableDir path)
    ++ folder.lockfiles.filter (fun path => !inRegenerableDir path)
    ++ (baseline.map (·.path)).filter fun path =>
      !("__outside__/".toList.isPrefixOf path.toList
        || "__attachments__/".toList.isPrefixOf path.toList
        || "__media__/".toList.isPrefixOf path.toList)).dedup

def scanTouched (folder : Folder) (v2 : Bool) (paths : List String) : TouchedScanResult :=
  let scan := scanTouchedFiles folder paths
  if v2 then { scan with entries := capOversized [] scan.entries } else scan

/-! ## What comes from elsewhere -/

/-- What `scanOutsideFiles` asks about an absolute path. -/
structure OutsideFiles where
  lstat : String → Node
  /-- Inside the session's folder, in one of its forms. -/
  inRoot : String → Bool
  /-- `outsideExclusion`. -/
  exclusion : String → Bool
  /-- The path with its folder as a real path, none when the folder is gone. -/
  canonicalFile : String → Option String
  maxBytes : Int := 1024 * 1024 * 1024

/-- `visit` of `scanOutsideFiles`, on a resolved path. -/
def visitOutside (files : OutsideFiles) (v : Visit) (given : String) : Visit :=
  if files.inRoot given then v
  else
    match outsideArchivePath given with
    | none => v
    | some lexical =>
        if files.exclusion given then v
        else
          match files.canonicalFile given with
          | none => { v with gone := lexical :: v.gone }
          | some absolute =>
              match outsideArchivePath absolute with
              | none => v
              | some path =>
                  let v := if path ≠ lexical then { v with gone := lexical :: v.gone } else v
                  if path ∈ v.seen then v
                  else
                    let v := { v with seen := path :: v.seen }
                    if files.inRoot absolute || files.exclusion absolute then v
                    else
                      match files.lstat absolute with
                      | .unreadable => v
                      | .missing | .dir | .special | .symlink _ =>
                          { v with gone := path :: v.gone }
                      | .file info =>
                          if info.size > files.maxBytes then { v with gone := path :: v.gone }
                          else { v with entries := v.entries ++ [fileEntry path info] }

def scanOutsideFiles (files : OutsideFiles) (paths : List String) : TouchedScanResult :=
  let v := paths.foldl (visitOutside files) {}
  let kept := v.entries.filter fun e => e.sha256.isSome
  { entries := sortByPath (fun e => e.path) kept
    gone := v.gone.filter fun path => path ∉ kept.map (·.path) }

/-- A copy of a file in a store of the archiver. -/
structure Staged where
  path : String
  size : Nat
  sha256 : String
  blob : String
  scrubbed : Bool := false
  deriving DecidableEq, Repr

/-- A staged copy as an entry, unless it is gone or no longer what was staged. -/
def stagedEntry (lstat : String → Node) (record : Staged) : Option ScannedEntry :=
  match lstat record.blob with
  | .file info =>
      if info.size = record.size then
        some { fileEntry record.path info with
          mode := 0o644, size := record.size, sha256 := some record.sha256,
          source := some record.blob, scrubbed := record.scrubbed }
      else none
  | _ => none

/-- `attachmentArchivePath`, of segments as `safeSegment` leaves them. -/
def attachmentArchivePath (message : String) (index : Nat) (name : String) : String :=
  joinPath ["__attachments__", message, toString index ++ "-" ++ name]

structure AttachmentSource where
  message : String
  index : Nat
  name : String
  deriving DecidableEq, Repr

/-- `AttachmentStore.add`: `stage` copies the bytes, where they may be copied. -/
def addAttachments (stage : AttachmentSource → String → Option Staged) (records : List Staged)
    (sources : List AttachmentSource) : List Staged :=
  sources.foldl (fun records source =>
    let path := attachmentArchivePath source.message source.index source.name
    if path ∈ records.map (·.path) then records
    else
      match stage source path with
      | none => records
      | some record => records ++ [{ record with path }]) records

def attachmentEntries (lstat : String → Node) (records : List Staged) : List ScannedEntry :=
  sortByPath (fun e => e.path) (records.filterMap (stagedEntry lstat))

/-- The paths of the media store. -/
def isMediaPath (path : String) : Bool :=
  let hash := fun name =>
    (name.toList.take 64).all (fun c => c.isDigit || "abcdef".toList.contains c)
    && decide (64 ≤ name.toList.length)
    && [".png", ".jpg", ".gif", ".webp"].contains (String.ofList (name.toList.drop 64))
  match pathParts path with
  | ["__media__", name] => hash name
  | ["__media__", "full", name] => hash name
  | _ => false

/-- `MediaStore.list`: each path once. -/
def mediaRecords (lines : List Staged) : List Staged :=
  lines.foldl (fun out record =>
    if isMediaPath record.path && record.path ∉ out.map (·.path) then out ++ [record] else out) []

def mediaEntries (lstat : String → Node) (lines : List Staged) : List ScannedEntry :=
  sortByPath (fun e => e.path) ((mediaRecords lines).filterMap fun record =>
    match lstat record.blob with
    | .file info =>
        if info.sha256.isSome then
          some { fileEntry record.path info with mode := 0o644, source := some record.blob }
        else none
    | _ => none)

def maxSandboxSnapshotBytes : Int := 1024 * 1024 * 1024

def isCheckpointName (name : String) : Bool :=
  match name.toList.splitOn '.' with
  | [stem, ext] =>
      (ext = "json".toList || ext = "tar".toList)
        && (stem = "record".toList || stem = "final".toList
          || ("turn-".toList.isPrefixOf stem && 5 < stem.length && (stem.drop 5).all Char.isDigit))
  | _ => false

/-- The box's checkpoints, by their names in the chat's folder. -/
def sandboxEntries (sessionId : String) (checkpoints : List (String × FileInfo)) :
    List ScannedEntry :=
  (checkpoints.filter fun file => isCheckpointName file.1).filterMap fun file =>
    if ".tar".toList.isSuffixOf file.1.toList && file.2.size > maxSandboxSnapshotBytes then none
    else some { fileEntry (joinPath ["__sandbox__", sessionId, file.1]) file.2 with
      mode := 0o600, source := some file.1 }

/-- `FilesUsedStore.stage`: the copy of a path replaces an older one. -/
def stageFile (staged : List Staged) (record : Staged) : List Staged :=
  if staged.any fun item => item.path = record.path && item.sha256 = record.sha256 then staged
  else staged.filter (fun item => item.path ≠ record.path) ++ [record]

/-- A file used, under `usedArchivePath`. -/
def stageUse (staged : List Staged) (absolute : String) (record : Staged) : List Staged :=
  match outsideArchivePath absolute with
  | none => staged
  | some path => stageFile staged { record with path }

def filesUsedEntries (lstat : String → Node) (staged : List Staged) : List ScannedEntry :=
  staged.filterMap (stagedEntry lstat)

/-- An entry of the git directory above, under the archive's name for it. -/
def enclosedEntry (scrubConfig : String → Option (List UInt8 × String × Bool)) (e : ScannedEntry) :
    Option ScannedEntry :=
  let path := joinPath ["__enclosing_repo__", ".git", e.path]
  match e.type with
  | .symlink => none
  | .dir => some { e with path }
  | .file =>
      if isGitConfigPath path then
        if e.size > maxScrubbedConfigBytes then none
        else (scrubConfig e.path).map fun scrub =>
          { e with
            path, content := some scrub.1, size := scrub.1.length, scrubbed := scrub.2.2,
            sha256 := some scrub.2.1 }
      else some { e with path, source := some e.path }

/-- The git directory of a repository above the folder. -/
def scanEnclosingGit (git : Workspace) (scrubConfig : String → Option (List UInt8 × String × Bool))
    (gitDir : FileInfo) : List ScannedEntry :=
  [{ path := "__enclosing_repo__", type := .dir, mode := 0o755, size := 0, sha256 := none },
    { path := "__enclosing_repo__/.git", type := .dir, mode := gitDir.mode, size := 0,
      sha256 := none, mtime := gitDir.mtime, dev := gitDir.dev }]
    ++ git.scanArchiveTree.filterMap (enclosedEntry scrubConfig)

/-- What the stores of a session have been given, and what is on the disk. -/
structure Sources where
  lstat : String → Node
  outside : OutsideFiles
  outsidePaths : List String := []
  /-- The calls of `AttachmentStore.add`. -/
  attachments : List ((AttachmentSource → String → Option Staged) × List AttachmentSource) := []
  media : List Staged := []
  sessionId : String := ""
  /-- The chat's checkpoint folder, when it runs in a box. One that holds anything but
  regular files ends the capture. -/
  checkpoints : Option (List (String × FileInfo)) := none
  /-- The calls of `FilesUsedStore.stage`. -/
  filesUsed : List (String × Staged) := []
  enclosing : Option (Workspace × (String → Option (List UInt8 × String × Bool)) × FileInfo) := none
  distinct : ∀ files, checkpoints = some files → (files.map (·.1)).Nodup

namespace Sources

variable (s : Sources)

/-- `scanOutside`: a path outside a box's project is none of this machine. -/
def scanOutside : TouchedScanResult :=
  if s.checkpoints.isSome then {} else scanOutsideFiles s.outside s.outsidePaths

def attachmentRecords : List Staged :=
  s.attachments.foldl (fun records add => addAttachments add.1 records add.2) []

def stagedUses : List Staged :=
  s.filesUsed.foldl (fun staged used => stageUse staged used.1 used.2) []

/-- What is merged with a scan of either kind. -/
def merge (v2 filesUsed : Bool) (scan : TouchedScanResult) : TouchedScanResult :=
  let scan := mergeScans scan s.scanOutside
  let scan := if v2 then
      mergeScans scan { entries := attachmentEntries s.lstat s.attachmentRecords }
    else scan
  let scan := if v2 then mergeScans scan { entries := mediaEntries s.lstat s.media } else scan
  let scan := mergeScans scan { entries := sandboxEntries s.sessionId (s.checkpoints.getD []) }
  if filesUsed then mergeStaged scan (filesUsedEntries s.lstat s.stagedUses) else scan

/-- The merges of a whole-folder capture. -/
def mergeWhole (v2 filesUsed : Bool) (scan : TouchedScanResult) : TouchedScanResult :=
  let scan := s.merge v2 filesUsed scan
  match s.enclosing with
  | some (git, scrubConfig, gitDir) =>
      if v2 then mergeScans scan { entries := scanEnclosingGit git scrubConfig gitDir } else scan
  | none => scan

end Sources

end OmniRush.Archive
