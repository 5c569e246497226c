import Mathlib.Data.List.Sort
import OmniRush.Archive.Path
import OmniRush.Lib.Json

/-!
# Archive entries, the delta and the baseline document

The data model of `manifest.ts`: an entry of a manifest, a scanned entry with
what pass 2 needs of it, the delta of a scan against the previous entry list,
and the baseline document that carries an entry list from one capture to the
next.

The delta is a merge of two sorted lists. The baseline is a text with one JSON
row a line; its writer cuts the rows into chunks and its reader splits the
text at line breaks, so the two are modelled as the text functions they are.
-/

namespace OmniRush.Archive

open OmniRush

inductive ArchiveEntryType where
  | file
  | dir
  | symlink
  deriving DecidableEq, Repr

/-- One manifest `files` item. `broken` and `scrubbed` are the optional fields
that are only ever written as `true`. -/
structure ArchiveEntry where
  path : String
  type : ArchiveEntryType
  mode : Int
  size : Int
  sha256 : Option String
  target : Option String := none
  broken : Bool := false
  scrubbed : Bool := false
  deriving DecidableEq, Repr

/-- `size:mtimeNs:ctimeNs:ino` from lstat. -/
structure StatKey where
  size : Nat
  mtimeNs : Nat
  ctimeNs : Nat
  ino : Nat
  deriving DecidableEq, Repr

/-- A scanned entry: the manifest fields plus what pass 2 and the hash cache
need. A blank stat key is `none`. -/
structure ScannedEntry extends ArchiveEntry where
  mtime : Int := 0
  statKey : Option StatKey := none
  dev : Nat := 0
  content : Option (List UInt8) := none
  source : Option String := none
  deriving DecidableEq, Repr

/-! ## The delta -/

def isArchiveEntryModified (previous current : ArchiveEntry) : Bool :=
  if previous.type ≠ current.type ∨ previous.mode ≠ current.mode then true
  else if current.type = .file then previous.sha256 ≠ current.sha256
  else if current.type = .symlink then previous.target ≠ current.target
  else false

structure ArchiveDelta where
  files : List ScannedEntry
  deleted : List String
  deriving DecidableEq, Repr

/-- Whether each path is before the next one, as `sortedByPath` checks. -/
def pathsAscend {α : Type} (path : α → String) : List α → Bool
  | a :: b :: rest =>
      decide (compareArchivePaths (path a) (path b) < 0) && pathsAscend path (b :: rest)
  | _ => true

/-- The stable sort of `Array.prototype.sort` under `compareArchivePaths`. -/
def sortByPath {α : Type} (path : α → String) (entries : List α) : List α :=
  entries.insertionSort fun a b => compareArchivePaths (path a) (path b) ≤ 0

def sortedByPath {α : Type} (path : α → String) (entries : List α) : List α :=
  if pathsAscend path entries then entries else sortByPath path entries

/-- The merge loop of `computeArchiveDelta`. -/
def mergeDelta : List ArchiveEntry → List ScannedEntry → ArchiveDelta
  | [], scanned => ⟨scanned, []⟩
  | old :: previous, [] => ⟨[], (old :: previous).map (·.path)⟩
  | old :: previous, now :: scanned =>
      let order := compareArchivePaths old.path now.path
      if order < 0 then
        let rest := mergeDelta previous (now :: scanned)
        ⟨rest.files, old.path :: rest.deleted⟩
      else if order > 0 then
        let rest := mergeDelta (old :: previous) scanned
        ⟨now :: rest.files, rest.deleted⟩
      else
        let rest := mergeDelta previous scanned
        if isArchiveEntryModified old now.toArchiveEntry then
          ⟨now :: rest.files, rest.deleted⟩
        else rest
termination_by previous scanned => previous.length + scanned.length

def computeArchiveDelta (baseline : List ArchiveEntry) (current : List ScannedEntry) :
    ArchiveDelta :=
  mergeDelta (sortedByPath ArchiveEntry.path baseline)
    (sortedByPath (fun e => e.path) current)

def isArchiveDeltaEmpty (delta : ArchiveDelta) : Bool :=
  delta.files.isEmpty && delta.deleted.isEmpty

/-- The manifest and baseline form of an entry. -/
def archiveEntry (entry : ArchiveEntry) : ArchiveEntry where
  path := entry.path
  type := entry.type
  mode := entry.mode
  size := entry.size
  sha256 := entry.sha256
  target := if entry.type = .symlink then some (entry.target.getD "") else none
  broken := entry.type = .symlink && entry.broken
  scrubbed := entry.type = .file && entry.scrubbed

/-! ## The baseline document -/

def typeText : ArchiveEntryType → String
  | .file => "file"
  | .dir => "dir"
  | .symlink => "symlink"

def nullable : Option String → Json
  | none => .null
  | some s => .str s

/-- The object `JSON.stringify` gets: the fields in the order they were set. -/
def entryJson (e : ArchiveEntry) : Json :=
  .obj ([("path", .str e.path), ("type", .str (typeText e.type)), ("mode", .num e.mode),
      ("size", .num e.size), ("sha256", nullable e.sha256)]
    ++ (match e.target with
        | none => []
        | some t => [("target", .str t)])
    ++ (if e.broken then [("broken", .bool true)] else [])
    ++ (if e.scrubbed then [("scrubbed", .bool true)] else []))

/-- One chunk of a line document: its rows on lines of their own, after the
comma that ends the row before. -/
def lineChunk (first : Bool) (batch : List (List Char)) : List Char :=
  (if first then [] else [',']) ++ '\n' :: List.intercalate [',', '\n'] batch

def lineChunks (rowsPerChunk : Nat) :
    List (List Char) → List (List Char) → Bool → List (List Char)
  | [], batch, first =>
      (if batch.length > 0 then [lineChunk first batch] else []) ++ [['\n', ']', '}', '\n']]
  | row :: rows, batch, first =>
      let batch := batch ++ [row]
      if batch.length ≥ rowsPerChunk then
        lineChunk first batch :: lineChunks rowsPerChunk rows [] false
      else lineChunks rowsPerChunk rows batch first

/-- `jsonLineDocument`: the pieces a state document is written in. -/
def jsonLineDocument (header : List Char) (rows : List (List Char))
    (rowsPerChunk : Nat := 2000) : List (List Char) :=
  header :: lineChunks rowsPerChunk rows [] true

def baselineHeader : List Char := "\x7b\"v\":1,\"entries\":[".toList

/-- An entry as the baseline keeps it: `unstable` paths get a null hash. -/
def baselineEntry (unstable : List String) (entry : ArchiveEntry) : ArchiveEntry :=
  let out := archiveEntry entry
  if entry.path ∈ unstable then { out with sha256 := none } else out

def baselineChunks (entries : List ArchiveEntry) (unstable : List String) :
    List (List Char) :=
  jsonLineDocument baselineHeader
    (entries.map fun entry => (entryJson (baselineEntry unstable entry)).chars)

/-- The text of the file the chunks are written to. -/
def baselineText (entries : List ArchiveEntry) (unstable : List String) : String :=
  String.ofList (baselineChunks entries unstable).flatten

/-- The row one line of a document holds, `none` for a line that is no row or
a damaged one. -/
def lineRow (line : List Char) : Option Json :=
  let line := if line.getLast? = some ',' then line.dropLast else line
  if "[".toList.isPrefixOf line || "\x7b\"path\"".toList.isPrefixOf line then
    Json.parseChars line
  else none

def jsonLineRows (text : List Char) : List Json := (text.splitOn '\n').filterMap lineRow

def asString : Json → Option String
  | .str s => some s
  | _ => none

def asNumber : Json → Option Int
  | .num n => some n
  | _ => none

def asType : Json → Option ArchiveEntryType
  | .str "file" => some .file
  | .str "dir" => some .dir
  | .str "symlink" => some .symlink
  | _ => none

/-- A string or `null`; the outer `none` refuses the row. -/
def asNullable : Json → Option (Option String)
  | .null => some none
  | .str s => some (some s)
  | _ => none

def isTrue : Option Json → Bool
  | some (.bool true) => true
  | _ => false

def parseBaselineRow : Json → Option ArchiveEntry
  | .obj fields => do
      let path ← (Json.field fields "path").bind asString
      let type ← (Json.field fields "type").bind asType
      let mode ← (Json.field fields "mode").bind asNumber
      let size ← (Json.field fields "size").bind asNumber
      let sha256 ← (Json.field fields "sha256").bind asNullable
      let target ← match Json.field fields "target" with
        | none => some none
        | some t => (asString t).map some
      some { path, type, mode, size, sha256, target,
             broken := isTrue (Json.field fields "broken"),
             scrubbed := isTrue (Json.field fields "scrubbed") }
  | _ => none

/-- `parseBaselineText`: `none` when the text is not a baseline document. -/
def parseBaselineText : Option String → Option (List ArchiveEntry)
  | none => none
  | some text =>
      if "\x7b\"v\":1,".toList.isPrefixOf text.toList then
        (jsonLineRows text.toList).mapM parseBaselineRow
      else none

end OmniRush.Archive
