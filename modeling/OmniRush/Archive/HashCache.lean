import OmniRush.Archive.Manifest
import OmniRush.Lib.Machine
import OmniRush.Lib.Record

/-!
# The hash cache of a root

`ArchiveHashCache` of `manifest.ts`. A row read from a text is packed into one string, the hash
and then the stat key; a row of a scan is the scanned entry. A lookup takes a row from `previous`,
and if it is accepted the entry is a row of `current`.
-/

namespace OmniRush.Archive

/-- `SHA256_HEX`. -/
def isSha256Hex (text : List Char) : Bool :=
  text.length = 64 && text.all fun c => ('0' ≤ c && c ≤ '9') || ('a' ≤ c && c ≤ 'f')

structure Sha256 where
  hex : List Char
  isHex : isSha256Hex hex = true
  deriving DecidableEq

def sha256Of (hex : List Char) : Option Sha256 :=
  if h : isSha256Hex hex = true then some ⟨hex, h⟩ else none

/-- What the cache reads of a `ScannedEntry`; its hash is null or a digest. -/
structure HashedEntry where
  path : String
  statKey : String
  sha256 : Option Sha256
  deriving DecidableEq

/-- A row of `previous`: a packed string, whose first 64 characters are a hash, or an entry. -/
inductive Held
  | packed (text : List Char) (isHex : isSha256Hex (text.take 64) = true)
  | entry (entry : HashedEntry)

structure ArchiveHashCache where
  previous : Record Held
  current : Record HashedEntry
  dirty : Bool

namespace ArchiveHashCache

def new : ArchiveHashCache := ⟨.empty, .empty, false⟩

/-! ## A text -/

/-- The path, the stat key and the hash of a row, `none` for one that is passed over. -/
def textRow : Json → Option (String × String × Sha256)
  | .arr [.str path, .str statKey, .str sha256] =>
      (sha256Of sha256.toList).map fun sha256 => (path, statKey, sha256)
  | _ => none

/-- The rows that the cache takes from a text. -/
def textRows (text : String) : List (String × String × Sha256) :=
  (jsonLineRows text.toList).filterMap textRow

theorem isHex_take (sha256 : Sha256) (statKey : List Char) :
    isSha256Hex ((sha256.hex ++ statKey).take 64) = true := by
  have hlength : sha256.hex.length = 64 := by
    have hhex := sha256.isHex
    simp only [isSha256Hex, Bool.and_eq_true, decide_eq_true_eq] at hhex
    exact hhex.1
  rw [← hlength, List.take_left]
  exact sha256.isHex

/-- `[sha256, statKey].join("")`. -/
def pack (statKey : String) (sha256 : Sha256) : Held :=
  .packed (sha256.hex ++ statKey.toList) (isHex_take sha256 statKey.toList)

def addRow (previous : Record Held) : String × String × Sha256 → Record Held
  | (path, statKey, sha256) => previous.set path (pack statKey sha256)

def fromText : Option String → ArchiveHashCache
  | none => new
  | some text =>
      if "\x7b\"v\":2,".toList.isPrefixOf text.toList then
        { new with previous := (textRows text).foldl addRow .empty }
      else new

/-! ## A scan -/

/-- The hash of a held row, if its stat key is the entry's. -/
def heldSha256 (held : Held) (entry : HashedEntry) : Option Sha256 :=
  match held with
  | .packed text isHex =>
      if text.length = 64 + entry.statKey.toList.length ∧ entry.statKey.toList <:+ text then
        some ⟨text.take 64, isHex⟩
      else none
  | .entry held => if held.statKey = entry.statKey then held.sha256 else none

def lookup (cache : ArchiveHashCache) (entry : HashedEntry) : Option Sha256 × ArchiveHashCache :=
  match cache.previous.get entry.path with
  | none => (none, cache)
  | some held =>
      let cache := { cache with previous := cache.previous.delete entry.path }
      match heldSha256 held entry with
      | none => (none, { cache with dirty := true })
      | some sha256 =>
          (some sha256, { cache with current := cache.current.set entry.path entry })

/-- What `entry.sha256 = cached` of a scan does to the row of `current` that is the entry. -/
def assign (cache : ArchiveHashCache) (entry : HashedEntry) (sha256 : Sha256) : ArchiveHashCache :=
  { cache with current := cache.current.set entry.path { entry with sha256 := some sha256 } }

/-- A scan's lookup: what is accepted is at once the hash of the entry. -/
def scanLookup (cache : ArchiveHashCache) (entry : HashedEntry) : ArchiveHashCache :=
  match cache.lookup entry with
  | (none, cache) => cache
  | (some sha256, cache) => cache.assign entry sha256

def remember (cache : ArchiveHashCache) (entry : HashedEntry) : ArchiveHashCache where
  previous := cache.previous.delete entry.path
  current := cache.current.set entry.path entry
  dirty := true

/-- A path that `previous` had is not taken out of `current`. -/
def forget (cache : ArchiveHashCache) (path : String) : ArchiveHashCache :=
  if (cache.previous.get path).isSome then
    { cache with previous := cache.previous.delete path, dirty := true }
  else if (cache.current.get path).isSome then
    { cache with current := cache.current.delete path, dirty := true }
  else cache

def commitScan (cache : ArchiveHashCache) : ArchiveHashCache where
  previous := ⟨cache.current.entries.map fun (path, entry) => (path, .entry entry), by
    rw [List.map_map]
    exact cache.current.distinct⟩
  current := .empty
  dirty := cache.dirty || 0 < cache.previous.entries.length

/-! ## Saving -/

def rowJson (path statKey sha256 : List Char) : Json :=
  .arr [.str (String.ofList path), .str (String.ofList statKey), .str (String.ofList sha256)]

/-- The row of an entry that has a hash. -/
def entryRow (path : String) (entry : HashedEntry) : Option Json :=
  entry.sha256.map fun sha256 => rowJson path.toList entry.statKey.toList sha256.hex

def heldRow (path : String) : Held → Option Json
  | .packed text _ => some (rowJson path.toList (text.drop 64) (text.take 64))
  | .entry entry => entryRow path entry

def rows (cache : ArchiveHashCache) : List Json :=
  cache.previous.entries.filterMap (fun (path, held) => heldRow path held) ++
    cache.current.entries.filterMap fun (path, entry) => entryRow path entry

def cacheHeader : List Char := "\x7b\"v\":2,\"entries\":[".toList

def jsonChunks (cache : ArchiveHashCache) : List (List Char) × ArchiveHashCache :=
  (jsonLineDocument cacheHeader (cache.rows.map Json.chars), { cache with dirty := false })

/-- The text that the pieces are. -/
def savedText (cache : ArchiveHashCache) : String := String.ofList cache.jsonChunks.1.flatten

/-! ## Runs -/

inductive Operation
  | lookup (entry : HashedEntry)
  | remember (entry : HashedEntry)
  | forget (path : String)
  | commitScan
  | save
  | reload (text : Option String)

/-- A cache, the texts it was saved as so far, and the path, the stat key and the hash of each
entry that was remembered. -/
structure World where
  cache : ArchiveHashCache := new
  saved : List String := []
  recorded : List (String × String × Sha256) := []

/-- What a `remember` records. -/
def record (entry : HashedEntry) : List (String × String × Sha256) :=
  (entry.sha256.map fun sha256 => (entry.path, entry.statKey, sha256)).toList

def World.step (w : World) : Operation → Option World
  | .lookup entry => some { w with cache := w.cache.scanLookup entry }
  | .remember entry =>
      some { w with cache := w.cache.remember entry, recorded := record entry ++ w.recorded }
  | .forget path => some { w with cache := w.cache.forget path }
  | .commitScan => some { w with cache := w.cache.commitScan }
  | .save => some { w with cache := w.cache.jsonChunks.2, saved := w.cache.savedText :: w.saved }
  | .reload text => some { w with cache := fromText text }

/-- What may be read again: a text whose rows are all of saved texts. Lines that are damaged are
passed over, since they are read as no row. -/
def World.Allowed (w : World) : Operation → Prop
  | .reload (some text) => ∀ row ∈ textRows text, ∃ before ∈ w.saved, row ∈ textRows before
  | _ => True

end ArchiveHashCache

end OmniRush.Archive
