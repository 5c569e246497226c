import OmniRush.Lib.Triple
import OmniRush.Lib.Json
import OmniRush.Lib.Record
import OmniRush.Lib.Utf16

/-!
# The move of the old upload state

`session-upload-state.ts`: the ledger, the spool, the bases and the temp directory move from the
names that versions up to 2.2.1 used to the new ones. Each system call may fail, and a crash may
come at any of them. A removal of a folder takes one file after the other.
-/

namespace OmniRush.Uploader

/-! ## The state directory -/

/-- An entry of the state directory. The folders there hold files only. -/
inductive Entry where
  | file (text : String)
  | folder (files : Record String)

/-- The entries of the state directory. One that was not made has none. -/
structure StateDir where
  made : Bool
  entries : Record Entry

namespace StateDir

variable (dir : StateDir)

def get (name : String) : Option Entry := dir.entries.get name

def set (name : String) (entry : Entry) : StateDir :=
  { dir with entries := dir.entries.set name entry }

def delete (name : String) : StateDir := { dir with entries := dir.entries.delete name }

/-- The files of a folder. -/
def files (name : String) : Option (Record String) :=
  match dir.get name with
  | some (.folder files) => some files
  | _ => none

/-- The text of a file. -/
def text (name : String) : Option String :=
  match dir.get name with
  | some (.file text) => some text
  | _ => none

def isThere : Bool := dir.made || !dir.entries.entries.isEmpty

def hasEntry (name : String) : Bool := (dir.get name).isSome

def hasFile (folder name : String) : Bool :=
  ((dir.files folder).bind fun files => files.get name).isSome

/-! ## System calls -/

def readFile (name : String) : Option (String × StateDir) :=
  (dir.text name).map fun text => (text, dir)

def readdir (name : String) : Option (List String × StateDir) :=
  (dir.files name).map fun files => (files.names, dir)

/-- `rename`: a file takes the place of a file, and a folder that of an empty one. -/
def rename (source target : String) : Option (Unit × StateDir) :=
  match dir.get source, dir.get target with
  | some entry, none => some ((), (dir.delete source).set target entry)
  | some (.file text), some (.file _) => some ((), (dir.delete source).set target (.file text))
  | some (.folder files), some (.folder others) =>
      if others.entries.isEmpty then some ((), (dir.delete source).set target (.folder files))
      else none
  | _, _ => none

/-- `rename` of a file of one folder into another. -/
def renameFile (source target name : String) : Option (Unit × StateDir) :=
  match dir.files source, dir.files target with
  | some files, some others =>
      (files.get name).map fun text =>
        ((), (dir.set source (.folder (files.delete name))).set target
          (.folder (others.set name text)))
  | _, _ => none

/-- A temp file renamed over `name`. -/
def replace (name text : String) : Option (Unit × StateDir) :=
  match dir.get name with
  | some (.folder _) => none
  | _ => some ((), dir.set name (.file text))

/-- `rm` of a file, with `force`. -/
def rm (name : String) : Option (Unit × StateDir) :=
  match dir.get name with
  | some (.folder _) => none
  | _ => some ((), dir.delete name)

def rmFile (folder name : String) : Option (Unit × StateDir) :=
  (dir.files folder).map fun files => ((), dir.set folder (.folder (files.delete name)))

def rmdir (name : String) : Option (Unit × StateDir) :=
  match dir.get name with
  | some (.folder files) => if files.entries.isEmpty then some ((), dir.delete name) else none
  | _ => none

end StateDir

abbrev Migration := FaultyCode StateDir

/-- `rm` with `recursive` and `force`: the files of a folder, then the folder. -/
def rmFiles (folder : String) : List String → Migration Unit
  | [] => pure ()
  | name :: names => do
      operate fun dir => dir.rmFile folder name
      rmFiles folder names

def rmRecursive (name : String) : Migration Unit := do
  if ← operate fun dir => some ((dir.files name).isSome, dir) then
    let names ← operate fun dir => dir.readdir name
    rmFiles name names
    operate fun dir => dir.rmdir name
  else operate fun dir => dir.rm name

/-- `writeFileAtomic`. The temp file has a name of its own, and whether it is written or left there
is nothing that the migration looks at. -/
def writeFileAtomic (name text : String) : Migration Unit := do
  operate fun dir => some ((), dir)
  operate fun dir => dir.replace name text

/-! ## Ledgers -/

structure LedgerFile where
  version : Int
  sessions : Record Json

def parseLedger (text : String) : Option LedgerFile :=
  match Json.parse text with
  | some (.obj fields) =>
      match Json.field fields "version", Json.field fields "sessions" with
      | some (.num version), some (.obj sessions) => some ⟨version, Record.empty.setAll sessions⟩
      | _, _ => none
  | _ => none

def ledgerText (ledger : LedgerFile) : String :=
  Json.stringify
    (.obj [("version", .num ledger.version), ("sessions", .obj ledger.sessions.entries)])

def lastSeen : Option Json → String
  | some (.obj record) =>
      match Json.field record "lastSeenAt" with
      | some (.str seen) => seen
      | _ => ""
  | _ => ""

/-- `left >= right` of two texts. -/
def atLeast (left right : String) : Bool := !decide (utf16 left.toList < utf16 right.toList)

/-- The loop over the sessions of the new ledger. -/
def mergeSessions (sessions : Record Json) (entries : List (String × Json)) : Record Json :=
  entries.foldl (fun sessions (id, record) =>
    if atLeast (lastSeen (some record)) (lastSeen (sessions.get id)) then sessions.set id record
    else sessions) sessions

def newSessions : Option LedgerFile → List (String × Json)
  | none => []
  | some ledger => ledger.sessions.entries

/-- What `mergeLedger` writes: nothing if the old ledger cannot be read, or if the new one can be
and has another version. -/
def writeMerged (current : String) (oldLedger newLedger : Option LedgerFile) : Migration Unit :=
  match oldLedger with
  | some oldLedger =>
      if newLedger.all fun new => new.version = oldLedger.version then
        let sessions := mergeSessions oldLedger.sessions (newSessions newLedger)
        writeFileAtomic current (ledgerText ⟨oldLedger.version, sessions⟩)
      else pure ()
  | none => pure ()

def mergeLedger (legacy current : String) : Migration Unit := do
  let oldText ← operate fun dir => dir.readFile legacy
  let newText ← operate fun dir => dir.readFile current
  writeMerged current (parseLedger oldText) (parseLedger newText)
  operate fun dir => dir.rm legacy

/-! ## Spools -/

def moveFile (legacy current name : String) : Migration Unit := do
  if ← look fun dir => dir.hasFile current name then pure ()
  else operate fun dir => dir.renameFile legacy current name

def moveFiles (legacy current : String) : List String → Migration Unit
  | [] => pure ()
  | name :: names => do
      moveFile legacy current name
      moveFiles legacy current names

def mergeSpool (legacy current : String) : Migration Unit := do
  let names ← operate fun dir => dir.readdir legacy
  moveFiles legacy current names
  rmRecursive legacy

/-! ## The migration -/

structure Move where
  legacy : String
  current : String
  merge : Option (String → String → Migration Unit)

def migrateOne (move : Move) : Migration Unit := do
  if ← look fun dir => dir.hasEntry move.legacy then
    if ← look fun dir => dir.hasEntry move.current then
      match move.merge with
      | some merge => merge move.legacy move.current
      | none => rmRecursive move.legacy
    else operate fun dir => dir.rename move.legacy move.current
  else pure ()

def legacyLedger : String := "omnirush-collector-sessions.json"
def uploadSessionLedgerFile : String := "omnirush-upload-sessions.json"
def legacySpool : String := "omnirush-collector-spool"
def uploadSpoolDirectory : String := "omnirush-upload-spool"
def legacyBases : String := "omnirush-collector-bases"
def uploadBaseDirectory : String := "omnirush-upload-bases"
def legacyTemp : String := "omnirush-collector-tmp"
def uploadTempDirectory : String := "omnirush-upload-tmp"

def moves : List Move :=
  [⟨legacyLedger, uploadSessionLedgerFile, some mergeLedger⟩,
    ⟨legacySpool, uploadSpoolDirectory, some mergeSpool⟩,
    ⟨legacyBases, uploadBaseDirectory, none⟩,
    ⟨legacyTemp, uploadTempDirectory, none⟩]

/-- Each move in turn, with the names of those that were logged. -/
def migrateAll : List Move → Migration (List (String × String))
  | [] => pure []
  | move :: moves => do
      let failed ← attempt (migrateOne move)
      let logged ← migrateAll moves
      pure (if failed then (move.legacy, move.current) :: logged else logged)

def migrateLegacyUploadState : Migration (List (String × String)) := do
  if ← look fun dir => dir.isThere then migrateAll moves else pure []

/-! ## Runs -/

/-- A run with what its operations meet: what it logged or the crash, and the disk with what was on
the way. -/
def runWith (dir : StateDir) (fates : List Fate) :
    Except Interruption (List (String × String)) × Faulty StateDir :=
  migrateLegacyUploadState.run.run { disk := dir, fates }

/-- What runs that were not misled leave behind, each crashed or not. -/
inductive After (start : StateDir) : StateDir → Prop where
  | start : After start start
  | run {dir : StateDir} (fates : List Fate) (h : After start dir)
      (hmisled : (runWith dir fates).2.misled = false) :
      After start (runWith dir fates).2.disk

end OmniRush.Uploader
