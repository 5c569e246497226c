import OmniRush.Lib.Record
import Mathlib.Data.String.Basic

/-!
# Turns of other sessions on one folder

`turn-overlap.ts`, for one project folder: a record for each session, which every process of the
app replaces when a turn of the session starts or ends. A record is a file, so the registry is a
record of files by name, and `readdir` names them in some order.

Session ids are ASCII, so that `sort` goes by characters.
-/

namespace OmniRush.Archive

def staleMs : Int := 24 * 60 * 60000

def openGraceMs : Int := 60000

def maxRecordsRead : Nat := 256

structure TurnWindow where
  sessionId : String
  pid : Int
  start : Int
  «end» : Option Int
  notedAt : Int
  deriving DecidableEq, Repr

/-- `SESSION_ID`. -/
def isWindowSession (id : String) : Bool :=
  0 < id.toList.length && id.toList.length ≤ 128 &&
    id.toList.all fun c => c.isAlphanum || "._:-".toList.contains c

def recordName (sessionId : String) : String := sessionId ++ ".json"

abbrev TurnRegistry := Record TurnWindow

namespace TurnRegistry

variable (registry : TurnRegistry)

def write (window : TurnWindow) : TurnRegistry :=
  if isWindowSession window.sessionId then registry.set (recordName window.sessionId) window
  else registry

def started (pid now : Int) (sessionId : String) (start : Int) : TurnRegistry :=
  registry.write ⟨sessionId, pid, start, none, now⟩

def ended (pid now : Int) (sessionId : String) (start «end» : Int) : TurnRegistry :=
  registry.write ⟨sessionId, pid, start, some «end», now⟩

end TurnRegistry

/-- When a window ends. An open one goes on as long as its process lives. -/
def TurnWindow.last (alive : Int → Bool) (now : Int) (window : TurnWindow) : Int :=
  match window.end with
  | some e => e
  | none => if alive window.pid then now else window.notedAt + openGraceMs

/-- The loop of `overlapping` over the names: the sessions found, and what is left of the
registry. -/
def findOverlapping (alive : Int → Bool) (now : Int) (sessionId : String) (start stop : Int) :
    List String → TurnRegistry → List String × TurnRegistry
  | [], registry => ([], registry)
  | name :: names, registry =>
      match registry.get name with
      | none => findOverlapping alive now sessionId start stop names registry
      | some window =>
          if window.sessionId = sessionId then
            findOverlapping alive now sessionId start stop names registry
          else if staleMs < now - window.last alive now then
            findOverlapping alive now sessionId start stop names (registry.delete name)
          else
            let (found, registry') := findOverlapping alive now sessionId start stop names registry
            if window.start ≤ stop ∧ start ≤ window.last alive now then
              (window.sessionId :: found, registry')
            else (found, registry')

/-- `overlapping`: the sessions found, and what is left of the registry. `listing` is what
`readdir` names. -/
def overlapping (alive : Int → Bool) (now : Int) (listing : List String)
    (registry : TurnRegistry) (sessionId : String) (start stop : Int) :
    List String × TurnRegistry :=
  let names := listing.filter fun name => ".json".toList.isSuffixOf name.toList
  let (found, registry) :=
    findOverlapping alive now sessionId start stop (names.take maxRecordsRead) registry
  (found.mergeSort (· ≤ ·), registry)

/-! ## Calls -/

/-- A turn that started or ended, by some process. -/
inductive TurnCall where
  | started (pid now : Int) (sessionId : String) (start : Int)
  | ended (pid now : Int) (sessionId : String) (start «end» : Int)
  deriving DecidableEq, Repr

def TurnCall.window : TurnCall → TurnWindow
  | .started pid now sessionId start => ⟨sessionId, pid, start, none, now⟩
  | .ended pid now sessionId start e => ⟨sessionId, pid, start, some e, now⟩

def TurnCall.apply (registry : TurnRegistry) : TurnCall → TurnRegistry
  | .started pid now sessionId start => registry.started pid now sessionId start
  | .ended pid now sessionId start e => registry.ended pid now sessionId start e

/-- The registry after some calls. -/
def noted (calls : List TurnCall) : TurnRegistry := calls.foldl TurnCall.apply .empty

end OmniRush.Archive
