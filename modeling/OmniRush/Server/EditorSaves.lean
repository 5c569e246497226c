import OmniRush.Lib.Recency

/-!
# The files a person saved, and an undo

`editor-saves.ts`. Per workspace folder the server remembers which file was last saved when, for
a bounded number of files in the order of their saves. An undo of a chat's turns is a request
with the message it goes back to, and the files saved since are added to its list `keep`.

A body is the value `JSON.parse` reads of it, with numbers of any type, and what is sent is the
value `JSON.stringify` is given. `resolve` of `node:path` is a parameter.
-/

namespace OmniRush.Server

open OmniRush

def editorSavesMaxFiles : Nat := 2000

def revertKeepMax : Nat := 2000

structure EditorSave where
  root : String
  relativePath : String
  «at» : Int
  deriving DecidableEq, Repr

/-- `byRoot`: the files of each folder with the time of their last save. -/
abbrev EditorSaveLog := String → List (String × Int)

section

variable (resolve : List String → String)

def EditorSaveLog.record (log : EditorSaveLog) (save : EditorSave) : EditorSaveLog :=
  let key := resolve [save.root]
  let absolute := resolve [key, save.relativePath]
  fun root => if root = key then touch editorSavesMaxFiles (log key) (absolute, save.at) else log root

def EditorSaveLog.has (log : EditorSaveLog) (root : String) : Bool :=
  0 < (log (resolve [root])).length

def EditorSaveLog.savedSince (log : EditorSaveLog) (root : String) (since : Int) : List String :=
  ((log (resolve [root])).filter fun file => file.2 ≥ since).map (·.1)

end

/-! ## Request bodies -/

inductive BodyValue (ν : Type) where
  | null
  | bool (b : Bool)
  | num (n : ν)
  | str (s : String)
  | arr (items : List (BodyValue ν))
  | obj (fields : List (String × BodyValue ν))

variable {ν : Type}

def fieldOf (fields : List (String × BodyValue ν)) (name : String) : Option (BodyValue ν) :=
  (fields.find? fun field => field.1 = name).map (·.2)

/-- A field is set where it stands, or added. -/
def setField (fields : List (String × BodyValue ν)) (name : String) (value : BodyValue ν) :
    List (String × BodyValue ν) :=
  if fields.any fun field => field.1 = name then
    fields.map fun field => if field.1 = name then (name, value) else field
  else fields ++ [(name, value)]

/-- `decode`; a body that is not JSON is none. -/
def decode : Option (BodyValue ν) → Option (List (String × BodyValue ν))
  | some (.obj fields) => some fields
  | _ => none

def revertMessageId (body : Option (BodyValue ν)) : Option String :=
  match (decode body).bind fun fields => fieldOf fields "messageID" with
  | some (.str id) => if id = "" then none else some id
  | _ => none

def BodyValue.string? : BodyValue ν → Option String
  | .str s => some s
  | _ => none

/-- The list `keep`, if it is one. -/
def keepItems (fields : List (String × BodyValue ν)) : List (BodyValue ν) :=
  match fieldOf fields "keep" with
  | some (.arr items) => items
  | _ => []

def keepStrings (fields : List (String × BodyValue ν)) : List String :=
  (keepItems fields).filterMap BodyValue.string?

def withRevertKeep (body : Option (BodyValue ν)) (saved : List String) : Option (BodyValue ν) :=
  if saved = [] then none
  else
    match decode body with
    | none => none
    | some fields =>
        let existing := keepStrings fields
        let keep := (existing ++ saved).eraseDups.take (max revertKeepMax existing.length)
        if keep.length = existing.length then none
        else some (.obj (setField fields "keep" (.arr (keep.map .str))))

/-- The body that is sent; `meanwhile` are the saves that come while the message is looked up. -/
def revertBodyWithEditorSaves (resolve : List String → String) (saves : EditorSaveLog)
    (meanwhile : List EditorSave) (root : String) (body : Option (BodyValue ν))
    (messageCreated : String → Option Int) : Option (BodyValue ν) :=
  if !saves.has resolve root then body
  else
    match revertMessageId body with
    | none => body
    | some id =>
        match messageCreated id with
        | none => body
        | some created =>
            let saves := meanwhile.foldl (EditorSaveLog.record resolve) saves
            match withRevertKeep body (saves.savedSince resolve root created) with
            | some sent => some sent
            | none => body

end OmniRush.Server
