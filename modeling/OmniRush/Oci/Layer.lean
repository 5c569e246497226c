import Mathlib.Algebra.Order.Ring.Int
import OmniRush.Lib.FileTree
import OmniRush.Lib.Triple

/-!
# Unpacking image layers

`layer.go`. An unpacker applies the entries of one layer after another to a root folder
and sets the folders' modes and times at the end. A layer is untrusted: names, links and
whiteouts are what its maker wrote.

`safeJoin` turns an entry's name into a path under the root. It follows the links among
the parents itself, each target taken inside the root, and then hands the path to the
kernel, which follows whatever links are on it.

The state is the file tree with what the unpacker remembers, and the paths that calls
have acted on (`touched`), which the code does not keep. Decompression and the tar
reader come before: an entry is a header with its content, cut short when reading it
fails. `Apply` takes the entries one by one and returns at the first error.
-/

namespace OmniRush.Oci

open OmniRush

inductive Typeflag where
  | dir
  | reg
  | symlink
  | link
  | fifo
  | char
  | block
  | other
  deriving DecidableEq, Repr

structure Header where
  name : String
  linkname : String := ""
  typeflag : Typeflag
  mode : Nat := 0o755
  modTime : Int := 0
  uid : Int := 0
  gid : Int := 0
  devmajor : Nat := 0
  devminor : Nat := 0
  content : List UInt8 := []
  /-- Reading the content failed after what is there. -/
  broken : Bool := false
  deriving DecidableEq, Repr

structure ApplyStats where
  entries : Nat := 0
  whiteouts : Nat := 0
  skipped : Nat := 0
  bytes : Nat := 0
  deriving DecidableEq, Repr

structure DirMeta where
  path : Path
  mode : Nat
  mtime : Int
  deriving DecidableEq, Repr

inductive ApplyError where
  | system (e : Tree.Errno)
  | badPath (name : Path)
  | hardLink (name : String) (e : Tree.Errno)
  | read
  deriving DecidableEq, Repr

structure Unpacker where
  root : Path
  /-- `Opt.Chown`. -/
  chown : Bool := false
  /-- Whether the kernel lets it make devices and set owners. -/
  privileged : Bool := false
  dirs : List DirMeta := []
  tree : Tree
  touched : List Path := []
  stats : ApplyStats := {}
  opaqueDone : List Path := []
  thisLayer : List Path := []
  failed : Bool := false
  deriving DecidableEq

/-! ## Names and paths -/

/-- `path.Clean("/" + strings.TrimPrefix(name, "./"))`. -/
def cleanName (name : String) : Path :=
  let trimmed := match name.toList with
    | '.' :: '/' :: rest => String.ofList rest
    | _ => name
  cleanRooted (pathSegments trimmed)

/-- `filepath.Join` of a clean path and one component. -/
def joinPath (parent : Path) (c : String) : Path :=
  if c = "" ∨ c = "." then parent
  else if c = ".." then parent.dropLast
  else parent ++ [c]

section

variable (t : Tree) (root : Path)

/-- A link's target taken inside the root, from the folder of the link. -/
def retarget (next : Path) (target : String) : Path :=
  if isAbsolute target then root ++ cleanRooted (pathSegments target)
  else root ++ cleanRooted (next.dropLast.drop root.length ++ pathSegments target)

/-- The loop of `safeJoin` over the links at one parent. -/
def followHops : Nat → Path → Path
  | 0, next => next
  | hops + 1, next =>
      match t.readlink next with
      | none => next
      | some target => followHops hops (retarget root next target)

def maximumHops : Nat := 40

def safeJoinFrom : Path → List String → Option Path
  | cur, [] => some cur
  | cur, part :: rest =>
      if properName part = false then none
      else if rest = [] then some (cur ++ [part])
      else safeJoinFrom (followHops t root maximumHops (cur ++ [part])) rest

/-- `safeJoin`, on a clean name. -/
def safeJoin (name : Path) : Option Path := safeJoinFrom t root root name

end

/-! ## Calls -/

abbrev Unpack := Code Unpacker ApplyError

def did (tree : Tree) (touched : List Path) : Unpack Unit :=
  modify fun u => { u with tree, touched := u.touched ++ touched }

/-- A call whose error is returned. -/
def call (f : Tree → Tree.Outcome) (wrap : Tree.Errno → ApplyError) : Unpack Unit := do
  match f (← get).tree with
  | .ok (tree, touched) => did tree touched
  | .error e => throw (wrap e)

/-- A call whose error is dropped. -/
def attempt (f : Tree → Tree.Outcome) : Unpack Unit := do
  match f (← get).tree with
  | .ok (tree, touched) => did tree touched
  | .error _ => pure ()

/-- `safeJoin`, where an error is returned. -/
def join (name : Path) : Unpack Path := do
  let u ← get
  match safeJoin u.tree u.root name with
  | some p => pure p
  | none => throw (.badPath name)

/-- A folder its owner may not read, write and search. -/
def isClosed : Node → Bool
  | .folder attributes => attributes.mode &&& 0o700 ≠ 0o700
  | _ => false

/-- The walk of `removeAllForce`, which opens the closed folders. -/
def openFolders (t : Tree) (p : Path) : Tree × List Path :=
  match t.entry p with
  | none => (t, [])
  | some q =>
      (t.map fun e =>
        if q <+: e.1 ∧ isClosed e.2 then
          (e.1, e.2.withAttributes
            { e.2.attributes with mode := (e.2.attributes.mode &&& 0o777) ||| 0o700 })
        else e,
       (t.filter fun e => q <+: e.1 ∧ isClosed e.2).map (·.1))

def removeAllForce (p : Path) (t : Tree) : Tree.Outcome :=
  let (opened, touched) := openFolders t p
  (opened.removeAll p).map fun (t', removed) => (t', touched ++ removed)

/-- `os.MkdirAll`, by the number of components. -/
def mkdirAll (mode : Nat) : Nat → Path → Unpack Unit
  | 0, _ => pure ()
  | depth + 1, p => do
      let t := (← get).tree
      if (t.folder p).isSome then pure ()
      else if ((t.resolve p).bind t.get).isSome then throw (.system .invalid)
      else
        mkdirAll mode depth p.dropLast
        match (← get).tree.mkdir p mode with
        | .ok (tree, touched) => did tree touched
        | .error e =>
            if ((← get).tree.lstat p).any Node.isFolder then pure () else throw (.system e)

/-! ## Whiteouts -/

def hasWhiteoutPrefix (base : String) : Bool := ".wh.".toList.isPrefixOf base.toList

/-- `strings.TrimPrefix(base, ".wh.")`. -/
def whiteoutStem (base : String) : String := String.ofList (base.toList.drop 4)

def removeLower (dir parent : Path) (name : String) : Unpack Unit := do
  if dir ++ [name] ∈ (← get).thisLayer then pure ()
  else attempt (removeAllForce (parent ++ [name]))

/-- What lower layers put into an opaque folder is removed. -/
def emptyFolder (dir parent : Path) : List String → Unpack Unit
  | [] => pure ()
  | name :: names => do
      removeLower dir parent name
      emptyFolder dir parent names

def makeOpaque (dir parent : Path) : Unpack Unit := do
  let u ← get
  if dir ∈ u.opaqueDone then pure ()
  else
    modify fun u => { u with opaqueDone := dir :: u.opaqueDone }
    emptyFolder dir parent (u.tree.readDir parent)

def whiteout (dir : Path) (base : String) : Unpack Unit := do
  modify fun u => { u with stats := { u.stats with whiteouts := u.stats.whiteouts + 1 } }
  let parent ← join dir
  if base = ".wh..wh..opq" then makeOpaque dir parent
  else attempt (removeAllForce (joinPath parent (whiteoutStem base)))

/-! ## Entries -/

def Header.fileMode (hdr : Header) : Nat := hdr.mode &&& 0o7777

def Header.device (hdr : Header) : Nat :=
  (hdr.devmajor <<< 8) ||| (hdr.devminor &&& 0xff) ||| ((hdr.devminor >>> 8) <<< 20)

/-- What is there gives way, unless a folder meets a folder. -/
def clear (hdr : Header) (target : Path) (existing : Option Node) : Unpack Unit :=
  match existing with
  | none => pure ()
  | some n =>
      if n.isFolder ∧ hdr.typeflag = .dir then pure ()
      else call (removeAllForce target) .system

def mkdirNew (target : Path) (existing : Option Node) : Unpack Unit := do
  if existing.any Node.isFolder then pure ()
  else
    match (← get).tree.mkdir target 0o755 with
    | .ok (tree, touched) => did tree touched
    | .error e => if e = .present then pure () else throw (.system e)

def makeFolder (hdr : Header) (target : Path) (existing : Option Node) : Unpack Unit := do
  mkdirNew target existing
  modify fun u => { u with
    dirs := u.dirs.filter (fun d => d.path ≠ target) ++ [⟨target, hdr.fileMode, hdr.modTime⟩] }

def makeFile (hdr : Header) (target : Path) : Unpack Unit := do
  call (fun t => t.writeFile target 0o600 hdr.content) .system
  modify fun u => { u with stats := { u.stats with bytes := u.stats.bytes + hdr.content.length } }
  if hdr.broken then throw .read
  else call (fun t => t.chmod target hdr.fileMode) .system

def makeLink (hdr : Header) (target : Path) : Unpack Unit := do
  let source ← join (cleanName hdr.linkname)
  call (fun t => t.link source target) (.hardLink hdr.name)

/-- A device that is skipped, or a type that is not known. -/
def skip (name : Path) : Unpack Unit :=
  modify fun u => { u with
    stats := { u.stats with skipped := u.stats.skipped + 1 }
    thisLayer := u.thisLayer.filter (· ≠ name) }

def setOwner (hdr : Header) (target : Path) : Unpack Unit := do
  if (← get).privileged then attempt fun t => t.lchown target (hdr.uid, hdr.gid) else pure ()

/-- `chown` drops setuid bits: they are put back. -/
def restoreMode (hdr : Header) (target : Path) : Unpack Unit :=
  if hdr.typeflag = .reg then attempt fun t => t.chmod target hdr.fileMode else pure ()

def setTimes (hdr : Header) (target : Path) : Unpack Unit :=
  if hdr.typeflag = .symlink ∨ hdr.typeflag = .dir ∨ hdr.typeflag = .link then pure ()
  else attempt fun t => t.chtimes target hdr.modTime

def own (hdr : Header) (target : Path) : Unpack Unit := do
  if (← get).chown then
    setOwner hdr target
    restoreMode hdr target
  else pure ()

/-- Owner and times of what was made. -/
def settle (hdr : Header) (target : Path) : Unpack Unit := do
  own hdr target
  setTimes hdr target

def makeDevice (hdr : Header) (name target : Path) : Unpack Unit := do
  let u ← get
  let made := u.tree.create target (.special { mode := hdr.mode &&& 0o777 } hdr.device)
  match u.chown && u.privileged, made with
  | true, .ok (tree, touched) =>
      did tree touched
      settle hdr target
  | _, _ => skip name

/-- Up to the entry itself: its parents are made, what is there gives way. -/
def prepare (hdr : Header) (name : Path) : Unpack (Path × Option Node) := do
  let target ← join name
  mkdirAll 0o755 target.dropLast.length target.dropLast
  modify fun u => { u with thisLayer := name :: u.thisLayer }
  let existing := (← get).tree.lstat target
  clear hdr target existing
  pure (target, existing)

def make (hdr : Header) (name target : Path) (existing : Option Node) : Unpack Unit :=
  match hdr.typeflag with
  | .dir => do
      makeFolder hdr target existing
      settle hdr target
  | .reg => do
      makeFile hdr target
      settle hdr target
  | .symlink => do
      call (fun t => t.symlink hdr.linkname target) .system
      settle hdr target
  | .link => do
      makeLink hdr target
      settle hdr target
  | .fifo => do
      call (fun t => t.create target (.special { mode := hdr.mode &&& 0o777 } 0)) .system
      settle hdr target
  | .char | .block => makeDevice hdr name target
  | .other => skip name

def place (hdr : Header) (name : Path) : Unpack Unit := do
  let (target, existing) ← prepare hdr name
  make hdr name target existing

def Unpacker.counted (u : Unpacker) : Unpacker :=
  { u with stats := { u.stats with entries := u.stats.entries + 1 } }

/-- One turn of the loop of `Apply`. -/
def applyEntry (hdr : Header) : Unpack Unit := do
  modify Unpacker.counted
  match (cleanName hdr.name).getLast? with
  | none => pure ()
  | some base =>
      if hasWhiteoutPrefix base then whiteout (cleanName hdr.name).dropLast base
      else place hdr (cleanName hdr.name)

/-! ## Finish -/

def finishDir (d : DirMeta) : Unpack Unit := do
  if ((← get).tree.lstat d.path).any Node.isFolder then
    attempt fun t => t.chmod d.path d.mode
    attempt fun t => t.chtimes d.path d.mtime
  else pure ()

def finishDirs : List DirMeta → Unpack Unit
  | [] => pure ()
  | d :: dirs => do
      finishDir d
      finishDirs dirs

/-! ## The unpacker -/

inductive Action where
  /-- `Apply` begins a layer. -/
  | layer
  | entry (hdr : Header)
  /-- `Finish`, with the order its sort put the folders in. -/
  | finish (dirs : List DirMeta)
  deriving DecidableEq

/-- The length of a path's text, which `Finish` sorts by. -/
def pathLength (p : Path) : Nat := (p.map fun c => c.utf8ByteSize + 1).sum

/-- The state after some code, which returns at its first error. -/
def Unpacker.run (u : Unpacker) (code : Unpack Unit) : Unpacker :=
  match (ExceptT.run code).run u with
  | (.ok (), u') => u'
  | (.error _, u') => { u' with failed := true }

def Unpacker.step (u : Unpacker) : Action → Option Unpacker
  | .layer => some { u with stats := {}, opaqueDone := [], thisLayer := [], failed := false }
  | .entry hdr => if u.failed then none else some (u.run (applyEntry hdr))
  | .finish dirs =>
      if dirs.Perm u.dirs ∧ dirs.Pairwise (fun d e => pathLength e.path ≤ pathLength d.path) then
        some (u.run (finishDirs dirs))
      else none

end OmniRush.Oci
