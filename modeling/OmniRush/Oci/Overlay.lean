import OmniRush.Lib.Overlay
import OmniRush.Oci.Layer

/-!
# The overlay of image layers

What an unpacked image should be: the fold of its layers, each laid over the tree of the
ones below it (`Overlay.overlay`). An entry puts a folder, a file or a link at its name, a
whiteout drops the name beside it, and an opaque marker empties its folder.

A tree is seen by what stands at each path. The modes and times of folders are left out:
`Finish` sets them after the last layer.
-/

namespace OmniRush

/-- What stands at a path. -/
inductive Shape where
  | folder
  | file (attributes : Attributes) (content : List UInt8)
  | link (target : String)
  | special (device : Nat)
  deriving DecidableEq, Repr

def Node.shape : Node → Shape
  | .folder _ => .folder
  | .file attributes content => .file attributes content
  | .link _ target => .link target
  | .special _ device => .special device

def Shape.kind : Shape → NodeKind
  | .folder => .folder
  | .link target => .link target
  | _ => .other

namespace Oci

open Overlay

abbrev LayerItem := Item String Shape

abbrev LayerView := Overlay.View String Shape

/-- What stands below a folder, which is one itself. -/
def view (t : Tree) (r : Path) : LayerView := fun p =>
  if p = [] then some .folder else (t.get (r ++ p)).map Node.shape

/-- What an entry puts at its name; `owned` says whether owners can be set. -/
def Header.shape (owned : Bool) (hdr : Header) : Shape :=
  match hdr.typeflag with
  | .dir => .folder
  | .reg => .file
      { mode := hdr.fileMode, mtime := hdr.modTime
        owner := if owned then (hdr.uid, hdr.gid) else (0, 0) } hdr.content
  | .symlink => .link hdr.linkname
  | _ => .special hdr.device

/-- What an entry says of the tree; the root's own says nothing. -/
def Header.item (owned : Bool) (hdr : Header) : Option LayerItem :=
  let name := cleanName hdr.name
  name.getLast?.map fun base =>
    if hasWhiteoutPrefix base then
      if base = ".wh..wh..opq" then .empty name.dropLast
      else .drop (name.dropLast ++ [whiteoutStem base])
    else .put name (hdr.shape owned)

/-- The items of a layer, the latest first. -/
def layerItems (owned : Bool) (hdrs : List Header) : List LayerItem :=
  (hdrs.filterMap (Header.item owned)).reverse

/-- A layer over the tree of the layers below it. -/
def overlayLayer (owned : Bool) (V : LayerView) (hdrs : List Header) : LayerView :=
  overlay .folder V (layerItems owned hdrs)

/-- The tree that unpacking begins with. -/
def emptyView : LayerView := fun p => if p = [] then some .folder else none

/-! ## Layers of folders, files and links -/

/-- A whiteout or an opaque marker. -/
def Header.IsMarker (hdr : Header) : Bool :=
  (cleanName hdr.name).getLast?.any hasWhiteoutPrefix

/-- A marker for a name, a folder, a whole file, or a link that has a target. -/
def Header.Plain (hdr : Header) : Prop :=
  if hdr.IsMarker then
    ∀ base ∈ (cleanName hdr.name).getLast?,
      base = ".wh..wh..opq" ∨ properName (whiteoutStem base) = true
  else hdr.broken = false ∧
    (hdr.typeflag = .dir ∨ hdr.typeflag = .reg ∨ hdr.typeflag = .symlink ∧ hdr.linkname ≠ "")

/-- No name twice, and folders above every name. -/
structure PlainLayer (hdrs : List Header) : Prop where
  entries : ∀ hdr ∈ hdrs, hdr.Plain
  names : (hdrs.map fun hdr => cleanName hdr.name).Nodup
  parents : ∀ hdr ∈ hdrs, ∀ hdr' ∈ hdrs, Under (cleanName hdr.name) (cleanName hdr'.name) →
    hdr.IsMarker = true ∨ hdr.typeflag = .dir

/-- Where an item comes to stand, nothing but folders is above it: what else the tree has
there was replaced or hidden by items before. -/
def ParentsReady (V : LayerView) : List LayerItem → Prop
  | [] => True
  | item :: before =>
      (∀ p ∈ item.path.inits, item.IsUnder p →
        V p = none ∨ V p = some .folder ∨ Shown p before ∨ Gone .folder p before) ∧
      ParentsReady V before

/-- The condition on the layers of an image: each, over the tree of the ones below, hides
nothing of its own and leaves nothing that it covers. -/
def Overlaid (owned : Bool) : LayerView → List (List Header) → Prop
  | _, [] => True
  | V, hdrs :: layers =>
      PlainLayer hdrs ∧ ParentsReady V (layerItems owned hdrs) ∧
        Clean .folder V (layerItems owned hdrs) ∧
        Overlaid owned (overlayLayer owned V hdrs) layers

/-- The actions that apply a layer. -/
def layerActions (hdrs : List Header) : List Action := .layer :: hdrs.map .entry

end Oci

end OmniRush
