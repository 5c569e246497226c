import OmniRush.Proofs.LayerView

/-!
# What the unpacker makes of an entry

A walk through the unpacker's code with the view of its tree in between (`Shows`). Where
nothing but folders is above an entry, the code does not fail: what was at the entry's name
gives way and the entry is put there (`does_prepare`, `does_make`), a whiteout's name is
dropped (`does_whiteout`), and an opaque marker removes the names in its folder that the
layer has not put there (`does_opaque`). Nothing is said of the modes and times of folders.
-/

namespace OmniRush.Oci

open OmniRush Overlay

/-- The tree an unpacker has made so far: below its root stands what `V` says, and the rest
is as it was; with what it remembers of the layer. -/
structure Shows (t₀ : Tree) (root r : Path) (owned : Bool) (layer opaques : List Path)
    (V : LayerView) (u : Unpacker) : Prop where
  root : u.root = root
  owned : (u.chown && u.privileged) = owned
  outside : ∀ q, ¬ Below r q → u.tree.get q = t₀.get q
  view : view u.tree r = V
  lawful : Lawful V
  layer : u.thisLayer = layer
  opaques : u.opaqueDone = opaques
  failed : u.failed = false

/-- Code that from `P` does not fail and ends in `Q`. -/
def Does {α : Type} (P : Unpacker → Prop) (code : Unpack α) (Q : α → Unpacker → Prop) : Prop :=
  Triple P code Q fun _ => False

theorem Does.start {α : Type} {P : Unpacker → Prop} {code : Unpack α} {Q : α → Unpacker → Prop}
    {u : Unpacker} (h : Does P code Q) (hu : P u) : Does (fun v => v = u) code Q := by
  rintro v rfl
  exact h v hu

section

variable {t₀ : Tree} {root r : Path} {owned : Bool} {layer opaques : List Path}
  {V V' : LayerView} {u : Unpacker} {p : Path} {c : String}

theorem Shows.stands (h : Shows t₀ root r owned layer opaques V u) (hroot : EmptyRoot t₀ root r) :
    Stands root r V u.tree := by
  refine ⟨Tree.folder_mono (fun q k hk => ?_) hroot.folder, h.view, h.lawful⟩
  have hout : ¬ Below r q := by
    intro hq
    rw [Tree.kind, hroot.empty q hq] at hk
    cases hk
  rwa [Tree.kind, h.outside q hout]

theorem Shows.did {t' : Tree} {touched : List Path}
    (h : Shows t₀ root r owned layer opaques V u) (hleaves : Leaves r V' u.tree t')
    (hlawful : Lawful V') :
    Shows t₀ root r owned layer opaques V' { u with tree := t', touched := touched } :=
  { h with
    outside := fun q hq => (hleaves.outside q hq).trans (h.outside q hq)
    view := hleaves.view
    lawful := hlawful }

theorem Does.reword {P : Unpacker → Prop} {code : Unpack Unit}
    (h : Does P code fun _ => Shows t₀ root r owned layer opaques V) (heq : V = V') :
    Does P code fun _ => Shows t₀ root r owned layer opaques V' := heq ▸ h

theorem does_call {P : Unpacker → Prop} {Q : Unit → Unpacker → Prop} {f : Tree → Tree.Outcome}
    {wrap : Tree.Errno → ApplyError}
    (h : ∀ u, P u → ∃ t' touched, f u.tree = .ok (t', touched) ∧
      Q () { u with tree := t', touched := u.touched ++ touched }) :
    Does P (call f wrap) Q := by
  refine Triple.bind (Q := fun a u => a = u ∧ P u) (Triple.get fun u hu => ⟨rfl, hu⟩) fun a => ?_
  rintro u ⟨rfl, hu⟩
  obtain ⟨t', touched, hf, hQ⟩ := h a hu
  rw [hf]
  exact hQ

theorem does_attempt {P : Unpacker → Prop} {Q : Unit → Unpacker → Prop} {f : Tree → Tree.Outcome}
    (h : ∀ u, P u → ∃ t' touched, f u.tree = .ok (t', touched) ∧
      Q () { u with tree := t', touched := u.touched ++ touched }) :
    Does P (attempt f) Q := by
  refine Triple.bind (Q := fun a u => a = u ∧ P u) (Triple.get fun u hu => ⟨rfl, hu⟩) fun a => ?_
  rintro u ⟨rfl, hu⟩
  obtain ⟨t', touched, hf, hQ⟩ := h a hu
  rw [hf]
  exact hQ

theorem does_get {P : Unpacker → Prop} : Does P get fun a u => a = u ∧ P u :=
  Triple.get fun _ hu => ⟨rfl, hu⟩

theorem does_join (hroot : EmptyRoot t₀ root r) {name : Path}
    (hproper : ∀ c ∈ name, properName c = true)
    (hlinks : ∀ q, Under q name → ∀ target, V q ≠ some (.link target)) :
    Does (Shows t₀ root r owned layer opaques V) (join name)
      fun q u => q = root ++ name ∧ Shows t₀ root r owned layer opaques V u := by
  refine Triple.bind does_get fun a => ?_
  rintro u ⟨rfl, hu⟩
  have hjoin := (hu.stands hroot).safeJoin hproper hlinks
  rw [← hu.root] at hjoin
  rw [hjoin]
  exact ⟨by rw [hu.root], hu⟩

/-! ## Folders above -/

/-- Nothing but folders at a path and above it. -/
def PlainTo (V : LayerView) (p : Path) : Prop :=
  ∀ q, q <+: p → V q = none ∨ V q = some .folder

theorem PlainTo.above {q : Path} (h : PlainTo V p) (hq : q <+: p) : PlainTo V q :=
  fun s hs => h s (hs.trans hq)

theorem PlainTo.noLinks (h : PlainTo V p) : NoLinks V p := by
  intro q hq target hlink
  rcases h q hq with hnone | hfolder
  · rw [hnone] at hlink
    cases hlink
  · rw [hfolder] at hlink
    cases hlink

/-- The view with folders at a path and above it. -/
def withFolders (V : LayerView) (p : Path) : LayerView :=
  fun q => if q <+: p then some .folder else V q

theorem withFolders_self (h : Lawful V) (hp : V p = some .folder) : withFolders V p = V := by
  funext q
  unfold withFolders
  split
  · next hq =>
      by_cases heq : q = p
      · rw [heq, hp]
      · exact (h.closed q p ⟨hq, heq⟩ (by rw [hp]; exact Option.some_ne_none _)).symm
  · rfl

theorem withFolders_concat : withFolders V (p ++ [c])
    = putAt (withFolders V p) (p ++ [c]) .folder := by
  funext q
  unfold withFolders putAt
  dsimp only
  by_cases hq : q = p ++ [c]
  · rw [if_pos hq, if_pos (by rw [hq])]
  · rw [if_neg hq]
    by_cases hunderp : q <+: p
    · rw [if_pos hunderp, if_pos (hunderp.trans (List.prefix_append p [c]))]
    · rw [if_neg hunderp, if_neg fun h => ?_]
      rcases List.prefix_concat_iff.mp h with heq | h
      · exact hq heq
      · exact hunderp h

theorem withFolders_parent : withFolders V p p = some .folder := if_pos List.prefix_rfl

theorem does_mkdir (hroot : EmptyRoot t₀ root r) {mode : Nat} (hparent : V p = some .folder)
    (hc : properName c = true) (habsent : V (p ++ [c]) = none) :
    Does (Shows t₀ root r owned layer opaques V)
      (do
        match (← get).tree.mkdir (root ++ (p ++ [c])) mode with
        | .ok (tree, touched) => did tree touched
        | .error e =>
            if ((← get).tree.lstat (root ++ (p ++ [c]))).any Node.isFolder then pure ()
            else throw (ApplyError.system e))
      fun _ => Shows t₀ root r owned layer opaques (putAt V (p ++ [c]) .folder) := by
  refine Triple.bind does_get fun a => ?_
  rintro u ⟨rfl, hu⟩
  obtain ⟨t', touched, hcreate, hleaves⟩ :=
    (hu.stands hroot).create hparent hc habsent (.folder { mode })
  rw [Tree.mkdir, hcreate]
  exact hu.did hleaves (hu.lawful.putAt hparent hc fun _ => rfl)

theorem does_mkdirAll_there (hroot : EmptyRoot t₀ root r) {mode depth : Nat}
    (hp : V p = some .folder) :
    Does (Shows t₀ root r owned layer opaques V) (mkdirAll mode depth (root ++ p))
      fun _ => Shows t₀ root r owned layer opaques V := by
  cases depth with
  | zero => exact Triple.pure fun _ hu => hu
  | succ depth =>
      refine Triple.bind does_get fun a => ?_
      rintro u ⟨rfl, hu⟩
      have hthere : (a.tree.folder (root ++ p)).isSome = true := by
        rw [(hu.stands hroot).folder_at hp]
        rfl
      dsimp only
      rw [if_pos hthere]
      exact hu

theorem does_mkdirAll (hroot : EmptyRoot t₀ root r) {mode depth : Nat} (hV : Lawful V)
    (hproper : ∀ c ∈ p, properName c = true) (hplain : PlainTo V p)
    (hdepth : depth = (root ++ p).length) :
    Does (Shows t₀ root r owned layer opaques V) (mkdirAll mode depth (root ++ p))
      fun _ => Shows t₀ root r owned layer opaques (withFolders V p) := by
  induction p using List.reverseRecOn generalizing depth with
  | nil =>
      rw [withFolders_self hV hV.root]
      exact does_mkdirAll_there hroot hV.root
  | append_singleton p c ih =>
      rcases hplain (p ++ [c]) List.prefix_rfl with habsent | hfolder
      · have hproper' : ∀ d ∈ p, properName d = true := fun d hd => hproper d (by simp [hd])
        have hplain' := hplain.above (under_concat p c).1
        have hc : properName c = true := hproper c (by simp)
        obtain ⟨depth, rfl⟩ : ∃ n, depth = n + 1 := by
          refine ⟨(root ++ p).length, ?_⟩
          rw [hdepth, ← List.append_assoc, List.length_append, List.length_singleton]
        have hdepth' : depth = (root ++ p).length := by
          rw [← List.append_assoc, List.length_append, List.length_singleton] at hdepth
          omega
        refine Triple.bind does_get fun a => ?_
        rintro u ⟨rfl, hu⟩
        have hstands := hu.stands hroot
        have hnofolder : a.tree.folder (root ++ (p ++ [c])) = none := by
          cases hf : a.tree.folder (root ++ (p ++ [c])) with
          | none => rfl
          | some f =>
              have hback := (hstands.folder_back hproper hplain.noLinks hf).2
              rw [habsent] at hback
              cases hback
        have hnothing : (a.tree.resolve (root ++ (p ++ [c]))).bind a.tree.get = none :=
          hstands.resolve_absent hproper' hplain'.noLinks hc habsent
        dsimp only
        rw [hnofolder, hnothing]
        simp only [Option.isSome_none, Bool.false_eq_true, if_false]
        have hdrop : (root ++ (p ++ [c])).dropLast = root ++ p := by
          rw [← List.append_assoc, List.dropLast_concat]
        rw [hdrop]
        refine Triple.bind (ih hproper' hplain' hdepth') (fun _ => ?_) a hu
        rw [withFolders_concat]
        refine does_mkdir hroot withFolders_parent hc ?_
        rw [withFolders, if_neg fun h => ?_]
        · exact habsent
        · have hlength := h.length_le
          rw [List.length_append, List.length_singleton] at hlength
          omega
      · rw [withFolders_self hV hfolder]
        exact does_mkdirAll_there hroot hfolder

/-! ## A place for an entry -/

theorem withFolders_name : withFolders V p (p ++ [c]) = V (p ++ [c]) := by
  refine if_neg fun h => ?_
  have hlength := h.length_le
  rw [List.length_append, List.length_singleton] at hlength
  omega

/-- The view in which an entry is made: the folders above it are there, and what was at its
name is not, unless a folder meets a folder. -/
def readied (V : LayerView) (p : Path) (c : String) (what : Shape) : LayerView :=
  if V (p ++ [c]) = some .folder ∧ what = .folder then withFolders V p
  else without (withFolders V p) (p ++ [c])

theorem putAt_readied (what : Shape) :
    putAt (readied V p c what) (p ++ [c]) what = Overlay.place .folder V (p ++ [c]) what := by
  funext q
  unfold putAt Overlay.place readied
  by_cases hname : q = p ++ [c]
  · rw [if_pos hname, if_pos hname]
  rw [if_neg hname, if_neg hname]
  have habove : q <+: p ++ [c] ↔ q <+: p := by
    rw [List.prefix_concat_iff]
    exact or_iff_right hname
  have hsplit : ¬ (q <+: p ∧ p ++ [c] <+: q) := by
    rintro ⟨hq, hp⟩
    have hlength := (hp.trans hq).length_le
    rw [List.length_append, List.length_singleton] at hlength
    omega
  by_cases hq : q <+: p
  · rw [if_pos (habove.mpr hq)]
    split
    · exact if_pos hq
    · unfold without
      rw [if_neg fun h => hsplit ⟨hq, h⟩]
      exact if_pos hq
  · rw [if_neg fun h => hq (habove.mp h)]
    by_cases hbelow : p ++ [c] <+: q
    · rw [if_pos hbelow]
      split
      · exact if_neg hq
      · exact if_pos hbelow
    · rw [if_neg hbelow]
      split
      · exact if_neg hq
      · unfold without
        rw [if_neg hbelow]
        exact if_neg hq

theorem without_absent (h : Lawful V) (hp : V p = none) : without V p = V := by
  funext q
  unfold without
  split
  · next hq =>
      by_cases heq : p = q
      · rw [← heq, hp]
      · exact (h.none_below (by rw [hp]; exact (Option.some_ne_none _).symm) ⟨hq, heq⟩).symm
  · rfl

theorem readied_parent (what : Shape) : readied V p c what p = some .folder := by
  unfold readied
  split
  · exact withFolders_parent
  · unfold without
    rw [if_neg fun h => ?_]
    · exact withFolders_parent
    · have hlength := h.length_le
      rw [List.length_append, List.length_singleton] at hlength
      omega

theorem readied_name (what : Shape) : readied V p c what (p ++ [c]) = some .folder ∧
    V (p ++ [c]) = some .folder ∧ what = .folder ∨ readied V p c what (p ++ [c]) = none ∧
      ¬ (V (p ++ [c]) = some .folder ∧ what = .folder) := by
  unfold readied
  split
  · next h => exact .inl ⟨withFolders_name.trans h.1, h.1, h.2⟩
  · next h => exact .inr ⟨if_pos List.prefix_rfl, h⟩

theorem noLinks_withFolders : NoLinks (withFolders V p) p := by
  intro q hq target hlink
  rw [withFolders, if_pos hq] at hlink
  cases hlink

theorem isFolder_iff_shape (n : Node) : n.isFolder = true ↔ n.shape = .folder := by
  cases n <;> simp [Node.isFolder, Node.shape]

theorem does_clear (hroot : EmptyRoot t₀ root r) {hdr : Header} {existing : Option Node}
    (hproper : ∀ d ∈ p ++ [c], properName d = true) {what : Shape}
    (hdir : what = .folder ↔ hdr.typeflag = .dir)
    (hexisting : existing.map Node.shape = V (p ++ [c])) :
    Does (Shows t₀ root r owned layer opaques (withFolders V p))
      (clear hdr (root ++ (p ++ [c])) existing)
      fun _ => Shows t₀ root r owned layer opaques (readied V p c what) := by
  cases existing with
  | none =>
      refine Triple.pure fun u hu => ?_
      have habsent : V (p ++ [c]) = none := hexisting.symm
      have hname : withFolders V p (p ++ [c]) = none := withFolders_name.trans habsent
      have hother : ¬ (V (p ++ [c]) = some .folder ∧ what = .folder) := by
        rw [habsent]
        exact fun h => by cases h.1
      rw [readied, if_neg hother, without_absent hu.lawful hname]
      exact hu
  | some n =>
      have hfolder : n.isFolder = true ∧ hdr.typeflag = .dir ↔
          V (p ++ [c]) = some .folder ∧ what = .folder := by
        rw [← hexisting, Option.map_some, isFolder_iff_shape, hdir]
        simp
      rw [clear]
      split
      · next h =>
          rw [readied, if_pos (hfolder.mp h)]
          exact Triple.pure fun u hu => hu
      · next h =>
          rw [readied, if_neg fun h' => h (hfolder.mpr h')]
          refine does_call fun u hu => ?_
          obtain ⟨t', touched, hremove, hleaves⟩ := (hu.stands hroot).remove
            (fun d hd => hproper d (by simp [hd])) noLinks_withFolders (hproper c (by simp))
          exact ⟨t', touched, hremove, hu.did hleaves (hu.lawful.without (concat_ne_nil p c))⟩

theorem does_prepare (hroot : EmptyRoot t₀ root r) {hdr : Header} (hV : Lawful V)
    (hplain : PlainTo V p) (hproper : ∀ d ∈ p ++ [c], properName d = true) {what : Shape}
    (hdir : what = .folder ↔ hdr.typeflag = .dir) :
    Does (Shows t₀ root r owned layer opaques V) (prepare hdr (p ++ [c])) fun made u =>
      made.1 = root ++ (p ++ [c]) ∧ made.2.map Node.shape = V (p ++ [c]) ∧
        Shows t₀ root r owned ((p ++ [c]) :: layer) opaques (readied V p c what) u := by
  have hproper' : ∀ d ∈ p, properName d = true := fun d hd => hproper d (by simp [hd])
  have hlinks : ∀ q, Under q (p ++ [c]) → ∀ target, V q ≠ some (.link target) := by
    intro q hq
    rcases List.prefix_concat_iff.mp hq.1 with heq | hunderp
    · exact absurd heq hq.2
    · exact hplain.noLinks q hunderp
  refine Triple.bind (does_join hroot hproper hlinks) fun target => Triple.assume ?_
  rintro u ⟨rfl, hu⟩
  have hdrop : (root ++ (p ++ [c])).dropLast = root ++ p := by
    rw [← List.append_assoc, List.dropLast_concat]
  rw [hdrop]
  refine Triple.bind ((does_mkdirAll hroot hV hproper' hplain rfl).start hu) fun _ => ?_
  refine Triple.bind
    (Q := fun _ => Shows t₀ root r owned ((p ++ [c]) :: layer) opaques (withFolders V p))
    (Triple.modify fun v hv => { hv with layer := congrArg _ hv.layer }) fun _ => ?_
  refine Triple.bind does_get fun a => Triple.assume ?_
  rintro v ⟨rfl, hv⟩
  have hlstat := (hv.stands hroot).lstat hproper' noLinks_withFolders (hproper c (by simp))
  rw [withFolders_name] at hlstat
  refine Triple.bind ((does_clear hroot hproper hdir hlstat).start hv) fun _ => ?_
  exact Triple.pure fun w hw => ⟨rfl, hlstat, hw⟩

/-! ## What is made -/

theorem putAt_putAt (V : LayerView) (p : Path) (s s' : Shape) :
    putAt (putAt V p s) p s' = putAt V p s' := by
  funext q
  unfold putAt
  split <;> rfl

theorem putAt_self {s : Shape} (h : V p = some s) : putAt V p s = V := by
  funext q
  unfold putAt
  split
  · next hq => rw [hq, h]
  · rfl

theorem putAt_name (V : LayerView) (p : Path) (s : Shape) : putAt V p s p = some s :=
  if_pos rfl

theorem putAt_parent (s : Shape) : putAt V (p ++ [c]) s p = V p :=
  if_neg fun h => (under_concat p c).2 h

theorem Lawful.noLinks (h : Lawful V) (hp : V p = some .folder) : NoLinks V p := by
  intro q hq target hlink
  by_cases heq : q = p
  · rw [heq, hp] at hlink
    cases hlink
  · rw [h.closed q p ⟨hq, heq⟩ (by rw [hp]; exact Option.some_ne_none _)] at hlink
    cases hlink

theorem Lawful.properAt (h : Lawful V) (hp : V p = some .folder) : ∀ d ∈ p, properName d = true :=
  h.proper p (by rw [hp]; exact Option.some_ne_none _)

theorem does_change (hroot : EmptyRoot t₀ root r) (hparent : V p = some .folder)
    (hc : properName c = true) {s : Shape} (hs : V (p ++ [c]) = some s)
    {find : Tree → Option Path} {change : Attributes → Attributes}
    (hfind : ∀ t, Stands root r V t → find t = some (r ++ (p ++ [c]))) :
    Does (Shows t₀ root r owned layer opaques V)
      (attempt fun t => t.setAttributes (find t) change)
      fun _ => Shows t₀ root r owned layer opaques (putAt V (p ++ [c]) (Shape.change change s)) := by
  refine does_attempt fun u hu => ?_
  have hstands := hu.stands hroot
  obtain ⟨t', touched, hset, hleaves⟩ :=
    hstands.setAttributes (concat_ne_nil p c) hs (hfind u.tree hstands) change
  refine ⟨t', touched, hset, hu.did hleaves (hu.lawful.putAt hparent hc fun hfolder => ?_)⟩
  rw [hs] at hfolder
  cases hfolder
  rfl

theorem does_lchown (hroot : EmptyRoot t₀ root r) (hparent : V p = some .folder)
    (hc : properName c = true) {s : Shape} (hs : V (p ++ [c]) = some s) (owner : Int × Int) :
    Does (Shows t₀ root r owned layer opaques V)
      (attempt fun t => t.lchown (root ++ (p ++ [c])) owner)
      fun _ => Shows t₀ root r owned layer opaques
        (putAt V (p ++ [c]) (Shape.change (fun a => { a with owner }) s)) := by
  refine does_change hroot hparent hc hs fun t ht => ?_
  have hentry := ht.entry (ht.lawful.properAt hparent) (ht.lawful.noLinks hparent) hc
  rwa [if_pos hparent] at hentry

theorem does_settle (hroot : EmptyRoot t₀ root r) {hdr : Header} (hparent : V p = some .folder)
    (hc : properName c = true) {s : Shape} (hs : V (p ++ [c]) = some s)
    (hsame : ∀ change, Shape.change change s = s)
    (htype : hdr.typeflag = .dir ∨ hdr.typeflag = .symlink) :
    Does (Shows t₀ root r owned layer opaques V) (settle hdr (root ++ (p ++ [c])))
      fun _ => Shows t₀ root r owned layer opaques V := by
  have howner : Does (Shows t₀ root r owned layer opaques V) (setOwner hdr (root ++ (p ++ [c])))
      fun _ => Shows t₀ root r owned layer opaques V := by
    refine Triple.bind does_get fun a => Triple.assume ?_
    rintro u ⟨rfl, hu⟩
    split
    · have hview : putAt V (p ++ [c])
          (Shape.change (fun a => { a with owner := (hdr.uid, hdr.gid) }) s) = V := by
        rw [hsame, putAt_self hs]
      exact ((does_lchown hroot hparent hc hs (hdr.uid, hdr.gid)).reword hview).start hu
    · refine Triple.pure ?_
      rintro v rfl
      exact hu
  have hreg : hdr.typeflag ≠ .reg := by
    rcases htype with h | h <;> rw [h] <;> exact Typeflag.noConfusion
  refine Triple.bind (Q := fun _ => Shows t₀ root r owned layer opaques V) ?_ fun _ => ?_
  · refine Triple.bind does_get fun a => Triple.assume ?_
    rintro u ⟨rfl, hu⟩
    split
    · refine Triple.bind (howner.start hu) fun _ => ?_
      rw [restoreMode, if_neg hreg]
      exact Triple.pure fun _ hv => hv
    · refine Triple.pure ?_
      rintro v rfl
      exact hu
  · rw [setTimes, if_pos (htype.elim (fun h => .inr (.inl h)) .inl)]
    exact Triple.pure fun _ hv => hv

theorem does_chmod (hroot : EmptyRoot t₀ root r) (hparent : V p = some .folder)
    (hc : properName c = true) {attributes : Attributes} {content : List UInt8}
    (hs : V (p ++ [c]) = some (.file attributes content)) {change : Attributes → Attributes} :
    Does (Shows t₀ root r owned layer opaques V)
      (attempt fun t => t.setAttributes (t.resolve (root ++ (p ++ [c]))) change)
      fun _ => Shows t₀ root r owned layer opaques
        (putAt V (p ++ [c]) (.file (change attributes) content)) := by
  refine does_change hroot hparent hc hs fun t ht => ht.resolve hparent hc fun target hlink => ?_
  rw [hs] at hlink
  cases hlink

theorem does_own (hroot : EmptyRoot t₀ root r) {hdr : Header} (hparent : V p = some .folder)
    (hc : properName c = true) (hreg : hdr.typeflag = .reg)
    (hs : V (p ++ [c]) = some (.file { mode := hdr.fileMode } hdr.content)) :
    Does (Shows t₀ root r owned layer opaques V) (own hdr (root ++ (p ++ [c])))
      fun _ => Shows t₀ root r owned layer opaques (putAt V (p ++ [c]) (.file
        { mode := hdr.fileMode, owner := if owned then (hdr.uid, hdr.gid) else (0, 0) }
        hdr.content)) := by
  refine Triple.bind does_get fun a => Triple.assume ?_
  rintro u ⟨rfl, hu⟩
  by_cases hchown : a.chown = true
  · rw [if_pos hchown]
    have hpriv : a.privileged = owned := by
      rw [← hu.owned, hchown, Bool.true_and]
    have howner : Does (fun v => v = a) (setOwner hdr (root ++ (p ++ [c])))
        fun _ => Shows t₀ root r owned layer opaques (putAt V (p ++ [c]) (.file
          { mode := hdr.fileMode, owner := if owned then (hdr.uid, hdr.gid) else (0, 0) }
          hdr.content)) := by
      refine Triple.bind does_get fun b => Triple.assume ?_
      rintro v ⟨rfl, rfl⟩
      rw [hpriv]
      cases owned with
      | true => exact (does_lchown hroot hparent hc hs (hdr.uid, hdr.gid)).start hu
      | false =>
          rw [if_neg Bool.false_ne_true, if_neg Bool.false_ne_true, putAt_self hs]
          refine Triple.pure ?_
          rintro v rfl
          exact hu
    refine Triple.bind howner fun _ => ?_
    rw [restoreMode, if_pos hreg]
    exact (does_chmod hroot ((putAt_parent _).trans hparent) hc (putAt_name ..)).reword
      (putAt_putAt ..)
  · rw [if_neg hchown]
    have howned : owned = false := by
      rw [← hu.owned, Bool.eq_false_iff.mpr hchown, Bool.false_and]
    rw [howned, if_neg Bool.false_ne_true, putAt_self hs]
    refine Triple.pure ?_
    rintro v rfl
    rw [← howned]
    exact hu

theorem does_settle_file (hroot : EmptyRoot t₀ root r) {hdr : Header}
    (hparent : V p = some .folder) (hc : properName c = true) (hreg : hdr.typeflag = .reg)
    (hs : V (p ++ [c]) = some (.file { mode := hdr.fileMode } hdr.content)) :
    Does (Shows t₀ root r owned layer opaques V) (settle hdr (root ++ (p ++ [c])))
      fun _ => Shows t₀ root r owned layer opaques (putAt V (p ++ [c]) (hdr.shape owned)) := by
  refine Triple.bind (does_own hroot hparent hc hreg hs) fun _ => ?_
  have htype : ¬ (hdr.typeflag = .symlink ∨ hdr.typeflag = .dir ∨ hdr.typeflag = .link) := by
    rw [hreg]
    decide
  rw [setTimes, if_neg htype]
  have hshape : hdr.shape owned = .file
      { mode := hdr.fileMode, mtime := hdr.modTime
        owner := if owned then (hdr.uid, hdr.gid) else (0, 0) } hdr.content := by
    rw [Header.shape, hreg]
  rw [hshape]
  exact (does_chmod hroot ((putAt_parent _).trans hparent) hc (putAt_name ..)).reword
    (putAt_putAt ..)

theorem Header.shape_folder (hdr : Header) : hdr.shape owned = .folder ↔ hdr.typeflag = .dir := by
  unfold Header.shape
  cases hdr.typeflag <;> simp

theorem does_makeFolder (hroot : EmptyRoot t₀ root r) {hdr : Header} {existing : Option Node}
    (hc : properName c = true) (hexisting : existing.map Node.shape = V (p ++ [c])) :
    Does (Shows t₀ root r owned layer opaques (readied V p c .folder))
      (makeFolder hdr (root ++ (p ++ [c])) existing)
      fun _ => Shows t₀ root r owned layer opaques
        (putAt (readied V p c .folder) (p ++ [c]) .folder) := by
  refine Triple.bind (Q := fun _ => Shows t₀ root r owned layer opaques
    (putAt (readied V p c .folder) (p ++ [c]) .folder)) ?_ fun _ => ?_
  · unfold mkdirNew
    have hany : existing.any Node.isFolder = true ↔ V (p ++ [c]) = some .folder := by
      rw [← hexisting]
      cases existing with
      | none => simp
      | some n => simp [isFolder_iff_shape]
    rcases readied_name (V := V) (p := p) (c := c) .folder with ⟨hname, hV, -⟩ | ⟨hname, hV⟩
    · rw [if_pos (hany.mpr hV), putAt_self hname]
      exact Triple.pure fun _ hu => hu
    · rw [if_neg fun h => hV ⟨hany.mp h, rfl⟩]
      refine Triple.bind does_get fun a => ?_
      rintro u ⟨rfl, hu⟩
      obtain ⟨t', touched, hcreate, hleaves⟩ :=
        (hu.stands hroot).create (readied_parent _) hc hname (.folder { mode := 0o755 })
      rw [Tree.mkdir, hcreate]
      exact hu.did hleaves (hu.lawful.putAt (readied_parent _) hc fun _ => rfl)
  · exact Triple.modify fun u hu => { hu with }

theorem does_makeFile (hroot : EmptyRoot t₀ root r) {hdr : Header} {what : Shape}
    (hc : properName c = true) (hbroken : hdr.broken = false) (hwhat : what ≠ .folder) :
    Does (Shows t₀ root r owned layer opaques (readied V p c what))
      (makeFile hdr (root ++ (p ++ [c])))
      fun _ => Shows t₀ root r owned layer opaques
        (putAt (readied V p c what) (p ++ [c]) (.file { mode := hdr.fileMode } hdr.content)) := by
  have hparent : readied V p c what p = some .folder := readied_parent what
  have habsent : readied V p c what (p ++ [c]) = none := by
    rcases readied_name (V := V) (p := p) (c := c) what with ⟨-, -, h⟩ | ⟨h, -⟩
    · exact absurd h hwhat
    · exact h
  refine Triple.bind (Q := fun _ => Shows t₀ root r owned layer opaques
    (putAt (readied V p c what) (p ++ [c]) (.file { mode := 0o600 } hdr.content))) ?_ fun _ => ?_
  · refine does_call fun u hu => ?_
    obtain ⟨t', touched, hwrite, hleaves⟩ :=
      (hu.stands hroot).writeFile hparent hc habsent 0o600 hdr.content
    refine ⟨t', touched, hwrite, hu.did hleaves (hu.lawful.putAt hparent hc fun h => ?_)⟩
    rw [habsent] at h
    cases h
  refine Triple.bind (Q := fun _ => Shows t₀ root r owned layer opaques
    (putAt (readied V p c what) (p ++ [c]) (.file { mode := 0o600 } hdr.content)))
    (Triple.modify fun u hu => { hu with }) fun _ => ?_
  rw [hbroken, if_neg Bool.false_ne_true]
  refine does_call fun u hu => ?_
  have hstands := hu.stands hroot
  have hparent' : putAt (readied V p c what) (p ++ [c]) (.file { mode := 0o600 } hdr.content) p
      = some .folder := (putAt_parent _).trans hparent
  have hname := putAt_name (readied V p c what) (p ++ [c]) (.file { mode := 0o600 } hdr.content)
  have hfound := hstands.resolve hparent' hc fun target hlink => by rw [hname] at hlink; cases hlink
  obtain ⟨t', touched, hset, hleaves⟩ := hstands.setAttributes (concat_ne_nil p c) hname hfound
    fun a => { a with mode := hdr.fileMode }
  rw [putAt_putAt] at hleaves
  refine ⟨t', touched, hset, hu.did hleaves ?_⟩
  rw [← putAt_putAt _ _ (.file { mode := 0o600 } hdr.content)]
  refine hu.lawful.putAt hparent' hc fun h => ?_
  rw [hname] at h
  cases h

theorem does_make (hroot : EmptyRoot t₀ root r) {hdr : Header} {existing : Option Node}
    (hc : properName c = true) (hbroken : hdr.broken = false)
    (htype : hdr.typeflag = .dir ∨ hdr.typeflag = .reg ∨
      hdr.typeflag = .symlink ∧ hdr.linkname ≠ "")
    (hexisting : existing.map Node.shape = V (p ++ [c])) :
    Does (Shows t₀ root r owned layer opaques (readied V p c (hdr.shape owned)))
      (make hdr (p ++ [c]) (root ++ (p ++ [c])) existing)
      fun _ => Shows t₀ root r owned layer opaques
        (Overlay.place .folder V (p ++ [c]) (hdr.shape owned)) := by
  have hparent : ∀ what s, putAt (readied V p c what) (p ++ [c]) s p = some .folder :=
    fun what s => (putAt_parent s).trans (readied_parent what)
  rw [← putAt_readied]
  unfold make
  rcases htype with hdir | hreg | ⟨hsymlink, htarget⟩
  · have hshape : hdr.shape owned = .folder := (hdr.shape_folder).mpr hdir
    rw [hdir, hshape]
    exact Triple.bind (does_makeFolder hroot hc hexisting) fun _ =>
      does_settle hroot (hparent ..) hc (putAt_name ..) (fun _ => rfl) (.inl hdir)
  · have hwhat : hdr.shape owned ≠ .folder := by
      rw [ne_eq, hdr.shape_folder, hreg]
      decide
    rw [hreg]
    exact Triple.bind (does_makeFile hroot hc hbroken hwhat) fun _ =>
      (does_settle_file hroot (hparent ..) hc hreg (putAt_name ..)).reword (putAt_putAt ..)
  · have hshape : hdr.shape owned = .link hdr.linkname := by
      rw [Header.shape, hsymlink]
    have habsent : readied V p c (.link hdr.linkname) (p ++ [c]) = none := by
      rcases readied_name (V := V) (p := p) (c := c) (.link hdr.linkname) with ⟨-, -, h⟩ | ⟨h, -⟩
      · cases h
      · exact h
    rw [hsymlink, hshape]
    refine Triple.bind (Q := fun _ => Shows t₀ root r owned layer opaques
      (putAt (readied V p c (.link hdr.linkname)) (p ++ [c]) (.link hdr.linkname))) ?_ fun _ =>
      does_settle hroot (hparent ..) hc (putAt_name ..) (fun _ => rfl) (.inr hsymlink)
    refine does_call fun u hu => ?_
    obtain ⟨t', touched, hcreate, hleaves⟩ := (hu.stands hroot).create (readied_parent _) hc habsent
      (.link { mode := 0o777 } hdr.linkname)
    refine ⟨t', touched, ?_, hu.did hleaves (hu.lawful.putAt (readied_parent _) hc fun h => ?_)⟩
    · rw [Tree.symlink, if_neg htarget]
      exact hcreate
    · rw [habsent] at h
      cases h

/-! ## Markers -/

theorem does_remove (hroot : EmptyRoot t₀ root r) (hproper : ∀ d ∈ p, properName d = true)
    (hlinks : NoLinks V p) (hc : properName c = true) :
    Does (Shows t₀ root r owned layer opaques V) (attempt (removeAllForce (root ++ p ++ [c])))
      fun _ => Shows t₀ root r owned layer opaques (without V (p ++ [c])) := by
  refine does_attempt fun u hu => ?_
  obtain ⟨t', touched, hremove, hleaves⟩ := (hu.stands hroot).remove hproper hlinks hc
  rw [← List.append_assoc] at hremove
  exact ⟨t', touched, hremove, hu.did hleaves (hu.lawful.without (concat_ne_nil p c))⟩

local instance : LawfulBEq Path := inferInstance

/-- The view without the names of a folder that the layer did not put there. -/
def emptiedOf (V : LayerView) (layer : List Path) (dir : Path) (names : List String) :
    LayerView :=
  fun q => if ∃ c ∈ names, dir ++ [c] ∉ layer ∧ dir ++ [c] <+: q then none else V q

theorem emptiedOf_cons {names : List String} :
    emptiedOf V layer p (c :: names)
      = emptiedOf (if p ++ [c] ∈ layer then V else without V (p ++ [c])) layer p names := by
  funext q
  unfold emptiedOf
  by_cases hrest : ∃ d ∈ names, p ++ [d] ∉ layer ∧ p ++ [d] <+: q
  · obtain ⟨d, hd, hq⟩ := hrest
    rw [if_pos ⟨d, List.mem_cons_of_mem c hd, hq⟩, if_pos ⟨d, hd, hq⟩]
  · rw [if_neg hrest]
    by_cases hlayer : p ++ [c] ∈ layer
    · rw [if_pos hlayer, if_neg]
      rintro ⟨d, hd, hq⟩
      rcases List.mem_cons.mp hd with rfl | hd
      · exact hq.1 hlayer
      · exact hrest ⟨d, hd, hq⟩
    · rw [if_neg hlayer]
      unfold without
      by_cases hunderp : p ++ [c] <+: q
      · rw [if_pos hunderp, if_pos ⟨c, List.mem_cons_self .., hlayer, hunderp⟩]
      · rw [if_neg hunderp, if_neg]
        rintro ⟨d, hd, hq⟩
        rcases List.mem_cons.mp hd with rfl | hd
        · exact hunderp hq.2
        · exact hrest ⟨d, hd, hq⟩

theorem NoLinks.without (h : NoLinks V p) {q : Path} : NoLinks (without V q) p := by
  intro s hs target hlink
  unfold Oci.without at hlink
  split at hlink
  · cases hlink
  · exact h s hs target hlink

theorem does_emptyFolder (hroot : EmptyRoot t₀ root r) (hproper : ∀ d ∈ p, properName d = true)
    {names : List String} (hnames : ∀ d ∈ names, properName d = true) (hlinks : NoLinks V p) :
    Does (Shows t₀ root r owned layer opaques V) (emptyFolder p (root ++ p) names)
      fun _ => Shows t₀ root r owned layer opaques (emptiedOf V layer p names) := by
  induction names generalizing V with
  | nil =>
      have hview : V = emptiedOf V layer p [] := by
        funext q
        simp [emptiedOf]
      exact Does.reword (Triple.pure fun _ hu => hu) hview
  | cons c names ih =>
      have hc := hnames c (List.mem_cons_self ..)
      refine Triple.bind (Q := fun _ => Shows t₀ root r owned layer opaques
        (if p ++ [c] ∈ layer then V else Oci.without V (p ++ [c]))) ?_ fun _ => ?_
      · refine Triple.bind does_get fun a => Triple.assume ?_
        rintro u ⟨rfl, hu⟩
        rw [hu.layer]
        split
        · refine Triple.pure ?_
          rintro v rfl
          exact hu
        · exact (does_remove hroot hproper hlinks hc).start hu
      · refine Does.reword (ih (fun d hd => hnames d (List.mem_cons_of_mem c hd)) ?_)
          emptiedOf_cons.symm
        split
        · exact hlinks
        · exact hlinks.without

theorem Stands.mem_readDir {t : Tree} (h : Stands root r V t) (hfolder : V p = some .folder)
    (hthere : V (p ++ [c]) ≠ none) : c ∈ t.readDir (root ++ p) := by
  obtain ⟨s, hs⟩ := Option.ne_none_iff_exists'.mp hthere
  have hc := h.lawful.proper (p ++ [c]) hthere c (by simp)
  have hget := h.get (concat_ne_nil p c)
  rw [hs] at hget
  obtain ⟨n, hn, -⟩ := Option.map_eq_some_iff.mp hget
  unfold Tree.get at hn
  obtain ⟨e, he, -⟩ := Option.map_eq_some_iff.mp hn
  have hpath : e.1 = r ++ (p ++ [c]) := by simpa using List.find?_some he
  unfold Tree.readDir
  rw [h.folder_at hfolder]
  refine List.mem_filter.mpr ⟨List.mem_filterMap.mpr ⟨e, List.mem_of_find?_eq_some he, ?_⟩, hc⟩
  rw [hpath, ← List.append_assoc, List.dropLast_concat, if_pos rfl, List.getLast?_concat]

theorem concat_below_iff {d : String} {rest : List String} :
    p ++ [d] <+: p ++ c :: rest ↔ d = c := by
  rw [List.prefix_append_right_inj, List.cons_prefix_cons]
  exact and_iff_left (List.nil_prefix)

/-- All names of a folder but the layer's own are removed, with what is below them. -/
theorem Stands.emptied {t : Tree} (h : Stands root r V t) {before : List LayerItem} :
    emptiedOf V (names before) p (t.readDir (root ++ p))
      = fun q => if (Item.empty p).Hides before q then none else V q := by
  funext q
  unfold emptiedOf
  by_cases hunder : Under p q
  · obtain ⟨⟨tail, rfl⟩, hne⟩ := hunder
    cases tail with
    | nil => exact absurd (List.append_nil p).symm hne
    | cons c rest =>
        have htake : (p ++ c :: rest).take (p.length + 1) = p ++ [c] := by
          rw [List.take_append]
          simp
        have hhides : (Item.empty p).Hides before (p ++ c :: rest) ↔ p ++ [c] ∉ names before := by
          rw [Item.Hides, htake]
          exact and_iff_right ⟨⟨c :: rest, rfl⟩, hne⟩
        by_cases hkept : p ++ [c] ∈ names before
        · rw [if_neg fun h => hhides.mp h hkept, if_neg]
          rintro ⟨d, -, hd, hunderp⟩
          rw [concat_below_iff.mp hunderp] at hd
          exact hd hkept
        · rw [if_pos (hhides.mpr hkept)]
          by_cases hthere : V (p ++ [c]) = none
          · have hnone : V (p ++ c :: rest) = none := by
              have hcons : p ++ c :: rest = p ++ [c] ++ rest := by simp
              rw [hcons]
              by_cases hrest : rest = []
              · rw [hrest, List.append_nil, hthere]
              · refine h.lawful.none_below ?_ ⟨⟨rest, rfl⟩, by simp [hrest]⟩
                rw [hthere]
                exact (Option.some_ne_none _).symm
            rw [hnone, ite_self]
          · have hfolder : V p = some .folder :=
              h.lawful.closed p (p ++ [c]) (under_concat p c) hthere
            rw [if_pos ⟨c, h.mem_readDir hfolder hthere, hkept, concat_below_iff.mpr rfl⟩]
  · rw [if_neg, if_neg fun h => hunder h.1]
    rintro ⟨d, -, -, hunderp⟩
    exact hunder ((under_concat p d).upTo hunderp)

theorem does_whiteout (hroot : EmptyRoot t₀ root r) {base : String} (hbase : base ≠ ".wh..wh..opq")
    (hproper : ∀ d ∈ p, properName d = true) (hlinks : NoLinks V p)
    (hstem : properName (whiteoutStem base) = true) :
    Does (Shows t₀ root r owned layer opaques V) (whiteout p base)
      fun _ => Shows t₀ root r owned layer opaques (without V (p ++ [whiteoutStem base])) := by
  refine Triple.bind (Q := fun _ => Shows t₀ root r owned layer opaques V)
    (Triple.modify fun u hu => { hu with }) fun _ => ?_
  refine Triple.bind (does_join hroot hproper fun q hq => hlinks q hq.1) fun parent =>
    Triple.assume ?_
  rintro u ⟨rfl, hu⟩
  obtain ⟨hdot, hdots⟩ := Tree.properName_iff.mp hstem
  rw [if_neg hbase, joinPath, if_neg hdot, if_neg hdots]
  exact (does_remove hroot hproper hlinks hstem).start hu

theorem does_opaque (hroot : EmptyRoot t₀ root r) {before : List LayerItem}
    (hproper : ∀ d ∈ p, properName d = true) (hlinks : NoLinks V p) (hnew : p ∉ opaques) :
    Does (Shows t₀ root r owned (names before) opaques V) (whiteout p ".wh..wh..opq")
      fun _ => Shows t₀ root r owned (names before) (p :: opaques)
        fun q => if (Item.empty p).Hides before q then none else V q := by
  refine Triple.bind (Q := fun _ => Shows t₀ root r owned (names before) opaques V)
    (Triple.modify fun u hu => { hu with }) fun _ => ?_
  refine Triple.bind (does_join hroot hproper fun q hq => hlinks q hq.1) fun parent =>
    Triple.assume ?_
  rintro u ⟨rfl, hu⟩
  rw [if_pos rfl]
  refine Triple.bind does_get fun a => Triple.assume ?_
  rintro v ⟨rfl, rfl⟩
  rw [hu.opaques, if_neg hnew]
  refine Triple.bind (Q := fun _ => Shows t₀ root r owned (names before) (p :: opaques) V)
    (Triple.modify ?_) fun _ => ?_
  · rintro v rfl
    exact { hu with opaques := congrArg _ hu.opaques }
  · exact (does_emptyFolder hroot hproper (fun d hd => properName_readDir hd) hlinks).reword
      (hu.stands hroot).emptied

end

end OmniRush.Oci
