import OmniRush.Proofs.LayerCalls

/-!
# What unpacking may touch

A walk through the unpacker's code with what holds in between: the tree outside the root
is the one it began with and every path acted on is below the root (`Safe`), the folder
of the entry is inside (`SafeIn`), the place is free (`Ready`), what was made is no link
where a later call would follow it (`Made`). The code keeps them from any state that
contains the step, also where it fails half way.

So in every run of contained steps, whatever was created, written, linked, changed or
removed lies strictly below the root, and everything else is as it was
(`unpack_stays_below`).
-/

namespace OmniRush.Oci

open OmniRush

/-! ## The unpacker's code -/

/-- A name in a path below the root. -/
def Named (root q : Path) : Prop :=
  ∃ p c, q = p ++ [c] ∧ Lexical root p ∧ properName c = true

/-- The root is the one it began with, what was acted on is below it, and the rest is
as it was. -/
structure Safe (t₀ : Tree) (root r : Path) (u : Unpacker) : Prop where
  dirs : ∀ d ∈ u.dirs, Named root d.path
  root : u.root = root
  touched : ∀ p ∈ u.touched, Below r p
  outside : ∀ p, ¬ Below r p → u.tree.get p = t₀.get p

/-- The path `root` names the empty folder `r`. -/
structure EmptyRoot (t₀ : Tree) (root r : Path) : Prop where
  folder : t₀.folder root = some r
  entry : t₀.entry root = some r
  empty : ∀ p, Below r p → t₀.get p = none

section

variable {t₀ : Tree} {root r p : Path} {c : String} {u : Unpacker}

theorem Safe.did {t' : Tree} {touched : List Path} (h : Safe t₀ root r u)
    (hacts : Acts r u.tree t' touched) :
    Safe t₀ root r { u with tree := t', touched := u.touched ++ touched } := by
  refine ⟨h.dirs, h.root, fun p hp => ?_, fun p hp =>
    (hacts.outside p hp).trans (h.outside p hp)⟩
  rcases List.mem_append.mp hp with hp | hp
  · exact h.touched p hp
  · exact hacts.touched p hp

/-- What was there is still there, so the path of the root leads where it led. -/
theorem Safe.extends (h : Safe t₀ root r u) (hroot : EmptyRoot t₀ root r) :
    u.tree.Extends t₀ := by
  intro p k hk
  have hout : ¬ Below r p := by
    intro hp
    rw [Tree.kind, hroot.empty p hp] at hk
    cases hk
  rwa [Tree.kind, h.outside p hout]

theorem Safe.folder_root (h : Safe t₀ root r u) (hroot : EmptyRoot t₀ root r) :
    u.tree.folder root = some r :=
  Tree.folder_mono (h.extends hroot) hroot.folder

theorem Safe.link_root (h : Safe t₀ root r u) (hroot : EmptyRoot t₀ root r) {p : Path}
    {t' : Tree} {touched : List Path} : u.tree.link root p ≠ .ok (t', touched) := by
  intro hlink
  obtain ⟨-, hfolder⟩ := Option.filter_eq_some_iff.mp hroot.folder
  have hentry : u.tree.entry root = some r :=
    Tree.resolveFrom_mono (h.extends hroot) hroot.entry (Tree.isFolder_there hfolder)
  unfold Tree.link at hlink
  rw [hentry] at hlink
  dsimp only at hlink
  split at hlink
  · cases hlink
  · next n hn =>
      split at hlink
      · cases hlink
      · next hother =>
          rcases Bool.or_eq_true_iff.mp ((h.extends hroot).isFolder hfolder) with hr | hr
          · exact hother (.inl (of_decide_eq_true hr))
          · have hkind := of_decide_eq_true hr
            rw [Tree.kind, hn] at hkind
            cases n with
            | folder _ => exact hother (.inr rfl)
            | file _ _ => cases hkind
            | link _ _ => cases hkind
            | special _ _ => cases hkind

theorem triple_call {P E : Unpacker → Prop} {Q : Unit → Unpacker → Prop}
    {f : Tree → Tree.Outcome} {wrap : Tree.Errno → ApplyError}
    (hok : ∀ u t' touched, P u → f u.tree = .ok (t', touched) →
      Q () { u with tree := t', touched := u.touched ++ touched })
    (herror : ∀ u, P u → E u) : Triple P (call f wrap) Q E := by
  refine Triple.bind (Q := fun a u => a = u ∧ P u) (Triple.get fun u hu => ⟨rfl, hu⟩) fun a => ?_
  rintro u ⟨rfl, hu⟩
  cases hf : f a.tree with
  | ok outcome => exact hok a outcome.1 outcome.2 hu hf
  | error e => exact herror a hu

theorem triple_attempt {P E : Unpacker → Prop} {Q : Unit → Unpacker → Prop}
    {f : Tree → Tree.Outcome}
    (hok : ∀ u t' touched, P u → f u.tree = .ok (t', touched) →
      Q () { u with tree := t', touched := u.touched ++ touched })
    (herror : ∀ u, P u → Q () u) : Triple P (attempt f) Q E := by
  refine Triple.bind (Q := fun a u => a = u ∧ P u) (Triple.get fun u hu => ⟨rfl, hu⟩) fun a => ?_
  rintro u ⟨rfl, hu⟩
  cases hf : f a.tree with
  | ok outcome => exact hok a outcome.1 outcome.2 hu hf
  | error e => exact herror a hu

/-- Safe, with a path that names no folder outside the root. -/
structure SafeIn (t₀ : Tree) (root r p : Path) (u : Unpacker) : Prop where
  safe : Safe t₀ root r u
  inside : Inside r u.tree p

theorem triple_join {P : Unpacker → Prop} {name : Path} :
    Triple P (join name) (fun q u => P u ∧ safeJoin u.tree u.root name = some q) P := by
  refine Triple.bind (Q := fun a u => a = u ∧ P u) (Triple.get fun u hu => ⟨rfl, hu⟩) fun a => ?_
  rintro u ⟨rfl, hu⟩
  cases hjoin : safeJoin a.tree a.root name with
  | none => exact hu
  | some q => exact ⟨hu, hjoin⟩

theorem get_of_lstat {t : Tree} {f : Path} (hc : properName c = true) (hf : t.folder p = some f)
    (h : (t.lstat (p ++ [c])).any Node.isFolder = true) :
    ∃ attributes, t.get (f ++ [c]) = some (.folder attributes) := by
  rw [Tree.lstat, (Tree.entry_append hc).mpr ⟨f, hf, rfl⟩, Option.bind_some] at h
  cases hget : t.get (f ++ [c]) with
  | none =>
      rw [hget] at h
      cases h
  | some n =>
      rw [hget] at h
      cases n with
      | folder attributes => exact ⟨attributes, rfl⟩
      | file _ _ => cases h
      | link _ _ => cases h
      | special _ _ => cases h

theorem triple_mkdir {mode : Nat} (hc : properName c = true) :
    Triple (fun u => Safe t₀ root r u ∧ ∃ f, u.tree.folder p = some f ∧ r <+: f)
      (do
        match (← get).tree.mkdir (p ++ [c]) mode with
        | .ok (tree, touched) => did tree touched
        | .error e =>
            if ((← get).tree.lstat (p ++ [c])).any Node.isFolder then pure ()
            else throw (ApplyError.system e))
      (fun _ u => Safe t₀ root r u ∧ ∃ f, u.tree.folder (p ++ [c]) = some f ∧ r <+: f)
      (Safe t₀ root r) := by
  refine Triple.bind
    (Q := fun a u => a = u ∧ Safe t₀ root r u ∧ ∃ f, u.tree.folder p = some f ∧ r <+: f)
    (Triple.get fun u hu => ⟨rfl, hu⟩) fun a => ?_
  rintro u ⟨rfl, hsafe, f, hf, hrf⟩
  have hin : Inside r a.tree p := fun g hg => by rwa [Option.some.inj (hg.symm.trans hf)]
  cases hmkdir : a.tree.mkdir (p ++ [c]) mode with
  | ok outcome =>
      obtain ⟨hacts, g, hg, hrg, hget⟩ := create_acts hc hin hmkdir
      refine ⟨hsafe.did hacts, g ++ [c], ?_, hrg.trans (List.prefix_append g [c])⟩
      exact Tree.folder_of_get hc hg hget
  | error e =>
      refine Triple.bind (P := fun u => u = a) (Q := fun b u => b = u ∧ u = a)
        (Triple.get fun u hu => ⟨rfl, hu⟩) (fun b => ?_) a rfl
      rintro u ⟨rfl, rfl⟩
      by_cases hfolder : ((b.tree.lstat (p ++ [c])).any Node.isFolder) = true
      · rw [if_pos hfolder]
        obtain ⟨attributes, hget⟩ := get_of_lstat hc hf hfolder
        exact ⟨hsafe, f ++ [c], Tree.folder_of_get hc hf hget, hrf.trans (List.prefix_append f [c])⟩
      · rw [if_neg hfolder]
        exact hsafe

theorem triple_mkdirAll (hroot : EmptyRoot t₀ root r) {mode depth : Nat} {p : Path}
    (hdepth : depth = p.length) (hp : Lexical root p) :
    Triple (fun u => Safe t₀ root r u ∧ Within u.tree root p) (mkdirAll mode depth p)
      (fun _ u => Safe t₀ root r u ∧ ∃ f, u.tree.folder p = some f ∧ r <+: f)
      (Safe t₀ root r) := by
  induction depth generalizing p with
  | zero =>
      refine Triple.pure fun u hu => ⟨hu.1, ?_⟩
      have hnil : p = [] := List.eq_nil_of_length_eq_zero hdepth.symm
      have hfolder : u.tree.folder p = some [] := by
        rw [hnil]
        rfl
      exact ⟨[], hfolder, hu.2.folder (hu.1.folder_root hroot) hp.length hfolder⟩
  | succ depth ih =>
      refine Triple.bind (Q := fun a u => a = u ∧ Safe t₀ root r u ∧ Within u.tree root p)
        (Triple.get fun u hu => ⟨rfl, hu⟩) fun a => ?_
      by_cases hthere : (a.tree.folder p).isSome = true
      · rw [if_pos hthere]
        refine Triple.pure ?_
        rintro u ⟨rfl, hsafe, hin⟩
        obtain ⟨f, hf⟩ := Option.isSome_iff_exists.mp hthere
        exact ⟨hsafe, f, hf, hin.folder (hsafe.folder_root hroot) hp.length hf⟩
      · rw [if_neg hthere]
        split
        · exact Triple.throw fun u hu => hu.2.1
        · rintro u ⟨rfl, hsafe, hin⟩
          rcases hp.cases with rfl | ⟨q, c, rfl, hq, hc⟩
          · exact absurd (Option.isSome_iff_exists.mpr ⟨r, hsafe.folder_root hroot⟩) hthere
          · rw [List.dropLast_concat]
            rw [List.length_append, List.length_singleton] at hdepth
            have hqin : Within a.tree root q := by
              have h := hin.dropLast
              rwa [List.dropLast_concat] at h
            refine Triple.bind (ih (by omega) hq) (fun _ => ?_) a ⟨hsafe, hqin⟩
            exact triple_mkdir hc

theorem Safe.remember {v : Unpacker} (h : Safe t₀ root r u) (hroot : v.root = u.root)
    (hdirs : ∀ d ∈ v.dirs, d ∈ u.dirs ∨ Named root d.path) (htree : v.tree = u.tree)
    (htouched : v.touched = u.touched) : Safe t₀ root r v := by
  refine ⟨fun d hd => (hdirs d hd).elim (h.dirs d) id, hroot.trans h.root, ?_, ?_⟩
  · rw [htouched]
    exact h.touched
  · rw [htree]
    exact h.outside

theorem SafeIn.remember {v : Unpacker} (h : SafeIn t₀ root r p u) (hroot : v.root = u.root)
    (hdirs : ∀ d ∈ v.dirs, d ∈ u.dirs ∨ Named root d.path) (htree : v.tree = u.tree)
    (htouched : v.touched = u.touched) : SafeIn t₀ root r p v := by
  refine ⟨h.safe.remember hroot hdirs htree htouched, ?_⟩
  rw [htree]
  exact h.inside

theorem SafeIn.did {t' : Tree} {touched : List Path} (h : SafeIn t₀ root r p u)
    (hacts : Acts r u.tree t' touched) (hin : Inside r t' p) :
    SafeIn t₀ root r p { u with tree := t', touched := u.touched ++ touched } :=
  ⟨h.safe.did hacts, hin⟩

/-- A name the root's path is asked for: the folder of what is answered is inside. -/
theorem Safe.join_inside {name q : Path} (h : Safe t₀ root r u) (hroot : EmptyRoot t₀ root r)
    (hname : name ≠ []) (hway : WayStays u.tree u.root false u.root name)
    (hjoin : safeJoin u.tree u.root name = some q) :
    ∃ p c, q = p ++ [c] ∧ Lexical root p ∧ properName c = true ∧ Within u.tree root p := by
  rw [h.root] at hway hjoin
  obtain ⟨p, c, rfl, hp, hc⟩ := safeJoinFrom_last lexical_root hname hjoin
  have hin := (safeJoinFrom_within (h.folder_root hroot) lexical_root within_root hway hjoin).1 hname
  rw [List.dropLast_concat] at hin
  exact ⟨p, c, rfl, hp, hc, hin⟩

theorem triple_clear {hdr : Header} {existing : Option Node} (hc : properName c = true) :
    Triple (fun u => SafeIn t₀ root r p u ∧ existing = u.tree.lstat (p ++ [c]))
      (clear hdr (p ++ [c]) existing)
      (fun _ u => SafeIn t₀ root r p u ∧ (hdr.typeflag ≠ .dir → u.tree.lstat (p ++ [c]) = none))
      (Safe t₀ root r) := by
  cases existing with
  | none => exact Triple.pure fun u hu => ⟨hu.1, fun _ => hu.2.symm⟩
  | some n =>
      unfold clear
      dsimp only
      split
      · next hfolder => exact Triple.pure fun u hu => ⟨hu.1, fun hdir => absurd hfolder.2 hdir⟩
      · refine triple_call (fun u t' touched hu hremove => ?_) fun u hu => hu.1.safe
        obtain ⟨hacts, hin, hgone⟩ := removeAllForce_acts hc hu.1.inside hremove
        exact ⟨hu.1.did hacts hin, fun _ => hgone⟩

/-- A target, the folder it is in being inside and nothing in its place but a folder for a
folder. -/
def Ready (t₀ : Tree) (root r : Path) (hdr : Header) (p : Path) (c : String) (u : Unpacker) :
    Prop :=
  SafeIn t₀ root r p u ∧ (hdr.typeflag ≠ .dir → u.tree.lstat (p ++ [c]) = none)

theorem triple_prepare (hroot : EmptyRoot t₀ root r) {hdr : Header} {name : Path}
    (hname : name ≠ []) :
    Triple (fun u => Safe t₀ root r u ∧ WayStays u.tree u.root false u.root name)
      (prepare hdr name)
      (fun made u => ∃ p c, made.1 = p ++ [c] ∧ Lexical root p ∧ properName c = true ∧
        Ready t₀ root r hdr p c u)
      (Safe t₀ root r) := by
  refine Triple.bind (E := Safe t₀ root r) (Triple.weaken triple_join (fun _ h => h)
    (fun _ _ h => h) fun u h => h.1) fun target => ?_
  refine Triple.assume ?_
  rintro u ⟨⟨hsafe, hway⟩, hjoin⟩
  obtain ⟨p, c, rfl, hp, hc, hin⟩ := hsafe.join_inside hroot hname hway hjoin
  rw [List.dropLast_concat]
  refine Triple.bind (Triple.weaken (triple_mkdirAll hroot rfl hp) ?_ (fun _ _ h => h)
    fun _ h => h) fun _ => ?_
  · rintro v rfl
    exact ⟨hsafe, hin⟩
  refine Triple.bind (Q := fun _ => SafeIn t₀ root r p) (Triple.modify fun v hv => ?_) fun _ => ?_
  · obtain ⟨hsafe, f, hf, hrf⟩ := hv
    have hsafeIn : SafeIn t₀ root r p v :=
      ⟨hsafe, fun g hg => by rwa [Option.some.inj (hg.symm.trans hf)]⟩
    exact hsafeIn.remember rfl (fun _ => .inl) rfl rfl
  refine Triple.bind (Q := fun a u => a = u ∧ SafeIn t₀ root r p u)
    (Triple.get fun u hu => ⟨rfl, hu⟩) fun a => ?_
  refine Triple.bind (Triple.weaken (triple_clear hc) ?_ (fun _ _ h => h) fun _ h => h) fun _ => ?_
  · rintro v ⟨rfl, hv⟩
    exact ⟨hv, rfl⟩
  · exact Triple.pure fun v hv => ⟨p, c, rfl, hp, hc, hv⟩

/-! ## What is made -/

/-- What was made, and is no link if its times are set. -/
def Made (t₀ : Tree) (root r : Path) (hdr : Header) (p : Path) (c : String) (u : Unpacker) : Prop :=
  SafeIn t₀ root r p u ∧
    (¬(hdr.typeflag = .symlink ∨ hdr.typeflag = .dir ∨ hdr.typeflag = .link) → NoLink u.tree p c)

theorem Made.setAttributes {hdr : Header} {t' : Tree} {touched : List Path} {found : Option Path}
    {change : Attributes → Attributes} (h : Made t₀ root r hdr p c u)
    (hfound : ∀ q, found = some q → ∃ f, u.tree.folder p = some f ∧ q = f ++ [c])
    (hset : u.tree.setAttributes found change = .ok (t', touched)) :
    Made t₀ root r hdr p c { u with tree := t', touched := u.touched ++ touched } := by
  obtain ⟨hacts, hin, hlink⟩ := setAttributes_acts h.1.inside hfound hset
  exact ⟨h.1.did hacts hin, fun htype => hlink (h.2 htype)⟩

theorem triple_settle {hdr : Header} (hc : properName c = true) :
    Triple (Made t₀ root r hdr p c) (settle hdr (p ++ [c])) (fun _ => Safe t₀ root r)
      (Safe t₀ root r) := by
  have howner : Triple (Made t₀ root r hdr p c) (setOwner hdr (p ++ [c]))
      (fun _ => Made t₀ root r hdr p c) (Safe t₀ root r) := by
    refine Triple.bind (Q := fun _ => Made t₀ root r hdr p c) (Triple.get fun u hu => hu) fun a => ?_
    split
    · refine triple_attempt (fun u t' touched hu hset => ?_) fun u hu => hu
      exact hu.setAttributes (fun q hq => (Tree.entry_append hc).mp hq) hset
    · exact Triple.pure fun u hu => hu
  have hmode : Triple (Made t₀ root r hdr p c) (restoreMode hdr (p ++ [c]))
      (fun _ => Made t₀ root r hdr p c) (Safe t₀ root r) := by
    unfold restoreMode
    split
    · next hreg =>
        refine triple_attempt (fun u t' touched hu hset => ?_) fun u hu => hu
        exact hu.setAttributes (resolve_found hc (hu.2 (by simp [hreg]))) hset
    · exact Triple.pure fun u hu => hu
  refine Triple.bind (Q := fun _ => Made t₀ root r hdr p c) ?_ fun _ => ?_
  · refine Triple.bind (Q := fun _ => Made t₀ root r hdr p c) (Triple.get fun u hu => hu) fun a => ?_
    split
    · exact Triple.bind howner fun _ => hmode
    · exact Triple.pure fun u hu => hu
  · unfold setTimes
    split
    · exact Triple.pure fun u hu => hu.1.safe
    · next htype =>
        refine triple_attempt (fun u t' touched hu hset => ?_) fun u hu => hu.1.safe
        exact (hu.setAttributes (resolve_found hc (hu.2 htype)) hset).1.safe

theorem Ready.create {hdr : Header} {n : Node} {t' : Tree} {touched : List Path}
    (h : Ready t₀ root r hdr p c u) (hc : properName c = true)
    (hn : (∀ attributes target, n ≠ .link attributes target) ∨ hdr.typeflag = .symlink)
    (hcreate : u.tree.create (p ++ [c]) n = .ok (t', touched)) :
    Made t₀ root r hdr p c { u with tree := t', touched := u.touched ++ touched } := by
  obtain ⟨hacts, -⟩ := create_acts hc h.1.inside hcreate
  refine ⟨h.1.did hacts (create_inside hc h.1.inside hcreate), fun htype => ?_⟩
  rcases hn with hn | hn
  · exact create_noLink hc h.1.inside hn hcreate
  · exact absurd (Or.inl hn) htype

theorem Made.remember {hdr : Header} {v : Unpacker} (h : Made t₀ root r hdr p c u)
    (hroot : v.root = u.root) (hdirs : ∀ d ∈ v.dirs, d ∈ u.dirs ∨ Named root d.path)
    (htree : v.tree = u.tree) (htouched : v.touched = u.touched) : Made t₀ root r hdr p c v := by
  refine ⟨h.1.remember hroot hdirs htree htouched, ?_⟩
  rw [htree]
  exact h.2

theorem triple_makeFolder {hdr : Header} {existing : Option Node} (hp : Lexical root p)
    (hc : properName c = true) (hdir : hdr.typeflag = .dir) :
    Triple (SafeIn t₀ root r p) (makeFolder hdr (p ++ [c]) existing)
      (fun _ => Made t₀ root r hdr p c) (Safe t₀ root r) := by
  refine Triple.bind (Q := fun _ => SafeIn t₀ root r p) ?_ fun _ => ?_
  · unfold mkdirNew
    split
    · exact Triple.pure fun u hu => hu
    · refine Triple.bind (Q := fun a u => a = u ∧ SafeIn t₀ root r p u)
        (Triple.get fun u hu => ⟨rfl, hu⟩) fun a => ?_
      rintro u ⟨rfl, hu⟩
      cases hmkdir : a.tree.mkdir (p ++ [c]) 0o755 with
      | ok outcome =>
          obtain ⟨hacts, -⟩ := create_acts hc hu.inside hmkdir
          exact hu.did hacts (create_inside hc hu.inside hmkdir)
      | error e =>
          by_cases he : e = .present
          · dsimp only
            rw [if_pos he]
            exact hu
          · dsimp only
            rw [if_neg he]
            exact hu.safe
  · refine Triple.modify fun u hu => ⟨hu.remember rfl (fun d hd => ?_) rfl rfl, fun htype => ?_⟩
    · rcases List.mem_append.mp hd with hd | hd
      · exact .inl (List.mem_filter.mp hd).1
      · rw [List.mem_singleton.mp hd]
        exact .inr ⟨p, c, rfl, hp, hc⟩
    · exact absurd (Or.inr (Or.inl hdir)) htype

theorem triple_makeFile {hdr : Header} (hc : properName c = true) (hreg : hdr.typeflag = .reg) :
    Triple (Ready t₀ root r hdr p c) (makeFile hdr (p ++ [c]))
      (fun _ => Made t₀ root r hdr p c) (Safe t₀ root r) := by
  have hmade : Triple (Ready t₀ root r hdr p c)
      (call (fun t => t.writeFile (p ++ [c]) 0o600 hdr.content) .system)
      (fun _ => Made t₀ root r hdr p c) (Safe t₀ root r) := by
    refine triple_call (fun u t' touched hu hwrite => ?_) fun u hu => hu.1.safe
    obtain ⟨hacts, hin, hlink⟩ := writeFile_acts hc hu.1.inside (hu.2 (by simp [hreg])) hwrite
    exact ⟨hu.1.did hacts hin, fun _ => hlink⟩
  refine Triple.bind hmade fun _ => ?_
  refine Triple.bind (Q := fun _ => Made t₀ root r hdr p c)
    (Triple.modify fun u hu => hu.remember rfl (fun _ => .inl) rfl rfl) fun _ => ?_
  split
  · exact Triple.throw fun u hu => hu.1.safe
  · refine triple_call (fun u t' touched hu hset => ?_) fun u hu => hu.1.safe
    exact hu.setAttributes (resolve_found hc (hu.2 (by simp [hreg]))) hset

theorem triple_makeLink (hroot : EmptyRoot t₀ root r) {hdr : Header} (hc : properName c = true)
    (hlink : hdr.typeflag = .link) :
    Triple (fun u => Ready t₀ root r hdr p c u ∧
        WayStays u.tree u.root false u.root (cleanName hdr.linkname))
      (makeLink hdr (p ++ [c])) (fun _ => Made t₀ root r hdr p c) (Safe t₀ root r) := by
  refine Triple.bind (Triple.weaken triple_join (fun _ h => h) (fun _ _ h => h)
    fun u h => h.1.1.safe) fun source => ?_
  refine triple_call (fun u t' touched hu hmake => ?_) fun u hu => hu.1.1.1.safe
  obtain ⟨⟨hready, hway⟩, hjoin⟩ := hu
  have hsafe := hready.1.safe
  by_cases hname : cleanName hdr.linkname = []
  · rw [hname] at hjoin
    obtain rfl := Option.some.inj hjoin
    rw [hsafe.root] at hmake
    exact absurd hmake (hsafe.link_root hroot)
  · obtain ⟨q, d, rfl, hq, hd, hin⟩ := hsafe.join_inside hroot hname hway hjoin
    obtain ⟨hacts, hin'⟩ := link_acts hd rfl
      (fun f hf => hin.folder (hsafe.folder_root hroot) hq.length hf) hc hready.1.inside hmake
    exact ⟨hready.1.did hacts hin', fun htype => absurd (Or.inr (Or.inr hlink)) htype⟩

/-! ## Entries -/

/-- Code that from `P` acts below the root, also where it fails. -/
def Kept (t₀ : Tree) (root r : Path) (P : Unpacker → Prop) (code : Unpack Unit) : Prop :=
  Triple P code (fun _ => Safe t₀ root r) (Safe t₀ root r)

theorem kept_make (hroot : EmptyRoot t₀ root r) {hdr : Header} {name : Path}
    {existing : Option Node} (hp : Lexical root p) (hc : properName c = true) :
    Kept t₀ root r (fun u => Ready t₀ root r hdr p c u ∧ (hdr.typeflag = .link →
        WayStays u.tree u.root false u.root (cleanName hdr.linkname)))
      (make hdr name (p ++ [c]) existing) := by
  have hdevice : Kept t₀ root r (Ready t₀ root r hdr p c) (makeDevice hdr name (p ++ [c])) := by
    refine Triple.bind (Q := fun a u => a = u ∧ Ready t₀ root r hdr p c u)
      (Triple.get fun u hu => ⟨rfl, hu⟩) fun a => ?_
    rintro u ⟨rfl, hu⟩
    have hskip : Safe t₀ root r { a with
        stats := { a.stats with skipped := a.stats.skipped + 1 }
        thisLayer := a.thisLayer.filter (· ≠ name) } := by
      refine hu.1.safe.remember rfl (fun _ => .inl) rfl rfl
    cases hpriv : a.chown && a.privileged with
    | false => exact hskip
    | true =>
        cases hmade : a.tree.create (p ++ [c])
            (.special { mode := hdr.mode &&& 0o777 } hdr.device) with
        | error e => exact hskip
        | ok outcome =>
            have hcreated := hu.create hc (.inl fun _ _ h => by cases h) hmade
            exact triple_settle hc _ hcreated
  unfold Kept make
  split
  · next hdir =>
      refine Triple.bind (Triple.weaken (triple_makeFolder hp hc hdir) (fun _ h => h.1.1)
        (fun _ _ h => h) fun _ h => h) fun _ => triple_settle hc
  · next hreg =>
      refine Triple.bind (Triple.weaken (triple_makeFile hc hreg) (fun _ h => h.1)
        (fun _ _ h => h) fun _ h => h) fun _ => triple_settle hc
  · next hsymlink =>
      refine Triple.bind (Q := fun _ => Made t₀ root r hdr p c)
        (triple_call (fun u t' touched hu hmake => ?_) fun u hu => hu.1.1.safe)
        fun _ => triple_settle hc
      unfold Tree.symlink at hmake
      split at hmake
      · cases hmake
      · exact hu.1.create hc (.inr hsymlink) hmake
  · next hlink =>
      refine Triple.bind (Triple.weaken (triple_makeLink hroot hc hlink)
        (fun _ h => ⟨h.1, h.2 hlink⟩) (fun _ _ h => h) fun _ h => h) fun _ => triple_settle hc
  · next =>
      refine Triple.bind (Q := fun _ => Made t₀ root r hdr p c)
        (triple_call (fun u t' touched hu hmake => ?_) fun u hu => hu.1.1.safe)
        fun _ => triple_settle hc
      exact hu.1.create hc (.inl fun _ _ h => by cases h) hmake
  · exact Triple.weaken hdevice (fun _ h => h.1) (fun _ _ h => h) fun _ h => h
  · exact Triple.weaken hdevice (fun _ h => h.1) (fun _ _ h => h) fun _ h => h
  · refine Triple.modify fun u hu => ?_
    refine hu.1.1.safe.remember rfl (fun _ => .inl) rfl rfl

theorem kept_remove (hc : properName c = true) :
    Triple (SafeIn t₀ root r p) (attempt (removeAllForce (p ++ [c]))) (fun _ => SafeIn t₀ root r p)
      (Safe t₀ root r) := by
  refine triple_attempt (fun u t' touched hu hremove => ?_) fun u hu => hu
  obtain ⟨hacts, hin, -⟩ := removeAllForce_acts hc hu.inside hremove
  exact hu.did hacts hin

theorem properName_readDir {t : Tree} {c : String} (h : c ∈ t.readDir p) : properName c = true := by
  unfold Tree.readDir at h
  split at h
  · cases h
  · exact (List.mem_filter.mp h).2

theorem triple_emptyFolder {dir : Path} {names : List String}
    (hnames : ∀ c ∈ names, properName c = true) :
    Triple (SafeIn t₀ root r p) (emptyFolder dir p names) (fun _ => SafeIn t₀ root r p)
      (Safe t₀ root r) := by
  induction names with
  | nil => exact Triple.pure fun u hu => hu
  | cons c names ih =>
      refine Triple.bind (Q := fun _ => SafeIn t₀ root r p) ?_ fun _ =>
        ih fun d hd => hnames d (List.mem_cons_of_mem c hd)
      refine Triple.bind (Q := fun _ => SafeIn t₀ root r p) (Triple.get fun u hu => hu) fun a => ?_
      split
      · exact Triple.pure fun u hu => hu
      · exact kept_remove (hnames c (List.mem_cons_self ..))

theorem kept_whiteout (hroot : EmptyRoot t₀ root r) {dir : Path} {base : String}
    (hstem : base = ".wh..wh..opq" ∨ properName (whiteoutStem base) = true) :
    Kept t₀ root r (fun u => Safe t₀ root r u ∧ WayStays u.tree u.root true u.root dir)
      (whiteout dir base) := by
  refine Triple.bind
    (Q := fun _ u => Safe t₀ root r u ∧ WayStays u.tree u.root true u.root dir)
    (Triple.modify fun u hu => ⟨?_, hu.2⟩) fun _ => ?_
  · refine hu.1.remember rfl (fun _ => .inl) rfl rfl
  refine Triple.bind (Triple.weaken triple_join (fun _ h => h) (fun _ _ h => h)
    fun u h => h.1) fun parent => ?_
  refine Triple.weaken (P := SafeIn t₀ root r parent) (Q := fun _ => SafeIn t₀ root r parent)
    (E := Safe t₀ root r) ?_ (fun u hu => ?_) (fun _ u hu => hu.safe) fun _ h => h
  · split
    · refine Triple.bind (Q := fun _ => SafeIn t₀ root r parent) (Triple.get fun u hu => hu)
        fun a => ?_
      split
      · exact Triple.pure fun u hu => hu
      · refine Triple.bind (Q := fun _ => SafeIn t₀ root r parent)
          (Triple.modify fun u hu => hu.remember rfl (fun _ => .inl) rfl rfl) fun _ => ?_
        exact triple_emptyFolder fun c hc => properName_readDir hc
    · next hopaque =>
        have hproper := hstem.resolve_left hopaque
        obtain ⟨hdot, hdots⟩ := Tree.properName_iff.mp hproper
        rw [joinPath, if_neg hdot, if_neg hdots]
        exact kept_remove hproper
  · obtain ⟨⟨hsafe, hway⟩, hjoin⟩ := hu
    rw [hsafe.root] at hway hjoin
    have hfolder := hsafe.folder_root hroot
    have hin := (safeJoinFrom_within hfolder lexical_root within_root hway hjoin).2 rfl
    exact ⟨hsafe, fun f hf =>
      hin.folder hfolder (safeJoinFrom_lexical lexical_root hjoin).length hf⟩

theorem kept_entry (hroot : EmptyRoot t₀ root r) {hdr : Header} :
    Kept t₀ root r (fun u => Safe t₀ root r u ∧ Contained u (.entry hdr)) (applyEntry hdr) := by
  refine Triple.assume ?_
  rintro u ⟨hsafe, hcontained⟩
  have hcounted : Safe t₀ root r u.counted := hsafe.remember rfl (fun _ => .inl) rfl rfl
  refine Triple.bind (Q := fun _ v => v = u.counted) (Triple.modify ?_) fun _ => ?_
  · rintro v rfl
    rfl
  cases hbase : (cleanName hdr.name).getLast? with
  | none =>
      refine Triple.pure ?_
      rintro v rfl
      exact hcounted
  | some base =>
      have hentry := hcontained base hbase
      dsimp only
      by_cases hstart : hasWhiteoutPrefix base = true
      · rw [if_pos hstart] at hentry ⊢
        refine Triple.weaken (kept_whiteout hroot hentry.2) ?_ (fun _ _ h => h) fun _ h => h
        rintro v rfl
        exact ⟨hcounted, hentry.1⟩
      · rw [if_neg hstart] at hentry ⊢
        have hname : cleanName hdr.name ≠ [] := by
          intro h
          rw [h] at hbase
          cases hbase
        refine Triple.bind (Triple.ran (triple_prepare hroot hname) ⟨hcounted, hentry.1⟩)
          fun made => ?_
        refine Triple.assume ?_
        rintro v ⟨⟨p, c, hmade, hp, hc, hready⟩, hran⟩
        have hprepared : u.prepared hdr = some v := by
          unfold Unpacker.prepared
          rw [hran]
        obtain ⟨target, existing⟩ := made
        obtain rfl : target = p ++ [c] := hmade
        refine Triple.weaken (kept_make hroot hp hc) ?_ (fun _ _ h => h) fun _ h => h
        rintro w rfl
        exact ⟨hready, fun hlink => hentry.2 hlink w hprepared⟩

/-! ## Finish -/

/-- The recorded folders that are still folders are inside. -/
def Finishing (t₀ : Tree) (root r : Path) (dirs : List DirMeta) (u : Unpacker) : Prop :=
  Safe t₀ root r u ∧ ∀ d ∈ dirs, Named root d.path ∧
    ((u.tree.lstat d.path).any Node.isFolder = true → Inside r u.tree d.path.dropLast)

theorem triple_setFolder {dirs : List DirMeta} {d : DirMeta} {change : Attributes → Attributes}
    (hd : d ∈ dirs) :
    Triple (fun u => Finishing t₀ root r dirs u ∧
        (u.tree.lstat d.path).any Node.isFolder = true)
      (attempt fun t => t.setAttributes (t.resolve d.path) change)
      (fun _ u => Finishing t₀ root r dirs u ∧
        (u.tree.lstat d.path).any Node.isFolder = true) (Safe t₀ root r) := by
  refine triple_attempt (fun u t' touched hu hset => ?_) fun u hu => hu
  obtain ⟨⟨hsafe, hdirs⟩, hfolder⟩ := hu
  obtain ⟨⟨p, c, hpath, -, hc⟩, hin⟩ := hdirs d hd
  have hin := hin hfolder
  have hkind := Tree.setAttributes_kind hset
  rw [hpath] at hfolder hset
  rw [hpath, List.dropLast_concat] at hin
  have hlink : NoLink u.tree p c := by
    intro f hf target hk
    obtain ⟨q, hq, hkq⟩ := Tree.lstat_isFolder.mp hfolder
    obtain ⟨g, hg, rfl⟩ := (Tree.entry_append hc).mp hq
    obtain rfl := Option.some.inj (hf.symm.trans hg)
    rw [hk] at hkq
    cases hkq
  obtain ⟨hacts, -, -⟩ := setAttributes_acts hin (resolve_found hc hlink) hset
  refine ⟨⟨hsafe.did hacts, fun e he => ⟨(hdirs e he).1, fun hf g hg => ?_⟩⟩, ?_⟩
  · rw [Tree.folder_congr hkind] at hg
    exact (hdirs e he).2 (Tree.lstat_isFolder_congr hkind hf) g hg
  · rw [← hpath] at hfolder
    exact Tree.lstat_isFolder_congr (fun s => (hkind s).symm) hfolder

theorem triple_finishDirs {dirs rest : List DirMeta} (hrest : ∀ d ∈ rest, d ∈ dirs) :
    Triple (Finishing t₀ root r dirs) (finishDirs rest) (fun _ => Finishing t₀ root r dirs)
      (Safe t₀ root r) := by
  induction rest with
  | nil => exact Triple.pure fun u hu => hu
  | cons d rest ih =>
      have hd := hrest d (List.mem_cons_self ..)
      refine Triple.bind (Q := fun _ => Finishing t₀ root r dirs) ?_ fun _ =>
        ih fun e he => hrest e (List.mem_cons_of_mem d he)
      refine Triple.bind (Q := fun a u => a = u ∧ Finishing t₀ root r dirs u)
        (Triple.get fun u hu => ⟨rfl, hu⟩) fun a => ?_
      split
      · next hfolder =>
          refine Triple.bind (Triple.weaken (triple_setFolder hd) ?_ (fun _ _ h => h)
            fun _ h => h) fun _ => ?_
          · rintro u ⟨rfl, hu⟩
            exact ⟨hu, hfolder⟩
          · exact Triple.weaken (triple_setFolder hd) (fun _ h => h) (fun _ _ h => h.1)
              fun _ h => h
      · exact Triple.pure fun u hu => hu.2

theorem kept_finish (hroot : EmptyRoot t₀ root r) {dirs : List DirMeta} :
    Kept t₀ root r (fun u => Safe t₀ root r u ∧ dirs.Perm u.dirs ∧ Contained u (.finish dirs))
      (finishDirs dirs) := by
  refine Triple.weaken (triple_finishDirs fun d hd => hd) (fun u hu => ?_) (fun _ u hu => hu.1)
    fun _ h => h
  obtain ⟨hsafe, hperm, hcontained⟩ := hu
  refine ⟨hsafe, fun d hd => ?_⟩
  have hnamed := hsafe.dirs d (hperm.mem_iff.mp hd)
  refine ⟨hnamed, fun hfolder f hf => ?_⟩
  have hwithin := hcontained d hd hfolder
  obtain ⟨p, c, hpath, hp, -⟩ := hnamed
  rw [hpath, List.dropLast_concat] at hf hwithin
  rw [hsafe.root] at hwithin
  exact hwithin.folder (hsafe.folder_root hroot) hp.length hf

/-! ## Runs -/

theorem Kept.run {P : Unpacker → Prop} {code : Unpack Unit} (h : Kept t₀ root r P code)
    (hu : P u) : Safe t₀ root r (u.run code) := by
  have hrun := h u hu
  unfold Unpacker.run
  cases hc : (ExceptT.run code).run u with
  | mk answer v =>
      rw [hc] at hrun
      cases answer with
      | ok _ => exact hrun
      | error _ => exact hrun.remember rfl (fun _ => .inl) rfl rfl

theorem Safe.step {v : Unpacker} {a : Action} (h : Safe t₀ root r u)
    (hroot : EmptyRoot t₀ root r) (hcontained : Contained u a) (hstep : u.step a = some v) :
    Safe t₀ root r v := by
  cases a with
  | layer =>
      cases hstep
      exact h.remember rfl (fun _ => .inl) rfl rfl
  | entry hdr =>
      rw [Unpacker.step] at hstep
      split at hstep
      · cases hstep
      · cases hstep
        exact (kept_entry hroot).run ⟨h, hcontained⟩
  | finish dirs =>
      rw [Unpacker.step] at hstep
      split at hstep
      · next hdirs =>
          cases hstep
          exact (kept_finish hroot).run ⟨h, hdirs.1, hcontained⟩
      · cases hstep

end

/-- In every run of contained steps on an empty root, whatever was created, written,
linked, changed or removed is strictly below the root, and everything else is as it was. -/
theorem unpack_stays_below {r : Path} {u₀ u : Unpacker} (hroot : EmptyRoot u₀.tree u₀.root r)
    (hdirs : u₀.dirs = []) (htouched : u₀.touched = [])
    (hrun : Reach Unpacker.step Contained u₀ u) :
    (∀ p ∈ u.touched, Below r p) ∧ ∀ p, ¬ Below r p → u.tree.get p = u₀.tree.get p := by
  have hsafe : Safe u₀.tree u₀.root r u := by
    refine hrun.invariant (fun v a w hv hcontained hstep => hv.step hroot hcontained hstep) ?_
    refine ⟨fun d hd => ?_, rfl, fun p hp => ?_, fun _ _ => rfl⟩
    · rw [hdirs] at hd
      cases hd
    · rw [htouched] at hp
      cases hp
  exact ⟨hsafe.touched, hsafe.outside⟩

/-! ## An image -/

instance (t : Tree) (root p : Path) : Decidable (Within t root p) := by
  unfold Within
  infer_instance

instance decLinksStay (t : Tree) (root : Path) :
    (hops : Nat) → (next : Path) → Decidable (LinksStay t root hops next)
  | 0, next => inferInstanceAs (Decidable (Within t root next))
  | hops + 1, next => by
      have := decLinksStay t root hops
      unfold LinksStay
      infer_instance

instance decWayStays (t : Tree) (root : Path) (last : Bool) :
    (cur : Path) → (parts : List String) → Decidable (WayStays t root last cur parts)
  | _, [] => isTrue trivial
  | cur, part :: rest => by
      have := fun cur => decWayStays t root last cur rest
      unfold WayStays
      infer_instance

instance (u : Unpacker) (a : Action) : Decidable (Contained u a) := by
  cases a with
  | layer => exact isTrue trivial
  | entry hdr =>
      unfold Contained
      infer_instance
  | finish dirs =>
      unfold Contained
      infer_instance

/-- An unpacker on the empty folder `/r`, beside a folder `/etc/sub`. -/
def exampleUnpacker : Unpacker where
  root := ["r"]
  tree := [(["etc"], .folder { mode := 0o755 }), (["etc", "sub"], .folder { mode := 0o755 }),
    (["r"], .folder { mode := 0o755 })]

theorem exampleUnpacker_root : EmptyRoot exampleUnpacker.tree exampleUnpacker.root ["r"] := by
  refine ⟨by decide +kernel, by decide +kernel, fun p hp => ?_⟩
  have hnone : ∀ e ∈ exampleUnpacker.tree, ¬ Below ["r"] e.1 := by
    unfold Below
    decide +kernel
  unfold Tree.get
  rw [List.find?_eq_none.mpr]
  · rfl
  · intro e he heq
    exact hnone e he (of_decide_eq_true heq ▸ hp)

/-- A folder, an absolute link to it, a file through the link, and its whiteout. -/
def containedActions : List Action :=
  [.layer, .entry { name := "a/", typeflag := .dir, mode := 0o555 },
    .entry { name := "l", linkname := "/a", typeflag := .symlink },
    .entry { name := "l/f", typeflag := .reg, content := [1] },
    .layer, .entry { name := "a/.wh.f", typeflag := .reg },
    .finish [⟨["r", "a"], 0o555, 0⟩]]

theorem unpack_stays_below_image :
    ∃ u, runActions Unpacker.step containedActions exampleUnpacker = some u ∧
      ["r", "a", "f"] ∈ u.touched ∧ (∀ p ∈ u.touched, Below ["r"] p) ∧
      ∀ p, ¬ Below ["r"] p → u.tree.get p = exampleUnpacker.tree.get p := by
  have hrun : (runActions (fun u a => if Contained u a then u.step a else none) containedActions
      exampleUnpacker).any (fun u => u.touched.contains ["r", "a", "f"]) = true := by
    decide +kernel
  obtain ⟨u, hu, htouched⟩ := exists_of_any hrun
  obtain ⟨hreach, hplain⟩ := reach_of_checked hu
  exact ⟨u, hplain, List.contains_iff_mem.mp htouched,
    unpack_stays_below exampleUnpacker_root rfl rfl hreach⟩

/-- A link whose target goes through another link, a folder that a link replaces before
`Finish`, and the whiteout of `..`: the first writes into `/etc/sub`, the second changes
its mode, the third removes what is beside the root and the root. -/
theorem unpack_leaves_root :
    (∃ u, runActions Unpacker.step [.layer,
        .entry { name := "y", linkname := "/etc", typeflag := .symlink },
        .entry { name := "x", linkname := "y/sub", typeflag := .symlink },
        .entry { name := "x/f", typeflag := .reg, content := [1] }] exampleUnpacker = some u ∧
      ["etc", "sub", "f"] ∈ u.touched ∧
      (u.tree.get ["etc", "sub", "f"]).isSome = true) ∧
    (∃ u, runActions Unpacker.step [.layer,
        .entry { name := "a/sub/", typeflag := .dir, mode := 0o777 },
        .entry { name := "a", linkname := "/etc", typeflag := .symlink },
        .finish [⟨["r", "a", "sub"], 0o777, 0⟩]] exampleUnpacker = some u ∧
      u.tree.get ["etc", "sub"] = some (.folder { mode := 0o777 })) ∧
    ∃ u, runActions Unpacker.step [.layer,
        .entry { name := ".wh...", typeflag := .reg }] exampleUnpacker = some u ∧
      u.tree.get ["r"] = none ∧ u.tree.get ["etc"] = none := by
  refine ⟨?_, ?_, ?_⟩
  · have hrun : (runActions Unpacker.step [.layer,
        .entry { name := "y", linkname := "/etc", typeflag := .symlink },
        .entry { name := "x", linkname := "y/sub", typeflag := .symlink },
        .entry { name := "x/f", typeflag := .reg, content := [1] }] exampleUnpacker).any
        (fun u => ["etc", "sub", "f"] ∈ u.touched ∧
          (u.tree.get ["etc", "sub", "f"]).isSome = true) = true := by
      decide +kernel
    obtain ⟨u, hu, hcheck⟩ := exists_of_any hrun
    exact ⟨u, hu, of_decide_eq_true hcheck⟩
  · have hrun : (runActions Unpacker.step [.layer,
        .entry { name := "a/sub/", typeflag := .dir, mode := 0o777 },
        .entry { name := "a", linkname := "/etc", typeflag := .symlink },
        .finish [⟨["r", "a", "sub"], 0o777, 0⟩]] exampleUnpacker).any
        (fun u => u.tree.get ["etc", "sub"] = some (.folder { mode := 0o777 })) = true := by
      decide +kernel
    obtain ⟨u, hu, hcheck⟩ := exists_of_any hrun
    exact ⟨u, hu, of_decide_eq_true hcheck⟩
  · have hrun : (runActions Unpacker.step [.layer,
        .entry { name := ".wh...", typeflag := .reg }] exampleUnpacker).any
        (fun u => u.tree.get ["r"] = none ∧ u.tree.get ["etc"] = none) = true := by
      decide +kernel
    obtain ⟨u, hu, hcheck⟩ := exists_of_any hrun
    exact ⟨u, hu, of_decide_eq_true hcheck⟩

end OmniRush.Oci
