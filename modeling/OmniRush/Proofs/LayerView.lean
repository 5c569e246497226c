import OmniRush.Oci.Overlay
import OmniRush.Proofs.LayerRoot

/-!
# What calls do to the tree one sees

The calls of the unpacker on paths whose parents are no links, said of what stands at
each path below the root (`Stands`): such a path leads to where its text says, or nowhere
when something above it is no folder.
-/

namespace OmniRush.Oci

open OmniRush Overlay

theorem kind_shape (n : Node) : n.kind = n.shape.kind := by
  cases n <;> rfl

/-- A view whose top is a folder, with folders above all there is, at names. -/
structure Lawful (V : LayerView) : Prop where
  root : V [] = some .folder
  closed : Closed .folder V
  proper : ∀ p, V p ≠ none → ∀ c ∈ p, properName c = true

/-- The path `root` names the folder `r`, and below it stands what `V` says. -/
structure Stands (root r : Path) (V : LayerView) (t : Tree) : Prop where
  folder : t.folder root = some r
  view : view t r = V
  lawful : Lawful V

/-- No link at a path or above it. -/
def NoLinks (V : LayerView) (p : Path) : Prop :=
  ∀ q, q <+: p → ∀ target, V q ≠ some (.link target)

section

variable {root r p : Path} {V : LayerView} {t : Tree} {c : String}

theorem NoLinks.above {q : Path} (h : NoLinks V p) (hq : q <+: p) : NoLinks V q :=
  fun s hs => h s (hs.trans hq)

theorem Stands.get (h : Stands root r V t) (hp : p ≠ []) : (t.get (r ++ p)).map Node.shape = V p := by
  rw [← h.view, Oci.view, if_neg hp]

theorem Stands.kind (h : Stands root r V t) (hp : p ≠ []) :
    t.kind (r ++ p) = (V p).map Shape.kind := by
  rw [← h.get hp, Tree.kind, Option.map_map]
  exact congrArg (Option.map · _) (funext kind_shape)

theorem concat_ne_nil (p : Path) (c : String) : p ++ [c] ≠ [] := by simp

theorem under_concat (p : Path) (c : String) : Under p (p ++ [c]) :=
  ⟨List.prefix_append p [c], by simp⟩

theorem Stands.folder_at (h : Stands root r V t) (hp : V p = some .folder) :
    t.folder (root ++ p) = some (r ++ p) := by
  induction p using List.reverseRecOn with
  | nil =>
      rw [List.append_nil, List.append_nil]
      exact h.folder
  | append_singleton p c ih =>
      have hparent : V p = some .folder :=
        h.lawful.closed p (p ++ [c]) (under_concat p c) (by rw [hp]; exact Option.some_ne_none _)
      have hc := h.lawful.proper (p ++ [c]) (by rw [hp]; exact Option.some_ne_none _) c (by simp)
      have hget := h.get (concat_ne_nil p c)
      rw [hp] at hget
      obtain ⟨n, hn, hshape⟩ := Option.map_eq_some_iff.mp hget
      cases n with
      | folder attributes =>
          rw [← List.append_assoc] at hn ⊢
          rw [← List.append_assoc]
          exact Tree.folder_of_get hc (ih hparent) hn
      | file _ _ => cases hshape
      | link _ _ => cases hshape
      | special _ _ => cases hshape

theorem Stands.readlink (h : Stands root r V t) (hc : properName c = true)
    (hback : ∀ f, t.folder (root ++ p) = some f → f = r ++ p)
    (hlink : ∀ target, V (p ++ [c]) ≠ some (.link target)) :
    t.readlink (root ++ p ++ [c]) = none := by
  unfold Tree.readlink
  cases hentry : t.entry (root ++ p ++ [c]) with
  | none => rfl
  | some q =>
      obtain ⟨f, hf, rfl⟩ := (Tree.entry_append hc).mp hentry
      obtain rfl := hback f hf
      rw [Option.bind_some, List.append_assoc, h.kind (concat_ne_nil p c)]
      cases hV : V (p ++ [c]) with
      | none => rfl
      | some s =>
          cases s with
          | link target => exact absurd hV (hlink target)
          | folder => rfl
          | file _ _ => rfl
          | special _ => rfl

theorem Stands.folder_back (h : Stands root r V t) (hproper : ∀ c ∈ p, properName c = true)
    (hlinks : NoLinks V p) {f : Path} (hf : t.folder (root ++ p) = some f) :
    f = r ++ p ∧ V p = some .folder := by
  induction p using List.reverseRecOn generalizing f with
  | nil =>
      rw [List.append_nil] at hf ⊢
      exact ⟨Option.some.inj (hf.symm.trans h.folder), h.lawful.root⟩
  | append_singleton p c ih =>
      have ih := fun {f} => @ih (fun d hd => hproper d (by simp [hd]))
        (hlinks.above (under_concat p c).1) f
      have hc : properName c = true := hproper c (by simp)
      have hnone : t.readlink (root ++ p ++ [c]) = none :=
        h.readlink hc (fun f hf => (ih hf).1) (hlinks (p ++ [c]) List.prefix_rfl)
      rw [← List.append_assoc] at hf
      obtain ⟨g, hg, rfl⟩ := Tree.folder_append hc hnone hf
      obtain ⟨rfl, -⟩ := ih hg
      refine ⟨List.append_assoc .., ?_⟩
      obtain ⟨-, hfolder⟩ := Option.filter_eq_some_iff.mp hf
      rw [List.append_assoc] at hfolder
      rcases Bool.or_eq_true_iff.mp hfolder with hnil | hkind
      · simp at hnil
      · have hkind := of_decide_eq_true hkind
        rw [h.kind (concat_ne_nil p c)] at hkind
        obtain ⟨s, hs, hk⟩ := Option.map_eq_some_iff.mp hkind
        cases s with
        | folder => exact hs
        | file _ _ => cases hk
        | link _ => cases hk
        | special _ => cases hk

theorem Stands.entry (h : Stands root r V t) (hproper : ∀ c ∈ p, properName c = true)
    (hlinks : NoLinks V p) (hc : properName c = true) :
    t.entry (root ++ (p ++ [c])) = if V p = some .folder then some (r ++ (p ++ [c])) else none := by
  rw [← List.append_assoc, ← List.append_assoc]
  split
  · next hfolder => exact (Tree.entry_append hc).mpr ⟨r ++ p, h.folder_at hfolder, rfl⟩
  · next hfolder =>
      cases hentry : t.entry ((root ++ p) ++ [c]) with
      | none => rfl
      | some q =>
          obtain ⟨f, hf, -⟩ := (Tree.entry_append hc).mp hentry
          exact absurd (h.folder_back hproper hlinks hf).2 hfolder

theorem Lawful.none_below {q : Path} (h : Lawful V) (hp : V p ≠ some .folder)
    (hpq : Under p q) : V q = none := by
  by_contra hq
  exact hp (h.closed p q hpq hq)

theorem Stands.lstat (h : Stands root r V t) (hproper : ∀ c ∈ p, properName c = true)
    (hlinks : NoLinks V p) (hc : properName c = true) :
    (t.lstat (root ++ (p ++ [c]))).map Node.shape = V (p ++ [c]) := by
  rw [Tree.lstat, h.entry hproper hlinks hc]
  split
  · rw [Option.bind_some]
    exact h.get (concat_ne_nil p c)
  · next hfolder => exact (h.lawful.none_below hfolder (under_concat p c)).symm

theorem Stands.resolve (h : Stands root r V t) (hparent : V p = some .folder)
    (hc : properName c = true) (hlink : ∀ target, V (p ++ [c]) ≠ some (.link target)) :
    t.resolve (root ++ (p ++ [c])) = some (r ++ (p ++ [c])) := by
  obtain ⟨hresolve, hfolder⟩ := Option.filter_eq_some_iff.mp (h.folder_at hparent)
  obtain ⟨hops, hsame⟩ := Tree.resolveFrom_append_of_folder rfl hresolve hfolder
  rw [← List.append_assoc, ← List.append_assoc, Tree.resolve, hsame]
  refine Tree.resolveFrom_last_follow hc fun target hkind => ?_
  rw [List.append_assoc, h.kind (concat_ne_nil p c)] at hkind
  obtain ⟨s, hs, hk⟩ := Option.map_eq_some_iff.mp hkind
  cases s with
  | link target' => exact hlink target' hs
  | folder => cases hk
  | file _ _ => cases hk
  | special _ => cases hk

theorem Stands.resolve_absent (h : Stands root r V t) (hproper : ∀ c ∈ p, properName c = true)
    (hlinks : NoLinks V p) (hc : properName c = true) (habsent : V (p ++ [c]) = none) :
    (t.resolve (root ++ (p ++ [c]))).bind t.get = none := by
  cases hresolve : t.resolve (root ++ (p ++ [c])) with
  | none => rfl
  | some q =>
      rw [← List.append_assoc] at hresolve
      obtain ⟨f, -, hf, hfolder, -⟩ := Tree.resolveFrom_append rfl hresolve
      have hf : t.folder (root ++ p) = some f := Option.filter_eq_some_iff.mpr ⟨hf, hfolder⟩
      obtain ⟨rfl, hparent⟩ := h.folder_back hproper hlinks hf
      have hq := h.resolve hparent hc fun target => by rw [habsent]; exact fun h => by cases h
      rw [← List.append_assoc, hresolve] at hq
      have hget := h.get (concat_ne_nil p c)
      rw [habsent] at hget
      rw [Option.bind_some, Option.some.inj hq]
      exact Option.map_eq_none_iff.mp hget

theorem Stands.safeJoin (h : Stands root r V t) {name : Path}
    (hproper : ∀ c ∈ name, properName c = true)
    (hlinks : ∀ q, Under q name → ∀ target, V q ≠ some (.link target)) :
    safeJoin t root name = some (root ++ name) := by
  have hfrom : ∀ rest done : Path, done ++ rest = name →
      safeJoinFrom t root (root ++ done) rest = some (root ++ name) := by
    intro rest
    induction rest with
    | nil =>
        intro done hdone
        rw [safeJoinFrom, ← hdone, List.append_nil]
    | cons c rest ih =>
        intro done hdone
        have hc : properName c = true := hproper c (by rw [← hdone]; simp)
        rw [safeJoinFrom, if_neg (by rw [hc]; exact Bool.noConfusion)]
        split
        · next hrest =>
            rw [← hdone, hrest, List.append_assoc]
        · next hrest =>
            have hunder : Under (done ++ [c]) name := by
              rw [← hdone]
              exact ⟨⟨rest, by simp⟩, by simp [Ne.symm hrest]⟩
            have hdone' : ∀ d ∈ done, properName d = true := fun d hd =>
              hproper d (by rw [← hdone]; simp [hd])
            have hlinks' : NoLinks V done := fun q hq =>
              hlinks q (Under.trans (hq.trans (under_concat done c).1) hunder)
            have hnone : t.readlink (root ++ done ++ [c]) = none :=
              h.readlink hc (fun f hf => (h.folder_back hdone' hlinks' hf).1)
                (hlinks (done ++ [c]) hunder)
            have hstep : followHops t root maximumHops (root ++ done ++ [c]) = root ++ done ++ [c] := by
              rw [maximumHops, followHops, hnone]
            rw [hstep, List.append_assoc]
            exact ih (done ++ [c]) (by rw [← hdone]; simp)
  have := hfrom name [] rfl
  rwa [List.append_nil] at this

/-! ## What calls leave -/

/-- The view with something else at one path. -/
def putAt (V : LayerView) (p : Path) (s : Shape) : LayerView :=
  fun q => if q = p then some s else V q

/-- The view without what is at a path or below it. -/
def without (V : LayerView) (p : Path) : LayerView :=
  fun q => if p <+: q then none else V q

/-- A call that leaves what is outside the root, and below it a view. -/
structure Leaves (r : Path) (V : LayerView) (t t' : Tree) : Prop where
  outside : ∀ q, ¬ Below r q → t'.get q = t.get q
  view : view t' r = V

theorem below_root (r : Path) {p : Path} (hp : p ≠ []) : Below r (r ++ p) :=
  ⟨List.prefix_append r p, by simp [hp]⟩

theorem leaves_set {n : Node} (hp : p ≠ []) :
    Leaves r (putAt (view t r) p n.shape) t (t.set (r ++ p) n) := by
  refine ⟨fun q hq => ?_, funext fun q => ?_⟩
  · rw [Tree.get_set, if_neg]
    rintro rfl
    exact hq (below_root r hp)
  · unfold putAt view
    rw [Tree.get_set]
    by_cases hnil : q = []
    · rw [if_pos hnil, if_neg (by rw [hnil]; exact hp.symm), if_pos hnil]
    · rw [if_neg hnil, if_neg hnil]
      by_cases heq : q = p
      · rw [if_pos heq, if_pos (by rw [heq])]
        rfl
      · rw [if_neg heq, if_neg fun h => heq (List.append_cancel_left h)]

theorem prefix_append_iff (r : Path) {p q : Path} : r ++ p <+: r ++ q ↔ p <+: q :=
  List.prefix_append_right_inj r

/-- A path and what is below it is removed, its closed folders opened before. -/
theorem leaves_removed {path : Path} (hp : p ≠ []) (hentry : t.entry path = some (r ++ p)) :
    Leaves r (without (view t r) p) t ((openFolders t path).1.prune (r ++ p)) := by
  have hget : ∀ q, ((openFolders t path).1.prune (r ++ p)).get q
      = if r ++ p <+: q then none else t.get q := by
    intro q
    rw [Tree.get_prune]
    split
    · rfl
    · next hq =>
        rw [openFolders_get hentry]
        cases t.get q with
        | none => rfl
        | some n => rw [Option.map_some, if_neg fun h => hq h.1]
  refine ⟨fun q hq => ?_, funext fun q => ?_⟩
  · rw [hget, if_neg]
    exact fun h => hq (Below.of_prefix (below_root r hp) h)
  · unfold without view
    by_cases hnil : q = []
    · rw [if_pos hnil, if_neg (by rw [hnil]; simpa using hp), if_pos hnil]
    · rw [if_neg hnil, if_neg hnil, hget]
      by_cases hunderp : p <+: q
      · rw [if_pos hunderp, if_pos ((prefix_append_iff r).mpr hunderp)]
        rfl
      · rw [if_neg hunderp, if_neg fun h => hunderp ((prefix_append_iff r).mp h)]

theorem leaves_self : Leaves r (view t r) t t := ⟨fun _ _ => rfl, rfl⟩

theorem Stands.remove (h : Stands root r V t) (hproper : ∀ c ∈ p, properName c = true)
    (hlinks : NoLinks V p) (hc : properName c = true) :
    ∃ t' touched, removeAllForce (root ++ (p ++ [c])) t = .ok (t', touched) ∧
      Leaves r (without V (p ++ [c])) t t' := by
  have hentry := h.entry hproper hlinks hc
  have hopened : (openFolders t (root ++ (p ++ [c]))).1.entry (root ++ (p ++ [c]))
      = t.entry (root ++ (p ++ [c])) :=
    Tree.resolveFrom_congr_kind (fun s => openFolders_kind t _ s) ..
  unfold removeAllForce Tree.removeAll
  dsimp only
  rw [hopened]
  by_cases hfolder : V p = some .folder
  · rw [if_pos hfolder] at hentry
    rw [hentry]
    refine ⟨_, _, rfl, ?_⟩
    rw [← h.view]
    exact leaves_removed (concat_ne_nil p c) hentry
  · rw [if_neg hfolder] at hentry
    rw [hentry]
    have hsame : (openFolders t (root ++ (p ++ [c]))).1 = t := by
      unfold openFolders
      rw [hentry]
    refine ⟨_, _, rfl, ?_⟩
    have hview : without V (p ++ [c]) = Oci.view t r := by
      rw [h.view]
      funext q
      unfold without
      split
      · next hq => exact (h.lawful.none_below hfolder ((under_concat p c).upTo hq)).symm
      · rfl
    rw [hsame, hview]
    exact leaves_self

theorem Stands.create (h : Stands root r V t) (hparent : V p = some .folder)
    (hc : properName c = true) (habsent : V (p ++ [c]) = none) (n : Node) :
    ∃ t' touched, t.create (root ++ (p ++ [c])) n = .ok (t', touched) ∧
      Leaves r (putAt V (p ++ [c]) n.shape) t t' := by
  have hget : t.get (r ++ (p ++ [c])) = none := by
    have hget := h.get (concat_ne_nil p c)
    rw [habsent] at hget
    exact Option.map_eq_none_iff.mp hget
  have hentry : t.entry (root ++ (p ++ [c])) = some (r ++ (p ++ [c])) := by
    rw [← List.append_assoc, ← List.append_assoc]
    exact (Tree.entry_append hc).mpr ⟨r ++ p, h.folder_at hparent, rfl⟩
  unfold Tree.create
  rw [hentry]
  dsimp only
  rw [if_neg (by simp [hget])]
  refine ⟨_, _, rfl, ?_⟩
  rw [← h.view]
  exact leaves_set (concat_ne_nil p c)

theorem Stands.writeFile (h : Stands root r V t) (hparent : V p = some .folder)
    (hc : properName c = true) (habsent : V (p ++ [c]) = none) (mode : Nat)
    (content : List UInt8) :
    ∃ t' touched, t.writeFile (root ++ (p ++ [c])) mode content = .ok (t', touched) ∧
      Leaves r (putAt V (p ++ [c]) (.file { mode } content)) t t' := by
  have hget : t.get (r ++ (p ++ [c])) = none := by
    have hget := h.get (concat_ne_nil p c)
    rw [habsent] at hget
    exact Option.map_eq_none_iff.mp hget
  unfold Tree.writeFile
  rw [h.resolve hparent hc fun target => by rw [habsent]; exact fun h => by cases h]
  dsimp only
  rw [if_neg (by simp), hget]
  refine ⟨_, _, rfl, ?_⟩
  rw [← h.view]
  exact leaves_set (n := .file { mode } content) (concat_ne_nil p c)

/-- A change of the attributes of a file; folders and links are seen without theirs. -/
def Shape.change (change : Attributes → Attributes) : Shape → Shape
  | .file attributes content => .file (change attributes) content
  | s => s

theorem shape_withAttributes (n : Node) (change : Attributes → Attributes) :
    (n.withAttributes (change n.attributes)).shape = Shape.change change n.shape := by
  cases n <;> rfl

theorem Stands.setAttributes (h : Stands root r V t) (hp : p ≠ []) {s : Shape}
    (hs : V p = some s) {found : Option Path} (hfound : found = some (r ++ p))
    (change : Attributes → Attributes) :
    ∃ t' touched, t.setAttributes found change = .ok (t', touched) ∧
      Leaves r (putAt V p (Shape.change change s)) t t' := by
  have hget := h.get hp
  rw [hs] at hget
  obtain ⟨n, hn, rfl⟩ := Option.map_eq_some_iff.mp hget
  unfold Tree.setAttributes
  rw [hfound]
  dsimp only
  rw [hn]
  refine ⟨_, _, rfl, ?_⟩
  rw [← h.view, ← shape_withAttributes]
  exact leaves_set hp

/-! ## Views that stay lawful -/

theorem Lawful.without (h : Lawful V) (hp : p ≠ []) : Lawful (without V p) := by
  refine ⟨?_, fun a b hab hb => ?_, fun q hq => ?_⟩
  · unfold Oci.without
    rw [if_neg (by simpa using hp)]
    exact h.root
  · unfold Oci.without at hb ⊢
    split at hb
    · exact absurd rfl hb
    · next hpb =>
        rw [if_neg fun hpa => hpb (hpa.trans hab.1)]
        exact h.closed a b hab hb
  · unfold Oci.without at hq
    split at hq
    · exact absurd rfl hq
    · exact h.proper q hq

theorem Lawful.putAt (h : Lawful V) (hparent : V p = some .folder) (hc : properName c = true)
    {s : Shape} (hs : V (p ++ [c]) = some .folder → s = .folder) :
    Lawful (putAt V (p ++ [c]) s) := by
  refine ⟨?_, fun a b hab hb => ?_, fun q hq => ?_⟩
  · unfold Oci.putAt
    rw [if_neg (concat_ne_nil p c).symm]
    exact h.root
  · unfold Oci.putAt at hb ⊢
    by_cases hbname : b = p ++ [c]
    · subst hbname
      rw [if_neg hab.2]
      rcases List.prefix_concat_iff.mp hab.1 with heq | hunderp
      · exact absurd heq hab.2
      · by_cases hap : a = p
        · rw [hap, hparent]
        · exact h.closed a p ⟨hunderp, hap⟩ (by rw [hparent]; exact Option.some_ne_none _)
    · rw [if_neg hbname] at hb
      have ha := h.closed a b hab hb
      split
      · next haname =>
          subst haname
          rw [hs ha]
      · exact ha
  · unfold Oci.putAt at hq
    by_cases hname : q = p ++ [c]
    · subst hname
      intro d hd
      rcases List.mem_append.mp hd with hd | hd
      · exact h.proper p (by rw [hparent]; exact Option.some_ne_none _) d hd
      · rwa [List.mem_singleton.mp hd]
    · rw [if_neg hname] at hq
      exact h.proper q hq

end

end OmniRush.Oci
