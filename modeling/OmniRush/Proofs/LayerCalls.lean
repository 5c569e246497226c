import OmniRush.Proofs.LayerPaths

/-!
# Calls below the root

What one call of the unpacker does, on a name in a folder that is inside the root: it
acts on that name and below it (`Acts`), and the folder is inside the root afterwards.
A call that follows a link in the last component is made only where there is none
(`NoLink`): the name was free, or was just made as something else.
-/

namespace OmniRush.Oci

open OmniRush

/-- What a call acted on is below the root, and nothing else changed. -/
structure Acts (r : Path) (t t' : Tree) (touched : List Path) : Prop where
  touched : ∀ p ∈ touched, Below r p
  outside : ∀ p, ¬ Below r p → t'.get p = t.get p

/-- A path that names no folder outside the root. -/
def Inside (r : Path) (t : Tree) (p : Path) : Prop := ∀ f, t.folder p = some f → r <+: f

/-- A name that is no link. -/
def NoLink (t : Tree) (p : Path) (c : String) : Prop :=
  ∀ f, t.folder p = some f → ∀ target, t.kind (f ++ [c]) ≠ some (.link target)

section

variable {r p : Path} {t t' t'' : Tree} {c : String} {touched touched' : List Path}

theorem Acts.trans (h : Acts r t t' touched) (h' : Acts r t' t'' touched') :
    Acts r t t'' (touched ++ touched') := by
  refine ⟨fun p hp => ?_, fun p hp => (h'.outside p hp).trans (h.outside p hp)⟩
  rcases List.mem_append.mp hp with hp | hp
  · exact h.touched p hp
  · exact h'.touched p hp

theorem acts_none : Acts r t t [] := ⟨fun _ hp => (List.not_mem_nil hp).elim, fun _ _ => rfl⟩

theorem acts_set {q : Path} {n : Node} (hq : Below r q) : Acts r t (t.set q n) [q] := by
  refine ⟨fun p hp => ?_, fun p hp => ?_⟩
  · rwa [List.mem_singleton.mp hp]
  · rw [Tree.get_set, if_neg]
    rintro rfl
    exact hp hq

theorem Inside.fewer (h : Inside r t p) (hfewer : t.Extends t') : Inside r t' p :=
  fun f hf => h f (Tree.folder_mono hfewer hf)

theorem noLink_of_lstat (hc : properName c = true) (h : t.lstat (p ++ [c]) = none) :
    NoLink t p c := by
  intro f hf target hkind
  unfold Tree.lstat at h
  rw [(Tree.entry_append hc).mpr ⟨f, hf, rfl⟩, Option.bind_some] at h
  rw [Tree.kind, h] at hkind
  cases hkind

theorem create_acts {n : Node} (hc : properName c = true) (hin : Inside r t p)
    (h : t.create (p ++ [c]) n = .ok (t', touched)) :
    Acts r t t' touched ∧ ∃ f, t'.folder p = some f ∧ r <+: f ∧ t'.get (f ++ [c]) = some n := by
  obtain ⟨q, hq⟩ := Tree.create_entry h
  obtain ⟨f, hf, rfl⟩ := (Tree.entry_append hc).mp hq
  obtain ⟨habsent, rfl, rfl⟩ := Tree.create_ok h hq
  refine ⟨acts_set (below_append (hin f hf)), f, ?_, hin f hf, ?_⟩
  · exact Tree.folder_mono (Tree.extends_set_new habsent) hf
  · rw [Tree.get_set, if_pos rfl]

theorem create_inside {n : Node} (hc : properName c = true) (hin : Inside r t p)
    (h : t.create (p ++ [c]) n = .ok (t', touched)) : Inside r t' p := by
  obtain ⟨-, f, hf, hrf, -⟩ := create_acts hc hin h
  intro g hg
  rwa [Option.some.inj (hg.symm.trans hf)]

theorem create_noLink {n : Node} (hc : properName c = true) (hin : Inside r t p)
    (hn : ∀ attributes target, n ≠ .link attributes target)
    (h : t.create (p ++ [c]) n = .ok (t', touched)) : NoLink t' p c := by
  obtain ⟨-, f, hf, -, hget⟩ := create_acts hc hin h
  intro g hg target hkind
  obtain rfl := Option.some.inj (hg.symm.trans hf)
  rw [Tree.kind, hget] at hkind
  cases n <;> first | exact absurd rfl (hn _ _) | cases hkind

theorem writeFile_acts {mode : Nat} {content : List UInt8} (hc : properName c = true)
    (hin : Inside r t p) (habsent : t.lstat (p ++ [c]) = none)
    (h : t.writeFile (p ++ [c]) mode content = .ok (t', touched)) :
    Acts r t t' touched ∧ Inside r t' p ∧ NoLink t' p c := by
  unfold Tree.writeFile at h
  cases hresolve : t.resolve (p ++ [c]) with
  | none =>
      rw [hresolve] at h
      cases h
  | some q =>
      obtain ⟨f, -, hf, hfolder, -⟩ := Tree.resolveFrom_append rfl hresolve
      have hf : t.folder p = some f := Option.filter_eq_some_iff.mpr ⟨hf, hfolder⟩
      obtain rfl := Tree.resolve_append hc hf (noLink_of_lstat hc habsent f hf) hresolve
      have hget : t.get (f ++ [c]) = none := by
        unfold Tree.lstat at habsent
        rwa [(Tree.entry_append hc).mpr ⟨f, hf, rfl⟩, Option.bind_some] at habsent
      rw [hresolve] at h
      simp only [List.append_eq_nil_iff, List.cons_ne_nil, and_false, if_false, hget] at h
      cases h
      have hf' := Tree.folder_mono (Tree.extends_set_new (n := .file { mode } content) hget) hf
      refine ⟨acts_set (below_append (hin f hf)), fun g hg => ?_, fun g hg target hkind => ?_⟩
      · obtain rfl := Option.some.inj (hg.symm.trans hf')
        exact hin g hf
      · obtain rfl := Option.some.inj (hg.symm.trans hf')
        rw [Tree.kind, Tree.get_set, if_pos rfl] at hkind
        cases hkind

theorem link_acts {source : Path} {d : String} {sources : Path} (hd : properName d = true)
    (hsource : source = sources ++ [d]) (hsources : Inside r t sources)
    (hc : properName c = true) (hin : Inside r t p)
    (h : t.link source (p ++ [c]) = .ok (t', touched)) :
    Acts r t t' touched ∧ Inside r t' p := by
  unfold Tree.link at h
  cases hentry : t.entry source with
  | none =>
      rw [hentry] at h
      cases h
  | some s =>
      rw [hsource] at hentry
      obtain ⟨f, hf, rfl⟩ := (Tree.entry_append hd).mp hentry
      rw [hsource, hentry] at h
      dsimp only at h
      split at h
      · cases h
      · split at h
        · cases h
        · next n _ _ =>
            cases hcreate : t.create (p ++ [c]) n with
            | error e =>
                rw [hcreate] at h
                cases h
            | ok outcome =>
                rw [hcreate] at h
                cases h
                obtain ⟨hacts, -⟩ := create_acts hc hin hcreate
                refine ⟨⟨fun q hq => ?_, hacts.outside⟩, create_inside hc hin hcreate⟩
                rcases List.mem_cons.mp hq with rfl | hq
                · exact below_append (hsources f hf)
                · exact hacts.touched q hq

theorem setAttributes_acts {found : Option Path} {change : Attributes → Attributes}
    (hin : Inside r t p)
    (hfound : ∀ q, found = some q → ∃ f, t.folder p = some f ∧ q = f ++ [c])
    (h : t.setAttributes found change = .ok (t', touched)) :
    Acts r t t' touched ∧ Inside r t' p ∧ (NoLink t p c → NoLink t' p c) := by
  obtain ⟨q, n, hq, hn, rfl, rfl⟩ := Tree.setAttributes_ok h
  obtain ⟨f, hf, rfl⟩ := hfound q hq
  have hkind := Tree.kind_withAttributes (a := change n.attributes) hn
  have hfewer : t.Extends (t.set (f ++ [c]) (n.withAttributes (change n.attributes))) := by
    intro p k hk
    rwa [hkind p] at hk
  refine ⟨acts_set (below_append (hin f hf)), hin.fewer hfewer, fun hlink g hg target => ?_⟩
  rw [hkind]
  exact hlink g (Tree.folder_mono hfewer hg) target

theorem resolve_found (hc : properName c = true) (hlink : NoLink t p c) (q : Path)
    (h : t.resolve (p ++ [c]) = some q) : ∃ f, t.folder p = some f ∧ q = f ++ [c] := by
  obtain ⟨f, -, hf, hfolder, -⟩ := Tree.resolveFrom_append rfl h
  have hf : t.folder p = some f := Option.filter_eq_some_iff.mpr ⟨hf, hfolder⟩
  exact ⟨f, hf, Tree.resolve_append hc hf (hlink f hf) h⟩

theorem openFolders_get {q s : Path} (hq : t.entry p = some q) :
    (openFolders t p).1.get s = (t.get s).map fun n =>
      if q <+: s ∧ isClosed n then
        n.withAttributes { n.attributes with mode := (n.attributes.mode &&& 0o777) ||| 0o700 }
      else n := by
  unfold openFolders Tree.get
  rw [hq]
  dsimp only
  rw [List.find?_map, Option.map_map, Option.map_map]
  have hkey : ((fun e : Path × Node => decide (e.1 = s)) ∘ fun e : Path × Node =>
      if q <+: e.1 ∧ isClosed e.2 then
        (e.1, e.2.withAttributes
          { e.2.attributes with mode := (e.2.attributes.mode &&& 0o777) ||| 0o700 })
      else e) = fun e => decide (e.1 = s) := by
    funext e
    dsimp only [Function.comp]
    split <;> rfl
  rw [hkey]
  cases hfind : t.find? fun e => e.1 = s with
  | none => rfl
  | some e =>
      have he : e.1 = s := by simpa using List.find?_some hfind
      simp only [Option.map_some, Function.comp, he]
      split <;> rfl

theorem openFolders_kind (t : Tree) (p s : Path) : (openFolders t p).1.kind s = t.kind s := by
  cases hq : t.entry p with
  | none => rw [openFolders, hq]
  | some q =>
      rw [Tree.kind, Tree.kind, openFolders_get hq, Option.map_map]
      congr 1
      funext n
      dsimp only [Function.comp]
      split
      · exact Node.kind_withAttributes ..
      · rfl

theorem openFolders_acts (hc : properName c = true) (hin : Inside r t p) :
    Acts r t (openFolders t (p ++ [c])).1 (openFolders t (p ++ [c])).2 := by
  cases hq : t.entry (p ++ [c]) with
  | none =>
      rw [openFolders, hq]
      exact acts_none
  | some q =>
      obtain ⟨f, hf, rfl⟩ := (Tree.entry_append hc).mp hq
      have hbelow := below_append (c := c) (hin f hf)
      refine ⟨fun s hs => ?_, fun s hs => ?_⟩
      · rw [openFolders, hq] at hs
        obtain ⟨e, he, rfl⟩ := List.mem_map.mp hs
        exact hbelow.of_prefix (of_decide_eq_true (List.mem_filter.mp he).2).1
      · rw [openFolders_get hq]
        cases t.get s with
        | none => rfl
        | some n =>
            rw [Option.map_some, if_neg]
            exact fun h => hs (hbelow.of_prefix h.1)

/-- A removal acts on what is at the name and below it, and leaves nothing there. -/
theorem removeAllForce_acts (hc : properName c = true) (hin : Inside r t p)
    (h : removeAllForce (p ++ [c]) t = .ok (t', touched)) :
    Acts r t t' touched ∧ Inside r t' p ∧ t'.lstat (p ++ [c]) = none := by
  have hopen := openFolders_acts hc hin
  have hmore : t.Extends (openFolders t (p ++ [c])).1 := by
    intro s k hk
    rwa [openFolders_kind] at hk
  unfold removeAllForce at h
  generalize openFolders t (p ++ [c]) = opened at hopen hmore h
  obtain ⟨t₁, touched₁⟩ := opened
  dsimp only at hopen hmore h
  cases hremove : t₁.removeAll (p ++ [c]) with
  | error e =>
      rw [hremove] at h
      cases h
  | ok outcome =>
      obtain ⟨t₂, removed⟩ := outcome
      rw [hremove] at h
      cases h
      have hin₁ : Inside r t₁ p := hin.fewer hmore
      cases hq : t₁.entry (p ++ [c]) with
      | none =>
          obtain ⟨rfl, rfl⟩ := Tree.removeAll_none hremove hq
          refine ⟨hopen.trans acts_none, hin₁, ?_⟩
          rw [Tree.lstat, hq, Option.bind_none]
      | some q =>
          obtain ⟨rfl, hremoved⟩ := Tree.removeAll_ok hremove hq
          obtain ⟨f, hf, rfl⟩ := (Tree.entry_append hc).mp hq
          have hbelow := below_append (c := c) (hin₁ f hf)
          have hprune := Tree.extends_prune t₁ (f ++ [c])
          refine ⟨hopen.trans ⟨fun s hs => hbelow.of_prefix (hremoved s hs), fun s hs => ?_⟩,
            hin₁.fewer hprune, ?_⟩
          · rw [Tree.get_prune, if_neg]
            exact fun h => hs (hbelow.of_prefix h)
          · cases hq' : (t₁.prune (f ++ [c])).entry (p ++ [c]) with
            | none => rw [Tree.lstat, hq', Option.bind_none]
            | some q' =>
                obtain ⟨g, hg, rfl⟩ := (Tree.entry_append hc).mp hq'
                have hg := Tree.folder_mono hprune hg
                obtain rfl := Option.some.inj (hg.symm.trans hf)
                rw [Tree.lstat, hq', Option.bind_some, Tree.get_prune, if_pos List.prefix_rfl]

end

end OmniRush.Oci
