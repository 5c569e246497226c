import OmniRush.Archive.Tree
import OmniRush.Proofs.Delta

/-!
# What the walk of a folder holds

An entry of the walk lies in a folder the walk came to, under a name that was not left out
there, and every such name has one (`mem_scanArchiveTree`). Names of one folder differ, and a
level is deeper than the one before it, so no path is there twice (`scanArchiveTree_nodup`).
The first component of every path was listed at the root, where the reserved names are left
out (`Holds.notReserved`).
-/

namespace OmniRush.Archive

open OmniRush

/-! ## Paths -/

def plainNames (parts : List String) : Prop := ∀ part ∈ parts, '/' ∉ part.toList

theorem pathParts_joinPath {parts : List String} (hne : parts ≠ []) (h : plainNames parts) :
    pathParts (joinPath parts) = parts := by
  have hsplit : (joinPath parts).toList.splitOn '/' = parts.map String.toList := by
    rw [joinPath, String.toList_intercalate]
    refine List.splitOn_intercalate '/' (fun l hl => ?_) (by simpa using hne)
    obtain ⟨part, hpart, rfl⟩ := List.mem_map.mp hl
    exact h part hpart
  rw [pathParts, hsplit, List.map_map]
  exact (List.map_congr_left fun part _ => String.ofList_toList).trans (List.map_id _)

theorem head_joinPath {root : String} {rest : List String} (h : '/' ∉ root.toList) :
    (pathParts (joinPath (root :: rest))).head? = some root := by
  have hsplit : ∃ l, (joinPath (root :: rest)).toList.splitOn '/' = root.toList :: l := by
    cases rest with
    | nil =>
        rw [joinPath, String.intercalate_singleton, List.splitOn_eq_singleton h]
        exact ⟨[], rfl⟩
    | cons part rest =>
        rw [joinPath, String.intercalate_cons_cons, String.toList_append, String.toList_append,
          List.append_assoc, show "/".toList = ['/'] from rfl]
        exact ⟨_, List.splitOn_append_cons_self_of_not_mem h _⟩
  obtain ⟨l, hl⟩ := hsplit
  rw [pathParts, hl, List.map_cons, List.head?_cons, String.ofList_toList]

/-- No workspace file may lie there. -/
def inReserved (path : String) : Bool := (pathParts path).head?.any (· ∈ reservedNames)

/-! ## The walk -/

namespace Workspace

variable {w : Workspace} {dir : List String} {name path : String}

/-- A folder the walk comes to: neither it nor a folder above it is left out. -/
inductive Walked (w : Workspace) : List String → Prop where
  | root : Walked w []
  | into {dir : List String} {name : String} (h : Walked w dir) (hname : name ∈ w.listed dir)
      (hdir : (w.inspect dir name).any (·.type = .dir) = true) : Walked w (dir ++ [name])

/-- A path the walk holds: it is in a walked folder and not left out there. -/
def Holds (w : Workspace) (path : String) : Prop :=
  ∃ dir name, w.Walked dir ∧ name ∈ w.listed dir ∧ (w.inspect dir name).isSome = true ∧
    path = joinPath (dir ++ [name])

theorem mem_listed (h : name ∈ w.listed dir) : ∃ all, w.names dir = some all ∧
    name ∈ all.filterMap id ∧ (dir = [] → name ∉ reservedNames) := by
  rw [listed, List.mem_filter] at h
  cases hnames : w.names dir with
  | none =>
      rw [hnames] at h
      cases h.1
  | some all =>
      rw [hnames] at h
      refine ⟨all, rfl, h.1, fun hdir => ?_⟩
      simpa [hdir] using h.2

theorem listed_nodup (dir : List String) : (w.listed dir).Nodup := by
  rw [listed]
  refine List.Nodup.filter _ ?_
  cases hnames : w.names dir with
  | none => exact List.nodup_nil
  | some all => exact w.distinct dir all hnames

theorem listed_plain (h : name ∈ w.listed dir) : '/' ∉ name.toList := by
  obtain ⟨all, hnames, hname, -⟩ := mem_listed h
  exact (w.plain dir all hnames name hname).2

theorem Walked.plain (h : w.Walked dir) : plainNames dir := by
  induction h with
  | root => exact fun part hpart => by cases hpart
  | into _ hname _ ih =>
      intro part hpart
      rcases List.mem_append.mp hpart with hpart | hpart
      · exact ih part hpart
      · obtain rfl := List.mem_singleton.mp hpart
        exact listed_plain hname

theorem inspect_path {e : ScannedEntry} (h : w.inspect dir name = some e) :
    e.path = joinPath (dir ++ [name]) := by
  unfold inspect at h
  simp only at h
  split at h
  · cases h
  · split at h
    · cases h
    · cases h
    · split at h
      · cases h
      · split at h
        · cases h
        · split at h
          · cases h
          · cases h
            rfl
    · cases h
    · split at h
      · cases h
      · split at h
        · cases h
        · obtain ⟨target, -, rfl⟩ := Option.map_eq_some_iff.mp h
          rfl
    · split at h
      · cases h
      · split at h
        · split at h
          · obtain ⟨clean, -, rfl⟩ := Option.map_eq_some_iff.mp h
            rfl
          · cases h
        · split at h
          · split at h
            · cases h
            · obtain ⟨scrub, -, rfl⟩ := Option.map_eq_some_iff.mp h
              rfl
          · split at h
            · cases h
              rfl
            · cases h

theorem mem_level {dirs : List (List String)} {item : List String × String} :
    item ∈ w.level dirs ↔ item.1 ∈ dirs ∧ item.2 ∈ w.listed item.1 := by
  rw [level, List.mem_flatMap]
  constructor
  · rintro ⟨dir, hdir, hitem⟩
    obtain ⟨name, hname, rfl⟩ := List.mem_map.mp hitem
    exact ⟨hdir, hname⟩
  · exact fun h => ⟨item.1, h.1, List.mem_map.mpr ⟨item.2, h.2, rfl⟩⟩

theorem mem_next {dirs : List (List String)} :
    dir ∈ w.next dirs ↔ ∃ above ∈ dirs, ∃ name ∈ w.listed above,
      (w.inspect above name).any (·.type = .dir) = true ∧ dir = above ++ [name] := by
  rw [next, List.mem_map]
  constructor
  · rintro ⟨item, hitem, rfl⟩
    obtain ⟨hitem, hdir⟩ := List.mem_filter.mp hitem
    obtain ⟨habove, hname⟩ := mem_level.mp hitem
    exact ⟨item.1, habove, item.2, hname, hdir, rfl⟩
  · rintro ⟨above, habove, name, hname, hdir, rfl⟩
    exact ⟨(above, name), List.mem_filter.mpr ⟨mem_level.mpr ⟨habove, hname⟩, hdir⟩, rfl⟩

theorem mem_walk {e : ScannedEntry} {depth : Nat} {dirs : List (List String)} :
    e ∈ w.walk depth dirs ↔ ∃ k < depth, ∃ dir ∈ w.next^[k] dirs, ∃ name ∈ w.listed dir,
      w.inspect dir name = some e := by
  induction depth generalizing dirs with
  | zero => simp [walk]
  | succ depth ih =>
      rw [walk, List.mem_append, ih, List.mem_filterMap]
      constructor
      · rintro (⟨item, hitem, he⟩ | ⟨k, hk, dir, hdir, hname⟩)
        · obtain ⟨hdir, hname⟩ := mem_level.mp hitem
          exact ⟨0, Nat.succ_pos _, item.1, hdir, item.2, hname, he⟩
        · exact ⟨k + 1, Nat.succ_lt_succ hk, dir, hdir, hname⟩
      · rintro ⟨k, hk, dir, hdir, name, hname, he⟩
        cases k with
        | zero => exact .inl ⟨(dir, name), mem_level.mpr ⟨hdir, hname⟩, he⟩
        | succ k => exact .inr ⟨k, Nat.lt_of_succ_lt_succ hk, dir, hdir, name, hname, he⟩

theorem mem_nexts {k : Nat} : dir ∈ w.next^[k] [[]] ↔ w.Walked dir ∧ dir.length = k := by
  induction k generalizing dir with
  | zero =>
      rw [Function.iterate_zero, id, List.mem_singleton]
      constructor
      · rintro rfl
        exact ⟨.root, rfl⟩
      · exact fun h => List.eq_nil_of_length_eq_zero h.2
  | succ k ih =>
      rw [Function.iterate_succ_apply', mem_next]
      constructor
      · rintro ⟨above, habove, name, hname, hdir, rfl⟩
        obtain ⟨hwalked, hlength⟩ := ih.mp habove
        exact ⟨.into hwalked hname hdir, by simp [hlength]⟩
      · rintro ⟨hwalked, hlength⟩
        cases hwalked with
        | root => cases hlength
        | @into above name hwalked hname hdir =>
            rw [List.length_append, List.length_singleton] at hlength
            exact ⟨above, ih.mpr ⟨hwalked, Nat.succ.inj hlength⟩, name, hname, hdir, rfl⟩

theorem mem_scanArchiveTree {e : ScannedEntry} : e ∈ w.scanArchiveTree ↔
    ∃ dir name, w.Walked dir ∧ name ∈ w.listed dir ∧ w.inspect dir name = some e := by
  rw [scanArchiveTree, (sortByPath_perm _ _).mem_iff, mem_walk]
  constructor
  · rintro ⟨k, -, dir, hdir, name, hname, he⟩
    exact ⟨dir, name, (mem_nexts.mp hdir).1, hname, he⟩
  · rintro ⟨dir, name, hwalked, hname, he⟩
    obtain ⟨all, hnames, -⟩ := mem_listed hname
    have hdepth := w.bounded dir (by rw [hnames]; rfl)
    exact ⟨dir.length, Nat.lt_succ_of_le hdepth, dir, mem_nexts.mpr ⟨hwalked, rfl⟩, name, hname, he⟩

theorem mem_paths : path ∈ w.scanArchiveTree.map (·.path) ↔ w.Holds path := by
  constructor
  · intro h
    obtain ⟨e, he, rfl⟩ := List.mem_map.mp h
    obtain ⟨dir, name, hwalked, hname, hinspect⟩ := mem_scanArchiveTree.mp he
    exact ⟨dir, name, hwalked, hname, by rw [hinspect]; rfl, inspect_path hinspect⟩
  · rintro ⟨dir, name, hwalked, hname, hsome, rfl⟩
    obtain ⟨e, he⟩ := Option.isSome_iff_exists.mp hsome
    rw [← inspect_path he]
    exact List.mem_map_of_mem (mem_scanArchiveTree.mpr ⟨dir, name, hwalked, hname, he⟩)

theorem plain_append (hdir : plainNames dir) (hname : '/' ∉ name.toList) :
    plainNames (dir ++ [name]) := by
  intro part hpart
  rcases List.mem_append.mp hpart with hpart | hpart
  · exact hdir part hpart
  · obtain rfl := List.mem_singleton.mp hpart
    exact hname

theorem Holds.notReserved (h : w.Holds path) : inReserved path = false := by
  obtain ⟨dir, name, hwalked, hname, -, rfl⟩ := h
  have hplain : plainNames (dir ++ [name]) := plain_append hwalked.plain (listed_plain hname)
  rw [inReserved, pathParts_joinPath (by simp) hplain]
  -- the first component was listed at the root
  have hfirst : ∀ {dir name}, w.Walked dir → name ∈ w.listed dir →
      ∃ root ∈ w.listed [], (dir ++ [name]).head? = some root := by
    intro dir name hwalked hname
    induction hwalked generalizing name with
    | root => exact ⟨name, hname, rfl⟩
    | @into above c _ hc _ ih =>
        obtain ⟨root, hroot, hhead⟩ := ih hc
        refine ⟨root, hroot, ?_⟩
        rw [List.head?_append, hhead, Option.some_or]
  obtain ⟨root, hroot, hhead⟩ := hfirst hwalked hname
  obtain ⟨-, -, -, hreserved⟩ := mem_listed hroot
  rw [hhead, Option.any_some]
  exact decide_eq_false (hreserved rfl)

theorem level_nodup {dirs : List (List String)} (h : dirs.Nodup) : (w.level dirs).Nodup := by
  rw [level, List.nodup_flatMap]
  refine ⟨fun dir _ => (listed_nodup dir).map fun name name' heq => (Prod.mk.inj heq).2, ?_⟩
  refine h.imp fun {dir dir'} hne => ?_
  intro item hitem hitem'
  obtain ⟨name, -, rfl⟩ := List.mem_map.mp hitem
  obtain ⟨name', -, heq⟩ := List.mem_map.mp hitem'
  exact hne (Prod.mk.inj heq).1.symm

theorem next_nodup {dirs : List (List String)} (h : dirs.Nodup) : (w.next dirs).Nodup := by
  rw [next]
  refine List.Nodup.map_on (fun item _ item' _ heq => ?_) ((level_nodup h).filter _)
  obtain ⟨hdir, hname⟩ := List.append_inj' heq rfl
  exact Prod.ext hdir (List.singleton_inj.mp hname)

theorem walk_nodup {depth k : Nat} {dirs : List (List String)} (hdirs : dirs.Nodup)
    (hplain : ∀ dir ∈ dirs, dir.length = k ∧ plainNames dir) :
    ((w.walk depth dirs).map (·.path)).Nodup ∧
      ∀ e ∈ w.walk depth dirs, k < (pathParts e.path).length := by
  induction depth generalizing dirs k with
  | zero => exact ⟨List.nodup_nil, fun e he => by cases he⟩
  | succ depth ih =>
      have hnext : ∀ dir ∈ w.next dirs, dir.length = k + 1 ∧ plainNames dir := by
        intro dir hdir
        obtain ⟨above, habove, name, hname, -, rfl⟩ := mem_next.mp hdir
        obtain ⟨hlength, habove⟩ := hplain above habove
        exact ⟨by simp [hlength], plain_append habove (listed_plain hname)⟩
      obtain ⟨hrest, hdeeper⟩ := ih (next_nodup hdirs) hnext
      have hparts : ∀ item ∈ w.level dirs, ∀ e, w.inspect item.1 item.2 = some e →
          pathParts e.path = item.1 ++ [item.2] ∧ item.1.length = k := by
        intro item hitem e he
        obtain ⟨hdir, hname⟩ := mem_level.mp hitem
        obtain ⟨hlength, hdir⟩ := hplain item.1 hdir
        rw [inspect_path he]
        exact ⟨pathParts_joinPath (by simp) (plain_append hdir (listed_plain hname)), hlength⟩
      have hlevel : ∀ e ∈ (w.level dirs).filterMap (fun item => w.inspect item.1 item.2),
          (pathParts e.path).length = k + 1 := by
        intro e he
        obtain ⟨item, hitem, he⟩ := List.mem_filterMap.mp he
        obtain ⟨hpath, hlength⟩ := hparts item hitem e he
        rw [hpath, List.length_append, hlength, List.length_singleton]
      rw [walk]
      constructor
      · rw [List.map_append, List.nodup_append]
        refine ⟨?_, hrest, ?_⟩
        · rw [List.Nodup, List.pairwise_map, List.pairwise_filterMap]
          refine (level_nodup hdirs).imp_of_mem fun {item item'} hitem hitem' hne e he e' he' => ?_
          intro heq
          have happend := (hparts item hitem e he).1.symm.trans
            ((congrArg pathParts heq).trans (hparts item' hitem' e' he').1)
          obtain ⟨hdir, hname⟩ := List.append_inj' happend rfl
          exact hne (Prod.ext hdir (List.singleton_inj.mp hname))
        · rintro p hp q hq rfl
          obtain ⟨e, he, rfl⟩ := List.mem_map.mp hp
          obtain ⟨e', he', heq⟩ := List.mem_map.mp hq
          have hlong := hdeeper e' he'
          rw [show e'.path = e.path from heq, hlevel e he] at hlong
          exact Nat.lt_irrefl _ hlong
      · intro e he
        rcases List.mem_append.mp he with he | he
        · rw [hlevel e he]
          exact Nat.lt_succ_self k
        · exact Nat.lt_of_succ_lt (hdeeper e he)

theorem scanArchiveTree_nodup : (w.scanArchiveTree.map (·.path)).Nodup := by
  rw [scanArchiveTree]
  refine ((sortByPath_perm _ _).map _).nodup_iff.mpr ?_
  refine (walk_nodup (k := 0) (List.nodup_singleton _) fun dir hdir => ?_).1
  obtain rfl := List.mem_singleton.mp hdir
  exact ⟨rfl, fun part hpart => by cases hpart⟩

end Workspace

end OmniRush.Archive
