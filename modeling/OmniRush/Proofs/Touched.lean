import Mathlib.Data.List.Chain
import OmniRush.Proofs.Delta

/-!
# The touched-files variant

`touchedChange` takes the baseline to `next`: the scanned entries, and those of
the baseline that the scan neither saw nor found gone. The lists it builds are
filters and one stable sort, so each is described by its members.

The rest of the file is about the scan itself. `visit` adds a path to `seen`
before it looks at it, and adds an entry only under the path it was called with,
so the entries of one `scanTouchedFiles` name no path twice.
-/

namespace OmniRush.Archive

open OmniRush

/-! ## The change -/

/-- The map a list of entries makes: with no path twice it is the list's view. -/
theorem find?_reverse_eq_some {l : List ArchiveEntry} (hnd : (l.map (·.path)).Nodup)
    {p : String} {e : ArchiveEntry} :
    l.reverse.find? (fun old => old.path = p) = some e ↔ e ∈ l ∧ e.path = p := by
  have hrev : (l.reverse.map (·.path)).Nodup := by
    rw [List.map_reverse]
    exact List.nodup_reverse.mpr hnd
  have h := View.ofList_eq_some hrev (k := p) (v := e)
  rwa [List.mem_reverse] at h

section Change

variable {baseline : List ArchiveEntry} {scan : TouchedScanResult}

theorem mem_touchedChange_files (hb : (baseline.map (·.path)).Nodup) (e : ScannedEntry) :
    e ∈ (touchedChange baseline scan).files ↔
      e ∈ scan.entries ∧ ∀ old ∈ baseline, old.path = e.path →
        isArchiveEntryModified old e.toArchiveEntry = true := by
  simp only [touchedChange, List.mem_filter]
  refine and_congr_right fun _ => ?_
  cases hfind : baseline.reverse.find? (fun old => old.path = e.path) with
  | none =>
      simp only [List.find?_eq_none, List.mem_reverse, decide_eq_true_eq] at hfind
      simp only [true_iff]
      exact fun old hold hpath => absurd hpath (hfind old hold)
  | some old =>
      obtain ⟨hold, hpath⟩ := (find?_reverse_eq_some hb).mp hfind
      constructor
      · intro hmod old' hold' hpath'
        have h := (find?_reverse_eq_some hb).mpr ⟨hold', hpath'⟩
        rw [hfind] at h
        cases h
        exact hmod
      · exact fun hall => hall old hold hpath

theorem mem_touchedChange_deleted (p : String) :
    p ∈ (touchedChange baseline scan).deleted ↔
      p ∈ baseline.map (·.path) ∧ p ∉ scan.entries.map (·.path) ∧ p ∈ scan.gone := by
  simp only [touchedChange, (sortByPath_perm _ _).mem_iff, List.mem_map, List.mem_filter,
    decide_eq_true_eq]
  constructor
  · rintro ⟨e, ⟨⟨he, hcur⟩, hgone⟩, rfl⟩
    exact ⟨⟨e, he, rfl⟩, hcur, hgone⟩
  · rintro ⟨⟨e, he, rfl⟩, hcur, hgone⟩
    exact ⟨e, ⟨⟨he, hcur⟩, hgone⟩, rfl⟩

theorem mem_touchedChange_next (e : ArchiveEntry) :
    e ∈ (touchedChange baseline scan).next ↔
      e ∈ scan.entries.map (·.toArchiveEntry) ∨
        (e ∈ baseline ∧ e.path ∉ scan.entries.map (·.path) ∧ e.path ∉ scan.gone) := by
  simp only [touchedChange, (sortByPath_perm _ _).mem_iff, List.mem_append, List.mem_filter,
    decide_eq_true_eq, and_assoc]

theorem nodup_touchedChange_next (hb : (baseline.map (·.path)).Nodup)
    (hs : (scan.entries.map (·.path)).Nodup) :
    ((touchedChange baseline scan).next.map (·.path)).Nodup := by
  have hperm := (sortByPath_perm ArchiveEntry.path
    (scan.entries.map (·.toArchiveEntry) ++ (baseline.filter fun e =>
      e.path ∉ scan.entries.map (·.path)).filter fun e => e.path ∉ scan.gone)).map
        ArchiveEntry.path
  refine hperm.nodup_iff.mpr ?_
  rw [List.map_append, List.map_map, List.nodup_append]
  refine ⟨hs, ?_, ?_⟩
  · exact hb.sublist ((List.filter_sublist.trans List.filter_sublist).map _)
  · intro p hp q hq heq
    obtain ⟨e, he, rfl⟩ := List.mem_map.mp hq
    simp only [List.mem_filter, decide_eq_true_eq] at he
    exact he.1.2 (heq ▸ hp)

theorem touchedChange_leads (hb : (baseline.map (·.path)).Nodup)
    (hs : (scan.entries.map (·.path)).Nodup) (hform : ∀ b ∈ baseline, archiveEntry b = b) :
    Leads ArchiveEntry.path SameContent (View.ofList ArchiveEntry.path baseline)
      (View.ofList ArchiveEntry.path ((touchedChange baseline scan).next.map archiveEntry))
      ((touchedChange baseline scan).files.map manifestEntry)
      (touchedChange baseline scan).deleted := by
  have hpaths : ((touchedChange baseline scan).next.map archiveEntry).map ArchiveEntry.path
      = (touchedChange baseline scan).next.map (·.path) := by
    rw [List.map_map]
    rfl
  have hnd : (((touchedChange baseline scan).next.map archiveEntry).map
      ArchiveEntry.path).Nodup := by
    rw [hpaths]
    exact nodup_touchedChange_next hb hs
  have hscanned : ∀ e ∈ scan.entries,
      View.ofList ArchiveEntry.path ((touchedChange baseline scan).next.map archiveEntry)
        e.path = some (manifestEntry e) := fun e he =>
    (View.ofList_eq_some hnd).mpr ⟨List.mem_map_of_mem (f := archiveEntry)
      ((mem_touchedChange_next _).mpr (.inl (List.mem_map_of_mem he))), rfl⟩
  refine ⟨fun v hv => ?_, fun p hp => ?_, fun p hput hdrop => ?_⟩
  · obtain ⟨e, he, rfl⟩ := List.mem_map.mp hv
    exact hscanned e ((mem_touchedChange_files hb e).mp he).1
  · obtain ⟨-, hcur, hgone⟩ := (mem_touchedChange_deleted p).mp hp
    rw [View.ofList_eq_none, hpaths]
    intro hmem
    obtain ⟨e, he, rfl⟩ := List.mem_map.mp hmem
    rcases (mem_touchedChange_next e).mp he with h | ⟨-, -, h⟩
    · obtain ⟨s, hsmem, rfl⟩ := List.mem_map.mp h
      exact hcur (List.mem_map_of_mem (f := fun e : ScannedEntry => e.path) hsmem)
    · exact h hgone
  · by_cases hcur : p ∈ scan.entries.map (·.path)
    · obtain ⟨e, he, rfl⟩ := List.mem_map.mp hcur
      have hfiles : e ∉ (touchedChange baseline scan).files := fun h =>
        hput _ (List.mem_map_of_mem h) rfl
      rw [mem_touchedChange_files hb] at hfiles
      simp only [he, true_and, not_forall] at hfiles
      obtain ⟨old, hold, hpath, hmod⟩ := hfiles
      rw [hscanned e he, (View.ofList_eq_some hb).mpr ⟨hold, hpath⟩]
      exact .some (sameContent_of_unmodified (hform old hold) (Bool.eq_false_iff.mpr hmod))
    · by_cases hbase : p ∈ baseline.map (·.path)
      · obtain ⟨b, hbmem, rfl⟩ := List.mem_map.mp hbase
        have hgone : b.path ∉ scan.gone := fun h =>
          hdrop ((mem_touchedChange_deleted _).mpr ⟨hbase, hcur, h⟩)
        have hnext : b ∈ (touchedChange baseline scan).next :=
          (mem_touchedChange_next b).mpr (.inr ⟨hbmem, hcur, hgone⟩)
        rw [(View.ofList_eq_some hb).mpr ⟨hbmem, rfl⟩, (View.ofList_eq_some hnd).mpr
          ⟨List.mem_map.mpr ⟨b, hnext, hform b hbmem⟩, rfl⟩]
        exact .some (SameContent.refl b)
      · rw [View.ofList_eq_none.mpr hbase, View.ofList_eq_none.mpr]
        · exact .none
        · rw [hpaths]
          intro hmem
          obtain ⟨e, he, rfl⟩ := List.mem_map.mp hmem
          rcases (mem_touchedChange_next e).mp he with h | ⟨h, -, -⟩
          · obtain ⟨s, hsmem, rfl⟩ := List.mem_map.mp h
            exact hcur (List.mem_map_of_mem (f := fun e : ScannedEntry => e.path) hsmem)
          · exact hbase (List.mem_map_of_mem h)

end Change

/-! ## The scan -/

/-- What a visit keeps: entries under seen paths, and no path twice. -/
structure Visit.Once (v : Visit) : Prop where
  seen : ∀ e ∈ v.entries, e.path ∈ v.seen
  nodup : (v.entries.map (·.path)).Nodup

theorem Visit.Once.leave {v : Visit} (h : v.Once) (path : String) (gone : List String) :
    ({ v with seen := path :: v.seen, gone := gone } : Visit).Once :=
  ⟨fun e he => List.mem_cons_of_mem _ (h.seen e he), h.nodup⟩

theorem Visit.Once.add {v : Visit} (h : v.Once) {path : String} (hnew : path ∉ v.seen)
    (info : FileInfo) (codeChecks : List String) :
    ({ v with
      seen := path :: v.seen
      entries := v.entries ++ [fileEntry path info]
      codeChecks := codeChecks } : Visit).Once := by
  constructor
  · intro e he
    rcases List.mem_append.mp he with he | he
    · exact List.mem_cons_of_mem _ (h.seen e he)
    · rw [List.mem_singleton.mp he]
      exact List.mem_cons_self ..
  · rw [List.map_append, List.nodup_append]
    refine ⟨h.nodup, List.nodup_singleton _, ?_⟩
    rintro p hp q hq rfl
    obtain ⟨e, he, rfl⟩ := List.mem_map.mp hp
    have hpath : e.path = path := List.mem_singleton.mp hq
    exact hnew (hpath ▸ h.seen e he)

theorem visit_once (folder : Folder) (hops : Nat) (path : String) {v : Visit} (h : v.Once) :
    (visit folder hops path v).Once := by
  fun_induction visit folder hops path v
  all_goals first
    | exact h
    | exact h.leave _ _
    | exact h.add ‹_› _ _
    | next ih => exact ih (h.leave _ _)

theorem visitAll_once (folder : Folder) (paths : List String) {v : Visit} (h : v.Once) :
    (paths.foldl (fun v path => visit folder maxLinkHops path v) v).Once := by
  induction paths generalizing v with
  | nil => exact h
  | cons path paths ih => exact ih (visit_once folder maxLinkHops path h)

theorem checkCode_path {folder : Folder} {codeChecks : List String} {e e' : ScannedEntry}
    (h : checkCode folder codeChecks e = some e') : e'.path = e.path := by
  unfold checkCode at h
  split at h
  · obtain ⟨clean, -, rfl⟩ := Option.map_eq_some_iff.mp h
    rfl
  · cases h
    rfl

theorem scanTouchedFiles_nodup (folder : Folder) (paths : List String) :
    ((scanTouchedFiles folder paths).entries.map (·.path)).Nodup := by
  have honce := visitAll_once folder paths (v := {}) ⟨by simp, List.nodup_nil⟩
  rw [scanTouchedFiles]
  refine ((sortByPath_perm _ _).map _).nodup_iff.mpr ?_
  refine List.Nodup.sublist (List.filter_sublist.map _) ?_
  generalize paths.foldl _ _ = v at honce
  have hsub : ((v.entries.filterMap (checkCode folder v.codeChecks)).map (·.path)).Sublist
      (v.entries.map (·.path)) := by
    induction v.entries with
    | nil => exact List.Sublist.refl _
    | cons e entries ih =>
        rw [List.filterMap_cons]
        split
        · exact ih.trans (List.sublist_cons_self ..)
        · next e' he =>
            rw [List.map_cons, List.map_cons, checkCode_path he]
            exact ih.cons_cons _
  exact honce.nodup.sublist hsub

/-!
## Where the links of touched paths lead

A touched scan comes to a path when links lead there from one of its own, so many of them at
most (`mem_scanTouchedFiles`). A path is looked at once, with the links that are left when it
is first come to, so not every scan comes to all such paths; the one that begins with the
path in question does (`exists_order`): its chain of links can be had without a path twice,
and none of them has been seen.
-/

/-! ## Touched paths -/

section Touched

variable {folder : Folder} {path target : String} {v : Visit} {hops : Nat} {info : FileInfo}

/-- What a touched scan finds at a path that it may look at. -/
def lookedAt (folder : Folder) (path : String) : Option Node :=
  (touchedPathParts path).bind fun parts =>
    if parts.head?.any (· ∈ reservedRoots) || folder.appState path
        || (folder.credential path && !folder.isArchiveCodeFile path)
        || dirState folder [] parts.dropLast ≠ .dir then none
    else some (folder.lstat path)

/-- A link that the scan may look at leads from one path to another, so many times at most. -/
inductive Follows (folder : Folder) : Nat → String → String → Prop where
  | here (hops : Nat) (path : String) : Follows folder hops path path
  | link {hops : Nat} {path target last : String}
      (hlink : lookedAt folder path = some (.symlink (some target)))
      (h : Follows folder hops target last) : Follows folder (hops + 1) path last

/-- A file that a touched scan keeps when it comes to it: its content could be read, and a code
file named like a key store is clean. -/
def keepsFile (folder : Folder) (path : String) : Bool :=
  match lookedAt folder path with
  | some (.file info) =>
      if folder.credential path then (folder.cleanCode path).isSome else info.sha256.isSome
  | _ => false

/-- The entry of such a file is over the size for one file. -/
def overSize (folder : Folder) (path : String) : Bool :=
  match lookedAt folder path with
  | some (.file info) =>
      if folder.credential path then
        (folder.cleanCode path).any fun clean => decide (maxTouchedFileBytes < clean.1.length)
      else decide (maxTouchedFileBytes < info.size)
  | _ => false

/-- What a visit has done: each path it came to, and the file there if it may look at it. -/
structure Visited (folder : Folder) (v : Visit) : Prop where
  seen : ∀ e ∈ v.entries, e.path ∈ v.seen
  file : ∀ e ∈ v.entries, ∃ info, lookedAt folder e.path = some (.file info) ∧
    e = fileEntry e.path info
  all : ∀ path ∈ v.seen, ∀ info, lookedAt folder path = some (.file info) →
    fileEntry path info ∈ v.entries
  code : ∀ e ∈ v.entries, e.path ∈ v.codeChecks ↔ folder.credential e.path = true
  checked : ∀ path ∈ v.codeChecks, path ∈ v.seen

theorem Visited.leave (h : Visited folder v) (gone : List String)
    (hnot : ∀ info, lookedAt folder path ≠ some (.file info)) :
    Visited folder { v with seen := path :: v.seen, gone := gone } where
  seen e he := List.mem_cons_of_mem _ (h.seen e he)
  file := h.file
  all p hp info hinfo := by
    rcases List.mem_cons.mp hp with rfl | hp
    · exact absurd hinfo (hnot info)
    · exact h.all p hp info hinfo
  code := h.code
  checked p hp := List.mem_cons_of_mem _ (h.checked p hp)

theorem Visited.add (h : Visited folder v) (hnew : path ∉ v.seen)
    (hfile : lookedAt folder path = some (.file info)) :
    Visited folder { v with
      seen := path :: v.seen
      entries := v.entries ++ [fileEntry path info]
      codeChecks := if folder.credential path then path :: v.codeChecks else v.codeChecks } where
  seen e he := by
    rcases List.mem_append.mp he with he | he
    · exact List.mem_cons_of_mem _ (h.seen e he)
    · rw [List.mem_singleton.mp he]
      exact List.mem_cons_self ..
  file e he := by
    rcases List.mem_append.mp he with he | he
    · exact h.file e he
    · rw [List.mem_singleton.mp he]
      exact ⟨info, hfile, rfl⟩
  all p hp info' hinfo := by
    rcases List.mem_cons.mp hp with rfl | hp
    · rw [hfile] at hinfo
      cases hinfo
      exact List.mem_append_right _ (List.mem_singleton.mpr rfl)
    · exact List.mem_append_left _ (h.all p hp info' hinfo)
  code e he := by
    rcases List.mem_append.mp he with he | he
    · have hne : e.path ≠ path := fun heq => hnew (heq ▸ h.seen e he)
      rw [← h.code e he]
      split
      · exact List.mem_cons.trans (or_iff_right hne)
      · rfl
    · obtain rfl := List.mem_singleton.mp he
      have hpath : (fileEntry path info).path = path := rfl
      rw [hpath]
      split
      · next hcredential => exact iff_of_true (List.mem_cons_self ..) hcredential
      · next hcredential =>
          exact iff_of_false (fun hp => hnew (h.checked path hp)) hcredential
  checked p hp := by
    split at hp
    · rcases List.mem_cons.mp hp with rfl | hp
      · exact List.mem_cons_self ..
      · exact List.mem_cons_of_mem _ (h.checked p hp)
    · exact List.mem_cons_of_mem _ (h.checked p hp)

theorem visit_cases (folder : Folder) (hops : Nat) (hnew : path ∉ v.seen) :
    (∃ gone, (∀ info, lookedAt folder path ≠ some (.file info)) ∧
      (∀ target, lookedAt folder path = some (.symlink (some target)) → hops = 0) ∧
      visit folder hops path v = { v with seen := path :: v.seen, gone := gone }) ∨
    (∃ info, lookedAt folder path = some (.file info) ∧
      visit folder hops path v = { v with
        seen := path :: v.seen
        entries := v.entries ++ [fileEntry path info]
        codeChecks := if folder.credential path then path :: v.codeChecks else v.codeChecks }) ∨
    ∃ n target gone, hops = n + 1 ∧ lookedAt folder path = some (.symlink (some target)) ∧
      visit folder hops path v =
        visit folder n target { v with seen := path :: v.seen, gone := gone } := by
  rw [visit.eq_def folder hops path v]
  simp only [if_neg hnew]
  cases hparts : touchedPathParts path with
  | none => exact .inl ⟨v.gone, by simp [lookedAt, hparts], by simp [lookedAt, hparts], rfl⟩
  | some parts =>
      have hlooked : lookedAt folder path = if parts.head?.any (· ∈ reservedRoots)
          || folder.appState path || (folder.credential path && !folder.isArchiveCodeFile path)
          || dirState folder [] parts.dropLast ≠ .dir then none
          else some (folder.lstat path) := by
        rw [lookedAt, hparts, Option.bind_some]
      simp only
      split
      · next hroot => exact .inl ⟨v.gone, by simp [hlooked, hroot], by simp [hlooked, hroot], rfl⟩
      · next hroot =>
          split
          · next happ => exact .inl ⟨v.gone, by simp [hlooked, happ], by simp [hlooked, happ], rfl⟩
          · next happ =>
              split
              · next hcode =>
                  exact .inl ⟨v.gone, by simp [hlooked, hcode], by simp [hlooked, hcode], rfl⟩
              · next hcode =>
                  split
                  · next hdir =>
                      exact .inl ⟨v.gone, by simp [hlooked, hdir], by simp [hlooked, hdir], rfl⟩
                  · next hdir =>
                      exact .inl ⟨_, by simp [hlooked, hdir], by simp [hlooked, hdir], rfl⟩
                  · next hdir =>
                      have hlstat : lookedAt folder path = some (folder.lstat path) := by
                        simp [hlooked, hroot, happ, hcode, hdir]
                      rw [hlstat]
                      cases hnode : folder.lstat path with
                      | missing => exact .inl ⟨_, by simp, by simp, rfl⟩
                      | unreadable => exact .inl ⟨v.gone, by simp, by simp, rfl⟩
                      | dir => exact .inl ⟨_, by simp, by simp, rfl⟩
                      | special => exact .inl ⟨_, by simp, by simp, rfl⟩
                      | symlink inside =>
                          cases hops with
                          | zero => exact .inl ⟨_, by simp, by simp, rfl⟩
                          | succ n =>
                              cases inside with
                              | none => exact .inl ⟨_, by simp, by simp, rfl⟩
                              | some target => exact .inr (.inr ⟨n, target, _, rfl, rfl, rfl⟩)
                      | file info => exact .inr (.inl ⟨info, rfl, rfl⟩)

theorem visit_seen (hseen : path ∈ v.seen) : visit folder hops path v = v := by
  rw [visit.eq_def]
  exact if_pos hseen

theorem visit_visited (hops : Nat) (path : String) (h : Visited folder v) :
    Visited folder (visit folder hops path v) ∧
    (∀ q ∈ v.seen, q ∈ (visit folder hops path v).seen) ∧
    ∀ q ∈ (visit folder hops path v).seen, q ∈ v.seen ∨ Follows folder hops path q := by
  induction hops generalizing path v with
  | zero =>
      by_cases hseen : path ∈ v.seen
      · rw [visit_seen hseen]
        exact ⟨h, fun q hq => hq, fun q hq => .inl hq⟩
      · rcases visit_cases folder 0 hseen with
          ⟨gone, hnot, -, heq⟩ | ⟨info, hfile, heq⟩ | ⟨n, target, gone, hhops, -⟩
        · rw [heq]
          refine ⟨h.leave gone hnot, fun q hq => List.mem_cons_of_mem _ hq, fun q hq => ?_⟩
          rcases List.mem_cons.mp hq with rfl | hq
          · exact .inr (.here 0 q)
          · exact .inl hq
        · rw [heq]
          refine ⟨h.add hseen hfile, fun q hq => List.mem_cons_of_mem _ hq, fun q hq => ?_⟩
          rcases List.mem_cons.mp hq with rfl | hq
          · exact .inr (.here 0 q)
          · exact .inl hq
        · cases hhops
  | succ n ih =>
      by_cases hseen : path ∈ v.seen
      · rw [visit_seen hseen]
        exact ⟨h, fun q hq => hq, fun q hq => .inl hq⟩
      · rcases visit_cases folder (n + 1) hseen with
          ⟨gone, hnot, -, heq⟩ | ⟨info, hfile, heq⟩ | ⟨m, target, gone, hhops, hlink, heq⟩
        · rw [heq]
          refine ⟨h.leave gone hnot, fun q hq => List.mem_cons_of_mem _ hq, fun q hq => ?_⟩
          rcases List.mem_cons.mp hq with rfl | hq
          · exact .inr (.here _ q)
          · exact .inl hq
        · rw [heq]
          refine ⟨h.add hseen hfile, fun q hq => List.mem_cons_of_mem _ hq, fun q hq => ?_⟩
          rcases List.mem_cons.mp hq with rfl | hq
          · exact .inr (.here _ q)
          · exact .inl hq
        · obtain rfl := Nat.succ.inj hhops
          have hnot : ∀ info, lookedAt folder path ≠ some (.file info) := by
            intro info hinfo
            rw [hlink] at hinfo
            cases hinfo
          obtain ⟨hvisited, hgrows, honly⟩ := ih target (h.leave gone hnot)
          rw [heq]
          refine ⟨hvisited, fun q hq => hgrows q (List.mem_cons_of_mem _ hq), fun q hq => ?_⟩
          rcases honly q hq with hq | hq
          · rcases List.mem_cons.mp hq with rfl | hq
            · exact .inr (.here _ q)
            · exact .inl hq
          · exact .inr (.link hlink hq)

theorem visitAll_visited (paths : List String) (h : Visited folder v) :
    Visited folder (paths.foldl (fun v path => visit folder maxLinkHops path v) v) ∧
    (∀ q ∈ v.seen, q ∈ (paths.foldl (fun v path => visit folder maxLinkHops path v) v).seen) ∧
    ∀ q ∈ (paths.foldl (fun v path => visit folder maxLinkHops path v) v).seen,
      q ∈ v.seen ∨ ∃ start ∈ paths, Follows folder maxLinkHops start q := by
  induction paths generalizing v with
  | nil => exact ⟨h, fun q hq => hq, fun q hq => .inl hq⟩
  | cons path paths ih =>
      obtain ⟨hvisited, hgrows, honly⟩ := visit_visited maxLinkHops path h
      obtain ⟨hvisited', hgrows', honly'⟩ := ih hvisited
      refine ⟨hvisited', fun q hq => hgrows' q (hgrows q hq), fun q hq => ?_⟩
      rcases honly' q hq with hq | ⟨start, hstart, hq⟩
      · rcases honly q hq with hq | hq
        · exact .inl hq
        · exact .inr ⟨path, List.mem_cons_self .., hq⟩
      · exact .inr ⟨start, List.mem_cons_of_mem _ hstart, hq⟩

theorem Follows.chain {last : String} (h : Follows folder hops path last) :
    ∃ chain : List String, chain.Nodup ∧ chain.length ≤ hops + 1 ∧ chain.head? = some path ∧
      chain.getLast? = some last ∧ chain.IsChain fun above below =>
        lookedAt folder above = some (.symlink (some below)) := by
  induction h with
  | here hops path => exact ⟨[path], by simp, by simp, rfl, rfl, .singleton path⟩
  | @link hops path target last hlink _ ih =>
      obtain ⟨chain, hnodup, hlength, hhead, hlast, hchain⟩ := ih
      by_cases hmem : path ∈ chain
      · obtain ⟨before, rest, rfl⟩ := List.append_of_mem hmem
        refine ⟨path :: rest, (List.nodup_append.mp hnodup).2.1, ?_, rfl, ?_, ?_⟩
        · rw [List.length_append] at hlength
          omega
        · rwa [List.getLast?_append_of_ne_nil _ (by simp)] at hlast
        · exact hchain.right_of_append
      · cases chain with
        | nil => cases hhead
        | cons first rest =>
            cases hhead
            exact ⟨path :: target :: rest, List.nodup_cons.mpr ⟨hmem, hnodup⟩,
              Nat.succ_le_succ hlength, rfl, by rwa [List.getLast?_cons_cons],
              List.isChain_cons_cons.mpr ⟨hlink, hchain⟩⟩

theorem visit_self (h : Visited folder v) : path ∈ (visit folder hops path v).seen := by
  by_cases hseen : path ∈ v.seen
  · rwa [visit_seen hseen]
  · rcases visit_cases folder hops hseen with
      ⟨gone, -, -, heq⟩ | ⟨info, -, heq⟩ | ⟨n, target, gone, -, hlink, heq⟩
    · rw [heq]
      exact List.mem_cons_self ..
    · rw [heq]
      exact List.mem_cons_self ..
    · have hnot : ∀ info, lookedAt folder path ≠ some (.file info) := by
        intro info hinfo
        rw [hlink] at hinfo
        cases hinfo
      rw [heq]
      exact (visit_visited n target (h.leave gone hnot)).2.1 path (List.mem_cons_self ..)

theorem visit_chain {chain : List String} {last : String} (hnodup : (path :: chain).Nodup)
    (hlength : chain.length ≤ hops) (hfresh : ∀ q ∈ path :: chain, q ∉ v.seen)
    (hlast : (path :: chain).getLast? = some last)
    (hchain : (path :: chain).IsChain fun above below =>
      lookedAt folder above = some (.symlink (some below))) (h : Visited folder v) :
    last ∈ (visit folder hops path v).seen := by
  induction chain generalizing hops path v with
  | nil =>
      cases hlast
      exact visit_self h
  | cons target chain ih =>
      obtain ⟨hlink, hrest⟩ := List.isChain_cons_cons.mp hchain
      obtain ⟨hpath, hnodup⟩ := List.nodup_cons.mp hnodup
      rcases visit_cases folder hops (hfresh path (List.mem_cons_self ..)) with
        ⟨gone, -, hzero, -⟩ | ⟨info, hfile, -⟩ | ⟨n, target', gone, hhops, hlink', heq⟩
      · rw [hzero target hlink] at hlength
        cases hlength
      · rw [hlink] at hfile
        cases hfile
      · rw [hlink] at hlink'
        cases hlink'
        have hnot : ∀ info, lookedAt folder path ≠ some (.file info) := by
          intro info hinfo
          rw [hlink] at hinfo
          cases hinfo
        rw [heq]
        refine ih hnodup ?_ (fun q hq => ?_) (by rwa [List.getLast?_cons_cons] at hlast) hrest
          (h.leave gone hnot)
        · rw [hhops, List.length_cons] at hlength
          exact Nat.le_of_succ_le_succ hlength
        · rw [List.mem_cons, not_or]
          exact ⟨fun heq => hpath (heq ▸ hq), hfresh q (List.mem_cons_of_mem _ hq)⟩

theorem visited_nil (folder : Folder) : Visited folder {} where
  seen e he := by cases he
  file e he := by cases he
  all p hp := by cases hp
  code e he := by cases he
  checked p hp := by cases hp

theorem mem_scanTouchedFiles {paths : List String} {e : ScannedEntry}
    (he : e ∈ (scanTouchedFiles folder paths).entries) :
    (∃ start ∈ paths, Follows folder maxLinkHops start e.path) ∧
      keepsFile folder e.path = true ∧
        (overSize folder e.path = true ↔ maxTouchedFileBytes < e.size) := by
  obtain ⟨hvisited, -, honly⟩ := visitAll_visited paths (visited_nil folder)
  rw [scanTouchedFiles, (sortByPath_perm _ _).mem_iff, List.mem_filter, List.mem_filterMap] at he
  obtain ⟨⟨found, hfound, hcheck⟩, hkept⟩ := he
  generalize paths.foldl _ _ = v at hvisited honly hfound hcheck
  have hpath : e.path = found.path := checkCode_path hcheck
  obtain ⟨info, hlooked, hentry⟩ := hvisited.file found hfound
  have hcode := hvisited.code found hfound
  have hseen := honly found.path (hvisited.seen found hfound)
  rw [hpath]
  refine ⟨hseen.resolve_left List.not_mem_nil, ?_⟩
  rw [keepsFile, overSize, hlooked]
  unfold checkCode at hcheck
  split at hcheck
  · next hchecked =>
      obtain ⟨clean, hclean, rfl⟩ := Option.map_eq_some_iff.mp hcheck
      simp only [hcode.mp hchecked, if_true, hclean]
      exact ⟨rfl, decide_eq_true_iff⟩
  · next hchecked =>
      cases hcheck
      have hcredential : folder.credential e.path = false :=
        Bool.eq_false_iff.mpr fun hcredential => hchecked (hcode.mpr hcredential)
      rw [hcredential]
      rw [hentry] at hkept ⊢
      exact ⟨by simpa [fileEntry] using hkept, by simp [fileEntry]⟩

theorem keepsFile_mem {paths : List String} (hkeeps : keepsFile folder path = true)
    (hseen : path ∈ (paths.foldl (fun v path => visit folder maxLinkHops path v) {}).seen) :
    ∃ e ∈ (scanTouchedFiles folder paths).entries, e.path = path := by
  obtain ⟨hvisited, -, -⟩ := visitAll_visited paths (visited_nil folder)
  simp only [scanTouchedFiles, (sortByPath_perm _ _).mem_iff, List.mem_filter, List.mem_filterMap]
  generalize paths.foldl _ _ = v at hvisited hseen
  rw [keepsFile] at hkeeps
  split at hkeeps
  · next info hlooked =>
      have hentry := hvisited.all path hseen info hlooked
      have hcode := hvisited.code _ hentry
      have hpath : (fileEntry path info).path = path := rfl
      rw [hpath] at hcode
      split at hkeeps
      · next hcredential =>
          obtain ⟨clean, hclean⟩ := Option.isSome_iff_exists.mp hkeeps
          have hcheck : checkCode folder v.codeChecks (fileEntry path info) = some
              { fileEntry path info with
                content := some clean.1, size := clean.1.length, sha256 := some clean.2 } := by
            rw [checkCode, hpath, if_pos (hcode.mpr hcredential), hclean]
            rfl
          exact ⟨_, ⟨⟨fileEntry path info, hentry, hcheck⟩, rfl⟩, hpath⟩
      · next hcredential =>
          have hcheck : checkCode folder v.codeChecks (fileEntry path info) =
              some (fileEntry path info) := by
            rw [checkCode, hpath, if_neg fun hchecked => hcredential (hcode.mp hchecked)]
          exact ⟨_, ⟨⟨fileEntry path info, hentry, hcheck⟩, by simpa [fileEntry] using hkeeps⟩,
            hpath⟩
  · cases hkeeps

theorem exists_order {paths : List String} {start path : String} (hstart : start ∈ paths)
    (hfollows : Follows folder maxLinkHops start path) (hkeeps : keepsFile folder path = true) :
    ∃ order : List String, order.Perm paths ∧
      ∃ e ∈ (scanTouchedFiles folder order).entries, e.path = path := by
  obtain ⟨chain, hnodup, hlength, hhead, hlast, hchain⟩ := hfollows.chain
  cases chain with
  | nil => cases hhead
  | cons first chain =>
      cases hhead
      refine ⟨start :: paths.erase start, (List.perm_cons_erase hstart).symm,
        keepsFile_mem hkeeps ?_⟩
      have hseen : path ∈ (visit folder maxLinkHops start {}).seen :=
        visit_chain hnodup (Nat.le_of_succ_le_succ hlength) (fun q _ => List.not_mem_nil) hlast
          hchain (visited_nil folder)
      rw [List.foldl_cons]
      have hfirst := (visit_visited maxLinkHops start (visited_nil folder)).1
      exact (visitAll_visited _ hfirst).2.1 path hseen

end Touched

end OmniRush.Archive
