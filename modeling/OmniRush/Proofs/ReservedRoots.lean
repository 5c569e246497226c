import OmniRush.Proofs.Touched
import OmniRush.Proofs.TreeWalk

/-!
# The reserved folders

The walk of a folder leaves out six names at the root, a touched scan three of them. A touched
file under one of the other three is archived there, beside what the archiver itself puts
under the same name (`unpacked_checkpoint_twice`); and a link that git ignores is followed to
a file the walk holds, which is then listed twice.

What comes from elsewhere lies under roots of its own, no path twice: each store keeps a path
once. So a capture is as it should be, in every order in which its paths are looked at,
exactly when no touched path leads to such a file (`reserved_and_distinct`).
-/

namespace OmniRush.Archive

open OmniRush

/-! ## The other sources -/

section Elsewhere

variable {entries : List ScannedEntry} {root : String} {lstat : String → Node}

/-- Entries of one root, no path twice. -/
structure Rooted (root : String) (entries : List ScannedEntry) : Prop where
  under : ∀ e ∈ entries, (pathParts e.path).head? = some root
  nodup : (entries.map (·.path)).Nodup

theorem rooted_nil (root : String) : Rooted root [] := ⟨(fun e he => by cases he), .nil⟩

theorem Rooted.sort (h : Rooted root entries) :
    Rooted root (sortByPath (fun e => e.path) entries) where
  under e he := h.under e ((sortByPath_perm _ _).mem_iff.mp he)
  nodup := ((sortByPath_perm _ _).map _).nodup_iff.mpr h.nodup

theorem Rooted.filter (h : Rooted root entries) (keep : ScannedEntry → Bool) :
    Rooted root (entries.filter keep) where
  under e he := h.under e (List.mem_of_mem_filter he)
  nodup := h.nodup.sublist (List.filter_sublist.map _)

theorem rooted_filterMap {α : Type} {l : List α} {entry : α → Option ScannedEntry}
    (path : α → String) (hpath : ∀ a e, entry a = some e → e.path = path a)
    (hunder : ∀ a ∈ l, (pathParts (path a)).head? = some root) (hnodup : (l.map path).Nodup) :
    Rooted root (l.filterMap entry) where
  under e he := by
    obtain ⟨a, ha, he⟩ := List.mem_filterMap.mp he
    rw [hpath a e he]
    exact hunder a ha
  nodup := by
    rw [List.Nodup, List.pairwise_map, List.pairwise_filterMap]
    rw [List.Nodup, List.pairwise_map] at hnodup
    refine hnodup.imp fun hne e he e' he' => ?_
    rwa [hpath _ e he, hpath _ e' he']

theorem outsideArchivePath_head {absolute path : String}
    (h : outsideArchivePath absolute = some path) :
    (pathParts path).head? = some "__outside__" := by
  rw [outsideArchivePath] at h
  split at h
  · cases h
  · simp only [Option.some.injEq] at h
    have hjoin : path = joinPath ["__outside__",
        "/".intercalate (archiveParts (String.ofList (absolute.toList.drop 1)))] := by
      rw [← h, joinPath, String.intercalate_cons_cons, String.intercalate_singleton]
      rfl
    rw [hjoin]
    exact head_joinPath (by decide)

/-- What a visit of the files outside keeps. -/
structure OutsideOnce (v : Visit) : Prop where
  seen : ∀ e ∈ v.entries, e.path ∈ v.seen
  rooted : Rooted "__outside__" v.entries

theorem OutsideOnce.gone {v : Visit} (h : OutsideOnce v) (gone : List String) :
    OutsideOnce { v with gone := gone } := ⟨h.seen, h.rooted⟩

theorem OutsideOnce.leave {v : Visit} (h : OutsideOnce v) (path : String) (gone : List String) :
    OutsideOnce { v with seen := path :: v.seen, gone := gone } :=
  ⟨fun e he => List.mem_cons_of_mem _ (h.seen e he), h.rooted⟩

theorem OutsideOnce.add {v : Visit} (h : OutsideOnce v) {path : String} (hnew : path ∉ v.seen)
    (hpath : (pathParts path).head? = some "__outside__") (info : FileInfo) :
    OutsideOnce { v with
      seen := path :: v.seen, entries := v.entries ++ [fileEntry path info] } where
  seen e he := by
    rcases List.mem_append.mp he with he | he
    · exact List.mem_cons_of_mem _ (h.seen e he)
    · rw [List.mem_singleton.mp he]
      exact List.mem_cons_self ..
  rooted := by
    refine ⟨fun e he => ?_, ?_⟩
    · rcases List.mem_append.mp he with he | he
      · exact h.rooted.under e he
      · rw [List.mem_singleton.mp he]
        exact hpath
    · rw [List.map_append, List.nodup_append]
      refine ⟨h.rooted.nodup, List.nodup_singleton _, ?_⟩
      rintro p hp q hq rfl
      obtain ⟨e, he, rfl⟩ := List.mem_map.mp hp
      have hsame : e.path = path := List.mem_singleton.mp hq
      exact hnew (hsame ▸ h.seen e he)

theorem visitOutside_once (files : OutsideFiles) {v : Visit} (h : OutsideOnce v) (given : String) :
    OutsideOnce (visitOutside files v given) := by
  unfold visitOutside
  split
  · exact h
  · split
    · exact h
    · next lexical _ =>
        split
        · exact h
        · split
          · exact h.gone _
          · split
            · exact h
            · next path hpath =>
                extract_lets u
                have hv : OutsideOnce u := by
                  unfold u
                  split
                  · exact h.gone _
                  · exact h
                clear_value u
                split
                · exact hv
                · next hnew =>
                    split
                    · exact hv.leave _ _
                    · split
                      · exact hv.leave _ _
                      · exact hv.leave _ _
                      · exact hv.leave _ _
                      · exact hv.leave _ _
                      · exact hv.leave _ _
                      · split
                        · exact hv.leave _ _
                        · exact hv.add hnew (outsideArchivePath_head hpath) _

theorem scanOutsideFiles_rooted (files : OutsideFiles) (paths : List String) :
    Rooted "__outside__" (scanOutsideFiles files paths).entries := by
  have hfold : ∀ {v : Visit}, OutsideOnce v → OutsideOnce (paths.foldl (visitOutside files) v) := by
    induction paths with
    | nil => exact fun h => h
    | cons path paths ih => exact fun h => ih (visitOutside_once files h path)
  have honce := hfold (v := {}) ⟨(fun e he => by cases he), rooted_nil _⟩
  exact (honce.rooted.filter _).sort

theorem stagedEntry_path {record : Staged} {e : ScannedEntry}
    (h : stagedEntry lstat record = some e) : e.path = record.path := by
  rw [stagedEntry] at h
  split at h
  · split at h
    · cases h
      rfl
    · cases h
  · cases h

/-- The records of a store: distinct paths of one root. -/
structure StoreOf (root : String) (records : List Staged) : Prop where
  under : ∀ record ∈ records, (pathParts record.path).head? = some root
  nodup : (records.map (·.path)).Nodup

theorem storeOf_nil (root : String) : StoreOf root [] := ⟨(fun r hr => by cases hr), .nil⟩

theorem StoreOf.snoc {records : List Staged} (h : StoreOf root records) {record : Staged}
    (hroot : (pathParts record.path).head? = some root)
    (hnew : record.path ∉ records.map (·.path)) :
    StoreOf root (records ++ [record]) where
  under r hr := by
    rcases List.mem_append.mp hr with hr | hr
    · exact h.under r hr
    · rw [List.mem_singleton.mp hr]
      exact hroot
  nodup := by
    rw [List.map_append, List.nodup_append]
    refine ⟨h.nodup, List.nodup_singleton _, ?_⟩
    rintro p hp q hq rfl
    have hsame : p = record.path := List.mem_singleton.mp hq
    exact hnew (hsame ▸ hp)

theorem StoreOf.filter {records : List Staged} (h : StoreOf root records) (keep : Staged → Bool) :
    StoreOf root (records.filter keep) where
  under r hr := h.under r (List.mem_of_mem_filter hr)
  nodup := h.nodup.sublist (List.filter_sublist.map _)

theorem StoreOf.rooted {records : List Staged} (h : StoreOf root records) :
    Rooted root (records.filterMap (stagedEntry lstat)) :=
  rooted_filterMap (·.path) (fun _ _ => stagedEntry_path) h.under h.nodup

theorem addAttachments_store {stage : AttachmentSource → String → Option Staged}
    {records : List Staged} (h : StoreOf "__attachments__" records)
    (sources : List AttachmentSource) :
    StoreOf "__attachments__" (addAttachments stage records sources) := by
  rw [addAttachments]
  induction sources generalizing records with
  | nil => exact h
  | cons source sources ih =>
      rw [List.foldl_cons]
      refine ih ?_
      simp only
      split
      · exact h
      · next hnew =>
          split
          · exact h
          · exact h.snoc (head_joinPath (by decide)) hnew

theorem isMediaPath_head {path : String} (h : isMediaPath path = true) :
    (pathParts path).head? = some "__media__" := by
  unfold isMediaPath at h
  simp only at h
  split at h
  · next name hparts =>
      rw [hparts]
      rfl
  · next name hparts =>
      rw [hparts]
      rfl
  · cases h

theorem mediaRecords_store (lines : List Staged) : StoreOf "__media__" (mediaRecords lines) := by
  have hfold : ∀ {out : List Staged}, StoreOf "__media__" out →
      StoreOf "__media__" (lines.foldl (fun out record =>
        if isMediaPath record.path && record.path ∉ out.map (·.path) then out ++ [record]
        else out) out) := by
    induction lines with
    | nil => exact fun h => h
    | cons record lines ih =>
        intro out h
        rw [List.foldl_cons]
        refine ih ?_
        split
        · next hnew =>
            rw [Bool.and_eq_true, decide_eq_true_eq] at hnew
            exact h.snoc (isMediaPath_head hnew.1) hnew.2
        · exact h
  exact hfold (storeOf_nil _)

theorem mediaEntries_rooted (lines : List Staged) :
    Rooted "__media__" (mediaEntries lstat lines) := by
  have h := mediaRecords_store lines
  refine (rooted_filterMap (·.path) (fun record e he => ?_) h.under h.nodup).sort
  split at he
  · split at he
    · cases he
      rfl
    · cases he
  · cases he

theorem joinPath_append_inj {a b c c' : String} (h : joinPath [a, b, c] = joinPath [a, b, c']) :
    c = c' := by
  simp only [joinPath, String.intercalate_cons_cons, String.intercalate_singleton] at h
  exact (String.append_right_inj _).mp ((String.append_right_inj _).mp h)

theorem sandboxEntries_rooted (sessionId : String) {checkpoints : List (String × FileInfo)}
    (hdistinct : (checkpoints.map (·.1)).Nodup) :
    Rooted "__sandbox__" (sandboxEntries sessionId checkpoints) := by
  refine rooted_filterMap (fun file => joinPath ["__sandbox__", sessionId, file.1])
    (fun file e he => ?_) (fun file _ => head_joinPath (by decide)) ?_
  · split at he
    · cases he
    · cases he
      rfl
  · have hnames : ((checkpoints.filter fun file => isCheckpointName file.1).map (·.1)).Nodup :=
      hdistinct.sublist (List.filter_sublist.map _)
    rw [List.Nodup, List.pairwise_map] at hnames ⊢
    exact hnames.imp fun hne heq => hne (joinPath_append_inj heq)

theorem stageUse_store {staged : List Staged} (h : StoreOf "__outside__" staged)
    (absolute : String) (record : Staged) :
    StoreOf "__outside__" (stageUse staged absolute record) := by
  rw [stageUse]
  split
  · exact h
  · next path hpath =>
      rw [stageFile]
      split
      · exact h
      · refine (h.filter _).snoc (outsideArchivePath_head hpath) fun hmem => ?_
        obtain ⟨item, hitem, heq⟩ := List.mem_map.mp hmem
        exact of_decide_eq_true (List.mem_filter.mp hitem).2 heq

theorem enclosedEntry_path {scrubConfig : String → Option (List UInt8 × String × Bool)}
    {e moved : ScannedEntry} (h : enclosedEntry scrubConfig e = some moved) :
    moved.path = joinPath ["__enclosing_repo__", ".git", e.path] := by
  rw [enclosedEntry] at h
  split at h
  · cases h
  · cases h
    rfl
  · split at h
    · split at h
      · cases h
      · obtain ⟨scrub, -, rfl⟩ := Option.map_eq_some_iff.mp h
        rfl
    · cases h
      rfl

theorem scanEnclosingGit_rooted (git : Workspace)
    (scrubConfig : String → Option (List UInt8 × String × Bool)) (gitDir : FileInfo) :
    Rooted "__enclosing_repo__" (scanEnclosingGit git scrubConfig gitDir) := by
  have hmoved : Rooted "__enclosing_repo__"
      (git.scanArchiveTree.filterMap (enclosedEntry scrubConfig)) := by
    refine rooted_filterMap (fun e => joinPath ["__enclosing_repo__", ".git", e.path])
      (fun _ _ => enclosedEntry_path) (fun e _ => head_joinPath (by decide)) ?_
    have hnodup := git.scanArchiveTree_nodup
    rw [List.Nodup, List.pairwise_map] at hnodup ⊢
    exact hnodup.imp fun hne heq => hne (joinPath_append_inj heq)
  have hlong : ∀ moved ∈ git.scanArchiveTree.filterMap (enclosedEntry scrubConfig),
      23 < moved.path.toList.length := by
    intro moved hmem
    obtain ⟨e, -, he⟩ := List.mem_filterMap.mp hmem
    rw [enclosedEntry_path he, joinPath, String.intercalate_cons_cons,
      String.intercalate_cons_cons, String.intercalate_singleton]
    simp only [String.toList_append, List.length_append]
    have htop : "__enclosing_repo__".toList.length = 18 := by decide
    have hgit : ".git".toList.length = 4 := by decide
    have hslash : "/".toList.length = 1 := by decide
    omega
  refine ⟨fun e he => ?_, ?_⟩
  · rcases List.mem_append.mp he with he | he
    · rcases List.mem_cons.mp he with rfl | he
      · show (pathParts "__enclosing_repo__").head? = _
        decide +kernel
      · obtain rfl := List.mem_singleton.mp he
        show (pathParts "__enclosing_repo__/.git").head? = _
        decide +kernel
    · exact hmoved.under e he
  · rw [scanEnclosingGit, List.map_append, List.nodup_append]
    have htops : ["__enclosing_repo__", "__enclosing_repo__/.git"].Nodup := by decide
    refine ⟨htops, hmoved.nodup, fun p hp q hq heq => ?_⟩
    obtain ⟨moved, hmem, rfl⟩ := List.mem_map.mp hq
    have hlength := hlong moved hmem
    rw [← heq] at hlength
    have hshort : p ∈ ["__enclosing_repo__", "__enclosing_repo__/.git"] := hp
    rcases List.mem_cons.mp hshort with rfl | hshort
    · exact absurd hlength (by decide)
    · obtain rfl := List.mem_singleton.mp hshort
      exact absurd hlength (by decide)

end Elsewhere

/-! ## The merges -/

section Merges

variable {base entries other : List ScannedEntry} {roots : List String} {root : String}

/-- A scan's entries and others of some roots, no path of theirs twice. -/
def Merged (roots : List String) (base entries : List ScannedEntry) : Prop :=
  ∃ rest : List ScannedEntry, entries.Perm (base ++ rest) ∧ (rest.map (·.path)).Nodup ∧
    ∀ e ∈ rest, ∃ root ∈ roots, (pathParts e.path).head? = some root

theorem merged_refl (base : List ScannedEntry) : Merged [] base base :=
  ⟨[], by rw [List.append_nil], List.nodup_nil, fun e he => by cases he⟩

theorem mergeScans_perm (scan other : TouchedScanResult) :
    (mergeScans scan other).entries.Perm (scan.entries ++ other.entries) := by
  rw [mergeScans]
  simp only
  split
  · next hnone => rw [hnone, List.append_nil]
  · exact sortByPath_perm _ _

theorem Merged.more {scan : TouchedScanResult} (h : Merged roots base scan.entries)
    (other : TouchedScanResult) (hother : Rooted root other.entries) (hroot : root ∉ roots) :
    Merged (root :: roots) base (mergeScans scan other).entries := by
  obtain ⟨rest, hperm, hnodup, hunder⟩ := h
  refine ⟨rest ++ other.entries, ?_, ?_, fun e he => ?_⟩
  · rw [← List.append_assoc]
    exact (mergeScans_perm scan other).trans (hperm.append_right _)
  · rw [List.map_append, List.nodup_append]
    refine ⟨hnodup, hother.nodup, ?_⟩
    rintro p hp q hq rfl
    obtain ⟨e, he, rfl⟩ := List.mem_map.mp hp
    obtain ⟨e', he', heq⟩ := List.mem_map.mp hq
    obtain ⟨root', hroot', hhead⟩ := hunder e he
    have hhead' := hother.under e' he'
    rw [show e'.path = e.path from heq, hhead] at hhead'
    cases hhead'
    exact hroot hroot'
  · rcases List.mem_append.mp he with he | he
    · obtain ⟨root', hroot', hhead⟩ := hunder e he
      exact ⟨root', List.mem_cons_of_mem _ hroot', hhead⟩
    · exact ⟨root, List.mem_cons_self .., hother.under e he⟩

theorem Merged.mono {roots' : List String} (h : Merged roots base entries) (hle : roots ⊆ roots') :
    Merged roots' base entries := by
  obtain ⟨rest, hperm, hnodup, hunder⟩ := h
  refine ⟨rest, hperm, hnodup, fun e he => ?_⟩
  obtain ⟨root, hroot, hhead⟩ := hunder e he
  exact ⟨root, hle hroot, hhead⟩

theorem Merged.moreIf {scan : TouchedScanResult} (h : Merged roots base scan.entries)
    (other : TouchedScanResult) (hother : Rooted root other.entries) (hroot : root ∉ roots)
    (flag : Bool) :
    Merged (root :: roots) base (if flag then mergeScans scan other else scan).entries := by
  cases flag with
  | true => exact h.more other hother hroot
  | false => exact h.mono fun root' => List.mem_cons_of_mem _

/-- Staged copies take the place of what has their path, and no workspace file has. -/
theorem Merged.staged {scan : TouchedScanResult} (h : Merged roots base scan.entries)
    {staged : List ScannedEntry} (hstaged : Rooted root staged) (hroot : root ∈ roots)
    (hbase : ∀ e ∈ base, (pathParts e.path).head? ≠ some root) :
    Merged roots base (mergeStaged scan staged).entries := by
  rw [mergeStaged]
  split
  · exact h
  · obtain ⟨rest, hperm, hnodup, hunder⟩ := h
    have hkept : base.filter (fun e => e.path ∉ staged.map (·.path)) = base := by
      refine List.filter_eq_self.mpr fun e he => decide_eq_true fun hmem => ?_
      obtain ⟨e', he', heq⟩ := List.mem_map.mp hmem
      exact hbase e he (heq ▸ hstaged.under e' he')
    refine ⟨rest.filter (fun e => e.path ∉ staged.map (·.path)) ++ staged, ?_, ?_, fun e he => ?_⟩
    · refine (sortByPath_perm _ _).trans ?_
      rw [← List.append_assoc]
      refine List.Perm.append_right _ ((hperm.filter _).trans ?_)
      rw [List.filter_append, hkept]
    · rw [List.map_append, List.nodup_append]
      refine ⟨hnodup.sublist (List.filter_sublist.map _), hstaged.nodup, ?_⟩
      rintro p hp q hq rfl
      obtain ⟨e, he, rfl⟩ := List.mem_map.mp hp
      exact of_decide_eq_true (List.mem_filter.mp he).2 hq
    · rcases List.mem_append.mp he with he | he
      · exact hunder e (List.mem_of_mem_filter he)
      · exact ⟨root, hroot, hstaged.under e he⟩

/-- With no workspace file in a reserved folder, a merge has a path twice only where the
scan has. -/
theorem Merged.nodup_iff (h : Merged roots base entries) (hroots : roots ⊆ reservedNames)
    (hbase : ∀ e ∈ base, inReserved e.path = false) :
    (entries.map (·.path)).Nodup ↔ (base.map (·.path)).Nodup := by
  obtain ⟨rest, hperm, hnodup, hunder⟩ := h
  rw [(hperm.map _).nodup_iff, List.map_append, List.nodup_append]
  refine ⟨fun h => h.1, fun h => ⟨h, hnodup, ?_⟩⟩
  rintro p hp q hq rfl
  obtain ⟨e, he, rfl⟩ := List.mem_map.mp hp
  obtain ⟨e', he', heq⟩ := List.mem_map.mp hq
  obtain ⟨root, hroot, hhead⟩ := hunder e' he'
  have hclean := hbase e he
  rw [inReserved, ← show e'.path = e.path from heq, hhead, Option.any_some] at hclean
  exact of_decide_eq_false hclean (hroots hroot)

theorem notReserved_head {path : String} (h : inReserved path = false)
    (hroot : root ∈ reservedNames) : (pathParts path).head? ≠ some root := by
  intro hhead
  rw [inReserved, hhead, Option.any_some] at h
  exact of_decide_eq_false h hroot

variable (s : Sources)

theorem Sources.scanOutside_rooted : Rooted "__outside__" s.scanOutside.entries := by
  rw [Sources.scanOutside]
  split
  · exact rooted_nil _
  · exact scanOutsideFiles_rooted _ _

theorem Sources.attachmentRecords_store : StoreOf "__attachments__" s.attachmentRecords := by
  rw [Sources.attachmentRecords]
  generalize s.attachments = adds
  have hfold : ∀ {records : List Staged}, StoreOf "__attachments__" records →
      StoreOf "__attachments__" (adds.foldl (fun records add =>
        addAttachments add.1 records add.2) records) := by
    induction adds with
    | nil => exact fun h => h
    | cons add adds ih => exact fun h => ih (addAttachments_store h add.2)
  exact hfold (storeOf_nil _)

theorem Sources.stagedUses_store : StoreOf "__outside__" s.stagedUses := by
  rw [Sources.stagedUses]
  generalize s.filesUsed = uses
  have hfold : ∀ {staged : List Staged}, StoreOf "__outside__" staged →
      StoreOf "__outside__" (uses.foldl (fun staged used => stageUse staged used.1 used.2)
        staged) := by
    induction uses with
    | nil => exact fun h => h
    | cons used uses ih => exact fun h => ih (stageUse_store h used.1 used.2)
  exact hfold (storeOf_nil _)

theorem Sources.checkpoints_rooted :
    Rooted "__sandbox__" (sandboxEntries s.sessionId (s.checkpoints.getD [])) := by
  cases hfiles : s.checkpoints with
  | none => exact rooted_nil _
  | some files => exact sandboxEntries_rooted _ (s.distinct files hfiles)

theorem Sources.merge_merged (v2 filesUsed : Bool) (scan : TouchedScanResult)
    (hbase : ∀ e ∈ scan.entries, inReserved e.path = false) :
    Merged ["__sandbox__", "__media__", "__attachments__", "__outside__"] scan.entries
      (s.merge v2 filesUsed scan).entries := by
  have houtside : Merged ["__outside__"] scan.entries (mergeScans scan s.scanOutside).entries :=
    (merged_refl scan.entries).more s.scanOutside s.scanOutside_rooted (by decide)
  have hattachments := houtside.moreIf
      ({ entries := attachmentEntries s.lstat s.attachmentRecords } : TouchedScanResult)
    s.attachmentRecords_store.rooted.sort (by decide) v2
  have hmedia := hattachments.moreIf { entries := mediaEntries s.lstat s.media }
    (mediaEntries_rooted s.media) (by decide) v2
  have hsandbox := hmedia.more { entries := sandboxEntries s.sessionId (s.checkpoints.getD []) }
    s.checkpoints_rooted (by decide)
  rw [Sources.merge]
  cases filesUsed with
  | false => exact hsandbox
  | true =>
      exact hsandbox.staged s.stagedUses_store.rooted (by decide)
        fun e he => notReserved_head (hbase e he) (by decide)

theorem Sources.mergeWhole_merged (v2 filesUsed : Bool) (scan : TouchedScanResult)
    (hbase : ∀ e ∈ scan.entries, inReserved e.path = false) :
    Merged ["__enclosing_repo__", "__sandbox__", "__media__", "__attachments__", "__outside__"]
      scan.entries (s.mergeWhole v2 filesUsed scan).entries := by
  have hmerged := s.merge_merged v2 filesUsed scan hbase
  rw [Sources.mergeWhole]
  cases s.enclosing with
  | none => exact hmerged.mono fun root => List.mem_cons_of_mem _
  | some repo =>
      obtain ⟨git, scrubConfig, gitDir⟩ := repo
      exact hmerged.moreIf { entries := scanEnclosingGit git scrubConfig gitDir }
        (scanEnclosingGit_rooted git scrubConfig gitDir) (by decide) v2

end Merges

/-! ## The two captures -/

section Captures

variable {w : Workspace} {folder : Folder} {v2 filesUsed : Bool} {touched : List String}
  {baseline : List ArchiveEntry}

theorem dirState_scanned (above parts : List String) :
    dirState w.scanned above parts = dirState w.folder above parts := by
  induction parts generalizing above with
  | nil => rfl
  | cons part parts ih =>
      rw [dirState, dirState, ih]
      rfl

theorem lookedAt_scanned (path : String) : lookedAt w.scanned path = lookedAt w.folder path := by
  simp only [lookedAt, dirState_scanned]
  rfl

theorem keepsFile_scanned (path : String) : keepsFile w.scanned path = keepsFile w.folder path := by
  simp only [keepsFile, lookedAt_scanned]
  rfl

theorem overSize_scanned (path : String) : overSize w.scanned path = overSize w.folder path := by
  simp only [overSize, lookedAt_scanned]
  rfl

theorem follows_scanned {hops : Nat} {start path : String} :
    Follows w.scanned hops start path ↔ Follows w.folder hops start path := by
  constructor
  · intro h
    induction h with
    | here hops path => exact .here hops path
    | link hlink _ ih => exact .link (lookedAt_scanned _ ▸ hlink) ih
  · intro h
    induction h with
    | here hops path => exact .here hops path
    | link hlink _ ih => exact .link ((lookedAt_scanned _).trans hlink) ih

/-- No touched path or lockfile that the walk does not hold leads to a file that is kept and
lies in a reserved folder, or that the walk holds too. -/
def WholeClear (w : Workspace) (v2 : Bool) (touched : List String) : Prop :=
  ∀ start ∈ touched.filter (fun path => if v2 then !inGitDir path else !inRegenerableDir path)
      ++ w.folder.lockfiles.filter (fun path => !inRegenerableDir path),
    ¬ w.Holds start → ∀ path, Follows w.folder maxLinkHops start path →
      keepsFile w.folder path = true →
        (inReserved path = true → v2 = true ∧ overSize w.folder path = true) ∧ ¬ w.Holds path

/-- No path of a touched-files capture leads to a file that is kept and lies in a reserved
folder. -/
def TouchedClear (folder : Folder) (v2 : Bool) (touched : List String)
    (baseline : List ArchiveEntry) : Prop :=
  ∀ start ∈ touchedPaths folder v2 touched baseline, ∀ path,
    Follows folder maxLinkHops start path → keepsFile folder path = true →
      inReserved path = true → v2 = true ∧ overSize folder path = true

theorem mem_keepers {start : String} : start ∈ keepers w.scanned v2 touched ↔
    start ∈ touched.filter (fun path => if v2 then !inGitDir path else !inRegenerableDir path)
      ++ w.folder.lockfiles.filter (fun path => !inRegenerableDir path) ∧ ¬ w.Holds start := by
  rw [keepers, List.mem_filter, decide_eq_true_eq, show w.scanned.tree = w.scanArchiveTree from rfl,
    Workspace.mem_paths]
  rfl

theorem scanKeepers_perm (w : Workspace) (v2 : Bool) (order : List String) :
    ∃ kept : List ScannedEntry, (scanKeepers w.scanned v2 order).Perm (w.scanArchiveTree ++ kept) ∧
      (kept.map (·.path)).Nodup ∧
      ∀ e, e ∈ kept ↔ e ∈ (scanTouchedFiles w.scanned order).entries ∧
        (v2 = true → w.Holds e.path ∨ e.size ≤ maxTouchedFileBytes) := by
  have hnodup := scanTouchedFiles_nodup w.scanned order
  refine ⟨if v2 then capOversized (w.scanned.tree.map (·.path))
    (scanTouchedFiles w.scanned order).entries else (scanTouchedFiles w.scanned order).entries,
    ?_, ?_, fun e => ?_⟩
  · rw [scanKeepers]
    split
    · next hnone =>
        subst hnone
        have hempty : (scanTouchedFiles w.scanned []).entries = [] := rfl
        rw [hempty]
        cases v2 <;> exact (List.append_nil _).symm ▸ .refl _
    · extract_lets all kept
      show List.Perm (if kept = [] then _ else _) (w.scanArchiveTree ++ kept)
      split
      · next hnone =>
          rw [hnone, List.append_nil]
          exact .refl _
      · exact sortByPath_perm _ _
  · cases v2 with
    | true => exact hnodup.sublist (List.filter_sublist.map _)
    | false => exact hnodup
  · cases v2 with
    | true =>
        rw [if_pos rfl, capOversized, List.mem_filter, Bool.or_eq_true, decide_eq_true_eq,
          decide_eq_true_eq, show w.scanned.tree = w.scanArchiveTree from rfl, Workspace.mem_paths]
        exact and_congr_right fun _ => ⟨fun h _ => h, fun h => h rfl⟩
    | false =>
        rw [if_neg (by decide)]
        exact (and_iff_left fun h => by cases h).symm

theorem mem_scanTouched {paths : List String} {e : ScannedEntry} :
    e ∈ (scanTouched folder v2 paths).entries ↔ e ∈ (scanTouchedFiles folder paths).entries ∧
      (v2 = true → e.size ≤ maxTouchedFileBytes) := by
  cases v2 with
  | true =>
      show e ∈ capOversized [] _ ↔ _
      rw [capOversized, List.mem_filter, Bool.or_eq_true, decide_eq_true_eq, decide_eq_true_eq]
      exact and_congr_right fun _ =>
        ⟨fun h _ => h.resolve_left List.not_mem_nil, fun h => .inr (h rfl)⟩
  | false => exact (and_iff_left fun h => by cases h).symm

theorem scanTouched_nodup (paths : List String) :
    ((scanTouched folder v2 paths).entries.map (·.path)).Nodup := by
  have hnodup := scanTouchedFiles_nodup folder paths
  cases v2 with
  | true => exact hnodup.sublist (List.filter_sublist.map _)
  | false => exact hnodup

theorem whole_clear_iff (s : Sources) :
    (∀ order : List String, order.Perm (keepers w.scanned v2 touched) →
      (∀ e ∈ scanKeepers w.scanned v2 order, inReserved e.path = false) ∧
        ((s.mergeWhole v2 filesUsed { entries := scanKeepers w.scanned v2 order }).entries.map
          (·.path)).Nodup) ↔ WholeClear w v2 touched := by
  constructor
  · intro hall start hstart hnot path hfollows hkeeps
    have hkeeper := mem_keepers.mpr ⟨hstart, hnot⟩
    obtain ⟨order, hperm, e, he, rfl⟩ := exists_order hkeeper (follows_scanned.mpr hfollows)
      ((keepsFile_scanned path).trans hkeeps)
    obtain ⟨hclean, hnodup⟩ := hall order hperm
    have hbase := ((s.mergeWhole_merged v2 filesUsed
      { entries := scanKeepers w.scanned v2 order } hclean).nodup_iff (by decide)
        hclean).mp hnodup
    obtain ⟨kept, hkept, -, hmem⟩ := scanKeepers_perm w v2 order
    have hsize := (mem_scanTouchedFiles he).2.2
    rw [overSize_scanned] at hsize
    constructor
    · intro hreserved
      by_contra hsmall
      rw [not_and] at hsmall
      have hin : e ∈ kept := (hmem e).mpr ⟨he, fun hv2 => .inr (by
        have := hsmall hv2
        rw [hsize] at this
        omega)⟩
      have := hclean e (hkept.mem_iff.mpr (List.mem_append_right _ hin))
      rw [hreserved] at this
      cases this
    · intro hholds
      have hin : e ∈ kept := (hmem e).mpr ⟨he, fun _ => .inl hholds⟩
      have hsplit := (hkept.map (·.path)).nodup_iff.mp hbase
      rw [List.map_append, List.nodup_append] at hsplit
      exact hsplit.2.2 _ (Workspace.mem_paths.mpr hholds) _ (List.mem_map_of_mem hin) rfl
  · intro hclear order hperm
    obtain ⟨kept, hkept, hkeptNodup, hmem⟩ := scanKeepers_perm w v2 order
    have hkeptClear : ∀ e ∈ kept, inReserved e.path = false ∧ ¬ w.Holds e.path := by
      intro e he
      obtain ⟨he, hcap⟩ := (hmem e).mp he
      obtain ⟨⟨start, hstart, hfollows⟩, hkeeps, hsize⟩ := mem_scanTouchedFiles he
      rw [keepsFile_scanned] at hkeeps
      rw [overSize_scanned] at hsize
      obtain ⟨hstart, hnot⟩ := mem_keepers.mp (hperm.mem_iff.mp hstart)
      obtain ⟨hreserved, hholds⟩ := hclear start hstart hnot e.path (follows_scanned.mp hfollows)
        hkeeps
      refine ⟨Bool.eq_false_iff.mpr fun h => ?_, hholds⟩
      obtain ⟨hv2, hover⟩ := hreserved h
      have hle := (hcap hv2).resolve_left hholds
      have hlt := hsize.mp hover
      omega
    have hclean : ∀ e ∈ scanKeepers w.scanned v2 order, inReserved e.path = false := by
      intro e he
      rcases List.mem_append.mp (hkept.mem_iff.mp he) with he | he
      · exact (Workspace.mem_paths.mp (List.mem_map_of_mem he)).notReserved
      · exact (hkeptClear e he).1
    refine ⟨hclean, ((s.mergeWhole_merged v2 filesUsed
      { entries := scanKeepers w.scanned v2 order } hclean).nodup_iff (by decide)
        hclean).mpr ?_⟩
    rw [(hkept.map _).nodup_iff, List.map_append, List.nodup_append]
    refine ⟨w.scanArchiveTree_nodup, hkeptNodup, ?_⟩
    rintro p hp q hq rfl
    obtain ⟨e, he, rfl⟩ := List.mem_map.mp hq
    exact (hkeptClear e he).2 (Workspace.mem_paths.mp hp)

theorem touched_clear_iff (s : Sources) :
    (∀ order : List String, order.Perm (touchedPaths folder v2 touched baseline) →
      (∀ e ∈ (scanTouched folder v2 order).entries, inReserved e.path = false) ∧
        ((s.merge v2 filesUsed (scanTouched folder v2 order)).entries.map (·.path)).Nodup) ↔
      TouchedClear folder v2 touched baseline := by
  constructor
  · intro hall start hstart path hfollows hkeeps hreserved
    obtain ⟨order, hperm, e, he, rfl⟩ := exists_order hstart hfollows hkeeps
    have hclean := (hall order hperm).1
    have hsize := (mem_scanTouchedFiles he).2.2
    by_contra hsmall
    rw [not_and, hsize, not_lt] at hsmall
    have := hclean e (mem_scanTouched.mpr ⟨he, hsmall⟩)
    rw [hreserved] at this
    cases this
  · intro hclear order hperm
    have hclean : ∀ e ∈ (scanTouched folder v2 order).entries, inReserved e.path = false := by
      intro e he
      obtain ⟨he, hcap⟩ := mem_scanTouched.mp he
      obtain ⟨⟨start, hstart, hfollows⟩, hkeeps, hsize⟩ := mem_scanTouchedFiles he
      refine Bool.eq_false_iff.mpr fun hreserved => ?_
      obtain ⟨hv2, hover⟩ := hclear start (hperm.mem_iff.mp hstart) e.path hfollows hkeeps hreserved
      exact absurd (hsize.mp hover) (not_lt.mpr (hcap hv2))
    exact ⟨hclean, ((s.merge_merged v2 filesUsed _ hclean).nodup_iff (by decide) hclean).mpr
      (scanTouched_nodup order)⟩

/-- The walk archives nothing in a reserved folder. In every order of the paths that are looked
at, neither kind of capture does and its merged entries name no path twice, exactly when no
path leads to such a file, and, for a whole folder, none to a file the walk holds. -/
theorem reserved_and_distinct (w : Workspace) (v2 filesUsed : Bool) (touched : List String)
    (baseline : List ArchiveEntry) (s : Sources) :
    (∀ e ∈ w.scanArchiveTree, inReserved e.path = false) ∧
      ((∀ order : List String, order.Perm (keepers w.scanned v2 touched) →
        (∀ e ∈ scanKeepers w.scanned v2 order, inReserved e.path = false) ∧
          ((s.mergeWhole v2 filesUsed { entries := scanKeepers w.scanned v2 order }).entries.map
            (·.path)).Nodup) ↔ WholeClear w v2 touched) ∧
      ((∀ order : List String, order.Perm (touchedPaths w.folder v2 touched baseline) →
        (∀ e ∈ (scanTouched w.folder v2 order).entries, inReserved e.path = false) ∧
          ((s.merge v2 filesUsed (scanTouched w.folder v2 order)).entries.map (·.path)).Nodup) ↔
        TouchedClear w.folder v2 touched baseline) :=
  ⟨fun _ he => (Workspace.mem_paths.mp (List.mem_map_of_mem he)).notReserved,
    whole_clear_iff s, touched_clear_iff s⟩

end Captures

/-! ## A checkpoint twice -/

/-- A folder with a copy of the box's checkpoints, as an unpacked archive leaves them. -/
def unpackedFolder : Folder where
  lstat := fun path =>
    if path = "__sandbox__" ∨ path = "__sandbox__/chat-001" then .dir
    else if path = "__sandbox__/chat-001/final.json" then
      .file { mode := 0o644, size := 1, sha256 := some "aa" }
    else .missing

def boxSources : Sources where
  lstat _ := .missing
  outside :=
    { lstat := fun _ => .missing, inRoot := fun _ => false, exclusion := fun _ => false,
      canonicalFile := fun _ => none }
  sessionId := "chat-001"
  checkpoints := some [("final.json", { mode := 0o644, size := 2, sha256 := some "bb" })]
  distinct files h := by
    cases h
    decide

/-- The copy was touched: it is archived in the reserved folder, and the box's own file under
the same path. -/
theorem unpacked_checkpoint_twice :
    let scan := scanTouched unpackedFolder false
      (touchedPaths unpackedFolder false ["__sandbox__/chat-001/final.json"] [])
    scan.entries.map (·.path) = ["__sandbox__/chat-001/final.json"] ∧
      inReserved "__sandbox__/chat-001/final.json" = true ∧
      (boxSources.merge false false scan).entries.map (·.path) =
        ["__sandbox__/chat-001/final.json", "__sandbox__/chat-001/final.json"] := by
  decide +kernel

end OmniRush.Archive
