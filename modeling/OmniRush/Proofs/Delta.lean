import OmniRush.Archive.Touched
import OmniRush.Lib.Patch

/-!
# What the delta says

`computeArchiveDelta` sorts both lists where they are not sorted and merges
them once. On lists that name no path twice the merge visits every path, so its
result can be read off without the loop: `files` are the scanned entries that no
equal baseline entry stands against, `deleted` the baseline paths the scan does
not have.

`computeArchiveDelta_leads` puts that as a patch from the baseline to the scan.
Both lists have to be free of repeats: the merge drops one baseline entry for each
scanned one, so an entry the baseline lists twice and the scan once is deleted.
-/

namespace OmniRush.Archive

open OmniRush

/-! ## Sorting -/

/-- No path twice, and in path order. -/
def Ascends {α : Type} (path : α → String) (l : List α) : Prop :=
  l.Pairwise fun a b => compareArchivePaths (path a) (path b) < 0

theorem pathsAscend_ascends {α : Type} {path : α → String} {l : List α}
    (h : pathsAscend path l = true) : Ascends path l := by
  induction l with
  | nil => exact List.Pairwise.nil
  | cons a l ih =>
      cases l with
      | nil => exact List.pairwise_singleton _ _
      | cons b rest =>
          simp only [pathsAscend, Bool.and_eq_true, decide_eq_true_eq] at h
          have hrest := ih h.2
          refine List.pairwise_cons.mpr ⟨fun c hc => ?_, hrest⟩
          rcases List.mem_cons.mp hc with rfl | hc
          · exact h.1
          · exact compareArchivePaths_trans h.1 ((List.pairwise_cons.mp hrest).1 c hc)

theorem sortByPath_perm {α : Type} (path : α → String) (l : List α) :
    (sortByPath path l).Perm l := List.perm_insertionSort _ _

theorem sortByPath_ascends {α : Type} {path : α → String} {l : List α}
    (hnd : (l.map path).Nodup) : Ascends path (sortByPath path l) := by
  let le : α → α → Prop := fun a b => compareArchivePaths (path a) (path b) ≤ 0
  have htotal : Std.Total le := ⟨fun a b => by
    have h := compareArchivePaths_neg (path a) (path b)
    show compareArchivePaths (path a) (path b) ≤ 0 ∨ compareArchivePaths (path b) (path a) ≤ 0
    omega⟩
  have htrans : IsTrans α le := ⟨fun a b c hab hbc => by
    rcases Int.lt_or_eq_of_le hab with h | h
    · rcases Int.lt_or_eq_of_le hbc with h' | h'
      · exact Int.le_of_lt (compareArchivePaths_trans h h')
      · show compareArchivePaths (path a) (path c) ≤ 0
        rwa [← compareArchivePaths_eq_zero.mp h']
    · show compareArchivePaths (path a) (path c) ≤ 0
      rwa [compareArchivePaths_eq_zero.mp h]⟩
  have hsorted : (sortByPath path l).Pairwise le := List.pairwise_insertionSort le l
  have hnd' : ((sortByPath path l).map path).Nodup :=
    ((sortByPath_perm path l).map path).nodup_iff.mpr hnd
  have hne : (sortByPath path l).Pairwise fun a b => path a ≠ path b :=
    List.pairwise_map.mp hnd'
  refine (hsorted.and hne).imp fun {a b} h => ?_
  have hzero : compareArchivePaths (path a) (path b) ≠ 0 :=
    fun h0 => h.2 (compareArchivePaths_eq_zero.mp h0)
  have hle : compareArchivePaths (path a) (path b) ≤ 0 := h.1
  omega

theorem sortedByPath_perm {α : Type} (path : α → String) (l : List α) :
    (sortedByPath path l).Perm l := by
  unfold sortedByPath
  split
  · exact List.Perm.refl _
  · exact sortByPath_perm path l

theorem sortedByPath_ascends {α : Type} {path : α → String} {l : List α}
    (hnd : (l.map path).Nodup) : Ascends path (sortedByPath path l) := by
  unfold sortedByPath
  split
  · next h => exact pathsAscend_ascends h
  · exact sortByPath_ascends hnd

/-! ## The merge -/

theorem Ascends.notMem_of_lt {α : Type} {path : α → String} {a : α} {l : List α} {p : String}
    (h : Ascends path (a :: l)) (hp : compareArchivePaths p (path a) < 0) :
    p ∉ (a :: l).map path := by
  intro hmem
  obtain ⟨b, hb, rfl⟩ := List.mem_map.mp hmem
  rcases List.mem_cons.mp hb with rfl | hb
  · rw [compareArchivePaths_self] at hp
    omega
  · have hlt := compareArchivePaths_trans ((List.pairwise_cons.mp h).1 b hb) hp
    rw [compareArchivePaths_self] at hlt
    omega

theorem Ascends.head_notMem {α : Type} {path : α → String} {a : α} {l : List α}
    (h : Ascends path (a :: l)) : path a ∉ l.map path := by
  intro hmem
  obtain ⟨b, hb, hpath⟩ := List.mem_map.mp hmem
  have hlt := (List.pairwise_cons.mp h).1 b hb
  rw [hpath, compareArchivePaths_self] at hlt
  omega

/-- Equal first paths are in neither rest, so dropping both drops no deletion. -/
theorem equal_heads {old : ArchiveEntry} {previous : List ArchiveEntry} {now : ScannedEntry}
    {scanned : List ScannedEntry} (hp : Ascends ArchiveEntry.path (old :: previous))
    (heq : old.path = now.path) (p : String) :
    p ∈ previous.map (·.path) ∧ p ∉ scanned.map (·.path) ↔
      p ∈ (old :: previous).map (·.path) ∧ p ∉ (now :: scanned).map (·.path) := by
  have hhead := hp.head_notMem
  simp only [List.map_cons, List.mem_cons, ← heq]
  constructor
  · rintro ⟨hmem, hn⟩
    exact ⟨.inr hmem, fun h => h.elim (fun h => hhead (h ▸ hmem)) hn⟩
  · rintro ⟨hmem, hn⟩
    exact ⟨hmem.resolve_left fun h => hn (.inl h), fun h => hn (.inr h)⟩

theorem mem_mergeDelta_deleted {previous : List ArchiveEntry} {scanned : List ScannedEntry}
    (hp : Ascends ArchiveEntry.path previous) (hs : Ascends (fun e : ScannedEntry => e.path) scanned)
    (p : String) :
    p ∈ (mergeDelta previous scanned).deleted ↔
      p ∈ previous.map (·.path) ∧ p ∉ scanned.map (·.path) := by
  induction previous, scanned using mergeDelta.induct with
  | case1 scanned => simp [mergeDelta]
  | case2 old previous => simp [mergeDelta]
  | case3 old previous now scanned order hlt ih =>
      have hnot : old.path ∉ (now :: scanned).map (·.path) := hs.notMem_of_lt hlt
      simp only [mergeDelta, order, if_pos hlt, List.mem_cons, List.map_cons,
        ih (List.pairwise_cons.mp hp).2 hs] at hnot ⊢
      constructor
      · rintro (rfl | ⟨hmem, hn⟩)
        · exact ⟨.inl rfl, hnot⟩
        · exact ⟨.inr hmem, hn⟩
      · rintro ⟨h | h, hn⟩
        · exact .inl h
        · exact .inr ⟨h, hn⟩
  | case4 old previous now scanned order hlt hgt ih =>
      have hgt' : compareArchivePaths now.path old.path < 0 := by
        rw [compareArchivePaths_neg old.path now.path]
        show -order < 0
        omega
      have hnot : now.path ∉ (old :: previous).map (·.path) := hp.notMem_of_lt hgt'
      rw [mergeDelta, if_neg hlt, if_pos hgt, ih hp (List.pairwise_cons.mp hs).2]
      simp only [List.map_cons, List.mem_cons] at hnot ⊢
      constructor
      · rintro ⟨hmem, hn⟩
        exact ⟨hmem, fun h => h.elim (fun h => hnot (h ▸ hmem)) hn⟩
      · rintro ⟨hmem, hn⟩
        exact ⟨hmem, fun h => hn (.inr h)⟩
  | case5 old previous now scanned order hlt hgt hmod ih =>
      rw [mergeDelta, if_neg hlt, if_neg hgt, if_pos hmod,
        ih (List.pairwise_cons.mp hp).2 (List.pairwise_cons.mp hs).2]
      exact equal_heads hp (compareArchivePaths_eq_zero.mp (by omega)) p
  | case6 old previous now scanned order hlt hgt hmod ih =>
      rw [mergeDelta, if_neg hlt, if_neg hgt, if_neg hmod,
        ih (List.pairwise_cons.mp hp).2 (List.pairwise_cons.mp hs).2]
      exact equal_heads hp (compareArchivePaths_eq_zero.mp (by omega)) p

theorem mem_mergeDelta_files {previous : List ArchiveEntry} {scanned : List ScannedEntry}
    (hp : Ascends ArchiveEntry.path previous) (hs : Ascends (fun e : ScannedEntry => e.path) scanned)
    (e : ScannedEntry) :
    e ∈ (mergeDelta previous scanned).files ↔
      e ∈ scanned ∧ ∀ old ∈ previous, old.path = e.path →
        isArchiveEntryModified old e.toArchiveEntry = true := by
  induction previous, scanned using mergeDelta.induct with
  | case1 scanned => simp [mergeDelta]
  | case2 old previous => simp [mergeDelta]
  | case3 old previous now scanned order hlt ih =>
      have hnot : old.path ∉ (now :: scanned).map (·.path) := hs.notMem_of_lt hlt
      rw [mergeDelta, if_pos hlt, ih (List.pairwise_cons.mp hp).2 hs]
      refine and_congr_right fun hmem => ?_
      have hne : old.path ≠ e.path := fun h => hnot (h ▸ List.mem_map_of_mem hmem)
      simp [hne]
  | case4 old previous now scanned order hlt hgt ih =>
      have hgt' : compareArchivePaths now.path old.path < 0 := by
        rw [compareArchivePaths_neg old.path now.path]
        show -order < 0
        omega
      have hnot : now.path ∉ (old :: previous).map (·.path) := hp.notMem_of_lt hgt'
      rw [mergeDelta, if_neg hlt, if_pos hgt]
      simp only [List.mem_cons, ih hp (List.pairwise_cons.mp hs).2]
      constructor
      · rintro (rfl | ⟨hmem, hmod⟩)
        · refine ⟨.inl rfl, fun b hb hpath => ?_⟩
          exact absurd (hpath ▸ List.mem_map_of_mem (List.mem_cons.mpr hb)) hnot
        · exact ⟨.inr hmem, hmod⟩
      · rintro ⟨rfl | hmem, hmod⟩
        · exact .inl rfl
        · exact .inr ⟨hmem, hmod⟩
  | case5 old previous now scanned order hlt hgt hmod ih =>
      have heq : old.path = now.path := compareArchivePaths_eq_zero.mp (by omega)
      have hnow : ∀ b ∈ previous, b.path ≠ now.path := fun b hb h =>
        hp.head_notMem (List.mem_map.mpr ⟨b, hb, by rw [h, heq]⟩)
      rw [mergeDelta, if_neg hlt, if_neg hgt, if_pos hmod]
      simp only [List.mem_cons, forall_eq_or_imp,
        ih (List.pairwise_cons.mp hp).2 (List.pairwise_cons.mp hs).2]
      constructor
      · rintro (rfl | ⟨hmem, hall⟩)
        · exact ⟨.inl rfl, fun _ => hmod, fun b hb h => absurd h (hnow b hb)⟩
        · have hne : old.path ≠ e.path := fun h =>
            hs.head_notMem (List.mem_map.mpr ⟨e, hmem, by rw [← h, heq]⟩)
          exact ⟨.inr hmem, fun h => absurd h hne, hall⟩
      · rintro ⟨rfl | hmem, -, hall⟩
        · exact .inl rfl
        · exact .inr ⟨hmem, hall⟩
  | case6 old previous now scanned order hlt hgt hmod ih =>
      have heq : old.path = now.path := compareArchivePaths_eq_zero.mp (by omega)
      rw [mergeDelta, if_neg hlt, if_neg hgt, if_neg hmod]
      simp only [List.mem_cons, forall_eq_or_imp,
        ih (List.pairwise_cons.mp hp).2 (List.pairwise_cons.mp hs).2]
      constructor
      · rintro ⟨hmem, hall⟩
        have hne : old.path ≠ e.path := fun h =>
          hs.head_notMem (List.mem_map.mpr ⟨e, hmem, by rw [← h, heq]⟩)
        exact ⟨.inr hmem, fun h => absurd h hne, hall⟩
      · rintro ⟨rfl | hmem, hold, hall⟩
        · exact absurd (hold heq) hmod
        · exact ⟨hmem, hall⟩

/-! ## The delta -/

section Delta

variable {baseline : List ArchiveEntry} {current : List ScannedEntry}

theorem mem_computeArchiveDelta_deleted (hb : (baseline.map (·.path)).Nodup)
    (hc : (current.map (·.path)).Nodup) (p : String) :
    p ∈ (computeArchiveDelta baseline current).deleted ↔
      p ∈ baseline.map (·.path) ∧ p ∉ current.map (·.path) := by
  rw [computeArchiveDelta, mem_mergeDelta_deleted (sortedByPath_ascends hb)
    (sortedByPath_ascends hc), ((sortedByPath_perm _ _).map _).mem_iff,
    ((sortedByPath_perm _ _).map _).mem_iff]

theorem mem_computeArchiveDelta_files (hb : (baseline.map (·.path)).Nodup)
    (hc : (current.map (·.path)).Nodup) (e : ScannedEntry) :
    e ∈ (computeArchiveDelta baseline current).files ↔
      e ∈ current ∧ ∀ old ∈ baseline, old.path = e.path →
        isArchiveEntryModified old e.toArchiveEntry = true := by
  rw [computeArchiveDelta, mem_mergeDelta_files (sortedByPath_ascends hb)
    (sortedByPath_ascends hc), (sortedByPath_perm _ _).mem_iff]
  simp only [(sortedByPath_perm _ baseline).mem_iff]

/-- There is nothing to upload exactly when no path is gone and every entry of the scan stands
in the baseline unmodified. -/
theorem isArchiveDeltaEmpty_iff (hb : (baseline.map (·.path)).Nodup)
    (hc : (current.map (·.path)).Nodup) :
    isArchiveDeltaEmpty (computeArchiveDelta baseline current) = true ↔
      (∀ b ∈ baseline, b.path ∈ current.map (·.path)) ∧
        ∀ e ∈ current, ∃ b ∈ baseline, b.path = e.path ∧
          isArchiveEntryModified b e.toArchiveEntry = false := by
  rw [isArchiveDeltaEmpty, Bool.and_eq_true, List.isEmpty_iff, List.isEmpty_iff,
    List.eq_nil_iff_forall_not_mem, List.eq_nil_iff_forall_not_mem, and_comm]
  refine and_congr ⟨fun h b hmem => ?_, fun h p hp => ?_⟩ (forall_congr' fun e => ?_)
  · by_contra hgone
    exact h b.path ((mem_computeArchiveDelta_deleted hb hc _).mpr
      ⟨List.mem_map_of_mem hmem, hgone⟩)
  · obtain ⟨hin, hgone⟩ := (mem_computeArchiveDelta_deleted hb hc p).mp hp
    obtain ⟨b, hmem, rfl⟩ := List.mem_map.mp hin
    exact hgone (h b hmem)
  · rw [mem_computeArchiveDelta_files hb hc]
    simp only [not_and, not_forall, Bool.not_eq_true, exists_prop]

theorem isArchiveDeltaEmpty_one :
    isArchiveDeltaEmpty (computeArchiveDelta [⟨"a", .dir, 493, 0, none, none, false, false⟩]
      [{ path := "a", type := .dir, mode := 493, size := 0, sha256 := none, mtime := 7 }]) = true :=
  (isArchiveDeltaEmpty_iff (by decide) (by decide)).mpr ⟨by decide, by decide⟩

/-- The manifest form of a scanned entry. -/
def manifestEntry (e : ScannedEntry) : ArchiveEntry := archiveEntry e.toArchiveEntry

/-- What an unmodified entry has in common with the one before. -/
structure SameContent (old now : ArchiveEntry) : Prop where
  type : old.type = now.type
  mode : old.mode = now.mode
  sha256 : now.type = .file → old.sha256 = now.sha256
  target : now.type = .symlink → old.target = now.target

theorem SameContent.refl (e : ArchiveEntry) : SameContent e e :=
  ⟨rfl, rfl, fun _ => rfl, fun _ => rfl⟩

/-- An entry in manifest form that `current` does not modify says the same as
the manifest form of `current`. -/
theorem sameContent_of_unmodified {old now : ArchiveEntry} (hold : archiveEntry old = old)
    (h : isArchiveEntryModified old now = false) : SameContent old (archiveEntry now) := by
  unfold isArchiveEntryModified at h
  split at h
  · cases h
  · next htm =>
      have htype : old.type = now.type := Decidable.byContradiction fun hn => htm (.inl hn)
      have hmode : old.mode = now.mode := Decidable.byContradiction fun hn => htm (.inr hn)
      refine ⟨htype, hmode, fun hfile => ?_, fun hlink => ?_⟩
      · have hfile' : now.type = .file := hfile
        rw [if_pos hfile'] at h
        simpa [archiveEntry] using h
      · have hlink' : now.type = .symlink := hlink
        have hnf : ¬ now.type = .file := by rw [hlink']; decide
        rw [if_neg hnf, if_pos hlink'] at h
        have htarget : old.target = now.target := by simpa using h
        rw [← hold]
        simp [archiveEntry, htype, hlink', htarget]

theorem map_path_manifestEntry (l : List ScannedEntry) :
    (l.map manifestEntry).map ArchiveEntry.path = l.map (·.path) := by
  rw [List.map_map]
  rfl

theorem computeArchiveDelta_leads (hb : (baseline.map (·.path)).Nodup)
    (hc : (current.map (·.path)).Nodup) (hform : ∀ b ∈ baseline, archiveEntry b = b) :
    Leads ArchiveEntry.path SameContent (View.ofList ArchiveEntry.path baseline)
      (View.ofList ArchiveEntry.path (current.map manifestEntry))
      ((computeArchiveDelta baseline current).files.map manifestEntry)
      (computeArchiveDelta baseline current).deleted := by
  have hnd : ((current.map manifestEntry).map ArchiveEntry.path).Nodup := by
    rwa [map_path_manifestEntry]
  refine ⟨fun v hv => ?_, fun p hp => ?_, fun p hput hdrop => ?_⟩
  · obtain ⟨e, he, rfl⟩ := List.mem_map.mp hv
    have hmem := ((mem_computeArchiveDelta_files hb hc e).mp he).1
    exact (View.ofList_eq_some hnd).mpr ⟨List.mem_map_of_mem hmem, rfl⟩
  · rw [View.ofList_eq_none, map_path_manifestEntry]
    exact ((mem_computeArchiveDelta_deleted hb hc p).mp hp).2
  · rw [mem_computeArchiveDelta_deleted hb hc, not_and_or, not_not] at hdrop
    by_cases hcur : p ∈ current.map (·.path)
    · obtain ⟨e, he, rfl⟩ := List.mem_map.mp hcur
      have hnext := (View.ofList_eq_some hnd).mpr ⟨List.mem_map_of_mem (f := manifestEntry) he, rfl⟩
      have hfiles : e ∉ (computeArchiveDelta baseline current).files := fun h =>
        hput _ (List.mem_map_of_mem h) rfl
      rw [mem_computeArchiveDelta_files hb hc] at hfiles
      simp only [he, true_and, not_forall] at hfiles
      obtain ⟨old, hold, hpath, hmod⟩ := hfiles
      have hbase := (View.ofList_eq_some hb).mpr ⟨hold, hpath⟩
      have hsame := sameContent_of_unmodified (hform old hold) (Bool.eq_false_iff.mpr hmod)
      rw [show View.ofList ArchiveEntry.path (current.map manifestEntry) e.path
        = some (manifestEntry e) from hnext, hbase]
      exact .some hsame
    · have hbase : p ∉ baseline.map (·.path) := hdrop.resolve_right hcur
      rw [View.ofList_eq_none.mpr hbase, View.ofList_eq_none.mpr]
      · exact .none
      · rwa [map_path_manifestEntry]

end Delta

end OmniRush.Archive
