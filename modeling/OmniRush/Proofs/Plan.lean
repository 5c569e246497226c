import OmniRush.Archive.Capture
import OmniRush.Proofs.Touched

/-!
# What a capture plans

`planContent` picks the entries an archive carries, the paths it deletes and the
chain's next entry list, for a base or a delta, of a whole folder or of touched
files. Whatever it picks leads from the baseline it was given to the next list
(`planContent_leads`), as long as that baseline has the form a baseline document
gives back and the scan names no path twice.

The next list is written with the hashes of the unstable paths blanked, which
keeps that form (`baselineForm_written`).
-/

namespace OmniRush.Archive

open OmniRush

/-! ## Baselines -/

/-- What an entry list read back from a baseline is like. -/
structure BaselineForm (entries : List ArchiveEntry) : Prop where
  nodup : (entries.map (·.path)).Nodup
  form : ∀ e ∈ entries, archiveEntry e = e
  plain : ∀ e ∈ entries, e.type ≠ .file → e.sha256 = none

theorem BaselineForm.nil : BaselineForm [] := ⟨List.nodup_nil, by simp, by simp⟩

theorem archiveEntry_idem (e : ArchiveEntry) : archiveEntry (archiveEntry e) = archiveEntry e := by
  obtain ⟨path, type, mode, size, sha256, target, broken, scrubbed⟩ := e
  cases type <;> simp [archiveEntry]

/-- An entry with its hash blanked where the path was reported. -/
def blank (unstable : List String) (e : ArchiveEntry) : ArchiveEntry :=
  if e.path ∈ unstable then { e with sha256 := none } else e

theorem baselineEntry_eq_blank (unstable : List String) (e : ArchiveEntry) :
    baselineEntry unstable e = blank unstable (archiveEntry e) := rfl

theorem blank_of_notMem {unstable : List String} {e : ArchiveEntry} (h : e.path ∉ unstable) :
    blank unstable e = e := if_neg h

theorem archiveEntry_blank {unstable : List String} {e : ArchiveEntry}
    (h : archiveEntry e = e) : archiveEntry (blank unstable e) = blank unstable e := by
  unfold blank
  split
  · show { archiveEntry e with sha256 := none } = { e with sha256 := none }
    rw [h]
  · exact h

@[simp] theorem blank_path (unstable : List String) (e : ArchiveEntry) :
    (blank unstable e).path = e.path := by
  unfold blank
  split <;> rfl

@[simp] theorem blank_type (unstable : List String) (e : ArchiveEntry) :
    (blank unstable e).type = e.type := by
  unfold blank
  split <;> rfl

@[simp] theorem blank_mode (unstable : List String) (e : ArchiveEntry) :
    (blank unstable e).mode = e.mode := by
  unfold blank
  split <;> rfl

@[simp] theorem blank_target (unstable : List String) (e : ArchiveEntry) :
    (blank unstable e).target = e.target := by
  unfold blank
  split <;> rfl

theorem blank_sha256 {unstable : List String} {e : ArchiveEntry} (h : e.sha256 = none) :
    (blank unstable e).sha256 = none := by
  unfold blank
  split
  · rfl
  · exact h

theorem baselineForm_written {next : List ArchiveEntry} {unstable : List String}
    (hnd : (next.map (·.path)).Nodup) (hplain : ∀ e ∈ next, e.type ≠ .file → e.sha256 = none) :
    BaselineForm (next.map (baselineEntry unstable)) := by
  refine ⟨?_, ?_, ?_⟩
  · have hpaths : (next.map (baselineEntry unstable)).map ArchiveEntry.path
        = next.map (·.path) := by
      rw [List.map_map]
      refine List.map_congr_left fun e _ => ?_
      rw [Function.comp_apply, baselineEntry_eq_blank, blank_path]
      rfl
    rwa [hpaths]
  · intro e he
    obtain ⟨n, -, rfl⟩ := List.mem_map.mp he
    exact archiveEntry_blank (archiveEntry_idem n)
  · intro e he htype
    obtain ⟨n, hn, rfl⟩ := List.mem_map.mp he
    rw [baselineEntry_eq_blank, blank_type] at htype
    rw [baselineEntry_eq_blank]
    exact blank_sha256 (hplain n hn htype)

/-! ## The plan of a capture -/

theorem scanAsOf_spec {held : List ArchiveEntry} {before : Nat} {entries : List ScannedEntry}
    {e : ScannedEntry} (h : e ∈ scanAsOf held before entries) :
    ∃ s ∈ entries, s.path = e.path ∧ (e = s ∨ e.toArchiveEntry ∈ held) := by
  obtain ⟨s, hs, he⟩ := List.mem_filterMap.mp h
  refine ⟨s, hs, ?_⟩
  split at he
  · cases he
    exact ⟨rfl, .inl rfl⟩
  · split at he
    · cases he
      exact ⟨rfl, .inl rfl⟩
    · split at he
      · cases he
        exact ⟨rfl, .inl rfl⟩
      · split at he
        · cases he
        · next previous hfind =>
            split at he
            · cases he
              exact ⟨rfl, .inl rfl⟩
            · cases he
              have hpath := List.find?_some hfind
              rw [decide_eq_true_eq] at hpath
              exact ⟨hpath.symm, .inr (List.mem_reverse.mp (List.mem_of_find?_eq_some hfind))⟩

theorem scanAsOf_paths (held : List ArchiveEntry) (before : Nat) (entries : List ScannedEntry) :
    ((scanAsOf held before entries).map (·.path)).Sublist (entries.map (·.path)) := by
  induction entries with
  | nil => exact List.Sublist.refl _
  | cons s entries ih =>
      unfold scanAsOf at ih ⊢
      rw [List.filterMap_cons]
      split
      · exact ih.trans (List.sublist_cons_self ..)
      · next e he =>
          have hmem : e ∈ scanAsOf held before [s] := by
            unfold scanAsOf
            rw [List.filterMap_cons, he]
            exact List.mem_cons_self ..
          obtain ⟨s', hs', hpath, -⟩ := scanAsOf_spec hmem
          rw [List.mem_singleton.mp hs'] at hpath
          rw [List.map_cons, List.map_cons, ← hpath]
          exact ih.cons_cons _

section Scanned

variable (input : CaptureInput) {baseline : List ArchiveEntry}

theorem scanned_cases (baseline : List ArchiveEntry) :
    input.scanned baseline = input.scan.entries ∨
      ∃ before, input.scanned baseline = scanAsOf baseline before input.scan.entries := by
  unfold CaptureInput.scanned
  split
  · exact .inr ⟨_, rfl⟩
  · exact .inr ⟨_, rfl⟩
  · exact .inl rfl

theorem scanned_nodup (baseline : List ArchiveEntry) (h : (input.scan.entries.map (·.path)).Nodup) :
    ((input.scanned baseline).map (·.path)).Nodup := by
  rcases scanned_cases input baseline with heq | ⟨before, heq⟩
  · rwa [heq]
  · rw [heq]
    exact h.sublist (scanAsOf_paths ..)

theorem scanned_plain (h : BaselineForm baseline) :
    ∀ e ∈ input.scanned baseline, e.type ≠ .file → e.sha256 = none := by
  intro e he htype
  rcases scanned_cases input baseline with heq | ⟨before, heq⟩
  · exact input.scan.plain e (heq ▸ he) htype
  · obtain ⟨s, hs, -, rfl | hheld⟩ := scanAsOf_spec (heq ▸ he)
    · exact input.scan.plain e hs htype
    · exact h.plain _ hheld htype

end Scanned

section Plan

variable (marker : String) (kind : ArchiveKind) {input : CaptureInput}
  {baseline : List ArchiveEntry}

theorem planContent_next_nodup (hb : BaselineForm baseline)
    (hs : (input.scan.entries.map (·.path)).Nodup) :
    ((planContent marker kind baseline input).next.map (·.path)).Nodup := by
  have hscan := scanned_nodup input baseline hs
  have hwhole : (((input.scanned baseline).map (·.toArchiveEntry)).map (·.path)).Nodup := by
    rwa [List.map_map]
  unfold planContent
  split
  · exact nodup_touchedChange_next hb.nodup hscan
  · split
    · exact hwhole
    · exact hwhole

theorem planContent_next_plain (input : CaptureInput) (hb : BaselineForm baseline) :
    ∀ e ∈ (planContent marker kind baseline input).next, e.type ≠ .file → e.sha256 = none := by
  have hscan := scanned_plain input hb
  have hwhole : ∀ e ∈ (input.scanned baseline).map (·.toArchiveEntry),
      e.type ≠ .file → e.sha256 = none := by
    intro e he
    obtain ⟨s, hsm, rfl⟩ := List.mem_map.mp he
    exact hscan s hsm
  unfold planContent
  split
  · intro e he
    rcases (mem_touchedChange_next e).mp he with h | ⟨h, -, -⟩
    · exact hwhole e h
    · exact hb.plain e h
  · split
    · exact hwhole
    · exact hwhole

theorem mem_planContent_next {e : ScannedEntry} (he : e ∈ input.scanned baseline) :
    e.toArchiveEntry ∈ (planContent marker kind baseline input).next := by
  have hwhole : e.toArchiveEntry ∈ (input.scanned baseline).map (·.toArchiveEntry) :=
    List.mem_map_of_mem he
  unfold planContent
  split
  · exact (mem_touchedChange_next _).mpr (.inl hwhole)
  · split
    · exact hwhole
    · exact hwhole

theorem planContent_files_scanned {e : ScannedEntry} (hb : BaselineForm baseline)
    (hs : (input.scan.entries.map (·.path)).Nodup)
    (he : e ∈ (planContent marker kind baseline input).files) :
    e ∈ input.scanned baseline := by
  unfold planContent at he
  split at he
  · exact ((mem_touchedChange_files hb.nodup e).mp he).1
  · split at he
    · exact ((mem_computeArchiveDelta_files hb.nodup (scanned_nodup _ _ hs) e).mp he).1
    · exact he

/-- What a capture plans takes its baseline to the next entry list. A base is
planned against no baseline. -/
theorem planContent_leads (hb : BaselineForm baseline)
    (hs : (input.scan.entries.map (·.path)).Nodup) (hkind : kind = .base → baseline = []) :
    Leads ArchiveEntry.path SameContent (View.ofList ArchiveEntry.path baseline)
      (View.ofList ArchiveEntry.path
        ((planContent marker kind baseline input).next.map archiveEntry))
      ((planContent marker kind baseline input).files.map manifestEntry)
      ((planContent marker kind baseline input).deleted.getD []) := by
  have hscan := scanned_nodup input baseline hs
  have hmap : ((input.scanned baseline).map (·.toArchiveEntry)).map archiveEntry
      = (input.scanned baseline).map manifestEntry := by
    rw [List.map_map]
    rfl
  unfold planContent
  split
  · have h : Leads _ _ _ _ _ (touchedChange baseline { input.scan with
        entries := input.scanned baseline }).deleted :=
      touchedChange_leads hb.nodup hscan hb.form
    cases kind with
    | delta => exact h
    | base =>
        have hnil : (touchedChange baseline { input.scan with
            entries := input.scanned baseline }).deleted = [] := by
          rw [hkind rfl]
          rfl
        rw [hnil] at h
        exact h
  · cases kind with
    | delta =>
        rw [if_pos rfl, hmap]
        exact computeArchiveDelta_leads hb.nodup hscan hb.form
    | base =>
        have hbase := hkind rfl
        rw [if_neg (by decide), hmap]
        subst hbase
        have hnd : (((input.scanned []).map manifestEntry).map ArchiveEntry.path).Nodup := by
          rwa [map_path_manifestEntry]
        refine ⟨fun v hv => (View.ofList_eq_some hnd).mpr ⟨hv, rfl⟩, by simp, fun p hput _ => ?_⟩
        rw [View.ofList_eq_none.mpr (by simp), View.ofList_eq_none.mpr]
        · exact .none
        · intro hmem
          obtain ⟨v, hv, hpath⟩ := List.mem_map.mp hmem
          exact hput v hv hpath

end Plan

end OmniRush.Archive
