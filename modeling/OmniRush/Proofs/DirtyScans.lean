import OmniRush.Uploader.DirtyScan

/-!
# Targeted scans and full ones

A full scan has the readable texts among the listed files. What folding one path does is one lemma
(`foldEntry_get`), and a fold over paths that are all different leaves at each of them what stands
there and nothing else changed. So what a targeted scan has at a path is told by whether the path
was reported, and, where it was not, by whether a reported path above it was found gone
(`scanReported_get`). That is what a full scan has exactly when what it was not told can be seen
from what it was told (`Foreseen`).
-/

namespace OmniRush

namespace Uploader

section

variable {rules : ScanRules} {workspace : Workspace} {path q : String}

/-! ## What stands at a path -/

/-- The entry of a text that can be read. -/
def textAt (rules : ScanRules) (workspace : Workspace) (path : String) : Option ManifestEntry :=
  (inspectFile rules workspace path).filter fun entry => !entry.binary

def IsFile (node : Option WorkspaceNode) : Prop := ∃ size content, node = some (.file size content)

theorem textAt_eq_some {entry : ManifestEntry} (h : inspectFile rules workspace path = some entry)
    (hbinary : entry.binary = false) : textAt rules workspace path = some entry := by
  rw [textAt, h, Option.filter_some, hbinary]
  rfl

theorem textAt_binary {entry : ManifestEntry} (h : inspectFile rules workspace path = some entry)
    (hbinary : entry.binary = true) : textAt rules workspace path = none := by
  rw [textAt, h, Option.filter_some, hbinary]
  rfl

theorem textAt_none (h : inspectFile rules workspace path = none) :
    textAt rules workspace path = none := by
  rw [textAt, h]
  rfl

theorem Workspace.mem_names {node : WorkspaceNode} (h : workspace.nodes.get path = some node) :
    path ∈ workspace.nodes.names := Record.mem_names (Record.get_eq_some.mp h)

theorem hasRealAncestors_of {node : WorkspaceNode} (h : workspace.nodes.get path = some node) :
    hasRealAncestors workspace path = true := by
  refine List.all_eq_true.mpr fun a ha => ?_
  rw [workspace.above path (Workspace.mem_names h) a ha]
  rfl

theorem isFile_of_inspect {entry : ManifestEntry}
    (h : inspectFile rules workspace path = some entry) : IsFile (workspace.nodes.get path) := by
  unfold inspectFile at h
  split at h
  · cases h
  · split at h
    · next size content hnode => exact ⟨size, content, hnode⟩
    · cases h

theorem isFile_of_text (h : textAt rules workspace path ≠ none) :
    IsFile (workspace.nodes.get path) := by
  obtain ⟨entry, hentry⟩ := Option.ne_none_iff_exists'.mp h
  exact isFile_of_inspect (Option.filter_eq_some_iff.mp hentry).1

theorem textAt_congr {later : Workspace} (h : workspace.nodes.get path = later.nodes.get path)
    (hfile : IsFile (workspace.nodes.get path)) :
    textAt rules workspace path = textAt rules later path := by
  obtain ⟨size, content, hnode⟩ := hfile
  have hnode' := h ▸ hnode
  unfold textAt inspectFile
  rw [hasRealAncestors_of hnode, hasRealAncestors_of hnode', hnode, hnode']

theorem isListed_iff_of_file (hfile : IsFile (workspace.nodes.get path)) :
    isListed rules workspace path = true ↔
      workspace.isIgnored path = false ∧ rules.isDenied path = false := by
  obtain ⟨size, content, hnode⟩ := hfile
  unfold isListed
  rw [hnode]
  simp

theorem mem_names_of_listed (h : isListed rules workspace path = true) :
    path ∈ workspace.nodes.names := by
  unfold isListed at h
  cases hnode : workspace.nodes.get path with
  | none =>
      rw [hnode] at h
      simp at h
  | some node => exact Workspace.mem_names hnode

/-! ## The full scan -/

theorem keepListed_manifest {previous : Option Manifest} {s : ScanState} :
    (keepListed rules workspace previous s path).manifest =
      match textAt rules workspace path with
      | none => s.manifest
      | some entry =>
          if s.manifest.entries.length ≥ maxFiles then s.manifest
          else s.manifest.set path entry := by
  unfold keepListed
  cases hentry : inspectFile rules workspace path with
  | none => rw [textAt_none hentry]
  | some entry =>
      cases hbinary : entry.binary with
      | true =>
          rw [textAt_binary hentry hbinary]
          simp [hbinary]
      | false =>
          rw [textAt_eq_some hentry hbinary]
          simp only [hbinary, Bool.false_eq_true, if_false]
          split <;> rfl

theorem keepListed_grows {previous : Option Manifest} (s : ScanState) :
    s.manifest.entries.length ≤
      (keepListed rules workspace previous s path).manifest.entries.length := by
  rw [keepListed_manifest]
  split
  · exact Nat.le_refl _
  · split
    · exact Nat.le_refl _
    · rw [Record.length_set]
      split <;> omega

theorem keepAll_grows {previous : Option Manifest} {paths : List String} (s : ScanState) :
    s.manifest.entries.length ≤
      (paths.foldl (keepListed rules workspace previous) s).manifest.entries.length := by
  induction paths generalizing s with
  | nil => exact Nat.le_refl _
  | cons path paths ih => exact Nat.le_trans (keepListed_grows s) (ih _)

theorem keepAll_get {previous : Option Manifest} {paths : List String} {s : ScanState}
    (hnodup : paths.Nodup)
    (hcap : (paths.foldl (keepListed rules workspace previous) s).manifest.entries.length
      < maxFiles) :
    (paths.foldl (keepListed rules workspace previous) s).manifest.get q =
      if q ∈ paths ∧ textAt rules workspace q ≠ none then textAt rules workspace q
      else s.manifest.get q := by
  induction paths generalizing s with
  | nil => simp
  | cons path paths ih =>
      rw [List.nodup_cons] at hnodup
      rw [List.foldl_cons] at hcap ⊢
      rw [ih hnodup.2 hcap, keepListed_manifest]
      have hroom : ¬ s.manifest.entries.length ≥ maxFiles := by
        have hnext := Nat.lt_of_le_of_lt (keepAll_grows _) hcap
        exact Nat.not_le.mpr (Nat.lt_of_le_of_lt (keepListed_grows s) hnext)
      by_cases hq : q = path
      · subst hq
        cases htext : textAt rules workspace q with
        | none => simp
        | some entry => simp [hnodup.1, hroom, Record.get_set]
      · cases htext : textAt rules workspace path with
        | none => simp [hq]
        | some entry => simp [hq, hroom, Record.get_set]

/-- Below the cap, a full scan has the readable texts among the listed files. -/
theorem scanWorkspaceFull_get {previous : Option Manifest} {includeAll : Bool}
    (hcap : (scanWorkspaceFull rules workspace previous includeAll).manifest.entries.length
      < maxFiles) :
    (scanWorkspaceFull rules workspace previous includeAll).manifest.get q =
      if isListed rules workspace q then textAt rules workspace q else none := by
  have hnodup : (workspace.nodes.names.filter (isListed rules workspace)).Nodup :=
    workspace.nodes.distinct.filter _
  refine (keepAll_get hnodup hcap).trans ?_
  rw [Record.get_empty]
  by_cases hlisted : isListed rules workspace q = true
  · have hmem := List.mem_filter.mpr ⟨mem_names_of_listed hlisted, hlisted⟩
    rw [if_pos hlisted]
    split
    · rfl
    · next h => exact (not_ne_iff.mp fun htext => h ⟨hmem, htext⟩).symm
  · rw [if_neg hlisted, if_neg fun h => hlisted (List.mem_filter.mp h.1).2]

/-! ## Folding a path -/

variable {previous : Manifest} {s : FoldState}

theorem foldEntry_manifest : (foldEntry rules workspace previous s path).manifest =
    match textAt rules workspace path with
    | none => s.manifest.delete path
    | some entry =>
        if (s.manifest.get path).isNone ∧ s.manifest.entries.length ≥ maxFiles then s.manifest
        else s.manifest.set path entry := by
  unfold foldEntry
  cases hentry : inspectFile rules workspace path with
  | none => rw [textAt_none hentry]
  | some entry =>
      cases hbinary : entry.binary with
      | true =>
          rw [textAt_binary hentry hbinary]
          simp [hbinary]
      | false =>
          rw [textAt_eq_some hentry hbinary]
          simp only [hbinary, Bool.false_eq_true, if_false]
          split <;> rfl

theorem foldEntry_get (hroom : textAt rules workspace path ≠ none → s.manifest.get path = none →
    s.manifest.entries.length < maxFiles) :
    (foldEntry rules workspace previous s path).manifest.get q =
      if q = path then textAt rules workspace path else s.manifest.get q := by
  rw [foldEntry_manifest]
  cases htext : textAt rules workspace path with
  | none => exact Record.get_delete ..
  | some entry =>
      have hnot : ¬ ((s.manifest.get path).isNone ∧ s.manifest.entries.length ≥ maxFiles) := by
        rintro ⟨hnone, hfull⟩
        have hlt := hroom (by rw [htext]; exact Option.some_ne_none _)
          (Option.isNone_iff_eq_none.mp hnone)
        omega
      simp only [hnot, if_false]
      exact Record.get_set ..

theorem foldEntry_get_other (h : q ≠ path) :
    (foldEntry rules workspace previous s path).manifest.get q = s.manifest.get q := by
  rw [foldEntry_manifest]
  split
  · rw [Record.get_delete, if_neg h]
  · split
    · rfl
    · rw [Record.get_set, if_neg h]

theorem foldAll_get_other {paths : List String} (h : q ∉ paths) :
    (paths.foldl (foldEntry rules workspace previous) s).manifest.get q = s.manifest.get q := by
  induction paths generalizing s with
  | nil => rfl
  | cons path paths ih =>
      rw [List.mem_cons, not_or] at h
      rw [List.foldl_cons, ih h.2, foldEntry_get_other h.1]

theorem foldAll_get_known {paths : List String} (hnodup : paths.Nodup)
    (hknown : ∀ path ∈ paths, s.manifest.get path ≠ none) :
    (paths.foldl (foldEntry rules workspace previous) s).manifest.get q =
      if q ∈ paths then textAt rules workspace q else s.manifest.get q := by
  induction paths generalizing s with
  | nil => simp
  | cons path paths ih =>
      rw [List.nodup_cons] at hnodup
      have hget : ∀ q, (foldEntry rules workspace previous s path).manifest.get q =
          if q = path then textAt rules workspace path else s.manifest.get q := fun q =>
        foldEntry_get fun _ hnone => absurd hnone (hknown path (List.mem_cons_self ..))
      rw [List.foldl_cons, ih hnodup.2 fun path' hpath' => ?_, hget]
      · by_cases hq : q = path
        · subst hq
          simp [hnodup.1]
        · simp [hq]
      · have hne : path' ≠ path := by
          rintro rfl
          exact hnodup.1 hpath'
        rw [hget, if_neg hne]
        exact hknown path' (List.mem_cons_of_mem _ hpath')

/-! ## Room for what is new -/

/-- The size of a manifest that a path is folded into. -/
def sizeAfter (rules : ScanRules) (workspace : Workspace) (previous : Manifest) (size : Nat)
    (path : String) : Nat :=
  if textAt rules workspace path = none then
    if previous.get path = none then size else size - 1
  else if previous.get path = none then size + 1
  else size

/-- No path with a new text is met by a full manifest, when paths are folded into a manifest of
some size one after the other. -/
def HasRoom (rules : ScanRules) (workspace : Workspace) (previous : Manifest) :
    Nat → List String → Prop
  | _, [] => True
  | size, path :: paths =>
      (textAt rules workspace path ≠ none → previous.get path = none → size < maxFiles) ∧
        HasRoom rules workspace previous (sizeAfter rules workspace previous size path) paths

theorem foldEntry_length (hsame : s.manifest.get path = previous.get path)
    (hroom : textAt rules workspace path ≠ none → previous.get path = none →
      s.manifest.entries.length < maxFiles) :
    (foldEntry rules workspace previous s path).manifest.entries.length =
      sizeAfter rules workspace previous s.manifest.entries.length path := by
  rw [foldEntry_manifest, sizeAfter, ← hsame]
  rw [← hsame] at hroom
  cases htext : textAt rules workspace path with
  | none =>
      rw [if_pos rfl]
      dsimp only
      split
      · next hnone => rw [Record.delete_none hnone]
      · next hsome =>
          have hlength := Record.length_delete (Option.isSome_iff_ne_none.mpr hsome)
          omega
  | some entry =>
      rw [if_neg (Option.some_ne_none _)]
      dsimp only
      have hnot : ¬ ((s.manifest.get path).isNone ∧ s.manifest.entries.length ≥ maxFiles) := by
        rintro ⟨hnone, hfull⟩
        have hlt := hroom (by rw [htext]; exact Option.some_ne_none _)
          (Option.isNone_iff_eq_none.mp hnone)
        omega
      rw [if_neg hnot, Record.length_set]
      exact if_congr Option.isNone_iff_eq_none rfl rfl

theorem same_after {paths : List String} (hnodup : (path :: paths).Nodup)
    (hsame : ∀ path' ∈ path :: paths, s.manifest.get path' = previous.get path') :
    ∀ path' ∈ paths, (foldEntry rules workspace previous s path).manifest.get path' =
      previous.get path' := by
  intro path' hpath'
  have hne : path' ≠ path := by
    rintro rfl
    exact (List.nodup_cons.mp hnodup).1 hpath'
  rw [foldEntry_get_other hne]
  exact hsame path' (List.mem_cons_of_mem _ hpath')

theorem foldAll_get {paths : List String} (hnodup : paths.Nodup)
    (hsame : ∀ path ∈ paths, s.manifest.get path = previous.get path)
    (hroom : HasRoom rules workspace previous s.manifest.entries.length paths) :
    (paths.foldl (foldEntry rules workspace previous) s).manifest.get q =
      if q ∈ paths then textAt rules workspace q else s.manifest.get q := by
  induction paths generalizing s with
  | nil => simp
  | cons path paths ih =>
      obtain ⟨hhere, hrest⟩ := hroom
      have hpath := hsame path (List.mem_cons_self ..)
      rw [← foldEntry_length hpath hhere] at hrest
      rw [← hpath] at hhere
      rw [List.foldl_cons, ih (List.nodup_cons.mp hnodup).2 (same_after hnodup hsame) hrest,
        foldEntry_get hhere]
      by_cases hq : q = path
      · subst hq
        simp
      · simp [hq]

theorem foldAll_full {paths : List String} (hnodup : paths.Nodup)
    (hsame : ∀ path ∈ paths, s.manifest.get path = previous.get path)
    (hroom : ¬ HasRoom rules workspace previous s.manifest.entries.length paths) :
    ∃ path ∈ paths, textAt rules workspace path ≠ none ∧
      (paths.foldl (foldEntry rules workspace previous) s).manifest.get path = none := by
  induction paths generalizing s with
  | nil => exact absurd trivial hroom
  | cons path paths ih =>
      have hpath := hsame path (List.mem_cons_self ..)
      rw [List.foldl_cons]
      by_cases hhere : textAt rules workspace path ≠ none → previous.get path = none →
          s.manifest.entries.length < maxFiles
      · have hrest : ¬ HasRoom rules workspace previous
            (foldEntry rules workspace previous s path).manifest.entries.length paths := by
          rw [foldEntry_length hpath hhere]
          exact fun hrest => hroom ⟨hhere, hrest⟩
        obtain ⟨path', hpath', hmissed⟩ :=
          ih (List.nodup_cons.mp hnodup).2 (same_after hnodup hsame) hrest
        exact ⟨path', List.mem_cons_of_mem _ hpath', hmissed⟩
      · rw [Classical.not_imp, Classical.not_imp, Nat.not_lt] at hhere
        obtain ⟨htext, hnone, hfull⟩ := hhere
        refine ⟨path, List.mem_cons_self .., htext, ?_⟩
        obtain ⟨entry, hentry⟩ := Option.ne_none_iff_exists'.mp htext
        rw [foldAll_get_other (List.nodup_cons.mp hnodup).1, foldEntry_manifest, hentry]
        dsimp only
        rw [if_pos ⟨Option.isNone_iff_eq_none.mpr (hpath.trans hnone), hfull⟩]
        exact hpath.trans hnone

/-! ## What has vanished, and what has changed -/

theorem foldEntry_vanished : q ∈ (foldEntry rules workspace previous s path).vanished ↔
    q ∈ s.vanished ∨ q = path ∧ inspectFile rules workspace q = none ∧
      s.manifest.get q = none := by
  unfold foldEntry
  cases hentry : inspectFile rules workspace path with
  | none =>
      dsimp only
      split
      · next hnone =>
          rw [Option.isNone_iff_eq_none] at hnone
          rw [List.mem_append, List.mem_singleton]
          refine or_congr_right ⟨?_, fun h => h.1⟩
          rintro rfl
          exact ⟨rfl, hentry, hnone⟩
      · next hsome =>
          rw [Option.isNone_iff_eq_none] at hsome
          refine (or_iff_left ?_).symm
          rintro ⟨rfl, -, hnone⟩
          exact hsome hnone
  | some entry =>
      have hnot :
          ¬ (q = path ∧ inspectFile rules workspace q = none ∧ s.manifest.get q = none) := by
        rintro ⟨rfl, hnone, -⟩
        rw [hentry] at hnone
        cases hnone
      rw [or_iff_left hnot]
      dsimp only
      split
      · rfl
      · split <;> rfl

theorem foldAll_vanished {paths : List String} (hnodup : paths.Nodup) :
    q ∈ (paths.foldl (foldEntry rules workspace previous) s).vanished ↔
      q ∈ s.vanished ∨ q ∈ paths ∧ inspectFile rules workspace q = none ∧
        s.manifest.get q = none := by
  induction paths generalizing s with
  | nil => simp
  | cons path paths ih =>
      rw [List.nodup_cons] at hnodup
      rw [List.foldl_cons, ih hnodup.2, foldEntry_vanished, List.mem_cons]
      by_cases hq : q = path
      · subst hq
        simp [hnodup.1]
      · rw [foldEntry_get_other hq]
        simp [hq]

/-- Exactly the paths count as changed at which the last manifest has something else. -/
def ChangedExactly (previous : Manifest) (s : FoldState) : Prop :=
  ∀ q, q ∈ s.changed ↔
    ∃ entry, s.manifest.get q = some entry ∧ isChanged (some previous) q entry = true

theorem foldEntry_changed_other (h : q ≠ path) :
    q ∈ (foldEntry rules workspace previous s path).changed ↔ q ∈ s.changed := by
  unfold foldEntry
  split
  · rfl
  · split
    · rfl
    · split
      · rfl
      · dsimp only
        split
        · rw [List.mem_append, List.mem_singleton, or_iff_left h]
        · rfl

theorem foldEntry_changed (hexact : ChangedExactly previous s) (hnew : path ∉ s.changed) :
    ChangedExactly previous (foldEntry rules workspace previous s path) := by
  intro q
  by_cases hq : q = path
  · subst hq
    unfold foldEntry
    split
    · rw [Record.get_delete, if_pos rfl]
      simp [hnew]
    · next entry _ =>
        split
        · rw [Record.get_delete, if_pos rfl]
          simp [hnew]
        · split
          · exact hexact q
          · dsimp only
            rw [Record.get_set, if_pos rfl]
            by_cases hchanged : isChanged (some previous) q entry = true
            · simp [hchanged]
            · simp [hchanged, hnew]
  · rw [foldEntry_changed_other hq, foldEntry_get_other hq]
    exact hexact q

theorem foldAll_changed_other {paths : List String} (h : q ∉ paths) :
    q ∈ (paths.foldl (foldEntry rules workspace previous) s).changed ↔ q ∈ s.changed := by
  induction paths generalizing s with
  | nil => rfl
  | cons path paths ih =>
      rw [List.mem_cons, not_or] at h
      rw [List.foldl_cons, ih h.2, foldEntry_changed_other h.1]

theorem foldAll_changed {paths : List String} (hnodup : paths.Nodup)
    (hexact : ChangedExactly previous s) (hnew : ∀ path ∈ paths, path ∉ s.changed) :
    ChangedExactly previous (paths.foldl (foldEntry rules workspace previous) s) := by
  induction paths generalizing s with
  | nil => exact hexact
  | cons path paths ih =>
      rw [List.nodup_cons] at hnodup
      refine ih hnodup.2 (foldEntry_changed hexact (hnew path (List.mem_cons_self ..))) ?_
      intro path' hpath'
      have hne : path' ≠ path := by
        rintro rfl
        exact hnodup.1 hpath'
      rw [foldEntry_changed_other hne]
      exact hnew path' (List.mem_cons_of_mem _ hpath')

/-! ## The targeted scan -/

def reported (rules : ScanRules) (dirty : List String) : List String :=
  dirty.filter fun path => !rules.isDenied path

/-- The reported paths that git does not ignore now. -/
def targets (rules : ScanRules) (workspace : Workspace) (dirty : List String) : List String :=
  (reported rules dirty).filter (· ∉ (reported rules dirty).filter workspace.isIgnored)

def dropped (rules : ScanRules) (workspace : Workspace) (dirty : List String) : List String :=
  (reported rules dirty).filter (· ∈ (reported rules dirty).filter workspace.isIgnored)

/-- When the reported paths are folded. -/
def folded (rules : ScanRules) (workspace : Workspace) (previous : Manifest) (dirty : List String) :
    FoldState :=
  (targets rules workspace dirty).foldl (foldEntry rules workspace previous)
    ⟨(dropped rules workspace dirty).foldl Record.delete previous, [], []⟩

/-- When what vanished paths had below them is folded too. -/
def refolded (rules : ScanRules) (workspace : Workspace) (previous : Manifest)
    (dirty : List String) : FoldState :=
  (insideVanished (folded rules workspace previous dirty) (reported rules dirty)).foldl
    (foldEntry rules workspace previous) (folded rules workspace previous dirty)

variable {dirty : List String}

theorem scanReported_eq : scanReported rules workspace previous dirty =
    { manifest := (refolded rules workspace previous dirty).manifest
      changed := some (refolded rules workspace previous dirty).changed
      removed :=
        countRemoved (some previous) (refolded rules workspace previous dirty).manifest } := rfl

theorem mem_reported :
    path ∈ reported rules dirty ↔ path ∈ dirty ∧ rules.isDenied path = false := by
  simp [reported]

theorem mem_targets : path ∈ targets rules workspace dirty ↔
    path ∈ reported rules dirty ∧ workspace.isIgnored path = false := by
  simp only [targets, List.mem_filter, decide_eq_true_eq, not_and, Bool.not_eq_true]
  exact and_congr_right fun h => ⟨fun hnot => hnot h, fun hnot _ => hnot⟩

theorem mem_dropped : path ∈ dropped rules workspace dirty ↔
    path ∈ reported rules dirty ∧ workspace.isIgnored path = true := by
  simp only [dropped, List.mem_filter, decide_eq_true_eq]
  exact and_congr_right fun h => and_iff_right h

theorem targets_nodup (h : dirty.Nodup) : (targets rules workspace dirty).Nodup :=
  (h.filter _).filter _

theorem target_start (h : path ∈ targets rules workspace dirty) :
    ((dropped rules workspace dirty).foldl Record.delete previous).get path =
      previous.get path := by
  rw [Record.get_deleteAll, if_neg fun hdropped => ?_]
  have hignored := (mem_dropped.mp hdropped).2
  rw [(mem_targets.mp h).2] at hignored
  cases hignored

theorem folded_unreported (h : path ∉ reported rules dirty) :
    (folded rules workspace previous dirty).manifest.get path = previous.get path := by
  unfold folded
  rw [foldAll_get_other fun htarget => h (mem_targets.mp htarget).1]
  dsimp only
  rw [Record.get_deleteAll, if_neg fun hdropped => h (mem_dropped.mp hdropped).1]

/-- A reported path above this one was found gone. -/
def SeenGone (rules : ScanRules) (workspace : Workspace) (previous : Manifest)
    (dirty : List String) (path : String) : Prop :=
  ∃ a ∈ foldersAbove path, a ∈ targets rules workspace dirty ∧
    inspectFile rules workspace a = none ∧ previous.get a = none

theorem folded_vanished (hnodup : dirty.Nodup) :
    path ∈ (folded rules workspace previous dirty).vanished ↔
      path ∈ targets rules workspace dirty ∧ inspectFile rules workspace path = none ∧
        previous.get path = none := by
  unfold folded
  rw [foldAll_vanished (targets_nodup hnodup), or_iff_right List.not_mem_nil]
  refine and_congr_right fun htarget => ?_
  dsimp only
  rw [target_start htarget]

theorem mem_insideVanished (hnodup : dirty.Nodup) :
    path ∈ insideVanished (folded rules workspace previous dirty) (reported rules dirty) ↔
      path ∉ reported rules dirty ∧ previous.get path ≠ none ∧
        SeenGone rules workspace previous dirty path := by
  unfold insideVanished SeenGone
  rw [List.mem_filter, decide_eq_true_eq]
  have hgone : (∃ a ∈ foldersAbove path, a ∈ (folded rules workspace previous dirty).vanished) ↔
      ∃ a ∈ foldersAbove path, a ∈ targets rules workspace dirty ∧
        inspectFile rules workspace a = none ∧ previous.get a = none :=
    exists_congr fun a => and_congr_right fun _ => folded_vanished hnodup
  rw [hgone, and_left_comm]
  refine and_congr_right fun hpath => and_congr_left fun _ => ?_
  rw [← @folded_unreported rules workspace path previous dirty hpath, ← not_iff_not, not_not,
    ← Option.isNone_iff_eq_none]
  exact Record.get_isNone.symm

theorem insideVanished_nodup (s : FoldState) (dirty : List String) :
    (insideVanished s dirty).Nodup := s.manifest.distinct.filter _

theorem refolded_get (hnodup : dirty.Nodup) :
    (refolded rules workspace previous dirty).manifest.get q =
      if q ∈ insideVanished (folded rules workspace previous dirty) (reported rules dirty) then
        textAt rules workspace q
      else (folded rules workspace previous dirty).manifest.get q := by
  refine foldAll_get_known (insideVanished_nodup _ _) fun path hpath => ?_
  obtain ⟨hunreported, hlisted, -⟩ := (mem_insideVanished hnodup).mp hpath
  rwa [folded_unreported hunreported]

theorem refolded_unreported (hnodup : dirty.Nodup) (h : path ∉ reported rules dirty) :
    (SeenGone rules workspace previous dirty path → previous.get path ≠ none →
      (refolded rules workspace previous dirty).manifest.get path = textAt rules workspace path) ∧
    ((SeenGone rules workspace previous dirty path → previous.get path = none) →
      (refolded rules workspace previous dirty).manifest.get path = previous.get path) := by
  rw [refolded_get hnodup]
  refine ⟨fun hgone hlisted => if_pos ((mem_insideVanished hnodup).mpr ⟨h, hlisted, hgone⟩),
    fun hnot => ?_⟩
  rw [if_neg fun hinside => ?_, folded_unreported h]
  obtain ⟨-, hlisted, hgone⟩ := (mem_insideVanished hnodup).mp hinside
  exact hlisted (hnot hgone)

theorem refolded_reported (hnodup : dirty.Nodup) (h : path ∈ reported rules dirty) :
    (refolded rules workspace previous dirty).manifest.get path =
      (folded rules workspace previous dirty).manifest.get path := by
  rw [refolded_get hnodup, if_neg fun hinside => ((mem_insideVanished hnodup).mp hinside).1 h]

theorem changed_exactly (hnodup : dirty.Nodup) :
    ChangedExactly previous (refolded rules workspace previous dirty) := by
  have hstart : ChangedExactly previous
      ⟨(dropped rules workspace dirty).foldl Record.delete previous, [], []⟩ := by
    intro q
    rw [iff_false_left List.not_mem_nil]
    rintro ⟨entry, hentry, hchanged⟩
    dsimp only at hentry
    rw [Record.get_deleteAll] at hentry
    split at hentry
    · cases hentry
    · simp [isChanged, hentry] at hchanged
  have hfolded : ChangedExactly previous (folded rules workspace previous dirty) :=
    foldAll_changed (targets_nodup hnodup) hstart fun _ _ => List.not_mem_nil
  refine foldAll_changed (insideVanished_nodup _ _) hfolded fun path hpath => ?_
  have hunreported := ((mem_insideVanished hnodup).mp hpath).1
  unfold folded
  rw [foldAll_changed_other fun htarget => hunreported (mem_targets.mp htarget).1]
  exact List.not_mem_nil

end

/-! ## The two scans -/

section

variable (rules : ScanRules) (earlier later : Workspace) (previous : Manifest)
  (dirty : List String)

/-- What was reported: every file that was created, changed or deleted, or instead of files a
folder above them. -/
def Covers : Prop :=
  ∀ path, earlier.nodes.get path ≠ later.nodes.get path →
    IsFile (earlier.nodes.get path) ∨ IsFile (later.nodes.get path) →
      path ∈ dirty ∨
        ∃ folder ∈ foldersAbove path, folder ∈ dirty ∧ earlier.nodes.get folder = some .folder

/-- The same manifest as a full scan has, with exactly the paths whose digest is another than in
the last one, and the number of those that are gone. -/
structure Agrees (full scan : ScanResult) : Prop where
  manifest : ∀ path, scan.manifest.get path = full.manifest.get path
  changed : ∃ paths, scan.changed = some paths ∧ ∀ path, path ∈ paths ↔
    ∃ entry, full.manifest.get path = some entry ∧ isChanged (some previous) path entry = true
  removed : scan.removed =
    (previous.names.filter fun path => (full.manifest.get path).isNone).length

/-- The manifest that the reported paths are folded into has what git does not ignore of them. -/
def startSize : Nat :=
  (previous.names.filter (· ∉ dropped rules later dirty)).length

/-- What was not reported is as it was, or can be told from what was. -/
structure Foreseen : Prop where
  room : HasRoom rules later previous (startSize rules later previous dirty)
    (targets rules later dirty)
  /-- A listed file below a reported folder that is not as it was has a path above it that was
  reported, may be uploaded, is not ignored, and cannot be read as a file now. -/
  gone : ∀ path ∉ reported rules dirty, ∀ folder ∈ foldersAbove path, folder ∈ dirty →
    earlier.nodes.get folder = some .folder → previous.get path ≠ none →
      textAt rules later path ≠ textAt rules earlier path →
        ∃ a ∈ foldersAbove path, a ∈ targets rules later dirty ∧ inspectFile rules later a = none
  /-- There is no new text below a reported folder. -/
  new : ∀ path ∉ reported rules dirty, ∀ folder ∈ foldersAbove path, folder ∈ dirty →
    earlier.nodes.get folder = some .folder → isListed rules later path = true →
      textAt rules later path ≠ none → textAt rules earlier path ≠ none
  /-- What git ignores of the texts is what it ignored. -/
  ignored : ∀ path ∉ reported rules dirty, textAt rules later path ≠ none →
    rules.isDenied path = false →
      (previous.get path ≠ none → later.isIgnored path = false) ∧
      (later.isIgnored path = false → earlier.isIgnored path = false)

end

section

variable {rules : ScanRules} {earlier later : Workspace} {dirty : List String}

/-- A manifest that has the readable texts among the listed files. -/
def IsScanOf (rules : ScanRules) (workspace : Workspace) (manifest : Manifest) : Prop :=
  ∀ path, manifest.get path =
    if isListed rules workspace path then textAt rules workspace path else none

variable {previous full : Manifest} {path : String}

theorem IsScanOf.listed (h : IsScanOf rules earlier previous) (hlisted : previous.get path ≠ none) :
    isListed rules earlier path = true ∧ textAt rules earlier path = previous.get path ∧
      IsFile (earlier.nodes.get path) := by
  have hpath := h path
  by_cases hl : isListed rules earlier path = true
  · rw [if_pos hl] at hpath
    rw [hpath] at hlisted
    exact ⟨hl, hpath.symm, isFile_of_text hlisted⟩
  · rw [if_neg hl] at hpath
    exact absurd hpath hlisted

theorem IsScanOf.get_of_text (h : IsScanOf rules later full)
    (htext : textAt rules later path ≠ none) (hdenied : rules.isDenied path = false) :
    full.get path = if later.isIgnored path then none else textAt rules later path := by
  have hlisted : isListed rules later path = true ↔
      later.isIgnored path = false ∧ rules.isDenied path = false :=
    isListed_iff_of_file (isFile_of_text htext)
  rw [h path]
  cases hignored : later.isIgnored path with
  | true =>
      have hnot : ¬ isListed rules later path = true := by
        rw [hlisted, hignored]
        exact fun hfalse => Bool.false_ne_true hfalse.1.symm
      rw [if_neg hnot, if_pos rfl]
  | false => rw [if_pos (hlisted.mpr ⟨hignored, hdenied⟩), if_neg Bool.false_ne_true]

theorem IsScanOf.get_of_no_text (h : IsScanOf rules later full)
    (htext : textAt rules later path = none) : full.get path = none := by
  rw [h path, htext]
  exact ite_self _

/-- A path above a listed file was a folder, so that the manifest does not have it. -/
theorem IsScanOf.folder (h : IsScanOf rules earlier previous) (hlisted : previous.get path ≠ none)
    {a : String} (ha : a ∈ foldersAbove path) : previous.get a = none := by
  obtain ⟨-, -, size, content, hnode⟩ := h.listed hlisted
  have hfolder := earlier.above path (Workspace.mem_names hnode) a ha
  by_contra hsome
  obtain ⟨-, -, size', content', hfile⟩ := h.listed hsome
  rw [hfolder] at hfile
  cases hfile

theorem startSize_eq : ((dropped rules later dirty).foldl Record.delete previous).entries.length =
    startSize rules later previous dirty := by
  rw [startSize, ← Record.names_deleteAll, Record.names, List.length_map]

theorem started_same : ∀ path ∈ targets rules later dirty,
    ((dropped rules later dirty).foldl Record.delete previous).get path = previous.get path :=
  fun _ hpath => target_start hpath

theorem reported_agrees (hscan : IsScanOf rules later full) (hnodup : dirty.Nodup)
    (hroom : HasRoom rules later previous (startSize rules later previous dirty)
      (targets rules later dirty)) (hpath : path ∈ reported rules dirty) :
    (refolded rules later previous dirty).manifest.get path = full.get path := by
  rw [refolded_reported hnodup hpath, folded, foldAll_get (targets_nodup hnodup) started_same
    (startSize_eq ▸ hroom)]
  have hdenied := (mem_reported.mp hpath).2
  cases hignored : later.isIgnored path with
  | true =>
      rw [if_neg fun htarget => by simp [mem_targets, hignored] at htarget]
      dsimp only
      rw [Record.get_deleteAll, if_pos (mem_dropped.mpr ⟨hpath, hignored⟩), hscan path, isListed,
        hignored]
      rfl
  | false =>
      rw [if_pos (mem_targets.mpr ⟨hpath, hignored⟩)]
      by_cases htext : textAt rules later path = none
      · rw [hscan.get_of_no_text htext, htext]
      · rw [hscan.get_of_text htext hdenied, hignored, if_neg Bool.false_ne_true]

/-- What stands at a path that was not reported is as it was, or a folder above was reported. -/
theorem Covers.unreported (hcovers : Covers earlier later dirty)
    (hpath : path ∉ reported rules dirty) (hdenied : rules.isDenied path = false)
    (htext : textAt rules later path ≠ textAt rules earlier path) :
    ∃ folder ∈ foldersAbove path, folder ∈ dirty ∧
      earlier.nodes.get folder = some .folder := by
  have hfile : IsFile (earlier.nodes.get path) ∨ IsFile (later.nodes.get path) := by
    by_cases hnone : textAt rules later path = none
    · rw [hnone] at htext
      exact .inl (isFile_of_text htext.symm)
    · exact .inr (isFile_of_text hnone)
  have hnodes : earlier.nodes.get path ≠ later.nodes.get path := by
    intro heq
    rcases hfile with hfile | hfile
    · exact htext (textAt_congr heq hfile).symm
    · exact htext (textAt_congr heq.symm hfile)
  exact (hcovers path hnodes hfile).resolve_left fun hdirty =>
    hpath (mem_reported.mpr ⟨hdirty, hdenied⟩)

theorem isDenied_of_listed (h : isListed rules earlier path = true) :
    rules.isDenied path = false := by
  unfold isListed at h
  simp only [Bool.and_eq_true, Bool.not_eq_true'] at h
  exact h.1.2

theorem foreseen_agrees (hprevious : IsScanOf rules earlier previous)
    (hscan : IsScanOf rules later full) (hnodup : dirty.Nodup)
    (hcovers : Covers earlier later dirty)
    (h : Foreseen rules earlier later previous dirty) (path : String) :
    (refolded rules later previous dirty).manifest.get path = full.get path := by
  by_cases hpath : path ∈ reported rules dirty
  · exact reported_agrees hscan hnodup h.room hpath
  obtain ⟨hseen, hunseen⟩ := @refolded_unreported rules later path previous dirty hnodup hpath
  by_cases hlisted : previous.get path = none
  · -- Nothing was listed there, and nothing new is.
    rw [hunseen fun _ => hlisted, hlisted]
    by_contra hnew
    have hfull := hscan path
    by_cases hl : isListed rules later path = true
    · rw [if_pos hl] at hfull
      have htext : textAt rules later path ≠ none := fun hnone => hnew (hfull.trans hnone).symm
      have hdenied := isDenied_of_listed hl
      have hignored := (h.ignored path hpath htext hdenied).2
        ((isListed_iff_of_file (isFile_of_text htext)).mp hl).1
      have hold : textAt rules earlier path ≠ none := by
        by_cases hsame : textAt rules later path = textAt rules earlier path
        · exact hsame ▸ htext
        · obtain ⟨folder, habove, hdirty, hfolder⟩ := hcovers.unreported hpath hdenied hsame
          exact h.new path hpath folder habove hdirty hfolder hl htext
      rw [hprevious.get_of_text hold hdenied, hignored, if_neg Bool.false_ne_true] at hlisted
      exact hold hlisted
    · rw [if_neg hl] at hfull
      exact hnew hfull.symm
  · obtain ⟨hl, htext, -⟩ := hprevious.listed hlisted
    have hdenied := isDenied_of_listed hl
    have hfull : full.get path = textAt rules later path := by
      by_cases hnone : textAt rules later path = none
      · rw [hscan.get_of_no_text hnone, hnone]
      · rw [hscan.get_of_text hnone hdenied, (h.ignored path hpath hnone hdenied).1 hlisted,
          if_neg Bool.false_ne_true]
    rw [hfull]
    by_cases hgone : SeenGone rules later previous dirty path
    · exact hseen hgone hlisted
    · rw [hunseen fun hgone' => absurd hgone' hgone, ← htext]
      by_contra hchanged
      obtain ⟨folder, habove, hdirty, hfolder⟩ :=
        hcovers.unreported hpath hdenied fun heq => hchanged heq.symm
      obtain ⟨a, ha, htarget, hnone⟩ := h.gone path hpath folder habove hdirty hfolder hlisted
        fun heq => hchanged heq.symm
      exact hgone ⟨a, ha, htarget, hnone, hprevious.folder hlisted ha⟩

theorem agrees_foreseen (hprevious : IsScanOf rules earlier previous)
    (hscan : IsScanOf rules later full) (hnodup : dirty.Nodup)
    (h : ∀ path, (refolded rules later previous dirty).manifest.get path = full.get path) :
    Foreseen rules earlier later previous dirty where
  room := by
    by_contra hroom
    rw [← startSize_eq] at hroom
    obtain ⟨path, htarget, htext, hnone⟩ :=
      foldAll_full (s := ⟨_, [], []⟩) (targets_nodup hnodup) started_same hroom
    obtain ⟨hpath, hignored⟩ := mem_targets.mp htarget
    have hget := h path
    rw [refolded_reported hnodup hpath, folded, hnone,
      hscan.get_of_text htext (mem_reported.mp hpath).2, hignored,
      if_neg Bool.false_ne_true] at hget
    exact htext hget.symm
  gone := by
    intro path hpath _ _ _ _ hlisted htext
    by_contra hnot
    have hget := h path
    rw [(@refolded_unreported rules later path previous dirty hnodup hpath).2
      fun ⟨a, ha, htarget, hnone, _⟩ => absurd ⟨a, ha, htarget, hnone⟩ hnot] at hget
    rw [hget] at hlisted
    rw [← (hprevious.listed (hget ▸ hlisted)).2.1] at hget
    obtain ⟨-, hlater, -⟩ := hscan.listed hlisted
    exact htext (hlater.trans hget.symm)
  new := by
    intro path hpath _ _ _ _ hl htext hold
    have hget := h path
    have hlisted : previous.get path = none := hprevious.get_of_no_text hold
    rw [(@refolded_unreported rules later path previous dirty hnodup hpath).2 fun _ => hlisted,
      hlisted, hscan path, if_pos hl] at hget
    exact htext hget.symm
  ignored := by
    intro path hpath htext hdenied
    have hget := h path
    rw [hscan.get_of_text htext hdenied] at hget
    obtain ⟨hseen, hunseen⟩ := @refolded_unreported rules later path previous dirty hnodup hpath
    constructor
    · intro hlisted
      by_contra hignored
      rw [Bool.not_eq_false] at hignored
      rw [hignored, if_pos rfl] at hget
      by_cases hgone : SeenGone rules later previous dirty path
      · exact htext ((hseen hgone hlisted).symm.trans hget)
      · exact hlisted ((hunseen fun hgone' => absurd hgone' hgone).symm.trans hget)
    · intro hignored
      rw [hignored, if_neg Bool.false_ne_true] at hget
      have hlisted : previous.get path ≠ none := by
        intro hnone
        rw [hunseen fun _ => hnone, hnone] at hget
        exact htext hget.symm
      obtain ⟨hl, -, hfile⟩ := hprevious.listed hlisted
      exact ((isListed_iff_of_file hfile).mp hl).1

end

/-! ## A folder that is gone, and one that a file stands in place of -/

def exampleRules : ScanRules where
  isDenied _ := false
  isBinary _ _ := false
  sha256 _ := ""
  textSha256 _ bytes := toString bytes.length

def exampleFile : WorkspaceNode := .file 1 (some [1])

def folderWorkspace : Workspace where
  nodes := ⟨[("a", .folder), ("a/x", exampleFile)], by decide⟩
  above := by decide +kernel
  isIgnored _ := false

def emptyWorkspace : Workspace where
  nodes := ⟨[], by decide⟩
  above := by decide
  isIgnored _ := false

def replacedWorkspace : Workspace where
  nodes := ⟨[("a", exampleFile)], by decide⟩
  above := by decide +kernel
  isIgnored _ := false

theorem covers_of_folder {later : Workspace} (hnames : ∀ path ∈ later.nodes.names, path = "a") :
    Covers folderWorkspace later ["a"] := by
  intro path hne _
  by_cases ha : path = "a"
  · exact .inl (List.mem_singleton.mpr ha)
  · have hlater : later.nodes.get path = none :=
      Option.isNone_iff_eq_none.mp (Record.get_isNone.mpr fun hmem => ha (hnames path hmem))
    rw [hlater] at hne
    have hmem : path ∈ folderWorkspace.nodes.names := by
      by_contra hnot
      exact hne (Option.isNone_iff_eq_none.mp (Record.get_isNone.mpr hnot))
    rcases List.mem_cons.mp hmem with heq | hmem
    · exact absurd heq ha
    · obtain rfl := List.mem_singleton.mp hmem
      exact .inr ⟨"a", by decide +kernel, List.mem_cons_self .., by decide +kernel⟩

end Uploader

end OmniRush
