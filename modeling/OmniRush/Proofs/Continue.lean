import OmniRush.Archive.Capture
import OmniRush.Proofs.Replay

/-!
# A continued chain and what it leaves behind

A delta captured without a baseline carries every scanned entry and deletes
nothing: `computeArchiveDelta` and `touchedChange` take deletions from the
baseline alone. Folded onto what the server holds it puts every scanned path
right and touches no other. So the fold is the scan exactly when the server held
no path that is gone from the folder (`continued_yields_iff`); a file deleted
between the server's last archive and the continuation stays in the replay.
-/

namespace OmniRush.Archive

open OmniRush

/-- At each path the entry a scan has for it, and nothing where it has none. -/
def Yields (held : View String ArchiveEntry) (scanned : List ScannedEntry) : Prop :=
  ∀ p, (∃ e ∈ scanned, e.path = p ∧ held p = some (manifestEntry e)) ∨
    (p ∉ scanned.map (·.path) ∧ held p = none)

theorem continueServerChain_continue {state found : SessionState} {answer : ServerChain}
    {signedOut : Bool} (h : continueServerChain state answer signedOut = .continue found) :
    ∃ nextSequence tip, nextSequence ≠ 0 ∧ found = pointedAt state nextSequence tip := by
  unfold continueServerChain at h
  split at h
  · cases h
  · cases h
  · cases h
  · next nextSequence tip =>
      split at h
      · cases h
      · next hzero =>
          split at h
          · cases h
          · split at h
            · cases h
            · split at h
              · cases h
              · split at h
                · cases h
                · cases h
                  exact ⟨nextSequence, tip, hzero, rfl⟩

theorem PointedAtTip.readBaseline {state : SessionState} (h : PointedAtTip state)
    (baselines : String → Option String) : readBaseline state baselines = some [] := by
  have hstate : state.baseline = none ∧ state.serverChain = true := by
    cases h with
    | capture h =>
        obtain ⟨_, _, -, rfl⟩ := continueServerChain_continue h
        exact ⟨rfl, rfl⟩
    | conflict h hnull =>
        refine ⟨hnull, ?_⟩
        unfold continuedState
        split
        · next hcurrent => exact hcurrent.1
        · rfl
  rw [Archive.readBaseline, hstate.1]
  exact if_pos hstate.2

theorem planContent_empty (marker : String) (input : CaptureInput) :
    (planContent marker .delta [] input).files.Perm (input.scanned []) ∧
      (planContent marker .delta [] input).deleted = some [] := by
  unfold planContent
  split
  · have hall : (touchedChange [] { input.scan with entries := input.scanned [] }).files
        = input.scanned [] := List.filter_true _
    exact ⟨List.Perm.of_eq hall, rfl⟩
  · rw [if_pos rfl]
    have hdelta : computeArchiveDelta [] (input.scanned [])
        = ⟨sortedByPath (fun e => e.path) (input.scanned []), []⟩ := by
      unfold computeArchiveDelta
      rw [show sortedByPath ArchiveEntry.path [] = [] from rfl, mergeDelta]
    rw [hdelta]
    exact ⟨sortedByPath_perm _ _, rfl⟩

/-- A patch that puts a whole scan and drops nothing yields the scan where nothing
else was held. -/
theorem applyPatch_yields_iff {files scanned : List ScannedEntry} (hperm : files.Perm scanned)
    (held : View String ArchiveEntry) :
    Yields (applyPatch ArchiveEntry.path (files.map manifestEntry) [] held) scanned ↔
      ∀ p, (held p).isSome → p ∈ scanned.map (·.path) := by
  have huntouched : ∀ p, p ∉ scanned.map (·.path) →
      applyPatch ArchiveEntry.path (files.map manifestEntry) [] held p = held p := by
    intro p hp
    refine applyPatch_untouched (fun v hv hpath => hp ?_) (List.not_mem_nil) held
    obtain ⟨e, he, rfl⟩ := List.mem_map.mp hv
    exact List.mem_map.mpr ⟨e, hperm.mem_iff.mp he, hpath⟩
  constructor
  · intro hyields p hp
    rcases hyields p with ⟨e, he, rfl, -⟩ | ⟨hnot, hnone⟩
    · exact List.mem_map_of_mem (f := fun e : ScannedEntry => e.path) he
    · rw [huntouched p hnot] at hnone
      rw [hnone] at hp
      cases hp
  · intro hsub p
    by_cases hp : p ∈ scanned.map (·.path)
    · obtain ⟨e, he, hpath⟩ := List.mem_map.mp hp
      have hput : ∃ v ∈ files.map manifestEntry, v.path = p :=
        ⟨manifestEntry e, List.mem_map_of_mem (hperm.mem_iff.mpr he), hpath⟩
      obtain ⟨v, hv, hvp, heq⟩ := applyPatch_put hput List.not_mem_nil held
      obtain ⟨e', he', rfl⟩ := List.mem_map.mp hv
      exact .inl ⟨e', hperm.mem_iff.mp he', hvp, heq⟩
    · refine .inr ⟨hp, ?_⟩
      rw [huntouched p hp]
      exact Option.not_isSome_iff_eq_none.mp fun h => hp (hsub p h)

/-- The delta captured on a chain continued from the server, folded onto what the
server holds, is the scan exactly when the server holds no other path. -/
theorem continued_yields_iff {chain : Chain} (hstate : PointedAtTip chain.state)
    (input : CaptureInput) (held : View String ArchiveEntry) :
    Yields (foldOnto held chain (captureArchiveOnce chain .delta input)) (input.scanned []) ↔
      ∀ p, (held p).isSome → p ∈ (input.scanned []).map (·.path) := by
  obtain ⟨hperm, hdeleted⟩ := planContent_empty chain.state.marker input
  have happly := applyPatch_yields_iff hperm held
  have hread : (if ArchiveKind.delta = .delta then readBaseline chain.state chain.baselines
      else some []) = some [] := hstate.readBaseline chain.baselines
  rcases captureArchiveOnce_cases input hread with ⟨hplan, hcap⟩ | ⟨plan, hplan, hcap⟩
  · obtain ⟨hfiles, -⟩ := planArchive_none hplan
    rw [hfiles] at happly
    have hfold : foldOnto held chain (captureArchiveOnce chain .delta input) = held := by
      rw [hcap]
      simp [foldOnto]
    rw [hfold]
    exact happly
  · have hplan' := planArchive_some hplan
    obtain ⟨archive, harch, hfiles, hdel, -⟩ := commitArchive_archives chain .delta input plan
    have hfold : foldOnto held chain (captureArchiveOnce chain .delta input)
        = applyPatch ArchiveEntry.path (plan.files.map manifestEntry) [] held := by
      rw [hcap, foldOnto, harch, List.drop_left, List.foldl_cons, List.foldl_nil,
        SealedArchive.apply, hfiles, hdel, hplan', hdeleted]
      rfl
    rw [hfold, hplan']
    exact happly

/-- A git session at its first capture here, and what the server says of it. -/
def lostSession : SessionState := SessionState.fresh "session" "git" false false

def serverTip : ServerChainTip where
  archiveId := "base"
  sequence := 0
  turn := 0
  marker := some "git"
  status := .uploaded
  deleted := false

def continuedChain : Chain := Chain.start "key" (pointedAt lostSession 1 serverTip)

theorem continuedChain_pointed : PointedAtTip continuedChain.state := by
  have hanswer : continueServerChain lostSession (.ok 1 (some serverTip)) false
      = .continue (pointedAt lostSession 1 serverTip) := rfl
  exact .capture hanswer

/-- The folder now: one file. -/
def laterCapture : CaptureInput where
  archiveId := "delta"
  turn := 1
  scan :=
    { entries := [fileEntry "a.txt" { mode := 0o644, size := 1, sha256 := some "aa" }]
      plain := by simp [fileEntry] }

/-- What the server replays of a base that held the files `paths`. -/
def heldFiles (paths : List String) : View String ArchiveEntry :=
  View.ofList ArchiveEntry.path (paths.map fun path =>
    manifestEntry (fileEntry path { mode := 0o644, size := 1, sha256 := some "00" }))

theorem continued_yields_same_paths :
    Yields (foldOnto (heldFiles ["a.txt"]) continuedChain
      (captureArchiveOnce continuedChain .delta laterCapture)) (laterCapture.scanned []) := by
  refine (continued_yields_iff continuedChain_pointed laterCapture _).mpr fun p hp => ?_
  rw [heldFiles, View.ofList_isSome] at hp
  exact hp

/-- `old.txt` was deleted since the server's last archive, and survives. -/
theorem continued_keeps_deleted :
    "old.txt" ∉ (laterCapture.scanned []).map (·.path) ∧
      (foldOnto (heldFiles ["a.txt", "old.txt"]) continuedChain
        (captureArchiveOnce continuedChain .delta laterCapture) "old.txt").isSome ∧
      ¬ Yields (foldOnto (heldFiles ["a.txt", "old.txt"]) continuedChain
        (captureArchiveOnce continuedChain .delta laterCapture)) (laterCapture.scanned []) := by
  have hgone : "old.txt" ∉ (laterCapture.scanned []).map (·.path) := by decide +kernel
  have hheld : (foldOnto (heldFiles ["a.txt", "old.txt"]) continuedChain
      (captureArchiveOnce continuedChain .delta laterCapture) "old.txt").isSome := by
    decide +kernel
  refine ⟨hgone, hheld, fun hyields => ?_⟩
  rcases hyields "old.txt" with ⟨e, he, hpath, -⟩ | ⟨-, hnone⟩
  · exact hgone (List.mem_map.mpr ⟨e, he, hpath⟩)
  · rw [hnone] at hheld
    cases hheld

end OmniRush.Archive
