import OmniRush.Proofs.Baseline
import OmniRush.Proofs.Plan

/-!
# A chain replays to its baseline

The server side of a chain is a fold of patches, the client side one entry list
that is rewritten after every archive. `Faithful` relates the two between
captures: at each path the replayed entry and the baseline entry say the same,
or the path was last reported unstable and its baseline hash is blank. A capture
keeps the relation whether it sends an archive or finds nothing changed
(`capture_faithful`), so a run does.

The step goes through one patch. What a capture plans leads from the baseline to
its next entry list (`planContent_leads`), the document it stores is that list
with the unstable hashes blanked, and a blank hash is unequal to any hash a later
scan can read, which is what sends the path again.

Every scan has to name no path twice. With a repeat the merge of the next delta
deletes a path the folder still has.
-/

namespace OmniRush.Archive

open OmniRush

/-! ## Agreement -/

/-- A replayed entry and a listed one say the same of a path, but for the blank
hash of a file that was reported unstable when it was last sent. -/
structure Agrees (reported : Bool) (replayed listed : ArchiveEntry) : Prop where
  type : replayed.type = listed.type
  mode : replayed.mode = listed.mode
  target : replayed.target = listed.target
  sha256 : replayed.sha256 = listed.sha256 ∨
    (reported = true ∧ listed.type = .file ∧ listed.sha256 = none)

theorem Agrees.refl (reported : Bool) (e : ArchiveEntry) : Agrees reported e e :=
  ⟨rfl, rfl, rfl, .inl rfl⟩

/-- A path that is not sent keeps its agreement: a file's blank hash stays
blank, the other entries have no hash. -/
theorem Agrees.kept {reported : Bool} {f b n : ArchiveEntry} (h : Agrees reported f b)
    (hsame : SameContent b n) (hb : archiveEntry b = b) (hn : archiveEntry n = n)
    (hplainb : b.type ≠ .file → b.sha256 = none)
    (hplainn : n.type ≠ .file → n.sha256 = none) : Agrees reported f n := by
  refine ⟨h.type.trans hsame.type, h.mode.trans hsame.mode, h.target.trans ?_, ?_⟩
  · by_cases hlink : n.type = .symlink
    · exact hsame.target hlink
    · have hlinkb : b.type ≠ .symlink := hsame.type ▸ hlink
      rw [← hb, ← hn]
      simp [archiveEntry, hlink, hlinkb]
  · by_cases hfile : n.type = .file
    · have hsha := hsame.sha256 hfile
      rcases h.sha256 with h | ⟨hr, -, hnone⟩
      · exact .inl (h.trans hsha)
      · exact .inr ⟨hr, hfile, hsha ▸ hnone⟩
    · have hfileb : b.type ≠ .file := hsame.type ▸ hfile
      rcases h.sha256 with h | ⟨-, hfile', -⟩
      · exact .inl (h.trans ((hplainb hfileb).trans (hplainn hfile).symm))
      · exact absurd hfile' hfileb

theorem Agrees.blanked {reported : Bool} {f n : ArchiveEntry} {unstable : List String}
    (h : Agrees reported f n) (hreported : n.path ∈ unstable → reported = true)
    (hplain : n.type ≠ .file → n.sha256 = none) : Agrees reported f (blank unstable n) := by
  by_cases hmem : n.path ∈ unstable
  · refine ⟨by rw [blank_type, h.type], by rw [blank_mode, h.mode],
      by rw [blank_target, h.target], ?_⟩
    have hnone : (blank unstable n).sha256 = none := by rw [blank, if_pos hmem]
    by_cases hfile : n.type = .file
    · exact .inr ⟨hreported hmem, by rw [blank_type, hfile], hnone⟩
    · rcases h.sha256 with hsha | ⟨-, hfile', -⟩
      · exact .inl (by rw [hsha, hplain hfile, hnone])
      · exact absurd hfile' hfile
  · rwa [blank_of_notMem hmem]

/-! ## One capture -/

/-- Between captures: the replay says what the baseline says. -/
structure Faithful (chain : Chain) (entries : List ArchiveEntry) : Prop where
  baseline : chain.baseline = some entries
  form : BaselineForm entries
  replayed : ∀ p, Option.Rel (Agrees (reportedUnstable chain.archives p))
    (replay chain.archives p) (View.ofList ArchiveEntry.path entries p)
  reported : ∀ e ∈ entries, reportedUnstable chain.archives e.path = true →
    e.type ≠ .dir ∧ e.sha256 = none
  sequences : chain.archives.map (·.manifest.sequence) = List.range chain.state.nextSequence

theorem faithful_start (sessionKey sessionId marker : String) (v2 filesUsed : Bool) :
    Faithful (Chain.start sessionKey (SessionState.fresh sessionId marker v2 filesUsed)) [] :=
  ⟨rfl, BaselineForm.nil, fun _ => .none, by simp, rfl⟩

theorem Faithful.base_nil {chain : Chain} {entries : List ArchiveEntry}
    (h : Faithful chain entries) (hkind : chain.nextKind = .base) : entries = [] := by
  have hbase := h.baseline
  unfold Chain.nextKind at hkind
  split at hkind
  · next hzero =>
      rw [Chain.baseline, if_pos hzero] at hbase
      exact (Option.some.inj hbase).symm
  · cases hkind

theorem planArchive_none {marker : String} {kind : ArchiveKind} {baseline : List ArchiveEntry}
    {input : CaptureInput} (h : planArchive marker kind baseline input = none) :
    (planContent marker kind baseline input).files = [] ∧
      (planContent marker kind baseline input).deleted.getD [] = [] := by
  simp only [planArchive] at h
  split at h
  · next hempty =>
      simp only [Bool.and_eq_true, List.isEmpty_iff] at hempty
      exact hempty.1.2
  · cases h

theorem planArchive_some {marker : String} {kind : ArchiveKind} {baseline : List ArchiveEntry}
    {input : CaptureInput} {plan : Plan} (h : planArchive marker kind baseline input = some plan) :
    plan = planContent marker kind baseline input := by
  simp only [planArchive] at h
  split at h
  · cases h
  · exact (Option.some.inj h).symm

theorem captureArchiveOnce_cases {chain : Chain} {kind : ArchiveKind}
    {entries : List ArchiveEntry} (input : CaptureInput)
    (hread : (if kind = .delta then readBaseline chain.state chain.baselines else some [])
      = some entries) :
    (planArchive chain.state.marker kind entries input = none ∧
      captureArchiveOnce chain kind input = { chain with
        state := noteUnchanged chain.state kind input.turn input.options }) ∨
    (∃ plan, planArchive chain.state.marker kind entries input = some plan ∧
      captureArchiveOnce chain kind input = commitArchive chain kind input plan) := by
  unfold captureArchiveOnce
  simp only [hread]
  cases hplan : planArchive chain.state.marker kind entries input with
  | none => exact .inl ⟨rfl, rfl⟩
  | some plan => exact .inr ⟨plan, rfl, rfl⟩

theorem capture_cases {chain : Chain} {entries : List ArchiveEntry}
    (h : chain.baseline = some entries) (input : CaptureInput) :
    (planArchive chain.state.marker chain.nextKind entries input = none ∧
      chain.capture input = { chain with
        state := noteUnchanged chain.state chain.nextKind input.turn input.options }) ∨
    (∃ plan, planArchive chain.state.marker chain.nextKind entries input = some plan ∧
      chain.capture input = commitArchive chain chain.nextKind input plan) := by
  have hread : (if chain.nextKind = .delta then readBaseline chain.state chain.baselines
      else some []) = some entries := by
    rw [← h, Chain.baseline, Chain.nextKind]
    by_cases hzero : chain.state.nextSequence = 0
    · simp [hzero]
    · simp [hzero]
  exact captureArchiveOnce_cases input hread

@[simp] theorem noteUnchanged_nextSequence (state : SessionState) (kind : ArchiveKind)
    (turn : Nat) (options : CaptureOptions) :
    (noteUnchanged state kind turn options).nextSequence = state.nextSequence := by
  unfold noteUnchanged
  split
  · rfl
  · split <;> rfl

@[simp] theorem noteUnchanged_baseline (state : SessionState) (kind : ArchiveKind)
    (turn : Nat) (options : CaptureOptions) :
    (noteUnchanged state kind turn options).baseline = state.baseline := by
  unfold noteUnchanged
  split
  · rfl
  · split <;> rfl

@[simp] theorem noteUnchanged_serverChain (state : SessionState) (kind : ArchiveKind)
    (turn : Nat) (options : CaptureOptions) :
    (noteUnchanged state kind turn options).serverChain = state.serverChain := by
  unfold noteUnchanged
  split
  · rfl
  · split <;> rfl

theorem removePrevious_current {previous : Option String} {next : SessionState} {name : String}
    (h : next.baseline = some name) (files : String → Option String) :
    removePrevious previous next files name = files name := by
  unfold removePrevious
  split
  · rfl
  · split
    · next previous hne =>
        have hother : name ≠ previous := fun heq => hne.1 (by rw [h, heq])
        exact if_neg hother
    · rfl

/-- The baseline a commit leaves is its next entry list, the reported hashes
blank: the previous baseline that goes has another name. -/
theorem commitArchive_baseline (chain : Chain) (kind : ArchiveKind) (input : CaptureInput)
    (plan : Plan) :
    (commitArchive chain kind input plan).baseline
      = some (plan.next.map (baselineEntry (packUnstable input.changed plan.files))) := by
  have hread : (commitArchive chain kind input plan).baselines
      (baselineName chain.sessionKey chain.state.nextSequence)
      = some (baselineText plan.next (packUnstable input.changed plan.files)) := by
    refine (removePrevious_current rfl _).trans ?_
    exact if_pos rfl
  have hnext : (commitArchive chain kind input plan).state.nextSequence ≠ 0 :=
    Nat.succ_ne_zero _
  rw [Chain.baseline, if_neg hnext]
  show parseBaselineText ((commitArchive chain kind input plan).baselines
    (baselineName chain.sessionKey chain.state.nextSequence)) = _
  rw [hread]
  exact parseBaselineText_baselineText plan.next _

theorem commitArchive_archives (chain : Chain) (kind : ArchiveKind) (input : CaptureInput)
    (plan : Plan) :
    ∃ archive : SealedArchive,
      (commitArchive chain kind input plan).archives = chain.archives ++ [archive] ∧
      archive.manifest.files = plan.files.map manifestEntry ∧
      archive.manifest.deleted = plan.deleted ∧
      archive.manifest.sequence = chain.state.nextSequence ∧
      archive.unstable = packUnstable input.changed plan.files :=
  ⟨_, rfl, rfl, rfl, rfl, rfl⟩

theorem replay_append (archives : List SealedArchive) (archive : SealedArchive) :
    replay (archives ++ [archive]) = archive.apply (replay archives) := by
  rw [replay, List.foldl_append]
  rfl

theorem reportedUnstable_append (archives : List SealedArchive) (archive : SealedArchive)
    (p : String) :
    reportedUnstable (archives ++ [archive]) p
      = (if p ∈ archive.manifest.files.map (·.path) then decide (p ∈ archive.unstable)
        else if p ∈ archive.manifest.deleted.getD [] then false
        else reportedUnstable archives p) := by
  rw [reportedUnstable, List.foldl_append]
  rfl

theorem mem_packUnstable {changed : ScannedEntry → Bool} {files : List ScannedEntry} {p : String}
    (h : p ∈ packUnstable changed files) :
    ∃ e ∈ files, e.path = p ∧ e.type ≠ .dir := by
  obtain ⟨e, he, rfl⟩ := List.mem_map.mp h
  rw [List.mem_filter] at he
  refine ⟨e, he.1, rfl, ?_⟩
  have h2 := he.2
  simp only [Bool.and_eq_true, decide_eq_true_eq] at h2
  exact h2.1.1

/-- What is known of a path after a patch that reported `unstable`. -/
def reportedAfter (files : List ArchiveEntry) (deleted unstable : List String)
    (reported : Bool) (p : String) : Bool :=
  if p ∈ files.map (·.path) then decide (p ∈ unstable)
  else if p ∈ deleted then false
  else reported

section Step

variable {chain : Chain} {entries : List ArchiveEntry} {input : CaptureInput}

theorem Faithful.content (h : Faithful chain entries)
    (hs : (input.scan.entries.map (·.path)).Nodup) {plan : Plan}
    (hplan : plan = planContent chain.state.marker chain.nextKind entries input)
    (unstable : List String) (p : String) :
    Option.Rel
      (Agrees (reportedAfter (plan.files.map manifestEntry) (plan.deleted.getD []) unstable
        (reportedUnstable chain.archives p) p))
      (applyPatch ArchiveEntry.path (plan.files.map manifestEntry) (plan.deleted.getD [])
        (replay chain.archives) p)
      (View.ofList ArchiveEntry.path (plan.next.map archiveEntry) p) := by
  have hleads := planContent_leads chain.state.marker chain.nextKind h.form hs
    h.base_nil
  rw [← hplan] at hleads
  have hnextplain := planContent_next_plain chain.state.marker chain.nextKind input h.form
  rw [← hplan] at hnextplain
  refine hleads.apply
    (fun p => Agrees (reportedAfter (plan.files.map manifestEntry) (plan.deleted.getD [])
      unstable (reportedUnstable chain.archives p) p))
    h.replayed (fun v _ => Agrees.refl _ v) ?_ p
  intro k f b n hput hdrop hbase hnext hsame hagree
  have hnotput : k ∉ (plan.files.map manifestEntry).map (·.path) := by
    intro hmem
    obtain ⟨v, hv, hpath⟩ := List.mem_map.mp hmem
    exact hput v hv hpath
  have hsamereported : reportedAfter (plan.files.map manifestEntry) (plan.deleted.getD [])
      unstable (reportedUnstable chain.archives k) k = reportedUnstable chain.archives k := by
    rw [reportedAfter, if_neg hnotput, if_neg hdrop]
  rw [hsamereported]
  have hbmem := ((View.ofList_eq_some h.form.nodup).mp hbase).1
  obtain ⟨m, hm, rfl⟩ := List.mem_map.mp (List.mem_of_find?_eq_some hnext)
  exact hagree.kept hsame (h.form.form b hbmem) (archiveEntry_idem m)
    (h.form.plain b hbmem) (hnextplain m hm)

theorem Faithful.stays_reported (h : Faithful chain entries)
    (hs : (input.scan.entries.map (·.path)).Nodup) {plan : Plan}
    (hplan : plan = planContent chain.state.marker chain.nextKind entries input)
    {n : ArchiveEntry} (hn : n ∈ plan.next)
    (hput : n.path ∉ (plan.files.map manifestEntry).map (·.path))
    (hdrop : n.path ∉ plan.deleted.getD [])
    (hreported : reportedUnstable chain.archives n.path = true) :
    n.type ≠ .dir ∧ n.sha256 = none := by
  have hleads := planContent_leads chain.state.marker chain.nextKind h.form hs
    h.base_nil
  have hnd := planContent_next_nodup chain.state.marker chain.nextKind h.form hs
  have hplain := planContent_next_plain chain.state.marker chain.nextKind input h.form
  rw [← hplan] at hleads hnd hplain
  have hnd' : ((plan.next.map archiveEntry).map ArchiveEntry.path).Nodup := by
    rw [List.map_map]
    exact hnd
  have hnext := (View.ofList_eq_some hnd').mpr
    ⟨List.mem_map_of_mem (f := archiveEntry) hn, rfl⟩
  have hrel := hleads.kept n.path (fun v hv hpath => hput (hpath ▸ List.mem_map_of_mem hv)) hdrop
  rw [show View.ofList ArchiveEntry.path (plan.next.map archiveEntry) n.path
    = some (archiveEntry n) from hnext] at hrel
  cases hbase : View.ofList ArchiveEntry.path entries n.path with
  | none =>
      rw [hbase] at hrel
      cases hrel
  | some b =>
      rw [hbase] at hrel
      cases hrel with
      | some hsame =>
          obtain ⟨hbmem, hpath⟩ := (View.ofList_eq_some h.form.nodup).mp hbase
          obtain ⟨hdir, hsha⟩ := h.reported b hbmem (by rw [hpath]; exact hreported)
          refine ⟨fun hd => hdir (hsame.type.trans hd), ?_⟩
          by_cases hfile : n.type = .file
          · exact (hsame.sha256 hfile).symm.trans hsha
          · exact hplain n hn hfile

theorem capture_faithful (h : Faithful chain entries)
    (hs : (input.scan.entries.map (·.path)).Nodup) :
    ∃ entries', Faithful (chain.capture input) entries' ∧
      ∀ p, Option.Rel (Agrees (reportedUnstable (chain.capture input).archives p))
        (replay (chain.capture input).archives p)
        (View.ofList ArchiveEntry.path
          ((planContent chain.state.marker chain.nextKind entries input).next.map archiveEntry)
          p) := by
  rcases capture_cases h.baseline input with ⟨hplan, hcap⟩ | ⟨plan, hplan, hcap⟩
  · refine ⟨entries, ?_, fun p => ?_⟩
    · rw [hcap]
      exact ⟨by simpa [Chain.baseline, readBaseline] using h.baseline, h.form, h.replayed,
        h.reported, by simpa using h.sequences⟩
    · have hcontent := h.content hs rfl [] p
      obtain ⟨hfiles, hdeleted⟩ := planArchive_none hplan
      rw [hfiles, hdeleted] at hcontent
      rw [hcap]
      exact hcontent
  · have hplan' := planArchive_some hplan
    obtain ⟨archive, harch, hfiles, hdeleted, hseq, hunstable⟩ :=
      commitArchive_archives chain chain.nextKind input plan
    have hcontent := h.content hs hplan' (packUnstable input.changed plan.files)
    have hnd := planContent_next_nodup chain.state.marker chain.nextKind h.form hs
    have hplain := planContent_next_plain chain.state.marker chain.nextKind input h.form
    rw [← hplan'] at hnd hplain
    have hreported : ∀ p, reportedUnstable (chain.capture input).archives p
        = reportedAfter (plan.files.map manifestEntry) (plan.deleted.getD [])
          (packUnstable input.changed plan.files) (reportedUnstable chain.archives p) p := by
      intro p
      rw [hcap, harch, reportedUnstable_append, hfiles, hdeleted, hunstable]
      rfl
    have hreplay : ∀ p, replay (chain.capture input).archives p
        = applyPatch ArchiveEntry.path (plan.files.map manifestEntry) (plan.deleted.getD [])
          (replay chain.archives) p := by
      intro p
      rw [hcap, harch, replay_append, SealedArchive.apply, hfiles, hdeleted]
    have hresult : ∀ p, Option.Rel (Agrees (reportedUnstable (chain.capture input).archives p))
        (replay (chain.capture input).archives p)
        (View.ofList ArchiveEntry.path (plan.next.map archiveEntry) p) := by
      intro p
      rw [hreported, hreplay]
      exact hcontent p
    have hsent : ∀ p, p ∈ packUnstable input.changed plan.files →
        reportedUnstable (chain.capture input).archives p = true := by
      intro p hp
      obtain ⟨e, he, rfl, -⟩ := mem_packUnstable hp
      have hmem : e.path ∈ (plan.files.map manifestEntry).map (·.path) := by
        rw [map_path_manifestEntry]
        exact List.mem_map_of_mem he
      rw [hreported, reportedAfter, if_pos hmem, decide_eq_true_eq]
      exact hp
    refine ⟨plan.next.map (baselineEntry (packUnstable input.changed plan.files)),
      ⟨?_, baselineForm_written hnd hplain, fun p => ?_, ?_, ?_⟩, hplan' ▸ hresult⟩
    · rw [hcap]
      exact commitArchive_baseline chain chain.nextKind input plan
    · have hmap : plan.next.map (baselineEntry (packUnstable input.changed plan.files))
          = (plan.next.map archiveEntry).map (blank (packUnstable input.changed plan.files)) := by
        rw [List.map_map]
        rfl
      rw [hmap, View.ofList_map (fun v => blank_path _ v)]
      have hrel := hresult p
      revert hrel
      cases hr : replay (chain.capture input).archives p <;>
        cases hn : View.ofList ArchiveEntry.path (plan.next.map archiveEntry) p <;>
        intro hrel <;> cases hrel
      · exact .none
      · next f n hagree =>
          have hpath := List.find?_some hn
          rw [decide_eq_true_eq] at hpath
          obtain ⟨m, hm, rfl⟩ := List.mem_map.mp (List.mem_of_find?_eq_some hn)
          exact .some (hagree.blanked (fun hmem => hsent p (hpath ▸ hmem)) (hplain m hm))
    · intro e he hrep
      obtain ⟨n, hn, rfl⟩ := List.mem_map.mp he
      rw [baselineEntry_eq_blank] at hrep ⊢
      rw [blank_path, hreported, reportedAfter] at hrep
      rw [blank_type]
      split at hrep
      · next hmem =>
          rw [decide_eq_true_eq] at hrep
          have hrep' : n.path ∈ packUnstable input.changed plan.files := hrep
          refine ⟨?_, by rw [blank, if_pos hrep]⟩
          obtain ⟨s, hsf, hpath, hdir⟩ := mem_packUnstable hrep'
          have hsnext : s.toArchiveEntry ∈ plan.next := by
            rw [hplan'] at hsf ⊢
            exact mem_planContent_next _ _ (planContent_files_scanned _ _ h.form hs hsf)
          have hsame : s.toArchiveEntry = n :=
            List.inj_on_of_nodup_map hnd hsnext hn hpath
          exact hsame ▸ hdir
      · next hmem =>
          split at hrep
          · cases hrep
          · next hdrop =>
              obtain ⟨hdir, hsha⟩ := h.stays_reported hs hplan' hn hmem hdrop hrep
              exact ⟨hdir, blank_sha256 hsha⟩
    · rw [hcap, harch, List.map_append, h.sequences, List.map_singleton, hseq]
      exact List.range_succ.symm

theorem mem_map_next {p : String} {l : List ArchiveEntry} :
    (View.ofList ArchiveEntry.path (l.map archiveEntry) p).isSome ↔ p ∈ l.map (·.path) := by
  rw [View.ofList_isSome, List.map_map]
  rfl

theorem planContent_next_whole {marker : String} (hmarker : marker ≠ touchedMarker)
    (kind : ArchiveKind) (baseline : List ArchiveEntry) (input : CaptureInput) :
    (planContent marker kind baseline input).next
      = (input.scanned baseline).map (·.toArchiveEntry) := by
  simp only [planContent, if_neg hmarker]
  split <;> rfl

theorem planContent_next_gone (kind : ArchiveKind) {baseline : List ArchiveEntry} {p : String}
    (hgone : p ∈ input.scan.gone) (hp : p ∉ (input.scanned baseline).map (·.path)) :
    p ∉ (planContent touchedMarker kind baseline input).next.map (·.path) := by
  intro hmem
  obtain ⟨e, he, rfl⟩ := List.mem_map.mp hmem
  simp only [planContent, if_true] at he
  rcases (mem_touchedChange_next e).mp he with h | ⟨-, -, h⟩
  · obtain ⟨s, hsm, rfl⟩ := List.mem_map.mp h
    exact hp (List.mem_map_of_mem (f := fun e : ScannedEntry => e.path) hsm)
  · exact h hgone

/-- A path last reported unstable is in the next archive of a scan that can read
it. Only a link that is as it was sent is not sent again. -/
theorem Faithful.resent (h : Faithful chain entries)
    (hs : (input.scan.entries.map (·.path)).Nodup) {e : ScannedEntry}
    (he : e ∈ input.scanned entries)
    (hreported : reportedUnstable chain.archives e.path = true)
    (hread : e.type = .file → e.sha256 ≠ none) :
    (∃ archive, (chain.capture input).archives = chain.archives ++ [archive] ∧
      manifestEntry e ∈ archive.manifest.files) ∨
    (e.type = .symlink ∧ ∃ f, replay chain.archives e.path = some f ∧
      Agrees false f (manifestEntry e)) := by
  have hleads := planContent_leads chain.state.marker chain.nextKind h.form hs
    h.base_nil
  by_cases hsent : e ∈ (planContent chain.state.marker chain.nextKind entries input).files
  · left
    rcases capture_cases h.baseline input with ⟨hplan, -⟩ | ⟨plan, hplan, hcap⟩
    · rw [(planArchive_none hplan).1] at hsent
      cases hsent
    · obtain ⟨archive, harch, hfiles, -⟩ := commitArchive_archives chain chain.nextKind input plan
      refine ⟨archive, by rw [hcap, harch], ?_⟩
      rw [hfiles, planArchive_some hplan]
      exact List.mem_map_of_mem hsent
  · right
    have hnd := planContent_next_nodup chain.state.marker chain.nextKind h.form hs
    have hnext := mem_planContent_next chain.state.marker chain.nextKind he
    have hnotput : e.path ∉ ((planContent chain.state.marker chain.nextKind entries
        input).files.map manifestEntry).map (·.path) := by
      rw [map_path_manifestEntry]
      intro hmem
      obtain ⟨e', he', hpath⟩ := List.mem_map.mp hmem
      have hscan := planContent_files_scanned _ _ h.form hs he'
      have heq := List.inj_on_of_nodup_map (scanned_nodup _ _ hs) hscan he hpath
      exact hsent (heq ▸ he')
    have hdrop : e.path ∉ (planContent chain.state.marker chain.nextKind entries
        input).deleted.getD [] := by
      intro hmem
      have hnone := hleads.drop _ hmem
      rw [View.ofList_eq_none, List.map_map] at hnone
      exact hnone (List.mem_map_of_mem (f := fun e : ArchiveEntry => e.path) hnext)
    obtain ⟨hdir, hsha⟩ := h.stays_reported hs rfl hnext hnotput hdrop hreported
    have hlink : e.type = .symlink := by
      cases htype : e.type with
      | file => exact absurd hsha (hread htype)
      | dir => exact absurd htype hdir
      | symlink => rfl
    refine ⟨hlink, ?_⟩
    have hrel := h.content hs rfl [] e.path
    have hview : View.ofList ArchiveEntry.path ((planContent chain.state.marker chain.nextKind
        entries input).next.map archiveEntry) e.path = some (manifestEntry e) := by
      refine (View.ofList_eq_some ?_).mpr ⟨List.mem_map_of_mem (f := archiveEntry) hnext, rfl⟩
      rw [List.map_map]
      exact hnd
    rw [hview, applyPatch_untouched (fun v hv hpath =>
      hnotput (List.mem_map.mpr ⟨v, hv, hpath⟩)) hdrop] at hrel
    cases hf : replay chain.archives e.path with
    | none =>
        rw [hf] at hrel
        cases hrel
    | some f =>
        rw [hf] at hrel
        cases hrel with
        | some hagree =>
            refine ⟨f, rfl, hagree.type, hagree.mode, hagree.target, ?_⟩
            rcases hagree.sha256 with hsame | ⟨-, hfile, -⟩
            · exact .inl hsame
            · have hfile' : e.type = .file := hfile
              rw [hlink] at hfile'
              cases hfile'

end Step

/-! ## Runs -/

@[simp] theorem capture_marker (chain : Chain) (input : CaptureInput) :
    (chain.capture input).state.marker = chain.state.marker := by
  unfold Chain.capture captureArchiveOnce
  simp only
  split
  · rfl
  · split
    · unfold noteUnchanged
      split
      · rfl
      · split <;> rfl
    · rfl

theorem run_marker (chain : Chain) (inputs : List CaptureInput) :
    (chain.run inputs).state.marker = chain.state.marker := by
  induction inputs generalizing chain with
  | nil => rfl
  | cons input inputs ih =>
      rw [Chain.run, List.foldl_cons]
      exact (ih _).trans (capture_marker chain input)

theorem run_faithful {chain : Chain} {entries : List ArchiveEntry} (h : Faithful chain entries)
    {inputs : List CaptureInput}
    (hs : ∀ input ∈ inputs, (input.scan.entries.map (·.path)).Nodup) :
    ∃ entries', Faithful (chain.run inputs) entries' := by
  induction inputs generalizing chain entries with
  | nil => exact ⟨entries, h⟩
  | cons input inputs ih =>
      obtain ⟨entries', h', -⟩ := capture_faithful h (hs input (by simp))
      rw [Chain.run, List.foldl_cons]
      exact ih h' fun i hi => hs i (List.mem_cons_of_mem _ hi)

/-- What the replay of a chain is after one more capture. `entries` is the
baseline that capture read, `entries'` the one it left. -/
structure ReplaysCapture (marker : String) (before after : Chain) (input : CaptureInput)
    (entries entries' : List ArchiveEntry) : Prop where
  read : before.baseline = some entries
  left : after.baseline = some entries'
  sequences : after.archives.map (·.manifest.sequence) = List.range after.state.nextSequence
  /-- The replay and the baseline say the same at every path. -/
  replayed : ∀ p, Option.Rel (Agrees (reportedUnstable after.archives p))
    (replay after.archives p) (View.ofList ArchiveEntry.path entries' p)
  /-- No path missing from a whole-folder scan survives. -/
  whole : marker ≠ touchedMarker → ∀ p,
    (replay after.archives p).isSome ↔ p ∈ (input.scanned entries).map (·.path)
  /-- No path a touched-files scan found gone survives. -/
  gone : marker = touchedMarker → ∀ p ∈ input.scan.gone,
    p ∉ (input.scanned entries).map (·.path) → replay after.archives p = none
  /-- No scanned entry is dropped. -/
  scanned : ∀ e ∈ input.scanned entries, ∃ f, replay after.archives e.path = some f ∧
    Agrees (reportedUnstable after.archives e.path) f (manifestEntry e)
  /-- A path last reported unstable is sent again once it can be read. -/
  resent : ∀ e ∈ input.scanned entries, reportedUnstable before.archives e.path = true →
    (e.type = .file → e.sha256 ≠ none) →
    (∃ archive, after.archives = before.archives ++ [archive] ∧
      manifestEntry e ∈ archive.manifest.files) ∨
    (e.type = .symlink ∧ ∃ f, replay before.archives e.path = some f ∧
      Agrees false f (manifestEntry e))

theorem Faithful.replaysCapture {chain : Chain} {entries : List ArchiveEntry}
    (h : Faithful chain entries) {input : CaptureInput}
    (hs : (input.scan.entries.map (·.path)).Nodup) :
    ∃ entries', ReplaysCapture chain.state.marker chain (chain.capture input) input entries
      entries' := by
  obtain ⟨entries', h', hnext⟩ := capture_faithful h hs
  have hisSome : ∀ p, (replay (chain.capture input).archives p).isSome ↔
      p ∈ (planContent chain.state.marker chain.nextKind entries input).next.map (·.path) := by
    intro p
    have hrel := hnext p
    rw [← mem_map_next]
    revert hrel
    cases replay (chain.capture input).archives p <;>
      cases View.ofList ArchiveEntry.path _ p <;> intro hrel <;> cases hrel <;> simp
  refine ⟨entries', h.baseline, h'.baseline, h'.sequences, h'.replayed, fun hmarker p => ?_,
    fun hmarker p hgone hp => ?_, fun e he => ?_, fun e he => h.resent hs he⟩
  · rw [hisSome, planContent_next_whole hmarker, List.map_map]
    rfl
  · have hnot := planContent_next_gone chain.nextKind hgone hp
    rw [← hmarker, ← hisSome] at hnot
    exact Option.not_isSome_iff_eq_none.mp hnot
  · have hnd := planContent_next_nodup chain.state.marker chain.nextKind h.form hs
    have hview : View.ofList ArchiveEntry.path ((planContent chain.state.marker chain.nextKind
        entries input).next.map archiveEntry) e.path = some (manifestEntry e) := by
      refine (View.ofList_eq_some ?_).mpr
        ⟨List.mem_map_of_mem (f := archiveEntry) (mem_planContent_next _ _ he), rfl⟩
      rw [List.map_map]
      exact hnd
    have hrel := hnext e.path
    rw [hview] at hrel
    cases hf : replay (chain.capture input).archives e.path with
    | none =>
        rw [hf] at hrel
        cases hrel
    | some f =>
        rw [hf] at hrel
        cases hrel with
        | some hagree => exact ⟨f, rfl, hagree⟩

/-- Every run of captures whose scans name no path twice replays to its baseline. -/
theorem run_replaysCapture (sessionKey sessionId marker : String) (v2 filesUsed : Bool)
    (inputs : List CaptureInput) (input : CaptureInput)
    (hs : ∀ i ∈ inputs ++ [input], (i.scan.entries.map (·.path)).Nodup) :
    ∃ entries entries', ReplaysCapture marker
      ((Chain.start sessionKey (SessionState.fresh sessionId marker v2 filesUsed)).run inputs)
      ((Chain.start sessionKey (SessionState.fresh sessionId marker v2 filesUsed)).run
        (inputs ++ [input])) input entries entries' := by
  have hinputs : ∀ i ∈ inputs, (i.scan.entries.map (·.path)).Nodup :=
    fun i hi => hs i (List.mem_append_left _ hi)
  obtain ⟨entries, h⟩ := run_faithful
    (faithful_start sessionKey sessionId marker v2 filesUsed) hinputs
  obtain ⟨entries', h'⟩ := h.replaysCapture (hs input (by simp))
  refine ⟨entries, entries', ?_⟩
  rw [run_marker] at h'
  rw [show (Chain.start sessionKey (SessionState.fresh sessionId marker v2 filesUsed)).run
    (inputs ++ [input]) = Chain.capture (Chain.run _ inputs) input from List.foldl_append ..]
  exact h'

/-! ## A repeat -/

/-- A git folder that tracks `a`, with an ignored link the agent opened it through. -/
def linkedFolder (linked : Bool) : Folder where
  lstat := fun path =>
    if path = "a" then .file { mode := 0o644, size := 1, sha256 := some "aa" }
    else if path = "link" ∧ linked then .symlink (some "a")
    else .missing
  tree := [fileEntry "a" { mode := 0o644, size := 1, sha256 := some "aa" }]

def linkedCapture (linked : Bool) : CaptureInput where
  archiveId := if linked then "base" else "delta"
  turn := 0
  scan :=
    { entries := scanWholeFolder (linkedFolder linked) false ["link"]
      plain := by cases linked <;> decide +kernel }

theorem linkedCapture_true :
    (linkedCapture true).scan.entries = (linkedFolder true).tree ++ (linkedFolder true).tree := by
  decide +kernel

theorem linkedCapture_false :
    (linkedCapture false).scan.entries = (linkedFolder true).tree := by
  decide +kernel

theorem linkedCapture_false_nodup :
    ((linkedCapture false).scan.entries.map (·.path)).Nodup := by
  rw [linkedCapture_false]
  decide

def linkedChain : Chain := Chain.start "key" (SessionState.fresh "session" "git" false false)

/-- A run without the repeat: the folder twice without the link. -/
theorem run_replaysCapture_unlinked :
    ∃ entries entries', ReplaysCapture "git" (linkedChain.run [linkedCapture false])
      (linkedChain.run [linkedCapture false, linkedCapture false]) (linkedCapture false)
      entries entries' :=
  run_replaysCapture "key" "session" "git" false false [linkedCapture false]
    (linkedCapture false) (by simp [linkedCapture_false_nodup])

theorem linkedChain_base :
    (linkedChain.capture (linkedCapture true)).baseline
      = some ((linkedFolder true).tree.map manifestEntry
        ++ (linkedFolder true).tree.map manifestEntry) := by
  have hcap : linkedChain.capture (linkedCapture true)
      = commitArchive linkedChain .base (linkedCapture true)
        (planContent "git" .base [] (linkedCapture true)) := rfl
  have hnext : (planContent "git" .base [] (linkedCapture true)).next
      = (linkedCapture true).scan.entries.map (·.toArchiveEntry) := rfl
  rw [hcap, commitArchive_baseline, hnext, linkedCapture_true, List.map_append,
    List.map_append]
  rfl

theorem linkedChain_delta :
    computeArchiveDelta ((linkedFolder true).tree.map manifestEntry
      ++ (linkedFolder true).tree.map manifestEntry) (linkedFolder true).tree
      = ⟨[], ["a"]⟩ := by
  simp [computeArchiveDelta, sortedByPath, pathsAscend, sortByPath, linkedFolder, fileEntry,
    mergeDelta, manifestEntry, archiveEntry, isArchiveEntryModified]

/-- Once the link is gone the replay loses a file that the folder still has and
the baseline still lists. -/
theorem linked_run_loses :
    (linkedCapture false).scan.entries = (linkedFolder false).tree ∧
      (linkedChain.run [linkedCapture true, linkedCapture false]).baseline
        = some ((linkedFolder false).tree.map manifestEntry) ∧
      (linkedFolder false).tree.map (·.path) = ["a"] ∧
      replay (linkedChain.run [linkedCapture true, linkedCapture false]).archives "a"
        = none := by
  have hkind : (linkedChain.capture (linkedCapture true)).nextKind = .delta := rfl
  have hmarker : (linkedChain.capture (linkedCapture true)).state.marker = "git" := rfl
  have hplan : planContent "git" .delta ((linkedFolder true).tree.map manifestEntry
      ++ (linkedFolder true).tree.map manifestEntry) (linkedCapture false)
      = ⟨[], some ["a"], (linkedFolder true).tree.map (·.toArchiveEntry)⟩ := by
    have hscanned : (linkedCapture false).scanned ((linkedFolder true).tree.map manifestEntry
      ++ (linkedFolder true).tree.map manifestEntry) = (linkedFolder true).tree :=
      linkedCapture_false
    simp only [planContent, hscanned, linkedChain_delta]
    rfl
  have hrun : linkedChain.run [linkedCapture true, linkedCapture false]
      = commitArchive (linkedChain.capture (linkedCapture true)) .delta (linkedCapture false)
        ⟨[], some ["a"], (linkedFolder true).tree.map (·.toArchiveEntry)⟩ := by
    rcases capture_cases linkedChain_base (linkedCapture false) with
      ⟨hnone, -⟩ | ⟨plan, hsome, hcap⟩
    · have h := (planArchive_none hnone).2
      rw [hkind, hmarker, hplan] at h
      cases h
    · have h := planArchive_some hsome
      rw [hkind, hmarker, hplan] at h
      rw [h, hkind] at hcap
      rw [Chain.run, List.foldl_cons, List.foldl_cons, List.foldl_nil, hcap]
  refine ⟨linkedCapture_false, ?_, rfl, ?_⟩
  · rw [hrun, commitArchive_baseline]
    rfl
  · obtain ⟨archive, harch, -, hdeleted, -⟩ := commitArchive_archives
      (linkedChain.capture (linkedCapture true)) .delta (linkedCapture false)
      ⟨[], some ["a"], (linkedFolder true).tree.map (·.toArchiveEntry)⟩
    rw [hrun, harch, replay_append, SealedArchive.apply, hdeleted]
    exact applyPatch_dropped (by simp) _
end OmniRush.Archive
