import OmniRush.Proofs.LayerShows

/-!
# Unpacked layers are the overlay

One turn of the loop of `Apply` does to the view what its item says (`does_entry`), so a
layer leaves what its items leave one after the other (`does_layer`). By the law of
overlays that is the overlay exactly where the layer is clean, and in an image whose layers
are, every layer leaves the fold of the layers up to it (`layers_overlay`).

A layer is not clean when a marker stands behind an entry of the layer that it hides: a
whiteout hides every entry at its name and below, an opaque marker those whose folder on the
way has no entry of its own. And what the tree had below a folder that stands in front of an
opaque marker is kept.
-/

namespace OmniRush.Oci

open OmniRush Overlay

section

variable {t₀ : Tree} {root r : Path} {owned : Bool} {V : LayerView} {u : Unpacker}

theorem plain_of_ready {before : List LayerItem} {item : LayerItem} (hV : Lawful V)
    (hfits : Fits .folder (item :: before)) {q : Path} (hunder : item.IsUnder q)
    (hready : V q = none ∨ V q = some .folder ∨ Shown q before ∨ Gone .folder q before) :
    entered .folder V before q = none ∨ entered .folder V before q = some .folder := by
  rw [entered_eq hV.closed hfits.before]
  by_cases hshown : Shown q before
  · refine .inr ?_
    have hown := hfits.own_folder (List.mem_cons_self ..) hunder
    have hsame : Overlay.own (item :: before) q = Overlay.own before q := by
      cases item with
      | put name what => exact own_put_ne hunder.2
      | drop path => rfl
      | empty path => rfl
    rw [told_shown hshown, ← hsame, hown]
  · by_cases hgone : Gone .folder q before
    · exact .inl (told_gone hshown hgone)
    · rw [told_rest hshown hgone]
      rcases hready with h | h | h | h
      · exact .inl h
      · exact .inr h
      · exact absurd h hshown
      · exact absurd h hgone

theorem item_cases {hdr : Header} {item : LayerItem} (h : hdr.item owned = some item) :
    ∃ p c, cleanName hdr.name = p ++ [c] ∧
      ((hasWhiteoutPrefix c = true ∧ c = ".wh..wh..opq" ∧ item = .empty p) ∨
        (hasWhiteoutPrefix c = true ∧ c ≠ ".wh..wh..opq" ∧
          item = .drop (p ++ [whiteoutStem c])) ∨
        (hasWhiteoutPrefix c = false ∧ item = .put (p ++ [c]) (hdr.shape owned))) := by
  unfold Header.item at h
  obtain ⟨c, hc, hitem⟩ := Option.map_eq_some_iff.mp h
  obtain ⟨p, hname⟩ : ∃ p, cleanName hdr.name = p ++ [c] :=
    ⟨_, (List.dropLast_append_getLast? c hc).symm⟩
  refine ⟨p, c, hname, ?_⟩
  rw [hname, List.dropLast_concat] at hitem
  split at hitem
  · next hunderp =>
      split at hitem
      · next hopaque => exact .inl ⟨hunderp, hopaque, hitem.symm⟩
      · next hopaque => exact .inr (.inl ⟨hunderp, hopaque, hitem.symm⟩)
  · next hunderp => exact .inr (.inr ⟨Bool.eq_false_iff.mpr hunderp, hitem.symm⟩)

theorem properName_cleanName {hdr : Header} {p : Path} {c : String}
    (h : cleanName hdr.name = p ++ [c]) : ∀ d ∈ p ++ [c], properName d = true := by
  intro d hd
  rw [← h] at hd
  exact properName_cleanRooted hd

theorem does_entry (hroot : EmptyRoot t₀ root r) {hdr : Header} {item : LayerItem}
    {before : List LayerItem} (hV : Lawful V) (hitem : hdr.item owned = some item)
    (hplain : hdr.Plain) (hfits : Fits .folder (item :: before))
    (hready : ∀ q, item.IsUnder q →
      V q = none ∨ V q = some .folder ∨ Shown q before ∨ Gone .folder q before) :
    Does (Shows t₀ root r owned (names before) (emptied before) (entered .folder V before))
      (applyEntry hdr) fun _ => Shows t₀ root r owned (names (item :: before))
        (emptied (item :: before)) (entered .folder V (item :: before)) := by
  obtain ⟨p, c, hname, hcases⟩ := item_cases hitem
  have hproper := properName_cleanName hname
  have hproper' : ∀ d ∈ p, properName d = true := fun d hd => hproper d (by simp [hd])
  have hplainTo : (∀ q, q <+: p → item.IsUnder q) → PlainTo (entered .folder V before) p :=
    fun hunder q hq => plain_of_ready hV hfits (hunder q hq) (hready q (hunder q hq))
  have hmarker : hdr.IsMarker = hasWhiteoutPrefix c := by
    rw [Header.IsMarker, hname, List.getLast?_concat]
    rfl
  rw [Header.Plain, hmarker, hname, List.getLast?_concat] at hplain
  refine Triple.assume fun u hu => ?_
  refine Triple.bind (Q := fun _ =>
    Shows t₀ root r owned (names before) (emptied before) (entered .folder V before))
    (Triple.modify ?_) fun _ => ?_
  · rintro v rfl
    exact { hu with }
  rw [hname, List.getLast?_concat]
  dsimp only
  rw [List.dropLast_concat]
  rcases hcases with ⟨hunderp, rfl, rfl⟩ | ⟨hunderp, hopaque, rfl⟩ | ⟨hunderp, rfl⟩
  · rw [if_pos hunderp]
    have hnew : p ∉ emptied before := (List.nodup_cons.mp hfits.emptied).1
    exact does_opaque hroot hproper' (hplainTo fun q hq => hq).noLinks hnew
  · rw [if_pos hunderp] at hplain ⊢
    have hstem := (hplain c rfl).resolve_left hopaque
    have hlinks := (hplainTo fun q hq => Under.trans hq (under_concat p _)).noLinks
    exact does_whiteout hroot hopaque hproper' hlinks hstem
  · rw [hunderp, if_neg Bool.false_ne_true] at hplain ⊢
    have hparents := hplainTo fun q hq => Under.trans hq (under_concat p c)
    have hdir : hdr.shape owned = .folder ↔ hdr.typeflag = .dir := hdr.shape_folder
    refine Triple.bind (does_prepare hroot hu.lawful hparents hproper hdir) fun made =>
      Triple.assume ?_
    rintro v ⟨htarget, hexisting, hv⟩
    obtain ⟨target, existing⟩ := made
    obtain rfl : target = root ++ (p ++ [c]) := htarget
    exact (does_make hroot (hproper c (by simp)) hplain.1 hplain.2 hexisting).start hv

theorem does_root {layer opaques : List Path} {hdr : Header} (hitem : hdr.item owned = none) :
    Does (Shows t₀ root r owned layer opaques V) (applyEntry hdr)
      fun _ => Shows t₀ root r owned layer opaques V := by
  have hname : (cleanName hdr.name).getLast? = none := by
    unfold Header.item at hitem
    exact Option.map_eq_none_iff.mp hitem
  refine Triple.bind (Q := fun _ => Shows t₀ root r owned layer opaques V)
    (Triple.modify fun u hu => { hu with }) fun _ => ?_
  rw [hname]
  exact Triple.pure fun u hu => hu

theorem Does.run {P Q : Unpacker → Prop} {code : Unpack Unit} (h : Does P code fun _ => Q)
    (hu : P u) : Q (u.run code) := by
  have hrun := h u hu
  unfold Unpacker.run
  cases hc : (ExceptT.run code).run u with
  | mk answer v =>
      rw [hc] at hrun
      cases answer with
      | ok _ => exact hrun
      | error _ => exact hrun.elim

/-! ## Layers -/

theorem ParentsReady.suffix {items before : List LayerItem}
    (h : ParentsReady V (items ++ before)) : ParentsReady V before := by
  induction items with
  | nil => exact h
  | cons item items ih => exact ih h.2

theorem isUnder_path {item : LayerItem} {q : Path} (h : item.IsUnder q) : q <+: item.path := by
  cases item with
  | put name what => exact h.1
  | drop path => exact h.1
  | empty path => exact h

theorem does_entries (hroot : EmptyRoot t₀ root r) {hdrs : List Header} {before : List LayerItem}
    (hV : Lawful V) (hplain : ∀ hdr ∈ hdrs, hdr.Plain)
    (hfits : Fits .folder (layerItems owned hdrs ++ before))
    (hready : ParentsReady V (layerItems owned hdrs ++ before))
    (hu : Shows t₀ root r owned (names before) (emptied before) (entered .folder V before) u) :
    ∃ v, runActions Unpacker.step (hdrs.map .entry) u = some v ∧
      Shows t₀ root r owned (names (layerItems owned hdrs ++ before))
        (emptied (layerItems owned hdrs ++ before))
        (entered .folder V (layerItems owned hdrs ++ before)) v := by
  induction hdrs generalizing before u with
  | nil => exact ⟨u, rfl, hu⟩
  | cons hdr hdrs ih =>
      have hrest : ∀ hdr' ∈ hdrs, hdr'.Plain := fun hdr' h => hplain hdr' (List.mem_cons_of_mem hdr h)
      have hstep : Unpacker.step u (.entry hdr) = some (u.run (applyEntry hdr)) := by
        rw [Unpacker.step, hu.failed, if_neg Bool.false_ne_true]
      rw [List.map_cons, runActions, hstep, Option.bind_some]
      cases hitem : hdr.item owned with
      | none =>
          have hitems : layerItems owned (hdr :: hdrs) = layerItems owned hdrs := by
            rw [layerItems, List.filterMap_cons_none hitem]
            rfl
          rw [hitems] at hfits hready ⊢
          exact ih hrest hfits hready ((does_root hitem).run hu)
      | some item =>
          have hitems : layerItems owned (hdr :: hdrs) ++ before
              = layerItems owned hdrs ++ item :: before := by
            rw [layerItems, List.filterMap_cons_some hitem, List.reverse_cons, List.append_assoc]
            rfl
          rw [hitems] at hfits hready ⊢
          have hentry := does_entry hroot hV hitem (hplain hdr (List.mem_cons_self ..)) hfits.suffix
            fun q hq => hready.suffix.1 q ((List.mem_inits _ _).mpr (isUnder_path hq)) hq
          exact ih hrest hfits hready (hentry.run hu)

theorem names_sublist (owned : Bool) (hdrs : List Header) :
    (names (hdrs.filterMap (Header.item owned))).Sublist
      (hdrs.map fun hdr => cleanName hdr.name) := by
  induction hdrs with
  | nil => exact List.Sublist.slnil
  | cons hdr hdrs ih =>
      rw [List.map_cons]
      cases hitem : hdr.item owned with
      | none =>
          rw [List.filterMap_cons_none hitem]
          exact ih.cons _
      | some item =>
          rw [List.filterMap_cons_some hitem]
          obtain ⟨p, c, hname, ⟨-, -, rfl⟩ | ⟨-, -, rfl⟩ | ⟨-, rfl⟩⟩ := item_cases hitem
          · exact ih.cons _
          · exact ih.cons _
          · rw [hname]
            exact ih.cons_cons _

theorem emptied_sublist (owned : Bool) (hdrs : List Header) :
    ((emptied (hdrs.filterMap (Header.item owned))).map (· ++ [".wh..wh..opq"])).Sublist
      (hdrs.map fun hdr => cleanName hdr.name) := by
  induction hdrs with
  | nil => exact List.Sublist.slnil
  | cons hdr hdrs ih =>
      rw [List.map_cons]
      cases hitem : hdr.item owned with
      | none =>
          rw [List.filterMap_cons_none hitem]
          exact ih.cons _
      | some item =>
          rw [List.filterMap_cons_some hitem]
          obtain ⟨p, c, hname, ⟨-, rfl, rfl⟩ | ⟨-, -, rfl⟩ | ⟨-, rfl⟩⟩ := item_cases hitem
          · rw [hname]
            exact ih.cons_cons _
          · exact ih.cons _
          · exact ih.cons _

theorem under_name {hdr : Header} {item : LayerItem} (hitem : hdr.item owned = some item)
    {q : Path} (hunder : item.IsUnder q) : Under q (cleanName hdr.name) := by
  obtain ⟨p, c, hname, ⟨-, -, rfl⟩ | ⟨-, -, rfl⟩ | ⟨-, rfl⟩⟩ := item_cases hitem
  · rw [hname]
    exact Under.trans hunder (under_concat p c)
  · rw [hname]
    rcases List.prefix_concat_iff.mp hunder.1 with heq | hunderp
    · exact absurd heq hunder.2
    · exact Under.trans hunderp (under_concat p c)
  · rw [hname]
    exact hunder

theorem PlainLayer.fits {hdrs : List Header} (h : PlainLayer hdrs) :
    Fits .folder (layerItems owned hdrs) := by
  refine ⟨?_, ?_, fun name what hmem item hmem' hunder => ?_⟩
  · have hnodup := h.names.sublist (names_sublist owned hdrs)
    unfold layerItems Overlay.names
    rw [List.filterMap_reverse]
    exact List.nodup_reverse.mpr hnodup
  · have hnodup := h.names.sublist (emptied_sublist owned hdrs)
    unfold layerItems Overlay.emptied
    rw [List.filterMap_reverse]
    exact List.nodup_reverse.mpr hnodup.of_map
  · obtain ⟨hdr, hhdr, hput⟩ := List.mem_filterMap.mp (List.mem_reverse.mp hmem)
    obtain ⟨hdr', hhdr', hitem⟩ := List.mem_filterMap.mp (List.mem_reverse.mp hmem')
    obtain ⟨p, c, hname, ⟨-, -, heq⟩ | ⟨-, -, heq⟩ | ⟨hunderp, heq⟩⟩ := item_cases hput
    · cases heq
    · cases heq
    · cases heq
      have habove := under_name hitem hunder
      rw [← hname] at habove
      rcases h.parents hdr hhdr hdr' hhdr' habove with hmarker | hdir
      · rw [Header.IsMarker, hname, List.getLast?_concat, Option.any_some, hunderp] at hmarker
        cases hmarker
      · exact hdr.shape_folder.mpr hdir

theorem does_layer {layer opaques : List Path} (hroot : EmptyRoot t₀ root r) {hdrs : List Header}
    (hplain : PlainLayer hdrs) (hready : ParentsReady V (layerItems owned hdrs))
    (hu : Shows t₀ root r owned layer opaques V u) :
    ∃ v layer' opaques', runActions Unpacker.step (layerActions hdrs) u = some v ∧
      Shows t₀ root r owned layer' opaques' (entered .folder V (layerItems owned hdrs)) v := by
  have hstart : Shows t₀ root r owned [] [] V
      { u with stats := {}, opaqueDone := [], thisLayer := [], failed := false } :=
    { hu with layer := rfl, opaques := rfl, failed := rfl }
  have hfits : Fits .folder (layerItems owned hdrs ++ []) := by
    rw [List.append_nil]
    exact hplain.fits
  have hready' : ParentsReady V (layerItems owned hdrs ++ []) := by
    rwa [List.append_nil]
  obtain ⟨v, hrun, hv⟩ := does_entries hroot hu.lawful hplain.entries hfits hready' hstart
  rw [List.append_nil] at hv
  exact ⟨v, _, _, hrun, hv⟩

theorem does_layers {layer opaques : List Path} (hroot : EmptyRoot t₀ root r)
    {layers : List (List Header)} (hlayers : Overlaid owned V layers)
    (hu : Shows t₀ root r owned layer opaques V u) :
    ∃ v layer' opaques', runActions Unpacker.step (layers.flatMap layerActions) u = some v ∧
      Shows t₀ root r owned layer' opaques' (layers.foldl (overlayLayer owned) V) v := by
  induction layers generalizing layer opaques V u with
  | nil => exact ⟨u, layer, opaques, rfl, hu⟩
  | cons hdrs layers ih =>
      obtain ⟨hplain, hready, hclean, hrest⟩ := hlayers
      obtain ⟨v, layer', opaques', hrun, hv⟩ := does_layer hroot hplain hready hu
      rw [(entered_eq_overlay_iff hu.lawful.closed hplain.fits).mpr hclean] at hv
      obtain ⟨w, layer'', opaques'', hrun', hw⟩ := ih hrest hv
      refine ⟨w, layer'', opaques'', ?_, hw⟩
      rw [List.flatMap_cons, runActions_append _ hrun]
      exact hrun'

end

theorem lawful_emptyView : Lawful emptyView := by
  have hroot : ∀ p, emptyView p ≠ none → p = [] := by
    intro p hp
    by_contra hne
    exact hp (if_neg hne)
  refine ⟨rfl, fun p q hpq hq => ?_, fun p hp c hc => ?_⟩
  · have hlength := hpq.length_lt
    rw [hroot q hq, List.length_nil] at hlength
    omega
  · rw [hroot p hp] at hc
    cases hc

/-- In every image whose layers, each over the ones below it, are of folders, whole files
and links, with the folders that take the place of something else before what is in them,
and are clean, the layers unpack to their fold. And of one more such layer, clean or not,
the tree is its overlay exactly when it is clean. -/
theorem layers_overlay {r : Path} {u : Unpacker} {layers : List (List Header)}
    (hroot : EmptyRoot u.tree u.root r) (hfailed : u.failed = false)
    (hlayers : Overlaid (u.chown && u.privileged) emptyView layers) :
    ∃ v, runActions Unpacker.step (layers.flatMap layerActions) u = some v ∧ v.failed = false ∧
      view v.tree r = layers.foldl (overlayLayer (u.chown && u.privileged)) emptyView ∧
      ∀ hdrs, PlainLayer hdrs →
        ParentsReady (view v.tree r) (layerItems (u.chown && u.privileged) hdrs) →
        ∃ w, runActions Unpacker.step (layerActions hdrs) v = some w ∧ w.failed = false ∧
          (view w.tree r = overlayLayer (u.chown && u.privileged) (view v.tree r) hdrs ↔
            Clean .folder (view v.tree r) (layerItems (u.chown && u.privileged) hdrs)) := by
  have hstart : Shows u.tree u.root r (u.chown && u.privileged) u.thisLayer u.opaqueDone emptyView
      u := by
    refine ⟨rfl, rfl, fun _ _ => rfl, funext fun p => ?_, lawful_emptyView, rfl, rfl, hfailed⟩
    unfold view emptyView
    split
    · rfl
    · next hp =>
        rw [hroot.empty _ (below_root r hp)]
        rfl
  obtain ⟨v, layer, opaques, hrun, hv⟩ := does_layers hroot hlayers hstart
  refine ⟨v, hrun, hv.failed, hv.view, fun hdrs hplain hready => ?_⟩
  rw [hv.view] at hready ⊢
  obtain ⟨w, layer', opaques', hrun', hw⟩ := does_layer hroot hplain hready hv
  refine ⟨w, hrun', hw.failed, ?_⟩
  rw [hw.view]
  exact entered_eq_overlay_iff hv.lawful.closed hplain.fits

/-! ## Two images -/

instance (hdr : Header) : Decidable hdr.Plain :=
  inferInstanceAs (Decidable (if hdr.IsMarker then _ else _))

theorem plainLayer_iff (hdrs : List Header) : PlainLayer hdrs ↔
    (∀ hdr ∈ hdrs, hdr.Plain) ∧ (hdrs.map fun hdr => cleanName hdr.name).Nodup ∧
      ∀ hdr ∈ hdrs, ∀ hdr' ∈ hdrs, Under (cleanName hdr.name) (cleanName hdr'.name) →
        hdr.IsMarker = true ∨ hdr.typeflag = .dir := by
  constructor
  · intro h
    exact ⟨h.entries, h.names, h.parents⟩
  · rintro ⟨entries, names, parents⟩
    exact ⟨entries, names, parents⟩

instance (hdrs : List Header) : Decidable (PlainLayer hdrs) :=
  decidable_of_iff' _ (plainLayer_iff hdrs)

instance decParentsReady (V : LayerView) :
    (items : List LayerItem) → Decidable (ParentsReady V items)
  | [] => isTrue trivial
  | item :: before => by
      have := decParentsReady V before
      unfold ParentsReady
      infer_instance

theorem clean_over {lower : List LayerItem} {items : List LayerItem}
    (hshown : ∀ name ∈ names items, Shown name items)
    (hgone : ∀ p ∈ [] :: (names lower).flatMap List.inits, ¬ Supported items p →
      (∃ path ∈ emptied items, Under path p) → Gone .folder p items) :
    Clean .folder (overlay .folder emptyView lower) items := by
  refine ⟨hshown, fun p hp => hgone p ?_⟩
  rcases overlay_there hp with hempty | hmem
  · by_cases hnil : p = []
    · rw [hnil]
      exact List.mem_cons_self ..
    · exact absurd (if_neg hnil) hempty
  · exact List.mem_cons_of_mem _ hmem

/-- A folder with two files, and a file. -/
def baseLayer : List Header :=
  [{ name := "a/", typeflag := .dir }, { name := "a/f", typeflag := .reg, content := [1] },
    { name := "a/g/h", typeflag := .reg }, { name := "x", typeflag := .reg }]

/-- The folder is emptied and gets one file, and the other file becomes a folder. -/
def topLayer : List Header :=
  [{ name := "a/.wh..wh..opq", typeflag := .reg }, { name := "a/f", typeflag := .reg },
    { name := "x/", typeflag := .dir }, { name := "x/y", typeflag := .symlink, linkname := "../a" }]

theorem layers_overlay_image :
    ∃ v, runActions Unpacker.step ([baseLayer, topLayer].flatMap layerActions) exampleUnpacker
        = some v ∧ v.failed = false ∧ view v.tree ["r"] ["a", "g", "h"] = none ∧
      view v.tree ["r"] ["x", "y"] = some (.link "../a") := by
  have hbase : Clean .folder emptyView (layerItems false baseLayer) := by
    refine ⟨by decide +kernel, fun p hp _ hempty => ?_⟩
    obtain ⟨path, hpath, -⟩ := hempty
    have hnone : emptied (layerItems false baseLayer) = [] := by decide +kernel
    rw [hnone] at hpath
    cases hpath
  have htop : Clean .folder (overlayLayer false emptyView baseLayer) (layerItems false topLayer) :=
    clean_over (by decide +kernel) (by decide +kernel)
  obtain ⟨v, hrun, hfailed, hview, -⟩ := layers_overlay exampleUnpacker_root rfl
    (show Overlaid false emptyView [baseLayer, topLayer] from
      ⟨by decide +kernel, by decide +kernel, hbase, by decide +kernel, by decide +kernel, htop,
        trivial⟩)
  refine ⟨v, hrun, hfailed, ?_, ?_⟩
  · rw [hview]
    decide +kernel
  · rw [hview]
    decide +kernel

/-- Two plain layers unpack to something else at a path than their overlay has there. -/
def UnpacksTo (base top : List Header) (p : Path) (found expected : Option Shape) : Prop :=
  PlainLayer base ∧ PlainLayer top ∧ ∃ v,
    runActions Unpacker.step ([base, top].flatMap layerActions) exampleUnpacker = some v ∧
      v.failed = false ∧ view v.tree ["r"] p = found ∧
      [base, top].foldl (overlayLayer false) emptyView p = expected

/-- An opaque marker removes a file of its own layer whose folder has no entry, and keeps
what the lower layer has in a folder that has one; a whiteout removes an entry before it. -/
theorem markers_hide_own :
    UnpacksTo [{ name := "d/x", typeflag := .reg }]
      [{ name := "d/b/c", typeflag := .reg }, { name := "d/.wh..wh..opq", typeflag := .reg }]
      ["d", "b"] none (some .folder) ∧
    UnpacksTo [{ name := "d/b/y", typeflag := .symlink, linkname := "x" }]
      [{ name := "d/b/", typeflag := .dir }, { name := "d/.wh..wh..opq", typeflag := .reg }]
      ["d", "b", "y"] (some (.link "x")) none ∧
    UnpacksTo [{ name := "a/", typeflag := .dir }]
      [{ name := "l", typeflag := .symlink, linkname := "a" },
        { name := ".wh.l", typeflag := .reg }] ["l"] none (some (.link "a")) := by
  have hunpacks : ∀ (base top : List Header) (p : Path) (found expected : Option Shape),
      PlainLayer base → PlainLayer top →
      (runActions Unpacker.step ([base, top].flatMap layerActions) exampleUnpacker).any
        (fun v => !v.failed && decide (view v.tree ["r"] p = found)) = true →
      [base, top].foldl (overlayLayer false) emptyView p = expected →
      UnpacksTo base top p found expected := by
    intro base top p found expected hbase htop hrun hfold
    obtain ⟨v, hv, hcheck⟩ := exists_of_any hrun
    rw [Bool.and_eq_true, Bool.not_eq_true'] at hcheck
    exact ⟨hbase, htop, v, hv, hcheck.1, of_decide_eq_true hcheck.2, hfold⟩
  refine ⟨hunpacks _ _ _ _ _ ?_ ?_ ?_ ?_, hunpacks _ _ _ _ _ ?_ ?_ ?_ ?_,
    hunpacks _ _ _ _ _ ?_ ?_ ?_ ?_⟩ <;> decide +kernel

end OmniRush.Oci
