import OmniRush.Server.EditorSaves

/-!
# What an undo passes on

The saves of a folder are a bounded record of what was put in last, so a file saved since the
message is in it as long as there are not too many (`mem_savedSince`). The list that is sent has
no string twice, and whether it is sent is told from its length: with as many files to add as
the list has repetitions, it is not.
-/

namespace OmniRush.Server

open OmniRush

section

variable (resolve : List String → String)

/-- The saves of a folder, by the file. -/
def folderPuts (root : String) (saves : List EditorSave) : List (String × Int) :=
  saves.filterMap fun save =>
    if resolve [save.root] = resolve [root] then
      some (resolve [resolve [save.root], save.relativePath], save.at)
    else none

/-- The log after some saves. -/
def savesLog (saves : List EditorSave) : EditorSaveLog :=
  saves.foldl (EditorSaveLog.record resolve) fun _ => []

/-- A file whose last save is at or after a time. -/
def SavedSince (root : String) (saves : List EditorSave) (since : Int) (path : String) : Prop :=
  ∃ time, since ≤ time ∧ LastPut (folderPuts resolve root saves) path time

/-- The saves of a folder from the first one on that is at or after a time. -/
def putsSince (root : String) (saves : List EditorSave) (since : Int) : List (String × Int) :=
  (folderPuts resolve root saves).dropWhile fun put => put.2 < since

end

section

variable {resolve : List String → String} {root path : String} {saves : List EditorSave}
  {since : Int}

theorem record_apply (log : EditorSaveLog) (save : EditorSave) (key : String) :
    log.record resolve save key =
      if key = resolve [save.root] then
        touch editorSavesMaxFiles (log (resolve [save.root]))
          (resolve [resolve [save.root], save.relativePath], save.at)
      else log key := rfl

theorem foldl_record (saves : List EditorSave) (log : EditorSaveLog) (root : String) :
    saves.foldl (EditorSaveLog.record resolve) log (resolve [root]) =
      (folderPuts resolve root saves).foldl (touch editorSavesMaxFiles) (log (resolve [root])) := by
  induction saves generalizing log with
  | nil => rfl
  | cons save saves ih =>
      have hputs : folderPuts resolve root (save :: saves) =
          (if resolve [save.root] = resolve [root] then
            [(resolve [resolve [save.root], save.relativePath], save.at)] else []) ++
            folderPuts resolve root saves := by
        rw [folderPuts, List.filterMap_cons]
        split <;> simp_all [folderPuts]
      rw [List.foldl_cons, ih, hputs, List.foldl_append, record_apply]
      by_cases hroot : resolve [save.root] = resolve [root]
      · rw [if_pos hroot, if_pos hroot.symm, hroot, List.foldl_cons, List.foldl_nil]
      · rw [if_neg hroot, if_neg (Ne.symm hroot), List.foldl_nil]

theorem savesLog_eq (saves : List EditorSave) (root : String) :
    savesLog resolve saves (resolve [root]) =
      touchAll editorSavesMaxFiles (folderPuts resolve root saves) :=
  foldl_record saves _ root

/-- A file saved since is remembered while at most as many as the log holds were. -/
theorem mem_savedSince
    (hfew : ((putsSince resolve root saves since).map (·.1)).eraseDups.length ≤
      editorSavesMaxFiles) :
    path ∈ (savesLog resolve saves).savedSince resolve root since ↔
      SavedSince resolve root saves since path := by
  rw [EditorSaveLog.savedSince, savesLog_eq]
  constructor
  · intro hin
    obtain ⟨⟨path, time⟩, hmem, rfl⟩ := List.mem_map.mp hin
    obtain ⟨hmem, hsince⟩ := List.mem_filter.mp hmem
    exact ⟨time, of_decide_eq_true hsince, lastPut_of_mem hmem⟩
  · rintro ⟨time, hsince, before, after, hputs, hafter⟩
    refine List.mem_map.mpr ⟨(path, time), List.mem_filter.mpr ⟨?_, decide_eq_true hsince⟩, rfl⟩
    rw [hputs]
    refine mem_touchAll_of_recent hafter (Nat.le_trans ?_ hfew)
    refine length_le_eraseDups (nodup_eraseDups _) fun x hx => ?_
    -- the save and those after it are among the ones since
    have hsub : ((path, time) :: after) ⊆ putsSince resolve root saves since := by
      have hdrop : putsSince resolve root saves since =
          before.dropWhile (fun put => put.2 < since) ++ (path, time) :: after := by
        rw [putsSince, hputs, List.dropWhile_append]
        split
        · next hempty =>
            rw [List.isEmpty_iff.mp hempty, List.nil_append,
              List.dropWhile_cons_of_neg (by simpa using hsince)]
        · rfl
      rw [hdrop]
      exact List.subset_append_right ..
    rw [List.mem_eraseDups] at hx
    obtain ⟨put, hput, rfl⟩ := List.mem_map.mp (show x ∈ ((path, time) :: after).map (·.1) from hx)
    exact List.mem_map_of_mem (hsub hput)

theorem nodup_savedSince (saves : List EditorSave) :
    ((savesLog resolve saves).savedSince resolve root since).Nodup := by
  rw [EditorSaveLog.savedSince, savesLog_eq]
  exact (nodup_touchAll _ _).sublist ((List.filter_sublist ..).map _)

end

/-! ## The list that is sent -/

variable {ν : Type} {fields : List (String × BodyValue ν)} {name : String}

theorem fieldOf_setField_ne {other : String} (hne : name ≠ other) (value : BodyValue ν) :
    fieldOf (setField fields other value) name = fieldOf fields name := by
  unfold fieldOf setField
  split
  · clear * -hne
    induction fields with
    | nil => rfl
    | cons field fields ih =>
        rw [List.map_cons, List.find?_cons, List.find?_cons]
        by_cases hname : field.1 = other
        · rw [if_pos hname, hname]
          simpa [Ne.symm hne] using ih
        · rw [if_neg hname]
          split
          · rfl
          · exact ih
  · rw [List.find?_append]
    simp [Ne.symm hne]

theorem fieldOf_setField (fields : List (String × BodyValue ν)) (name : String)
    (value : BodyValue ν) : fieldOf (setField fields name value) name = some value := by
  unfold fieldOf setField
  split
  · next hany =>
      induction fields with
      | nil => cases hany
      | cons field fields ih =>
          rw [List.map_cons, List.find?_cons]
          by_cases hname : field.1 = name
          · rw [if_pos hname]
            simp
          · rw [if_neg hname]
            simpa [hname] using ih (by simpa [hname] using hany)
  · next hnone =>
      rw [List.find?_append, List.find?_eq_none.mpr fun field hfield heq => hnone
        (List.any_eq_true.mpr ⟨field, hfield, heq⟩)]
      simp

theorem filterMap_string (keep : List String) :
    (keep.map (BodyValue.str : String → BodyValue ν)).filterMap BodyValue.string? = keep := by
  induction keep with
  | nil => rfl
  | cons s keep ih =>
      rw [List.map_cons, List.filterMap_cons, ih]
      rfl

theorem keepStrings_setField (fields : List (String × BodyValue ν)) (keep : List String) :
    keepStrings (setField fields "keep" (.arr (keep.map .str))) = keep := by
  rw [keepStrings, keepItems, fieldOf_setField]
  exact filterMap_string keep

/-- What is sent has the strings of the list and the files, and all else as it was. -/
def KeepsSaves (fields : List (String × BodyValue ν)) (files : List String)
    (sent : Option (BodyValue ν)) : Prop :=
  ∃ fields', sent = some (.obj fields') ∧
    (∀ name, name ≠ "keep" → fieldOf fields' name = fieldOf fields name) ∧
    ∀ s, s ∈ keepStrings fields ∨ s ∈ files → s ∈ keepStrings fields'

/-- The files a list does not have. -/
def missing (existing files : List String) : List String :=
  files.filter fun file => file ∉ existing

theorem missing_eq_nil_iff {existing files : List String} :
    missing existing files = [] ↔ ∀ file ∈ files, file ∈ existing := by
  simp [missing, List.filter_eq_nil_iff]

theorem length_keep {existing saved : List String} (hnodup : saved.Nodup) :
    (existing ++ saved).eraseDups.length =
      existing.eraseDups.length + (missing existing saved).length := by
  have hmissing : saved.removeAll existing = missing existing saved := by
    simp [missing, List.removeAll]
  have hdistinct : (missing existing saved).Nodup := hnodup.sublist (List.filter_sublist ..)
  rw [List.eraseDups_append, List.length_append, hmissing, eraseDups_of_nodup hdistinct]

/-- The list is sent unless it has as many repetitions as there are files to add. -/
theorem withRevertKeep_keeps {saved : List String} (hnodup : saved.Nodup)
    (hroom : (keepItems fields).length + saved.length < revertKeepMax) :
    KeepsSaves fields saved
        (match withRevertKeep (some (.obj fields)) saved with
          | some sent => some sent
          | none => some (.obj fields)) ↔
      missing (keepStrings fields) saved = [] ∨
        (missing (keepStrings fields) saved).length ≠
          (keepStrings fields).length - (keepStrings fields).eraseDups.length := by
  have hsame : KeepsSaves fields saved (some (.obj fields)) ↔
      missing (keepStrings fields) saved = [] := by
    rw [missing_eq_nil_iff]
    constructor
    · rintro ⟨fields', heq, -, hkeep⟩ file hfile
      cases heq
      exact hkeep file (.inr hfile)
    · intro hall
      exact ⟨fields, rfl, fun _ _ => rfl, fun s hs => hs.elim id (hall s)⟩
  have hlength : (keepStrings fields ++ saved).eraseDups.length =
      (keepStrings fields).eraseDups.length + (missing (keepStrings fields) saved).length :=
    length_keep hnodup
  have hdups := length_eraseDups_le (keepStrings fields)
  have hstrings : (keepStrings fields).length ≤ (keepItems fields).length :=
    List.length_filterMap_le ..
  by_cases hsaved : saved = []
  · have hnone : missing (keepStrings fields) saved = [] := by rw [hsaved]; rfl
    rw [withRevertKeep, if_pos hsaved, hsame]
    exact ⟨.inl, fun _ => hnone⟩
  · have hmissing : (missing (keepStrings fields) saved).length ≤ saved.length :=
      List.length_filter_le ..
    have htake : (keepStrings fields ++ saved).eraseDups.take
        (max revertKeepMax (keepStrings fields).length) =
          (keepStrings fields ++ saved).eraseDups := by
      refine List.take_of_length_le ?_
      omega
    simp only [withRevertKeep, if_neg hsaved, decode, htake]
    split
    · next sent heq =>
        split at heq
        · cases heq
        · next hne =>
            cases heq
            constructor
            · intro _
              by_cases hnil : missing (keepStrings fields) saved = []
              · exact .inl hnil
              · right
                omega
            · intro _
              refine ⟨_, rfl, fun name hname => fieldOf_setField_ne hname _, fun s hs => ?_⟩
              rw [keepStrings_setField, List.mem_eraseDups, List.mem_append]
              exact hs
    · next heq =>
        split at heq
        · next hsameLength =>
            rw [hsame]
            refine ⟨.inl, fun hor => hor.elim id fun hne => ?_⟩
            omega
        · cases heq

/-! ## The whole undo -/

/-- The saves an undo goes by: it waits for the message only where something was saved. -/
def seenSaves (resolve : List String → String) (root : String)
    (saves meanwhile : List EditorSave) : List EditorSave :=
  if (savesLog resolve saves).has resolve root then saves ++ meanwhile else saves

/-- An undo to a message passes on every file of the folder that was saved since it, beside what
the list has, exactly when the list has all of these files already or the number of those it
does not have is not that of its repetitions. -/
theorem undo_keeps_saves {resolve : List String → String} {saves meanwhile : List EditorSave}
    {root : String} {messageCreated : String → Option Int} {id : String} {created : Int}
    {files : List String} (hid : revertMessageId (some (.obj fields)) = some id)
    (hcreated : messageCreated id = some created)
    (hfew : ((putsSince resolve root (seenSaves resolve root saves meanwhile) created).map
      (·.1)).eraseDups.length ≤ editorSavesMaxFiles)
    (hnodup : files.Nodup) (hfiles : ∀ path, path ∈ files ↔
      SavedSince resolve root (seenSaves resolve root saves meanwhile) created path)
    (hroom : (keepItems fields).length + files.length < revertKeepMax) :
    KeepsSaves fields files (revertBodyWithEditorSaves resolve (savesLog resolve saves) meanwhile
        root (some (.obj fields)) messageCreated) ↔
      missing (keepStrings fields) files = [] ∨ (missing (keepStrings fields) files).length ≠
        (keepStrings fields).length - (keepStrings fields).eraseDups.length := by
  cases hhas : (savesLog resolve saves).has resolve root with
  | false =>
      have hseen : seenSaves resolve root saves meanwhile = saves := by
        rw [seenSaves, hhas]
        rfl
      have hlog : savesLog resolve saves (resolve [root]) = [] := by
        have hzero := of_decide_eq_false hhas
        exact List.length_eq_zero_iff.mp (Nat.eq_zero_of_not_pos hzero)
      have hnone : files = [] := by
        refine List.eq_nil_iff_forall_not_mem.mpr fun path hpath => ?_
        have hsince := (hfiles path).mp hpath
        rw [hseen] at hsince hfew
        have hin := (mem_savedSince hfew).mpr hsince
        rw [EditorSaveLog.savedSince, hlog] at hin
        cases hin
      rw [revertBodyWithEditorSaves, hhas, hnone]
      refine ⟨fun _ => .inl rfl, fun _ => ⟨fields, rfl, fun _ _ => rfl, fun s hs => ?_⟩⟩
      exact hs.elim (fun hin => hin) fun hin => nomatch hin
  | true =>
      have hseen : seenSaves resolve root saves meanwhile = saves ++ meanwhile := by
        rw [seenSaves, hhas]
        rfl
      rw [hseen] at hfew hfiles
      obtain ⟨saved, hsaved⟩ : ∃ saved, saved =
          (savesLog resolve (saves ++ meanwhile)).savedSince resolve root created := ⟨_, rfl⟩
      have hmem : ∀ path, path ∈ saved ↔ path ∈ files := fun path => by
        rw [hsaved, hfiles path, mem_savedSince hfew]
      have hdistinct : saved.Nodup := hsaved ▸ nodup_savedSince _
      have hperm : saved.Perm files := (List.perm_ext_iff_of_nodup hdistinct hnodup).mpr hmem
      have hsent : revertBodyWithEditorSaves resolve (savesLog resolve saves) meanwhile root
          (some (.obj fields)) messageCreated =
          match withRevertKeep (some (.obj fields)) saved with
          | some sent => some sent
          | none => some (.obj fields) := by
        have hall : savesLog resolve (saves ++ meanwhile) =
            meanwhile.foldl (EditorSaveLog.record resolve) (savesLog resolve saves) :=
          List.foldl_append
        simp only [revertBodyWithEditorSaves, hhas, hid, hcreated, hsaved, hall]
        rfl
      have hroom' : (keepItems fields).length + saved.length < revertKeepMax := by
        rw [hperm.length_eq]
        exact hroom
      have hkept := withRevertKeep_keeps hdistinct hroom'
      have hmissing : (missing (keepStrings fields) saved).Perm (missing (keepStrings fields) files) :=
        hperm.filter _
      rw [← hmissing.length_eq, ← List.length_eq_zero_iff, ← hmissing.length_eq,
        List.length_eq_zero_iff, ← hkept, hsent]
      unfold KeepsSaves
      simp only [hmem]

/-- A list that names one file twice, and one file saved since. -/
def repeatedBody : List (String × BodyValue Nat) :=
  [("messageID", .str "m"), ("keep", .arr [.str "/w/a", .str "/w/a"])]

/-- `resolve` on whole paths and names. -/
def joinPaths (parts : List String) : String := "/".intercalate parts

theorem undo_drops_save :
    revertBodyWithEditorSaves joinPaths (savesLog joinPaths [⟨"/w", "b", 5⟩]) [] "/w"
        (some (.obj repeatedBody)) (fun _ => some 3) = some (.obj repeatedBody) ∧
      SavedSince joinPaths "/w" [⟨"/w", "b", 5⟩] 3 "/w/b" ∧
      ¬ KeepsSaves repeatedBody ["/w/b"] (some (.obj repeatedBody)) := by
  refine ⟨rfl, ⟨5, by decide, [], [], rfl, fun hin => nomatch hin⟩, ?_⟩
  rintro ⟨fields', heq, -, hkeep⟩
  cases heq
  have hin := hkeep "/w/b" (.inr (List.mem_singleton_self _))
  exact absurd hin (by decide)

/-- The list has a repetition, and two files are added. -/
theorem undo_keeps_saves_two :
    KeepsSaves repeatedBody ["/w/b", "/w/c"] (revertBodyWithEditorSaves joinPaths
        (savesLog joinPaths [⟨"/w", "b", 5⟩]) [⟨"/w", "c", 6⟩] "/w" (some (.obj repeatedBody))
        fun _ => some 3) := by
  have hsaves : seenSaves joinPaths "/w" [⟨"/w", "b", 5⟩] [⟨"/w", "c", 6⟩] =
      [⟨"/w", "b", 5⟩, ⟨"/w", "c", 6⟩] := rfl
  have hputs : putsSince joinPaths "/w" [⟨"/w", "b", 5⟩, ⟨"/w", "c", 6⟩] 3 =
      [("/w/b", 5), ("/w/c", 6)] := rfl
  have hlog : (savesLog joinPaths [⟨"/w", "b", 5⟩, ⟨"/w", "c", 6⟩]).savedSince joinPaths "/w" 3 =
      ["/w/b", "/w/c"] := rfl
  have hfew : ((putsSince joinPaths "/w" (seenSaves joinPaths "/w" [⟨"/w", "b", 5⟩]
      [⟨"/w", "c", 6⟩]) 3).map (·.1)).eraseDups.length ≤ editorSavesMaxFiles := by
    rw [hsaves, hputs]
    decide
  have hid : revertMessageId (some (.obj repeatedBody)) = some "m" := rfl
  have hcreated : (fun _ : String => some (3 : Int)) "m" = some 3 := rfl
  refine (undo_keeps_saves hid hcreated hfew (by decide)
    (fun path => ?_) (by decide)).mpr (.inr (by decide))
  rw [← mem_savedSince hfew, hsaves, hlog]

end OmniRush.Server
