import OmniRush.Lib.JsonRoundTrip
import OmniRush.Uploader.Migration

/-!
# The move of the old upload state loses nothing

What both ledgers know of a session is its record there that was seen most recently, and what both
spools have under a name is what the new one has, or else the old one. Every operation of the
migration keeps both (`Kept`): an old entry is taken away only once the new one has all of it. So
it is kept however often the migration is broken off, as long as no look takes an entry that is
there for missing and the ledgers are of one version.
-/

namespace OmniRush.Uploader

/-! ## What an entry holds -/

/-- A ledger that can be read. -/
def ledgerOf : Option Entry → Option LedgerFile
  | some (.file text) => parseLedger text
  | _ => none

def sessionOf (entry : Option Entry) (id : String) : Option Json :=
  (ledgerOf entry).bind fun ledger => ledger.sessions.get id

def fileOf (entry : Option Entry) (name : String) : Option String :=
  match entry with
  | some (.folder files) => files.get name
  | _ => none

/-- Of two records the one that was seen most recently, of two seen at a time the new one. -/
def newest : Option Json → Option Json → Option Json
  | none, new => new
  | some old, none => some old
  | some old, some new =>
      if atLeast (lastSeen (some new)) (lastSeen (some old)) then some new else some old

theorem newest_none (old : Option Json) : newest old none = old := by cases old <;> rfl

theorem newest_newest (old new : Option Json) : newest old (newest old new) = newest old new := by
  cases old with
  | none => rfl
  | some old =>
      cases new with
      | none =>
          simp only [newest]
          split <;> rfl
      | some new =>
          simp only [newest]
          by_cases hseen : atLeast (lastSeen (some new)) (lastSeen (some old))
          · simp only [hseen, if_true]
          · simp only [hseen, Bool.false_eq_true, if_false]
            split <;> rfl

namespace StateDir

/-- What the two ledgers know of a session. -/
def session (dir : StateDir) (id : String) : Option Json :=
  newest (sessionOf (dir.get legacyLedger) id) (sessionOf (dir.get uploadSessionLedgerFile) id)

/-- What the two spools have under a name. -/
def spooled (dir : StateDir) (name : String) : Option String :=
  (fileOf (dir.get uploadSpoolDirectory) name).or (fileOf (dir.get legacySpool) name)

/-- Two ledgers that can be read have one version. -/
def SameVersion (dir : StateDir) : Prop :=
  ∀ old new, ledgerOf (dir.get legacyLedger) = some old →
    ledgerOf (dir.get uploadSessionLedgerFile) = some new → new.version = old.version

theorem get_set (dir : StateDir) (name other : String) (entry : Entry) :
    (dir.set name entry).get other = if other = name then some entry else dir.get other :=
  Record.get_set ..

theorem get_delete (dir : StateDir) (name other : String) :
    (dir.delete name).get other = if other = name then none else dir.get other :=
  Record.get_delete ..

end StateDir

open StateDir

structure Kept (start dir : StateDir) : Prop where
  sessions : ∀ id, dir.session id = start.session id
  spool : ∀ name, dir.spooled name = start.spooled name
  versions : dir.SameVersion

variable {start dir dir' : StateDir}

theorem Kept.congr (h : Kept start dir)
    (hledger : dir'.get legacyLedger = dir.get legacyLedger)
    (hledger' : dir'.get uploadSessionLedgerFile = dir.get uploadSessionLedgerFile)
    (hspool : dir'.get legacySpool = dir.get legacySpool)
    (hspool' : dir'.get uploadSpoolDirectory = dir.get uploadSpoolDirectory) : Kept start dir' where
  sessions id := by
    rw [session, hledger, hledger']
    exact h.sessions id
  spool name := by
    rw [spooled, hspool, hspool']
    exact h.spool name
  versions old new := by
    rw [hledger, hledger']
    exact h.versions old new

/-! ## Ledgers -/

theorem parseLedger_ledgerText (ledger : LedgerFile) :
    parseLedger (ledgerText ledger) = some ledger := by
  simp only [parseLedger, ledgerText, Json.parse_stringify]
  simp [Json.field, Record.setAll_entries]

theorem atLeast_empty (text : String) : atLeast text "" = true := by
  simp [atLeast, utf16]

theorem get_mergeSessions {sessions : Record Json} {entries : List (String × Json)}
    (h : (entries.map Prod.fst).Nodup) (id : String) :
    (mergeSessions sessions entries).get id =
      newest (sessions.get id) ((entries.find? (·.1 = id)).map Prod.snd) := by
  induction entries generalizing sessions with
  | nil => exact (newest_none _).symm
  | cons entry entries ih =>
      obtain ⟨name, record⟩ := entry
      rw [List.map_cons, List.nodup_cons] at h
      have hstep : mergeSessions sessions ((name, record) :: entries) =
          mergeSessions (if atLeast (lastSeen (some record)) (lastSeen (sessions.get name)) then
            sessions.set name record else sessions) entries := rfl
      rw [hstep, ih h.2, List.find?_cons]
      by_cases hname : name = id
      · subst hname
        have hrest : entries.find? (·.1 = name) = none := by
          rw [List.find?_eq_none]
          intro entry hentry heq
          exact h.1 (List.mem_map.mpr ⟨entry, hentry, of_decide_eq_true heq⟩)
        simp only [hrest, decide_true, Option.map_none, Option.map_some, newest_none]
        cases hget : sessions.get name with
        | none =>
            rw [show lastSeen none = "" from rfl, atLeast_empty, if_pos rfl, Record.get_set,
              if_pos rfl]
            rfl
        | some old =>
            simp only [newest]
            split
            · rw [Record.get_set, if_pos rfl]
            · exact hget
      · have hget : ((if atLeast (lastSeen (some record)) (lastSeen (sessions.get name)) then
            sessions.set name record else sessions).get id) = sessions.get id := by
          split
          · rw [Record.get_set, if_neg fun heq => hname heq.symm]
          · rfl
        rw [hget]
        simp only [hname, decide_false]

theorem Kept.of_sessions (h : Kept start dir) (hsessions : ∀ id, dir'.session id = dir.session id)
    (hversions : dir'.SameVersion) (hspool : dir'.get legacySpool = dir.get legacySpool)
    (hspool' : dir'.get uploadSpoolDirectory = dir.get uploadSpoolDirectory) : Kept start dir' where
  sessions id := (hsessions id).trans (h.sessions id)
  spool name := by
    rw [spooled, hspool, hspool']
    exact h.spool name
  versions := hversions

/-- The new ledger has all that the old one has. -/
def LedgerDone (dir : StateDir) : Prop :=
  ∀ id, sessionOf (dir.get uploadSessionLedgerFile) id = dir.session id

theorem Kept.merged (h : Kept start dir) {oldText newText : String} {old : LedgerFile}
    (hlegacy : dir.get legacyLedger = some (.file oldText))
    (hcurrent : dir.get uploadSessionLedgerFile = some (.file newText))
    (hold : parseLedger oldText = some old) :
    let sessions := mergeSessions old.sessions (newSessions (parseLedger newText))
    let dir' := dir.set uploadSessionLedgerFile (.file (ledgerText ⟨old.version, sessions⟩))
    Kept start dir' ∧ LedgerDone dir' := by
  intro sessions dir'
  have hlegacy' : dir'.get legacyLedger = some (.file oldText) := by
    rw [StateDir.get_set, if_neg (by decide), hlegacy]
  have hcurrent' : ledgerOf (dir'.get uploadSessionLedgerFile) = some ⟨old.version, sessions⟩ := by
    rw [StateDir.get_set, if_pos rfl]
    exact parseLedger_ledgerText _
  have hread : ledgerOf (dir.get legacyLedger) = some old := by
    rw [hlegacy]
    exact hold
  have hread' : ledgerOf (dir'.get legacyLedger) = some old := by
    rw [hlegacy']
    exact hold
  have hmerged : ∀ id, sessions.get id = dir.session id := by
    intro id
    rw [StateDir.session, sessionOf, hread, sessionOf, hcurrent]
    simp only [sessions, ledgerOf, Option.bind_some]
    cases parseLedger newText with
    | none => exact (newest_none _).symm
    | some new => exact get_mergeSessions new.sessions.distinct id
  have hsession : ∀ id, dir'.session id = dir.session id := by
    intro id
    rw [StateDir.session, sessionOf, hread', sessionOf, hcurrent']
    simp only [Option.bind_some]
    rw [hmerged, StateDir.session, sessionOf, hread]
    exact newest_newest _ _
  refine ⟨h.of_sessions hsession (fun o n ho hn => ?_) ?_ ?_, fun id => ?_⟩
  · rw [hread'] at ho
    rw [hcurrent'] at hn
    cases ho
    cases hn
    rfl
  · rw [StateDir.get_set, if_neg (by decide)]
  · rw [StateDir.get_set, if_neg (by decide)]
  · rw [hsession, ← hmerged, sessionOf, hcurrent']
    rfl

theorem Kept.ledger_gone (h : Kept start dir) (hdone : LedgerDone dir) :
    Kept start (dir.delete legacyLedger) := by
  have hcurrent : (dir.delete legacyLedger).get uploadSessionLedgerFile =
      dir.get uploadSessionLedgerFile := by
    rw [StateDir.get_delete, if_neg (by decide)]
  refine h.of_sessions (fun id => ?_) (fun old new hold => ?_) ?_ ?_
  · rw [StateDir.session, hcurrent, StateDir.get_delete, if_pos rfl, ← hdone id]
    rfl
  · rw [StateDir.get_delete, if_pos rfl] at hold
    cases hold
  · rw [StateDir.get_delete, if_neg (by decide)]
  · rw [StateDir.get_delete, if_neg (by decide)]

theorem ledgerDone_unreadable (h : ledgerOf (dir.get legacyLedger) = none) : LedgerDone dir := by
  intro id
  rw [StateDir.session]
  simp only [sessionOf, h]
  rfl

/-! ## Spools -/

theorem Kept.of_spooled (h : Kept start dir) (hspool : ∀ name, dir'.spooled name = dir.spooled name)
    (hledger : dir'.get legacyLedger = dir.get legacyLedger)
    (hledger' : dir'.get uploadSessionLedgerFile = dir.get uploadSessionLedgerFile) :
    Kept start dir' where
  sessions id := by
    rw [StateDir.session, hledger, hledger']
    exact h.sessions id
  spool name := (hspool name).trans (h.spool name)
  versions old new := by
    rw [hledger, hledger']
    exact h.versions old new

/-- The new spool has each file of the old one but those of some names. -/
def SpoolDone (names : List String) (dir : StateDir) : Prop :=
  ∀ name, (fileOf (dir.get legacySpool) name).isSome →
    name ∈ names ∨ (fileOf (dir.get uploadSpoolDirectory) name).isSome

theorem SpoolDone.there (h : SpoolDone [] dir) (name : String)
    (hname : (fileOf (dir.get legacySpool) name).isSome) :
    ∃ text, fileOf (dir.get uploadSpoolDirectory) name = some text :=
  Option.isSome_iff_exists.mp ((h name hname).resolve_left List.not_mem_nil)

theorem fileOf_folder (files : Record String) (name : String) :
    fileOf (some (.folder files)) name = files.get name := rfl

theorem Kept.file_moved (h : Kept start dir) {names : List String} {files others : Record String}
    {name text : String} (hlegacy : dir.get legacySpool = some (.folder files))
    (hcurrent : dir.get uploadSpoolDirectory = some (.folder others))
    (hfile : files.get name = some text) (hmissing : others.get name = none)
    (hdone : SpoolDone (name :: names) dir) :
    let dir' := (dir.set legacySpool (.folder (files.delete name))).set uploadSpoolDirectory
      (.folder (others.set name text))
    Kept start dir' ∧ SpoolDone names dir' := by
  intro dir'
  have hlegacy' : dir'.get legacySpool = some (.folder (files.delete name)) := by
    rw [StateDir.get_set, if_neg (by decide), StateDir.get_set, if_pos rfl]
  have hcurrent' : dir'.get uploadSpoolDirectory = some (.folder (others.set name text)) := by
    rw [StateDir.get_set, if_pos rfl]
  refine ⟨h.of_spooled (fun other => ?_) ?_ ?_, fun other hother => ?_⟩
  · rw [StateDir.spooled, StateDir.spooled, hlegacy, hcurrent, hlegacy', hcurrent']
    simp only [fileOf, Record.get_set, Record.get_delete]
    split
    · next heq =>
        subst heq
        rw [hmissing, hfile]
        rfl
    · rfl
  · rw [StateDir.get_set, if_neg (by decide), StateDir.get_set, if_neg (by decide)]
  · rw [StateDir.get_set, if_neg (by decide), StateDir.get_set, if_neg (by decide)]
  · rw [hlegacy'] at hother
    rw [hcurrent']
    simp only [fileOf, Record.get_set, Record.get_delete] at hother ⊢
    split at hother
    · cases hother
    · next hne =>
        have hbefore := hdone other (by rw [hlegacy]; exact hother)
        rw [hcurrent] at hbefore
        rw [if_neg hne]
        rcases hbefore with hin | hthere
        · exact .inl ((List.mem_cons.mp hin).resolve_left hne)
        · exact .inr hthere

theorem Kept.file_removed (h : Kept start dir) {files : Record String} (name : String)
    (hlegacy : dir.get legacySpool = some (.folder files)) (hdone : SpoolDone [] dir) :
    let dir' := dir.set legacySpool (.folder (files.delete name))
    Kept start dir' ∧ SpoolDone [] dir' := by
  intro dir'
  have hlegacy' : dir'.get legacySpool = some (.folder (files.delete name)) := by
    rw [StateDir.get_set, if_pos rfl]
  have hcurrent' : dir'.get uploadSpoolDirectory = dir.get uploadSpoolDirectory := by
    rw [StateDir.get_set, if_neg (by decide)]
  refine ⟨h.of_spooled (fun other => ?_) ?_ ?_, fun other hother => ?_⟩
  · have hthere := hdone.there other
    rw [hlegacy, fileOf_folder] at hthere
    rw [StateDir.spooled, StateDir.spooled, hcurrent', hlegacy', hlegacy, fileOf_folder,
      fileOf_folder, Record.get_delete]
    split
    · cases hfile : files.get other with
      | none => rfl
      | some text =>
          obtain ⟨new, hnew⟩ := hthere (by rw [hfile]; rfl)
          rw [hnew]
          rfl
    · rfl
  · rw [StateDir.get_set, if_neg (by decide)]
  · rw [StateDir.get_set, if_neg (by decide)]
  · rw [hcurrent']
    refine hdone other ?_
    rw [hlegacy] at *
    rw [hlegacy'] at hother
    simp only [fileOf, Record.get_delete] at hother ⊢
    split at hother
    · cases hother
    · exact hother

theorem Kept.spool_gone (h : Kept start dir) (hdone : SpoolDone [] dir) :
    Kept start (dir.delete legacySpool) := by
  have hcurrent : (dir.delete legacySpool).get uploadSpoolDirectory =
      dir.get uploadSpoolDirectory := by
    rw [StateDir.get_delete, if_neg (by decide)]
  refine h.of_spooled (fun name => ?_) ?_ ?_
  · rw [StateDir.spooled, StateDir.spooled, hcurrent, StateDir.get_delete, if_pos rfl]
    cases hfile : fileOf (dir.get legacySpool) name with
    | none => rfl
    | some text =>
        obtain ⟨new, hnew⟩ := hdone.there name (by rw [hfile]; rfl)
        rw [hnew]
        rfl
  · rw [StateDir.get_delete, if_neg (by decide)]
  · rw [StateDir.get_delete, if_neg (by decide)]

/-! ## Renames -/

theorem rename_new {source target : String} (hmissing : dir.get target = none)
    (h : dir.rename source target = some ((), dir')) :
    ∃ entry, dir.get source = some entry ∧ dir' = (dir.delete source).set target entry := by
  rw [StateDir.rename, hmissing] at h
  cases hsource : dir.get source with
  | none =>
      rw [hsource] at h
      cases h
  | some entry =>
      rw [hsource] at h
      cases h
      exact ⟨entry, rfl, rfl⟩

theorem get_renamed (dir : StateDir) {source target : String} (entry : Entry) (other : String) :
    ((dir.delete source).set target entry).get other =
      if other = target then some entry else if other = source then none else dir.get other := by
  rw [StateDir.get_set, StateDir.get_delete]

theorem Kept.ledger_renamed (h : Kept start dir) {entry : Entry}
    (hmissing : dir.get uploadSessionLedgerFile = none)
    (hlegacy : dir.get legacyLedger = some entry) :
    Kept start ((dir.delete legacyLedger).set uploadSessionLedgerFile entry) := by
  refine h.of_sessions (fun id => ?_) (fun old new hold => ?_) ?_ ?_
  · rw [StateDir.session, StateDir.session, get_renamed, get_renamed, if_pos rfl,
      if_neg (by decide), if_pos rfl, hmissing, hlegacy]
    exact (newest_none _).symm
  · rw [get_renamed, if_neg (by decide), if_pos rfl] at hold
    cases hold
  · rw [get_renamed, if_neg (by decide), if_neg (by decide)]
  · rw [get_renamed, if_neg (by decide), if_neg (by decide)]

theorem Kept.spool_renamed (h : Kept start dir) {entry : Entry}
    (hmissing : dir.get uploadSpoolDirectory = none) (hlegacy : dir.get legacySpool = some entry) :
    Kept start ((dir.delete legacySpool).set uploadSpoolDirectory entry) := by
  refine h.of_spooled (fun name => ?_) ?_ ?_
  · rw [StateDir.spooled, StateDir.spooled, get_renamed, get_renamed, if_pos rfl,
      if_neg (by decide), if_pos rfl, hmissing, hlegacy]
    exact Option.or_none
  · rw [get_renamed, if_neg (by decide), if_neg (by decide)]
  · rw [get_renamed, if_neg (by decide), if_neg (by decide)]

/-! ## Removals -/

section

variable {I J P Q : StateDir → Prop} {name : String}

theorem rmFiles_spec (hI : ∀ dir, P dir → I dir) (hJ : ∀ dir, P dir → J dir)
    (hfile : ∀ dir files file, P dir → dir.get name = some (.folder files) →
      P (dir.set name (.folder (files.delete file)))) (names : List String) :
    Triple (Held I P) (rmFiles name names) (fun _ => Held I P) (Held I J) := by
  induction names with
  | nil => exact Triple.pure fun s hs => hs
  | cons file names ih =>
      refine Triple.bind (operate_spec hJ fun dir a dir' hP h => ?_) fun _ => ih
      obtain ⟨files, hfiles, heq⟩ := Option.map_eq_some_iff.mp h
      cases heq
      have hfolder : dir.get name = some (.folder files) := by
        rw [StateDir.files] at hfiles
        split at hfiles
        · next hget =>
            cases hfiles
            exact hget
        · cases hfiles
      have hkept := hfile dir files file hP hfolder
      exact ⟨hkept, hI _ hkept⟩

theorem rmRecursive_spec (hI : ∀ dir, P dir → I dir) (hJ : ∀ dir, P dir → J dir)
    (hQ : ∀ dir, Q dir → I dir)
    (hfile : ∀ dir files file, P dir → dir.get name = some (.folder files) →
      P (dir.set name (.folder (files.delete file))))
    (hgone : ∀ dir, P dir → Q (dir.delete name)) :
    Triple (Held I P) (rmRecursive name) (fun _ => Held I Q) (Held I J) := by
  refine Triple.bind (Q := fun _ => Held I P) (operate_spec hJ fun dir a dir' hP h => ?_)
    fun isFolder => ?_
  · cases h
    exact ⟨hP, hI _ hP⟩
  cases isFolder with
  | true =>
      refine Triple.bind (Q := fun _ => Held I P) (operate_spec hJ fun dir a dir' hP h => ?_)
        fun names => Triple.bind (rmFiles_spec hI hJ hfile names) fun _ =>
          operate_spec hJ fun dir a dir' hP h => ?_
      · obtain ⟨files, -, heq⟩ := Option.map_eq_some_iff.mp h
        cases heq
        exact ⟨hP, hI _ hP⟩
      · have hdir : dir' = dir.delete name := by
          rw [StateDir.rmdir] at h
          split at h
          · split at h
            · cases h
              rfl
            · cases h
          · cases h
        subst hdir
        exact ⟨hgone dir hP, hQ _ (hgone dir hP)⟩
  | false =>
      rw [if_neg Bool.false_ne_true]
      refine operate_spec hJ fun dir a dir' hP h => ?_
      have hdir : dir' = dir.delete name := by
        rw [StateDir.rm] at h
        split at h
        · cases h
        · cases h
          rfl
      subst hdir
      exact ⟨hgone dir hP, hQ _ (hgone dir hP)⟩

end

/-! ## Moves -/

/-- What the names of a move do not bear on. -/
def Stable (move : Move) (R : StateDir → Prop) : Prop :=
  ∀ dir dir' : StateDir, (∀ name, name ≠ move.legacy → name ≠ move.current →
    dir'.get name = dir.get name) → R dir → R dir'

/-- A move keeps all and whatever its names do not bear on. Once it is done nothing has the old
name. -/
def MoveKeeps (start : StateDir) (move : Move) : Prop :=
  ∀ R : StateDir → Prop, Stable move R →
    Triple (Held (Kept start) fun dir => Kept start dir ∧ R dir) (migrateOne move)
      (fun _ => Held (Kept start) fun dir =>
        (Kept start dir ∧ R dir) ∧ dir.get move.legacy = none)
      (Held (Kept start) fun dir => Kept start dir ∧ R dir)

variable {R : StateDir → Prop} {move : Move}

theorem Stable.set (h : Stable move R) (hR : R dir) (entry : Entry) {name : String}
    (hname : name = move.legacy ∨ name = move.current) : R (dir.set name entry) := by
  refine h dir _ (fun other hlegacy hcurrent => ?_) hR
  rw [StateDir.get_set, if_neg]
  rintro rfl
  exact hname.elim hlegacy hcurrent

theorem Stable.delete (h : Stable move R) (hR : R dir) : R (dir.delete move.legacy) := by
  refine h dir _ (fun other hlegacy _ => ?_) hR
  rw [StateDir.get_delete, if_neg hlegacy]

theorem migrateOne_spec {I J : StateDir → Prop} {code : Migration Unit}
    (hI : ∀ dir, J dir → I dir)
    (hrename : ∀ dir entry, J dir → dir.get move.current = none →
      dir.get move.legacy = some entry →
      J ((dir.delete move.legacy).set move.current entry))
    (hne : move.legacy ≠ move.current)
    (hcode : (match move.merge with
      | some merge => merge move.legacy move.current
      | none => rmRecursive move.legacy) = code)
    (hmerge : Triple (Held I J) code
      (fun _ => Held I fun dir => J dir ∧ dir.get move.legacy = none) (Held I J)) :
    Triple (Held I J) (migrateOne move)
      (fun _ => Held I fun dir => J dir ∧ dir.get move.legacy = none) (Held I J) := by
  refine Triple.bind (look_spec fun _ h => h) fun old => ?_
  cases old with
  | false =>
      refine Triple.pure fun w hw => hw.weaken fun dir ⟨hJ, hold⟩ => ⟨hJ, ?_⟩
      rwa [StateDir.hasEntry, Option.isSome_eq_false_iff, Option.isNone_iff_eq_none] at hold
  | true =>
      refine Triple.bind (look_spec fun _ h => h.1) fun new => ?_
      cases new with
      | true =>
          rw [← hcode] at hmerge
          exact hmerge.weaken (fun w hw => hw.weaken fun dir h => h.1.1) (fun _ _ h => h)
            fun _ h => h
      | false =>
          rw [if_neg Bool.false_ne_true]
          refine operate_spec (fun _ h => h.1.1) fun dir a dir' ⟨⟨hJ, _⟩, hnew⟩ h => ?_
          rw [StateDir.hasEntry, Option.isSome_eq_false_iff, Option.isNone_iff_eq_none] at hnew
          obtain ⟨entry, hlegacy, rfl⟩ := rename_new hnew h
          have hkept := hrename dir entry hJ hnew hlegacy
          refine ⟨⟨hkept, ?_⟩, hI _ hkept⟩
          rw [get_renamed, if_neg hne, if_pos rfl]

/-! ## The ledger -/

theorem readFile_eq {name text : String} (h : dir.readFile name = some (text, dir')) :
    dir' = dir ∧ dir.get name = some (.file text) := by
  obtain ⟨found, htext, heq⟩ := Option.map_eq_some_iff.mp h
  cases heq
  refine ⟨rfl, ?_⟩
  rw [StateDir.text] at htext
  split at htext
  · next hget =>
      cases htext
      exact hget
  · cases htext

theorem replace_eq {name text : String} (h : dir.replace name text = some ((), dir')) :
    dir' = dir.set name (.file text) := by
  rw [StateDir.replace] at h
  split at h
  · cases h
  · cases h
    rfl

theorem rm_eq {name : String} (h : dir.rm name = some ((), dir')) : dir' = dir.delete name := by
  rw [StateDir.rm] at h
  split at h
  · cases h
  · cases h
    rfl

theorem writeFileAtomic_spec {I J P Q : StateDir → Prop} {name text : String}
    (hI : ∀ dir, P dir → I dir) (hJ : ∀ dir, P dir → J dir)
    (hQ : ∀ dir, Q dir → I dir)
    (h : ∀ dir, P dir → Q (dir.set name (.file text))) :
    Triple (Held I P) (writeFileAtomic name text) (fun _ => Held I Q) (Held I J) := by
  refine Triple.bind (Q := fun _ => Held I P) (operate_spec hJ fun dir a dir' hP heq => ?_)
    fun _ => operate_spec hJ fun dir a dir' hP heq => ?_
  · cases heq
    exact ⟨hP, hI _ hP⟩
  · obtain rfl := replace_eq heq
    exact ⟨h dir hP, hQ _ (h dir hP)⟩

theorem ledger_keeps :
    MoveKeeps start ⟨legacyLedger, uploadSessionLedgerFile, some mergeLedger⟩ := by
  intro R hR
  refine migrateOne_spec (fun _ h => h.1) (fun dir entry ⟨hkept, hrest⟩ hnew hlegacy => ?_)
    (by decide) rfl ?_
  · exact ⟨hkept.ledger_renamed hnew hlegacy, hR.set (hR.delete hrest) entry (.inr rfl)⟩
  refine Triple.bind (Q := fun oldText => Held _ fun dir => (Kept start dir ∧ R dir) ∧
    dir.get legacyLedger = some (.file oldText))
    (operate_spec (fun _ h => h) fun dir oldText dir' hI h => ?_) fun oldText => ?_
  · obtain ⟨rfl, hold⟩ := readFile_eq h
    exact ⟨⟨hI, hold⟩, hI.1⟩
  refine Triple.bind (Q := fun newText => Held _ fun dir => ((Kept start dir ∧ R dir) ∧
    dir.get legacyLedger = some (.file oldText)) ∧
      dir.get uploadSessionLedgerFile = some (.file newText))
    (operate_spec (fun _ h => h.1) fun dir newText dir' hI h => ?_) fun newText => ?_
  · obtain ⟨rfl, hnew⟩ := readFile_eq h
    exact ⟨⟨hI, hnew⟩, hI.1.1⟩
  refine Triple.bind (Q := fun _ => Held _ fun dir => (Kept start dir ∧ R dir) ∧ LedgerDone dir)
    ?_ fun _ => operate_spec (fun _ h => h.1) fun dir a dir' ⟨⟨hkept, hrest⟩, hdone⟩ h => ?_
  · cases hold : parseLedger oldText with
    | none =>
        refine Triple.pure fun w hw => hw.weaken fun dir ⟨⟨hI, hlegacy⟩, _⟩ => ⟨hI, ?_⟩
        refine ledgerDone_unreadable ?_
        rw [hlegacy]
        exact hold
    | some old =>
        simp only [writeMerged]
        split
        · refine writeFileAtomic_spec (fun _ h => h.1.1.1) (fun _ h => h.1.1) (fun _ h => h.1.1)
            fun dir ⟨⟨⟨hkept, hrest⟩, hlegacy⟩, hcurrent⟩ => ?_
          obtain ⟨hmerged, hdone⟩ := hkept.merged hlegacy hcurrent hold
          exact ⟨⟨hmerged, hR.set hrest _ (.inr rfl)⟩, hdone⟩
        · next hversion =>
            refine Triple.pure fun w hw => hw.weaken fun dir ⟨⟨hI, hlegacy⟩, hcurrent⟩ => ?_
            refine absurd ?_ hversion
            rw [Option.all_eq_true]
            intro new hnew
            refine decide_eq_true (hI.1.versions old new ?_ ?_)
            · rw [hlegacy]
              exact hold
            · rw [hcurrent]
              exact hnew
  · obtain rfl := rm_eq h
    have hI := And.intro (hkept.ledger_gone hdone) (hR.delete hrest)
    refine ⟨⟨hI, ?_⟩, hI.1⟩
    rw [StateDir.get_delete, if_pos rfl]

/-! ## The spool -/

theorem files_eq {name : String} {files : Record String} (h : dir.files name = some files) :
    dir.get name = some (.folder files) := by
  rw [StateDir.files] at h
  split at h
  · next hget =>
      cases h
      exact hget
  · cases h

theorem hasFile_eq (dir : StateDir) (folder name : String) :
    dir.hasFile folder name = (fileOf (dir.get folder) name).isSome := by
  rw [StateDir.hasFile, StateDir.files]
  split
  · next hget =>
      rw [hget]
      rfl
  · next hnot =>
      cases hget : dir.get folder with
      | none => rfl
      | some entry =>
          cases entry with
          | file text => rfl
          | folder files => exact absurd hget (hnot files)

theorem moveFiles_spec (hR : Stable ⟨legacySpool, uploadSpoolDirectory, some mergeSpool⟩ R)
    (names : List String) :
    Triple
      (Held (Kept start) fun dir => (Kept start dir ∧ R dir) ∧ SpoolDone names dir)
      (moveFiles legacySpool uploadSpoolDirectory names)
      (fun _ => Held (Kept start) fun dir => (Kept start dir ∧ R dir) ∧ SpoolDone [] dir)
      (Held (Kept start) fun dir => Kept start dir ∧ R dir) := by
  induction names with
  | nil => exact Triple.pure fun w hw => hw
  | cons name names ih =>
      refine Triple.bind (Q := fun _ => Held _ fun dir => (Kept start dir ∧ R dir) ∧
        SpoolDone names dir) (Triple.bind (look_spec fun _ h => h.1) fun there => ?_) fun _ => ih
      cases there with
      | true =>
          refine Triple.pure fun w hw => hw.weaken fun dir ⟨⟨hI, hdone⟩, hthere⟩ => ⟨hI, ?_⟩
          rw [hasFile_eq] at hthere
          intro other hother
          rcases hdone other hother with hin | hnew
          · rcases List.mem_cons.mp hin with rfl | hrest
            · exact .inr hthere
            · exact .inl hrest
          · exact .inr hnew
      | false =>
          rw [if_neg Bool.false_ne_true]
          refine operate_spec (fun _ h => h.1.1)
            fun dir a dir' ⟨⟨⟨hkept, hrest⟩, hdone⟩, hmissing⟩ h => ?_
          rw [StateDir.renameFile] at h
          split at h
          · next files others hfiles hothers =>
              obtain ⟨text, hfile, heq⟩ := Option.map_eq_some_iff.mp h
              cases heq
              have hcurrent := files_eq hothers
              rw [hasFile_eq, hcurrent, fileOf_folder, Option.isSome_eq_false_iff,
                Option.isNone_iff_eq_none] at hmissing
              obtain ⟨hmoved, hdone'⟩ :=
                hkept.file_moved (files_eq hfiles) hcurrent hfile hmissing hdone
              have hrest' := fun entry entry' =>
                hR.set (hR.set hrest entry (.inl rfl)) entry' (.inr rfl)
              exact ⟨⟨⟨hmoved, hrest' _ _⟩, hdone'⟩, hmoved⟩
          · cases h

theorem spool_keeps : MoveKeeps start ⟨legacySpool, uploadSpoolDirectory, some mergeSpool⟩ := by
  intro R hR
  refine migrateOne_spec (fun _ h => h.1) (fun dir entry ⟨hkept, hrest⟩ hnew hlegacy => ?_)
    (by decide) rfl ?_
  · exact ⟨hkept.spool_renamed hnew hlegacy, hR.set (hR.delete hrest) entry (.inr rfl)⟩
  refine Triple.bind (Q := fun names => Held _ fun dir => (Kept start dir ∧ R dir) ∧
    SpoolDone names dir) (operate_spec (fun _ h => h) fun dir names dir' hI h => ?_) fun names => ?_
  · obtain ⟨files, hfiles, heq⟩ := Option.map_eq_some_iff.mp h
    cases heq
    refine ⟨⟨hI, fun name hname => .inl ?_⟩, hI.1⟩
    rw [files_eq hfiles, fileOf_folder] at hname
    obtain ⟨text, htext⟩ := Option.isSome_iff_exists.mp hname
    exact Record.mem_names (Record.get_eq_some.mp htext)
  refine Triple.bind (moveFiles_spec hR names) fun _ => ?_
  refine rmRecursive_spec (fun _ h => h.1.1) (fun _ h => h.1) (fun _ h => h.1.1)
    (fun dir files file ⟨⟨hkept, hrest⟩, hdone⟩ hlegacy => ?_)
    fun dir ⟨⟨hkept, hrest⟩, hdone⟩ => ?_
  · obtain ⟨hremoved, hdone'⟩ := hkept.file_removed file hlegacy hdone
    exact ⟨⟨hremoved, hR.set hrest _ (.inl rfl)⟩, hdone'⟩
  · refine ⟨⟨hkept.spool_gone hdone, hR.delete hrest⟩, ?_⟩
    rw [StateDir.get_delete, if_pos rfl]

/-! ## All moves -/

/-- The names that what is kept is under. -/
def keptNames : List String :=
  [legacyLedger, uploadSessionLedgerFile, legacySpool, uploadSpoolDirectory]

theorem other_keeps {legacy current : String} (hne : legacy ≠ current)
    (hother : ∀ name ∈ keptNames, name ≠ legacy ∧ name ≠ current) :
    MoveKeeps start ⟨legacy, current, none⟩ := by
  intro R hR
  have hkeeps : Stable ⟨legacy, current, none⟩ (Kept start) := by
    intro dir dir' hsame hkept
    refine hkept.congr ?_ ?_ ?_ ?_
    · exact hsame _ (hother _ (by simp [keptNames])).1 (hother _ (by simp [keptNames])).2
    · exact hsame _ (hother _ (by simp [keptNames])).1 (hother _ (by simp [keptNames])).2
    · exact hsame _ (hother _ (by simp [keptNames])).1 (hother _ (by simp [keptNames])).2
    · exact hsame _ (hother _ (by simp [keptNames])).1 (hother _ (by simp [keptNames])).2
  refine migrateOne_spec (fun _ h => h.1) (fun dir entry ⟨hkept, hrest⟩ _ _ => ?_) hne rfl ?_
  · exact ⟨hkeeps.set (hkeeps.delete hkept) entry (.inr rfl),
      hR.set (hR.delete hrest) entry (.inr rfl)⟩
  refine rmRecursive_spec (fun _ h => h.1) (fun _ h => h) (fun _ h => h.1.1)
    (fun dir files file ⟨hkept, hrest⟩ _ => ?_) fun dir ⟨hkept, hrest⟩ => ?_
  · exact ⟨hkeeps.set hkept _ (.inl rfl), hR.set hrest _ (.inl rfl)⟩
  · refine ⟨⟨hkeeps.delete hkept, hR.delete hrest⟩, ?_⟩
    rw [StateDir.get_delete, if_pos rfl]

/-- Two moves that do not bear on one another's old names. -/
def Apart (move later : Move) : Prop :=
  move.legacy ≠ later.legacy ∧ move.legacy ≠ later.current

instance (move later : Move) : Decidable (Apart move later) :=
  inferInstanceAs (Decidable (_ ∧ _))

theorem migrateAll_spec {moves : List Move} (hmoves : ∀ move ∈ moves, MoveKeeps start move)
    (hapart : moves.Pairwise Apart) (hR : ∀ move ∈ moves, Stable move R) :
    Triple (Held (Kept start) fun dir => Kept start dir ∧ R dir) (migrateAll moves)
      (fun logged => Held (Kept start) fun dir => (Kept start dir ∧ R dir) ∧
        (logged = [] → ∀ move ∈ moves, dir.get move.legacy = none))
      (Held (Kept start) fun dir => Kept start dir ∧ R dir) := by
  induction moves generalizing R with
  | nil =>
      refine Triple.pure fun w hw => hw.weaken fun dir h => ⟨h, fun _ move hmove => ?_⟩
      cases hmove
  | cons move moves ih =>
      obtain ⟨hfirst, hrest⟩ := List.pairwise_cons.mp hapart
      refine Triple.bind (attempt_spec (fun _ h => h.1)
        (hmoves move List.mem_cons_self R (hR move List.mem_cons_self))) fun failed => ?_
      -- what the move came to is not undone by the later ones
      have hstable : ∀ later ∈ moves, Stable later fun dir =>
          R dir ∧ (failed = false → dir.get move.legacy = none) := by
        intro later hlater dir dir' hsame ⟨hRdir, hgone⟩
        refine ⟨hR later (List.mem_cons_of_mem _ hlater) dir dir' hsame hRdir, fun hfailed => ?_⟩
        rw [hsame _ (hfirst later hlater).1 (hfirst later hlater).2]
        exact hgone hfailed
      have hlater := ih (fun later h => hmoves later (List.mem_cons_of_mem _ h)) hrest hstable
      refine Triple.bind (hlater.weaken ?_ (fun _ _ h => h) ?_) fun logged => Triple.pure ?_
      · exact fun w hw => hw.weaken fun dir h => ⟨h.1.1, h.1.2, fun hfailed => (h.2 hfailed).2⟩
      · exact fun w hw => hw.weaken fun dir h => ⟨h.1, h.2.1⟩
      · intro w hw
        refine hw.weaken fun dir ⟨⟨hkept, hRdir, hgone⟩, hall⟩ => ⟨⟨hkept, hRdir⟩, fun hnone => ?_⟩
        cases failed with
        | true => cases hnone
        | false =>
            intro other hother
            rcases List.mem_cons.mp hother with rfl | hin
            · exact hgone rfl
            · exact hall hnone other hin

theorem moves_keep : ∀ move ∈ moves, MoveKeeps start move := by
  intro move hmove
  simp only [moves, List.mem_cons, List.not_mem_nil, or_false] at hmove
  rcases hmove with rfl | rfl | rfl | rfl
  · exact ledger_keeps
  · exact spool_keeps
  · exact other_keeps (by decide) (by decide)
  · exact other_keeps (by decide) (by decide)

theorem moves_apart : moves.Pairwise Apart := by decide

/-- Nothing is left under the old names of the ledger and of the spool. -/
def Moved (dir : StateDir) : Prop :=
  dir.get legacyLedger = none ∧ dir.get legacySpool = none

theorem migrate_spec : Triple (Held (Kept start) (Kept start)) migrateLegacyUploadState
    (fun logged => Held (Kept start) fun dir => Kept start dir ∧ (logged = [] → Moved dir))
    (Held (Kept start) (Kept start)) := by
  refine Triple.bind (look_spec fun _ h => h) fun there => ?_
  cases there with
  | false =>
      refine Triple.pure fun w hw => hw.weaken fun dir ⟨hkept, hnone⟩ => ⟨hkept, fun _ => ?_⟩
      have hempty : dir.entries.entries = [] := by
        rw [StateDir.isThere, Bool.or_eq_false_iff] at hnone
        simpa using hnone.2
      have hget : ∀ name, dir.get name = none := by
        intro name
        rw [StateDir.get, Record.get, hempty]
        rfl
      exact ⟨hget _, hget _⟩
  | true =>
      have hall := @migrateAll_spec start (fun _ => True) moves moves_keep moves_apart
        fun _ _ _ _ _ _ => trivial
      refine hall.weaken (fun w hw => hw.weaken fun dir h => ⟨h.1, trivial⟩) (fun logged w hw => ?_)
        fun w hw => hw.weaken fun dir h => h.1
      refine hw.weaken fun dir ⟨⟨hkept, _⟩, hgone⟩ => ⟨hkept, fun hnone => ⟨?_, ?_⟩⟩
      · exact hgone hnone _ List.mem_cons_self
      · exact hgone hnone _ (List.mem_cons_of_mem _ List.mem_cons_self)

/-! ## Runs -/

theorem Kept.refl (h : start.SameVersion) : Kept start start := ⟨fun _ => rfl, fun _ => rfl, h⟩

theorem runWith_keeps (hkept : Kept start dir) (fates : List Fate)
    (hmisled : (runWith dir fates).2.misled = false) :
    Kept start (runWith dir fates).2.disk ∧
      (∀ disk ∈ (runWith dir fates).2.disks, Kept start disk) ∧
      ((runWith dir fates).1 = .ok [] → Moved (runWith dir fates).2.disk) := by
  have hstart : Held (Kept start) (Kept start) { disk := dir, fates } :=
    fun _ => ⟨hkept, fun disk hdisk => by cases hdisk⟩
  have hrun : migrateLegacyUploadState.run.run { disk := dir, fates } = runWith dir fates := rfl
  cases hanswer : runWith dir fates with
  | mk answer w =>
      rw [hanswer] at hmisled hrun
      cases answer with
      | ok logged =>
          obtain ⟨⟨hend, hmoved⟩, hdisks⟩ := migrate_spec.ok hstart hrun hmisled
          refine ⟨hend, hdisks, fun hnone => hmoved ?_⟩
          cases hnone
          rfl
      | error e =>
          obtain ⟨hend, hdisks⟩ := migrate_spec.error hstart hrun hmisled
          exact ⟨hend, hdisks, fun hnone => by cases hnone⟩

theorem After.kept (hversion : start.SameVersion) (h : After start dir) : Kept start dir := by
  induction h with
  | start => exact Kept.refl hversion
  | run fates _ hmisled ih => exact (runWith_keeps ih fates hmisled).1

def exampleText (version session : String) : String :=
  "\x7b\"version\":" ++ version ++ ",\"sessions\":\x7b\"" ++ session ++ "\":1\x7d\x7d"

/-- Two ledgers, of versions that are given, and a spool under the old name only. -/
def exampleDir (oldVersion newVersion : String) : StateDir :=
  ⟨true, ((Record.empty.set legacyLedger (.file (exampleText oldVersion "a"))).set
    uploadSessionLedgerFile (.file (exampleText newVersion "b"))).set
    legacySpool (.folder (Record.empty.set "1.json" "owed"))⟩

theorem ok_of_toOption {ε α : Type} {x : Except ε α} {a : α} (h : x.toOption = some a) :
    x = .ok a := by
  cases x with
  | ok b =>
      cases h
      rfl
  | error e => cases h

theorem exampleText_version : ∀ session ∈ ["a", "b"],
    (parseLedger (exampleText "1" session)).all (fun ledger => ledger.version = 1) = true := by
  decide +kernel

theorem exampleDir_sameVersion : (exampleDir "1" "1").SameVersion := by
  intro old new hold hnew
  have hread : ∀ session ∈ ["a", "b"], ∀ ledger,
      parseLedger (exampleText "1" session) = some ledger → ledger.version = 1 := by
    intro session hsession ledger hledger
    have hversion := exampleText_version session hsession
    rw [hledger] at hversion
    exact of_decide_eq_true hversion
  rw [hread "b" (by simp) new hnew, hread "a" (by simp) old hold]

/-- A crash once the new ledger is written. -/
def exampleFates : List Fate := List.replicate 7 .done ++ [.crashes]

def exampleBroken : StateDir := (runWith (exampleDir "1" "1") exampleFates).2.disk

end OmniRush.Uploader
