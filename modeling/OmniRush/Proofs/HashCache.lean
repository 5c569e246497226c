import OmniRush.Archive.HashCache
import OmniRush.Proofs.Baseline

/-!
# What the hash cache answers was recorded

A row of either map and of either form is a path with a stat key and a hash (`Held.row`), and a
lookup answers the hash of the row that `previous` has for the path, if the stat key is the
entry's. Saving writes those rows and reading takes them back, so a cache that is read again
answers also for the paths that the running scan has seen, which the cache itself does not.
-/

namespace OmniRush.Archive

/-! ## Rows -/

/-- The stat key and the hash of a held row. -/
def Held.row : Held → Option (String × Sha256)
  | .packed text isHex => some (String.ofList (text.drop 64), ⟨text.take 64, isHex⟩)
  | .entry scanned => scanned.sha256.map fun sha256 => (scanned.statKey, sha256)

theorem Sha256.length_hex (sha256 : Sha256) : sha256.hex.length = 64 := by
  have hhex := sha256.isHex
  simp only [isSha256Hex, Bool.and_eq_true, decide_eq_true_eq] at hhex
  exact hhex.1

theorem sha256Of_hex (sha256 : Sha256) : sha256Of sha256.hex = some sha256 := dif_pos sha256.isHex

namespace ArchiveHashCache

variable {cache : ArchiveHashCache} {path : String} {row : String × Sha256}

theorem row_pack (statKey : String) (sha256 : Sha256) :
    (pack statKey sha256).row = some (statKey, sha256) := by
  have hdrop : (sha256.hex ++ statKey.toList).drop 64 = statKey.toList := by
    rw [← sha256.length_hex, List.drop_left]
  have htake : (sha256.hex ++ statKey.toList).take 64 = sha256.hex := by
    rw [← sha256.length_hex, List.take_left]
  simp only [pack, Held.row, hdrop, String.ofList_toList, htake]

/-- A packed row ends with a stat key of the length that is left only if it is the row's. -/
theorem packed_key {text key : List Char} (h : 64 ≤ text.length) :
    (text.length = 64 + key.length ∧ key <:+ text) ↔ text.drop 64 = key := by
  constructor
  · rintro ⟨hlength, before, rfl⟩
    rw [List.length_append] at hlength
    have hbefore : before.length = 64 := by omega
    rw [← hbefore, List.drop_left]
  · rintro rfl
    refine ⟨?_, List.drop_suffix 64 text⟩
    rw [List.length_drop]
    omega

theorem heldSha256_iff {held : Held} {entry : HashedEntry} {sha256 : Sha256} :
    heldSha256 held entry = some sha256 ↔ held.row = some (entry.statKey, sha256) := by
  cases held with
  | packed text isHex =>
      have hlength := (Sha256.mk _ isHex).length_hex
      rw [List.length_take] at hlength
      have hkey := @packed_key text entry.statKey.toList (by omega)
      simp only [heldSha256, hkey, Held.row, Option.some.injEq, Prod.mk.injEq]
      rw [← String.toList_inj, String.toList_ofList]
      split
      · next heq => simp only [heq, true_and, Option.some.injEq]
      · next hne => simp only [hne, false_and, reduceCtorEq]
  | entry held =>
      simp only [heldSha256, Held.row]
      split
      · next heq =>
          cases held.sha256 with
          | none => simp
          | some other => simp [heq]
      · next hne =>
          cases held.sha256 with
          | none => simp
          | some other => simp [hne]

/-- The row of a path that the running scan has not seen. -/
def earlier (cache : ArchiveHashCache) (path : String) : Option (String × Sha256) :=
  (cache.previous.get path).bind Held.row

/-- The row of a path that it has seen. -/
def seen (cache : ArchiveHashCache) (path : String) : Option (String × Sha256) :=
  (cache.current.get path).bind fun entry => (Held.entry entry).row

/-- **A lookup answers the row of `previous` with the entry's stat key.** -/
theorem lookup_iff {entry : HashedEntry} {sha256 : Sha256} :
    (cache.lookup entry).1 = some sha256 ↔
      cache.earlier entry.path = some (entry.statKey, sha256) := by
  simp only [lookup, earlier]
  cases hheld : cache.previous.get entry.path with
  | none => simp
  | some held =>
      rw [Option.bind_some, ← heldSha256_iff]
      cases hsha256 : heldSha256 held entry with
      | none => simp [hsha256]
      | some other => simp [hsha256]

/-! ## Saved rows -/

/-- The rows that are saved. -/
def savedRows (cache : ArchiveHashCache) : List (String × String × Sha256) :=
  cache.previous.entries.filterMap (fun (path, held) => held.row.map fun row => (path, row)) ++
    cache.current.entries.filterMap fun (path, entry) =>
      (Held.entry entry).row.map fun row => (path, row)

/-- The row as JSON. -/
def jsonOf : String × String × Sha256 → Json
  | (path, statKey, sha256) => rowJson path.toList statKey.toList sha256.hex

theorem heldRow_eq (path : String) (held : Held) :
    heldRow path held = (held.row.map fun row => (path, row)).map jsonOf := by
  cases held with
  | packed text isHex =>
      simp only [heldRow, Held.row, Option.map_some, jsonOf, String.toList_ofList]
  | entry entry =>
      simp only [heldRow, entryRow, Held.row, Option.map_map]
      rfl

theorem rows_eq (cache : ArchiveHashCache) : cache.rows = cache.savedRows.map jsonOf := by
  rw [rows, savedRows, List.map_append, List.map_filterMap, List.map_filterMap]
  simp only [← heldRow_eq]
  rfl

theorem textRow_jsonOf (row : String × String × Sha256) : textRow (jsonOf row) = some row := by
  obtain ⟨path, statKey, sha256⟩ := row
  simp only [jsonOf, rowJson, textRow, String.toList_ofList, sha256Of_hex, String.ofList_toList,
    Option.map_some]

theorem isLine_jsonOf (row : String × String × Sha256) : IsLine (jsonOf row).chars := by
  obtain ⟨path, statKey, sha256⟩ := row
  generalize htext : (jsonOf (path, statKey, sha256)).chars = text
  have hfirst : "[".toList.isPrefixOf text = true := by
    rw [← htext]
    rfl
  have hlast : text.getLast? = some ']' := by
    rw [← htext]
    simp [jsonOf, rowJson, Json.chars, Json.itemChars, List.getLast?_cons]
  have hne : ¬ text.getLast? = some ',' := by
    rw [hlast]
    decide
  have hcomma : (text ++ [',']).getLast? = some ',' := List.getLast?_concat
  constructor
  · simp only [lineRow, if_neg hne, hfirst, Bool.true_or, if_true]
  · simp only [lineRow, if_pos hcomma, List.dropLast_concat, hfirst, Bool.true_or, if_true]

theorem textRows_savedText (cache : ArchiveHashCache) :
    textRows cache.savedText = cache.savedRows := by
  have hrows : jsonLineRows cache.savedText.toList = cache.savedRows.map jsonOf := by
    rw [savedText, String.toList_ofList, jsonChunks, jsonLineDocument_flatten, rows_eq,
      List.map_map, jsonLineRows_document (by decide) (by decide)]
    · rw [List.filterMap_map]
      refine List.filterMap_eq_map_iff_forall_eq_some.mpr fun row _ => ?_
      have hparse := Json.parseChars_chars (jsonOf row) [] rfl rfl
      rw [List.append_nil] at hparse
      rw [Function.comp_apply, Function.comp_apply]
      exact hparse
    · intro line hline
      obtain ⟨row, -, rfl⟩ := List.mem_map.mp hline
      exact Json.newline_notMem_chars _
    · intro line hline
      obtain ⟨row, -, rfl⟩ := List.mem_map.mp hline
      exact isLine_jsonOf row
  rw [textRows, hrows, List.filterMap_map]
  refine (List.filterMap_congr fun row _ => textRow_jsonOf row).trans ?_
  exact List.filterMap_some

/-- No path has rows in both maps. -/
def Apart (cache : ArchiveHashCache) : Prop :=
  ∀ path, (cache.previous.get path).isSome → cache.current.get path = none

theorem mem_savedRows : (path, row) ∈ cache.savedRows ↔
    cache.earlier path = some row ∨ cache.seen path = some row := by
  simp only [savedRows, List.mem_append, List.mem_filterMap, earlier, seen,
    Option.bind_eq_some_iff, Record.get_eq_some]
  constructor
  · rintro (⟨⟨p, held⟩, hmem, hrow⟩ | ⟨⟨p, entry⟩, hmem, hrow⟩)
    · obtain ⟨r, hr, heq⟩ := Option.map_eq_some_iff.mp hrow
      cases heq
      exact .inl ⟨held, hmem, hr⟩
    · obtain ⟨r, hr, heq⟩ := Option.map_eq_some_iff.mp hrow
      cases heq
      exact .inr ⟨entry, hmem, hr⟩
  · rintro (⟨held, hmem, hrow⟩ | ⟨entry, hmem, hrow⟩)
    · exact .inl ⟨(path, held), hmem, by rw [hrow]; rfl⟩
    · exact .inr ⟨(path, entry), hmem, by rw [hrow]; rfl⟩

theorem nodup_savedRows (h : cache.Apart) : (cache.savedRows.map Prod.fst).Nodup := by
  have hnames : (cache.previous.names ++ cache.current.names).Nodup := by
    refine List.nodup_append'.mpr ⟨cache.previous.distinct, cache.current.distinct, ?_⟩
    intro path hprevious hcurrent
    obtain ⟨held, hheld⟩ := Record.exists_of_mem_names hprevious
    obtain ⟨entry, hentry⟩ := Record.exists_of_mem_names hcurrent
    have hnone := h path (by rw [Record.get_eq_some.mpr hheld]; rfl)
    rw [Record.get_eq_some.mpr hentry] at hnone
    cases hnone
  rw [savedRows, List.map_append]
  refine hnames.sublist (.append (names_filterMap ?_) (names_filterMap ?_))
  · intro entry entry' heq
    obtain ⟨row, -, rfl⟩ := Option.map_eq_some_iff.mp heq
    rfl
  · intro entry entry' heq
    obtain ⟨row, -, rfl⟩ := Option.map_eq_some_iff.mp heq
    rfl

/-! ## Reading -/

/-- The rows of a text as `previous` gets them. -/
def held : String × String × Sha256 → String × Held
  | (path, statKey, sha256) => (path, pack statKey sha256)

theorem foldl_addRow (rows : List (String × String × Sha256)) (previous : Record Held) :
    rows.foldl addRow previous = previous.setAll (rows.map held) := by
  rw [Record.setAll, List.foldl_map]
  rfl

theorem mem_of_get_setAll {V : Type} {r : Record V} {entries : List (String × V)} {value : V}
    (h : (r.setAll entries).get path = some value) :
    (path, value) ∈ entries ∨ r.get path = some value := by
  induction entries generalizing r with
  | nil => exact .inr h
  | cons entry entries ih =>
      rcases ih h with hmem | hbefore
      · exact .inl (List.mem_cons_of_mem _ hmem)
      · rw [Record.get_set] at hbefore
        split at hbefore
        · next heq =>
            cases hbefore
            exact .inl (heq ▸ List.mem_cons_self)
        · exact .inr hbefore

theorem seen_fromText (text : Option String) : (fromText text).seen path = none := by
  have hnew : (fromText text).current = .empty := by
    cases text with
    | none => rfl
    | some text =>
        rw [fromText]
        split <;> rfl
  rw [seen, hnew]
  rfl

theorem earlier_fromText {text : Option String} (h : (fromText text).earlier path = some row) :
    ∃ t, text = some t ∧ (path, row) ∈ textRows t := by
  cases text with
  | none => cases h
  | some text =>
      refine ⟨text, rfl, ?_⟩
      rw [fromText] at h
      split at h
      · obtain ⟨held', hget, hrow⟩ := Option.bind_eq_some_iff.mp h
        rw [foldl_addRow] at hget
        rcases mem_of_get_setAll hget with hmem | hempty
        · obtain ⟨⟨p, statKey, sha256⟩, hrows, heq⟩ := List.mem_map.mp hmem
          cases heq
          rw [row_pack] at hrow
          cases hrow
          exact hrows
        · cases hempty
      · cases h

/-- **A cache that was saved and is read again has the rows of both maps.** -/
theorem earlier_savedText (h : cache.Apart) (path : String) :
    (fromText (some cache.savedText)).earlier path =
      (cache.earlier path).or (cache.seen path) := by
  have hheader : "\x7b\"v\":2,".toList.isPrefixOf cache.savedText.toList = true := by
    have htext : cache.savedText.toList =
        cacheHeader ++ documentBody (cache.rows.map Json.chars) := by
      rw [savedText, String.toList_ofList, jsonChunks, jsonLineDocument_flatten]
    rw [htext]
    rfl
  have hnodup : ((cache.savedRows.map held).map Prod.fst).Nodup := by
    rw [List.map_map]
    exact nodup_savedRows h
  refine Option.ext fun row => ?_
  have hmem : (fromText (some cache.savedText)).earlier path = some row ↔
      (path, row) ∈ cache.savedRows := by
    simp only [fromText, if_pos hheader, earlier, foldl_addRow, textRows_savedText,
      Option.bind_eq_some_iff, Record.get_eq_some, Record.mem_setAll hnodup]
    constructor
    · rintro ⟨held', hin | ⟨-, hempty⟩, hrow⟩
      · obtain ⟨⟨p, statKey, sha256⟩, hrows, heq⟩ := List.mem_map.mp hin
        cases heq
        rw [row_pack] at hrow
        cases hrow
        exact hrows
      · cases hempty
    · intro hrows
      exact ⟨pack row.1 row.2, .inl (List.mem_map.mpr ⟨_, hrows, rfl⟩), row_pack row.1 row.2⟩
  rw [hmem, mem_savedRows]
  cases hearlier : cache.earlier path with
  | none => simp
  | some other =>
      obtain ⟨held', hget, -⟩ := Option.bind_eq_some_iff.mp hearlier
      have hnone : cache.seen path = none := by
        rw [seen, h path (by rw [hget]; rfl)]
        rfl
      simp [hnone]

/-! ## Runs -/

theorem earlier_delete (cache : ArchiveHashCache) (path other : String) (current) (dirty) :
    (ArchiveHashCache.mk (cache.previous.delete path) current dirty).earlier other =
      if other = path then none else cache.earlier other := by
  simp only [earlier, Record.get_delete]
  split <;> rfl

theorem seen_set (cache : ArchiveHashCache) (entry : HashedEntry) (other : String) (previous)
    (dirty) :
    (ArchiveHashCache.mk previous (cache.current.set entry.path entry) dirty).seen other =
      if other = entry.path then (Held.entry entry).row else cache.seen other := by
  simp only [seen, Record.get_set]
  split <;> rfl

/-- The rows of a cache, of either map, are among some that were recorded. -/
structure Sound (recorded : List (String × String × Sha256)) (cache : ArchiveHashCache) :
    Prop where
  apart : cache.Apart
  earlier : ∀ path row, cache.earlier path = some row → (path, row) ∈ recorded
  seen : ∀ path row, cache.seen path = some row → (path, row) ∈ recorded

variable {recorded : List (String × String × Sha256)}

theorem Sound.delete (h : Sound recorded cache) (path : String) (dirty : Bool) :
    Sound recorded ⟨cache.previous.delete path, cache.current, dirty⟩ where
  apart other hother := by
    rw [Record.get_delete] at hother
    split at hother
    · cases hother
    · exact h.apart other hother
  earlier other row hrow := by
    rw [earlier_delete] at hrow
    split at hrow
    · cases hrow
    · exact h.earlier other row hrow
  seen := h.seen

theorem Sound.move (h : Sound recorded cache) (entry : HashedEntry) (dirty : Bool)
    (hentry : ∀ row, (Held.entry entry).row = some row → (entry.path, row) ∈ recorded) :
    Sound recorded
      ⟨cache.previous.delete entry.path, cache.current.set entry.path entry, dirty⟩ where
  apart other hother := by
    rw [Record.get_delete] at hother
    split at hother
    · cases hother
    · next hne =>
        rw [Record.get_set, if_neg hne]
        exact h.apart other hother
  earlier other row hrow := by
    rw [earlier_delete] at hrow
    split at hrow
    · cases hrow
    · exact h.earlier other row hrow
  seen other row hrow := by
    rw [seen_set] at hrow
    split at hrow
    · next heq => exact heq ▸ hentry row hrow
    · exact h.seen other row hrow

theorem scanLookup_cases (cache : ArchiveHashCache) (entry : HashedEntry) :
    cache.scanLookup entry = cache ∨
      cache.scanLookup entry = ⟨cache.previous.delete entry.path, cache.current, true⟩ ∨
      ∃ sha256, cache.earlier entry.path = some (entry.statKey, sha256) ∧
        cache.scanLookup entry = ⟨cache.previous.delete entry.path,
          cache.current.set entry.path { entry with sha256 := some sha256 }, cache.dirty⟩ := by
  simp only [scanLookup, lookup, earlier]
  cases cache.previous.get entry.path with
  | none => exact .inl rfl
  | some held =>
      simp only [Option.bind_some, ← heldSha256_iff]
      cases heldSha256 held entry with
      | none => exact .inr (.inl rfl)
      | some sha256 =>
          refine .inr (.inr ⟨sha256, rfl, ?_⟩)
          simp only [assign, Record.set_set]

theorem Sound.scanLookup (h : Sound recorded cache) (entry : HashedEntry) :
    Sound recorded (cache.scanLookup entry) := by
  rcases scanLookup_cases cache entry with heq | heq | ⟨sha256, hearlier, heq⟩
  · rw [heq]
    exact h
  · rw [heq]
    exact h.delete entry.path true
  · rw [heq]
    refine h.move { entry with sha256 := some sha256 } cache.dirty fun row hrow => ?_
    cases hrow
    exact h.earlier _ _ hearlier

theorem Sound.mono {more : List (String × String × Sha256)} (h : Sound recorded cache)
    (hmore : ∀ row ∈ recorded, row ∈ more) : Sound more cache where
  apart := h.apart
  earlier path row hrow := hmore _ (h.earlier path row hrow)
  seen path row hrow := hmore _ (h.seen path row hrow)

theorem Sound.remember (h : Sound recorded cache) (entry : HashedEntry) :
    Sound (record entry ++ recorded) (cache.remember entry) := by
  refine (h.mono fun row hrow => List.mem_append_right _ hrow).move entry true fun row hrow => ?_
  obtain ⟨sha256, hsha256, rfl⟩ := Option.map_eq_some_iff.mp hrow
  refine List.mem_append_left _ ?_
  rw [record, hsha256]
  exact List.mem_singleton.mpr rfl

theorem Sound.forget (h : Sound recorded cache) (path : String) :
    Sound recorded (cache.forget path) := by
  rw [ArchiveHashCache.forget]
  split
  · exact h.delete path true
  split
  · refine ⟨fun other hother => ?_, h.earlier, fun other row hrow => ?_⟩
    · rw [Record.get_delete]
      split
      · rfl
      · exact h.apart other hother
    · rw [ArchiveHashCache.seen, Record.get_delete] at hrow
      split at hrow
      · cases hrow
      · exact h.seen other row hrow
  · exact h

theorem earlier_commitScan (cache : ArchiveHashCache) (path : String) :
    cache.commitScan.earlier path = cache.seen path := by
  refine Option.ext fun row => ?_
  simp only [ArchiveHashCache.earlier, ArchiveHashCache.seen, commitScan,
    Option.bind_eq_some_iff, Record.get_eq_some]
  constructor
  · rintro ⟨held, hheld, hrow⟩
    obtain ⟨⟨p, entry⟩, hentry, heq⟩ := List.mem_map.mp hheld
    cases heq
    exact ⟨entry, hentry, hrow⟩
  · rintro ⟨entry, hentry, hrow⟩
    exact ⟨.entry entry, List.mem_map.mpr ⟨_, hentry, rfl⟩, hrow⟩

theorem Sound.commitScan (h : Sound recorded cache) : Sound recorded cache.commitScan where
  apart _ _ := rfl
  earlier path row hrow := h.seen path row (by rwa [earlier_commitScan] at hrow)
  seen _ _ hrow := by cases hrow

/-- The cache is sound, and so is every text that it was saved as. -/
structure WorldSound (w : World) : Prop where
  cache : Sound w.recorded w.cache
  saved : ∀ text ∈ w.saved, ∀ row ∈ textRows text, row ∈ w.recorded

theorem sound_fromText {text : Option String}
    (h : ∀ t, text = some t → ∀ row ∈ textRows t, row ∈ recorded) :
    Sound recorded (fromText text) where
  apart path _ := by
    cases text with
    | none => rfl
    | some text =>
        rw [fromText]
        split <;> rfl
  earlier path row hrow := by
    obtain ⟨t, htext, hmem⟩ := earlier_fromText hrow
    exact h t htext _ hmem
  seen path row hrow := by
    rw [seen_fromText] at hrow
    cases hrow

theorem WorldSound.step {w w' : World} {operation : Operation} (h : WorldSound w)
    (hallowed : w.Allowed operation) (hstep : w.step operation = some w') : WorldSound w' := by
  cases operation with
  | lookup entry =>
      cases hstep
      exact ⟨h.cache.scanLookup entry, h.saved⟩
  | remember entry =>
      cases hstep
      refine ⟨h.cache.remember entry, fun text htext row hrow => ?_⟩
      exact List.mem_append_right _ (h.saved text htext row hrow)
  | forget path =>
      cases hstep
      exact ⟨h.cache.forget path, h.saved⟩
  | commitScan =>
      cases hstep
      exact ⟨h.cache.commitScan, h.saved⟩
  | save =>
      cases hstep
      refine ⟨⟨h.cache.apart, h.cache.earlier, h.cache.seen⟩, fun text htext row hrow => ?_⟩
      rcases List.mem_cons.mp htext with rfl | hbefore
      · rw [textRows_savedText] at hrow
        rcases mem_savedRows.mp hrow with hearlier | hseen
        · exact h.cache.earlier _ _ hearlier
        · exact h.cache.seen _ _ hseen
      · exact h.saved text hbefore row hrow
  | reload text =>
      cases hstep
      refine ⟨sound_fromText fun t ht row hrow => ?_, h.saved⟩
      cases ht
      obtain ⟨before, hbefore, hmem⟩ := hallowed row hrow
      exact h.saved before hbefore row hmem

theorem worldSound_start : WorldSound {} where
  cache := @sound_fromText [] none fun _ h => by cases h
  saved _ h := by cases h

theorem reach_sound {w : World} (h : Reach World.step World.Allowed {} w) : WorldSound w :=
  h.invariant (fun _ _ _ hsound hallowed hstep => hsound.step hallowed hstep) worldSound_start

theorem lookup_savedText (h : cache.Apart) (entry : HashedEntry) :
    ((fromText (some cache.savedText)).lookup entry).1 =
      match cache.current.get entry.path with
      | none => (cache.lookup entry).1
      | some seen => heldSha256 (.entry seen) entry := by
  refine Option.ext fun sha256 => ?_
  rw [lookup_iff, earlier_savedText h]
  cases hcurrent : cache.current.get entry.path with
  | none =>
      have hseen : cache.seen entry.path = none := by
        rw [seen, hcurrent]
        rfl
      rw [hseen, Option.or_none, ← lookup_iff]
  | some seen =>
      have hearlier : cache.earlier entry.path = none := by
        rw [earlier]
        cases hprevious : cache.previous.get entry.path with
        | none => rfl
        | some held =>
            have hnone := h entry.path (by rw [hprevious]; rfl)
            rw [hcurrent] at hnone
            cases hnone
      simp only [hearlier, Option.none_or, ArchiveHashCache.seen, hcurrent, Option.bind_some]
      exact heldSha256_iff.symm

/-- **A cached hash was recorded, and a saved cache answers as before.** In every run what a lookup
answers was remembered for the path with the same stat key. Once the cache is saved and read again,
it answers the same for each path that the running scan has not seen, and for one that it has seen
the hash of the entry seen, if the stat key is the same; between two scans it answers the same for
every path. -/
theorem hashCache_sound {w : World} (h : Reach World.step World.Allowed {} w) :
    (∀ entry sha256, (w.cache.lookup entry).1 = some sha256 →
        (entry.path, entry.statKey, sha256) ∈ w.recorded) ∧
      (∀ entry, ((fromText (some w.cache.savedText)).lookup entry).1 =
        match w.cache.current.get entry.path with
        | none => (w.cache.lookup entry).1
        | some seen => if seen.statKey = entry.statKey then seen.sha256 else none) ∧
      ∀ entry, ((fromText (some w.cache.commitScan.savedText)).lookup entry).1 =
        (w.cache.commitScan.lookup entry).1 := by
  have hsound := (reach_sound h).cache
  refine ⟨fun entry sha256 hlookup => ?_, fun entry => lookup_savedText hsound.apart entry,
    fun entry => lookup_savedText hsound.commitScan.apart entry⟩
  exact hsound.earlier _ _ (lookup_iff.mp hlookup)

/-! ## A running scan -/

def exampleSha256 : Sha256 := ⟨List.replicate 64 'a', by decide⟩

def exampleEntry : HashedEntry := ⟨"notes.txt", "12:5:5:9", some exampleSha256⟩

/-- A run that remembers an entry, ends the scan, saves and reads the text again. -/
theorem hashCache_sound_example :
    let cache := (new.remember exampleEntry).commitScan
    (exampleEntry.path, exampleEntry.statKey, exampleSha256) ∈
      record exampleEntry ∧ (cache.lookup exampleEntry).1 = some exampleSha256 := by
  have hreach : Reach World.step World.Allowed {}
      ⟨(new.remember exampleEntry).commitScan, [], record exampleEntry ++ []⟩ :=
    .snoc (.snoc .refl (a := .remember exampleEntry) trivial rfl) (a := .commitScan) trivial rfl
  have hlookup : ((new.remember exampleEntry).commitScan.lookup exampleEntry).1 =
      some exampleSha256 := rfl
  have hrecorded := (hashCache_sound hreach).1 _ _ hlookup
  rw [List.append_nil] at hrecorded
  exact ⟨hrecorded, hlookup⟩

/-- A scan that has just remembered an entry asks again, before and after the cache is saved. -/
theorem seen_is_not_answered :
    ((new.remember exampleEntry).lookup exampleEntry).1 = none ∧
      ((fromText (some (new.remember exampleEntry).savedText)).lookup exampleEntry).1 =
        some exampleSha256 := by
  have hsound := worldSound_start.cache.remember exampleEntry
  refine ⟨rfl, ?_⟩
  rw [lookup_savedText hsound.apart]
  rfl

end ArchiveHashCache

end OmniRush.Archive
