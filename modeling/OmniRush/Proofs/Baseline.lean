import OmniRush.Archive.Manifest
import OmniRush.Lib.JsonRoundTrip

/-!
# The baseline document carries the entry list

`baselineChunks` writes an entry list as a document of one row a line and
`parseBaselineText` reads such a document back. Between the two stand the
chunks the text is cut into, the commas that end every row but the last, the
header and the closing line. This file goes through them in that order and
ends in `parseBaselineText_baselineText`: the list read is the list written,
each entry in its manifest form and with a null hash where it was unstable.

Chunk size never shows: the flattened text of a document is the same for every
`rowsPerChunk`.
-/

namespace OmniRush.Archive

open OmniRush

/-! ## The text of a document -/

/-- What a line document says after its header: nothing but the closing line,
or the rows, each but the last ended by a comma. -/
def documentBody (rows : List (List Char)) : List Char :=
  (if rows = [] then [] else '\n' :: List.intercalate [',', '\n'] rows)
    ++ ['\n', ']', '}', '\n']

theorem intercalate_append {α : Type} (sep : List α) {l r : List (List α)} (hl : l ≠ [])
    (hr : r ≠ []) :
    List.intercalate sep (l ++ r)
      = List.intercalate sep l ++ sep ++ List.intercalate sep r := by
  induction l with
  | nil => exact absurd rfl hl
  | cons a l ih =>
      cases l with
      | nil => cases r <;> simp_all [List.intercalate]
      | cons b l =>
          have h := ih (by simp)
          simp only [List.intercalate, List.cons_append, List.intersperse_cons_cons,
            List.flatten_cons, List.append_assoc] at h ⊢
          rw [h]

/-- The chunks from here on, with `batch` held back: the comma of a later
chunk joins it to the one before. -/
theorem lineChunks_flatten (n : Nat) (rows batch : List (List Char)) (first : Bool) :
    (lineChunks n rows batch first).flatten
      = (if batch ++ rows = [] then []
          else lineChunk first (batch ++ rows)) ++ ['\n', ']', '}', '\n'] := by
  induction rows generalizing batch first with
  | nil =>
      cases batch with
      | nil => simp [lineChunks]
      | cons b bs => simp [lineChunks]
  | cons row rows ih =>
      simp only [lineChunks]
      split
      · next h =>
          rw [List.flatten_cons, ih]
          cases rows with
          | nil => simp
          | cons r rs =>
              have happ := intercalate_append [',', '\n']
                (l := batch ++ [row]) (r := r :: rs) (by simp) (by simp)
              simp only [List.append_assoc, List.singleton_append] at happ
              simp [lineChunk, happ]
      · next h =>
          rw [ih]
          simp

theorem jsonLineDocument_flatten (header : List Char) (rows : List (List Char)) (n : Nat) :
    (jsonLineDocument header rows n).flatten = header ++ documentBody rows := by
  rw [jsonLineDocument, List.flatten_cons, lineChunks_flatten, documentBody]
  cases rows <;> simp [lineChunk]

/-! ## Its lines -/

/-- Every row but the last, with its comma. -/
def commaLines : List (List Char) → List (List Char)
  | [] => []
  | [row] => [row]
  | row :: next :: rows => (row ++ [',']) :: commaLines (next :: rows)

theorem splitOn_rows {rows : List (List Char)} {tail : List Char} (hne : rows ≠ [])
    (hrows : ∀ row ∈ rows, '\n' ∉ row) :
    (List.intercalate [',', '\n'] rows ++ '\n' :: tail).splitOn '\n'
      = commaLines rows ++ tail.splitOn '\n' := by
  induction rows with
  | nil => exact absurd rfl hne
  | cons row rows ih =>
      have hrow := hrows row (by simp)
      cases rows with
      | nil => simp [List.intercalate, commaLines, List.splitOn_append_cons_self_of_not_mem hrow]
      | cons next rows =>
          have h := ih (by simp) fun r hr => hrows r (by simp [hr])
          have hcomma : '\n' ∉ row ++ [','] := by simp [hrow]
          have hsplit : List.intercalate [',', '\n'] (row :: next :: rows) ++ '\n' :: tail
              = (row ++ [',']) ++ '\n' ::
                (List.intercalate [',', '\n'] (next :: rows) ++ '\n' :: tail) := by
            simp [List.intercalate]
          rw [hsplit, List.splitOn_append_cons_self_of_not_mem hcomma, h]
          rfl

theorem splitOn_document {header : List Char} {rows : List (List Char)}
    (hheader : '\n' ∉ header) (hrows : ∀ row ∈ rows, '\n' ∉ row) :
    (header ++ documentBody rows).splitOn '\n'
      = header :: (commaLines rows ++ [[']', '}'], []]) := by
  have hclose : ([']', '}', '\n'] : List Char).splitOn '\n' = [[']', '}'], []] := by decide
  rw [documentBody]
  split
  · next h =>
      subst h
      rw [List.nil_append, List.splitOn_append_cons_self_of_not_mem hheader, hclose]
      rfl
  · next h =>
      rw [List.cons_append, List.splitOn_append_cons_self_of_not_mem hheader,
        splitOn_rows h hrows, hclose]

/-! ## Its rows -/

/-- The text of an object whose first field is its path: what the line reader
recognises a row by. -/
def IsRow (row : List Char) : Prop :=
  "\x7b\"path\"".toList.isPrefixOf row = true ∧ row.getLast? = some '}'

theorem lineRow_row {row : List Char} (h : IsRow row) :
    lineRow row = Json.parseChars row := by
  obtain ⟨hpre, hlast⟩ := h
  have hne : ¬ row.getLast? = some ',' := by rw [hlast]; decide
  simp only [lineRow, if_neg hne, hpre, Bool.or_true, if_true]

theorem lineRow_comma {row : List Char} (h : IsRow row) :
    lineRow (row ++ [',']) = Json.parseChars row := by
  have hlast : (row ++ [',']).getLast? = some ',' := by simp
  simp only [lineRow, if_pos hlast, List.dropLast_concat, h.1, Bool.or_true, if_true]

/-- A row that is read as its text says, also with the comma that ends it. -/
def IsLine (row : List Char) : Prop :=
  lineRow row = Json.parseChars row ∧ lineRow (row ++ [',']) = Json.parseChars row

theorem IsRow.isLine {row : List Char} (h : IsRow row) : IsLine row :=
  ⟨lineRow_row h, lineRow_comma h⟩

theorem filterMap_commaLines {rows : List (List Char)} (h : ∀ row ∈ rows, IsLine row) :
    (commaLines rows).filterMap lineRow = rows.filterMap Json.parseChars := by
  induction rows with
  | nil => rfl
  | cons row rows ih =>
      have hrow := h row (by simp)
      have hrest := ih fun r hr => h r (by simp [hr])
      cases rows with
      | nil => rw [commaLines, List.filterMap_cons, hrow.1]; rfl
      | cons next rows =>
          rw [commaLines, List.filterMap_cons, hrow.2, hrest]
          rfl

theorem jsonLineRows_document {header : List Char} {rows : List (List Char)}
    (hheader : '\n' ∉ header) (hskip : lineRow header = none)
    (hline : ∀ row ∈ rows, '\n' ∉ row) (hrow : ∀ row ∈ rows, IsLine row) :
    jsonLineRows (header ++ documentBody rows) = rows.filterMap Json.parseChars := by
  have hclose : lineRow [']', '}'] = none := by decide
  have hnil : lineRow [] = none := by decide
  rw [jsonLineRows, splitOn_document hheader hline, List.filterMap_cons, hskip,
    List.filterMap_append, filterMap_commaLines hrow]
  simp [hclose, hnil]

/-! ## Entries -/

theorem asType_typeText (t : ArchiveEntryType) : asType (.str (typeText t)) = some t := by
  cases t <;> rfl

theorem asNullable_nullable (s : Option String) : asNullable (nullable s) = some s := by
  cases s <;> rfl

theorem parseBaselineRow_entryJson (e : ArchiveEntry) :
    parseBaselineRow (entryJson e) = some e := by
  obtain ⟨path, type, mode, size, sha256, target, broken, scrubbed⟩ := e
  cases target <;> cases broken <;> cases scrubbed <;>
    simp [parseBaselineRow, entryJson, Json.field, asString, asNumber, isTrue,
      asType_typeText, asNullable_nullable]

theorem isRow_entryJson (e : ArchiveEntry) : IsRow (entryJson e).chars := by
  obtain ⟨path, type, mode, size, sha256, target, broken, scrubbed⟩ := e
  constructor
  · cases target <;> cases broken <;> cases scrubbed <;> rfl
  · rw [entryJson, Json.chars, List.getLast?_cons, Json.fieldChars_getLast?]
    rfl

/-- Reading the baseline document of a capture gives its entries in manifest
form, the unstable ones without their hash. -/
theorem parseBaselineText_baselineText (entries : List ArchiveEntry)
    (unstable : List String) :
    parseBaselineText (some (baselineText entries unstable))
      = some (entries.map (baselineEntry unstable)) := by
  have hrows : jsonLineRows (baselineChunks entries unstable).flatten
      = entries.map fun e => entryJson (baselineEntry unstable e) := by
    rw [baselineChunks, jsonLineDocument_flatten, jsonLineRows_document (by decide)
      (by decide)]
    · rw [List.filterMap_map]
      refine List.filterMap_eq_map_iff_forall_eq_some.mpr fun e _ => ?_
      have h := Json.parseChars_chars (entryJson (baselineEntry unstable e)) [] rfl rfl
      rwa [List.append_nil] at h
    · intro row hrow
      obtain ⟨e, -, rfl⟩ := List.mem_map.mp hrow
      exact Json.newline_notMem_chars _
    · intro row hrow
      obtain ⟨e, -, rfl⟩ := List.mem_map.mp hrow
      exact (isRow_entryJson _).isLine
  have htext : (baselineText entries unstable).toList
      = (baselineChunks entries unstable).flatten := String.toList_ofList
  have hpre : "\x7b\"v\":1,".toList.isPrefixOf (baselineChunks entries unstable).flatten
      = true := by
    rw [baselineChunks, jsonLineDocument_flatten]
    rfl
  rw [parseBaselineText, htext, if_pos hpre, hrows]
  clear hrows htext hpre
  induction entries with
  | nil => rfl
  | cons e entries ih =>
      rw [List.map_cons, List.mapM_cons, parseBaselineRow_entryJson, ih]
      rfl

end OmniRush.Archive
