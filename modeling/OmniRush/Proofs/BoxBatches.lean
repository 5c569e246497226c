import OmniRush.Box.Tar

/-!
# The batches of a list of paths

The paths that fit into a line of their own go into the batches in their order, the others are left
out (`Batched`). What a batch was counted to take is what its line takes (`length_requestLine`), the
commas between the paths included.
-/

namespace OmniRush.Box

/-! ## The bytes of a line -/

/-- The bytes of a list of paths, with the commas between them. -/
def listBytes (paths : List String) : Nat := (paths.map jsonBytes).sum + (paths.length - 1)

theorem listBytes_concat (paths : List String) (path : String) :
    listBytes (paths ++ [path]) =
      listBytes paths + jsonBytes path + (if paths ≠ [] then 1 else 0) := by
  unfold listBytes
  rw [List.map_append, List.sum_append, List.length_append, List.map_singleton,
    List.sum_singleton, List.length_singleton]
  cases paths with
  | nil => rfl
  | cons head paths =>
      rw [if_pos (List.cons_ne_nil _ _), List.length_cons]
      omega

theorem length_itemChars (paths : List String) :
    ((Json.itemChars (paths.map .str)).flatMap String.utf8EncodeChar).length =
      1 + listBytes paths := by
  have hbracket : ([']'].flatMap String.utf8EncodeChar).length = 1 := by decide +kernel
  have hcomma : (String.utf8EncodeChar ',').length = 1 := by decide +kernel
  induction paths with
  | nil => exact hbracket
  | cons path paths ih =>
      cases paths with
      | nil =>
          rw [List.map_singleton, Json.itemChars, List.flatMap_append, List.length_append, hbracket,
            Nat.add_comm]
          rfl
      | cons next paths =>
          rw [List.map_cons, List.map_cons, Json.itemChars, List.flatMap_append, List.flatMap_cons,
            List.length_append, List.length_append, hcomma, ← List.map_cons, ih]
          unfold listBytes jsonBytes
          simp only [List.map_cons, List.sum_cons, List.length_cons]
          omega

theorem length_requestLine (token : String) (paths : List String) :
    (requestLine token (tarRequest paths)).length + 1 = lineOverhead token + listBytes paths := by
  have hitems := length_itemChars paths
  have hempty : ((Json.itemChars []).flatMap String.utf8EncodeChar).length = 1 :=
    length_itemChars []
  unfold lineOverhead requestLine
  simp only [BoxRequest.fields, tarRequest, optionalField, stringsJson, Option.map_some,
    Option.map_none, Option.toList, List.append_nil, List.cons_append, List.nil_append, Json.chars,
    Json.fieldChars, List.map_nil, List.flatMap_append, List.flatMap_cons, List.length_append,
    hitems, hempty]
  omega

/-! ## One path after the other -/

/-- A path that a request can carry. -/
def fits (budget overhead : Nat) (path : String) : Bool := overhead + jsonBytes path ≤ budget

/-- What the loop has done with some paths. -/
structure Batched (budget overhead : Nat) (paths : List String) (s : Batching) : Prop where
  kept : s.batches.flatten ++ s.current = paths.filter (fits budget overhead)
  skipped : s.skipped.map (·.path) = paths.filter fun path => !fits budget overhead path
  nonempty : ∀ batch ∈ s.batches, batch ≠ []
  short : ∀ batch ∈ s.batches, overhead + listBytes batch ≤ budget
  size : s.size = overhead + listBytes s.current
  current : s.current ≠ [] → s.size ≤ budget

variable {budget overhead : Nat} {paths : List String} {path : String} {s : Batching}

theorem filter_concat {p : String → Bool} : (paths ++ [path]).filter p =
    paths.filter p ++ if p path then [path] else [] := by
  rw [List.filter_append, List.filter_singleton]
  cases p path <;> rfl

theorem Batched.put (h : Batched budget overhead paths s) (hfits : fits budget overhead path = true)
    (hroom : s.current ≠ [] → s.size + jsonBytes path + 1 ≤ budget) :
    Batched budget overhead (paths ++ [path]) (s.put path) where
  kept := by
    rw [filter_concat, if_pos hfits, ← h.kept, List.append_assoc]
    rfl
  skipped := by
    rw [filter_concat, hfits, ← h.skipped]
    exact (List.append_nil _).symm
  nonempty := h.nonempty
  short := h.short
  size := by
    have hconcat := listBytes_concat s.current path
    have hsize := h.size
    show s.size + jsonBytes path + (if s.current ≠ [] then 1 else 0) =
      overhead + listBytes (s.current ++ [path])
    omega
  current := by
    intro _
    show s.size + jsonBytes path + (if s.current ≠ [] then 1 else 0) ≤ budget
    split
    · next hne => exact hroom hne
    · next hempty =>
        rw [not_not] at hempty
        have hsize := h.size
        rw [hempty] at hsize
        have hfits' := of_decide_eq_true hfits
        have hnil : listBytes [] = 0 := rfl
        omega

theorem Batched.cut (h : Batched budget overhead paths s) (hne : s.current ≠ []) :
    Batched budget overhead paths (s.cut overhead) where
  kept := by
    rw [← h.kept]
    simp [Batching.cut]
  skipped := h.skipped
  nonempty := by
    intro batch hbatch
    rcases List.mem_append.mp hbatch with hbatch | hbatch
    · exact h.nonempty batch hbatch
    · rwa [List.mem_singleton.mp hbatch]
  short := by
    intro batch hbatch
    rcases List.mem_append.mp hbatch with hbatch | hbatch
    · exact h.short batch hbatch
    · rw [List.mem_singleton.mp hbatch, ← h.size]
      exact h.current hne
  size := rfl
  current := fun hempty => absurd rfl hempty

theorem Batched.add (h : Batched budget overhead paths s) :
    Batched budget overhead (paths ++ [path]) (s.add budget overhead path) := by
  unfold Batching.add
  split
  · next hlong =>
      have hnot : fits budget overhead path = false := decide_eq_false (Nat.not_le.mpr hlong)
      refine ⟨?_, ?_, h.nonempty, h.short, h.size, h.current⟩
      · rw [filter_concat, hnot]
        exact h.kept.trans (List.append_nil _).symm
      · rw [filter_concat, hnot, ← h.skipped, List.map_append]
        rfl
  · next hlong =>
      have hfits : fits budget overhead path = true := decide_eq_true (Nat.not_lt.mp hlong)
      split
      · next hfull => exact (h.cut hfull.1).put hfits fun hempty => absurd rfl hempty
      · next hroom =>
          exact h.put hfits fun hne => Nat.not_lt.mp fun hover => hroom ⟨hne, hover⟩

theorem batched_all (rest : List String) (h : Batched budget overhead paths s) :
    Batched budget overhead (paths ++ rest) (rest.foldl (Batching.add budget overhead) s) := by
  induction rest generalizing paths s with
  | nil =>
      rw [List.append_nil]
      exact h
  | cons path rest ih =>
      rw [List.append_cons]
      exact ih h.add

/-- The batches in the end: the paths that fit, in their order, in batches that fit. -/
theorem batchPaths_kept (budget overhead : Nat) (paths : List String) :
    (batchPaths budget overhead paths).1.flatten = paths.filter (fits budget overhead) ∧
      (batchPaths budget overhead paths).2.map (·.path) =
        paths.filter (fun path => !fits budget overhead path) ∧
      ∀ batch ∈ (batchPaths budget overhead paths).1,
        batch ≠ [] ∧ overhead + listBytes batch ≤ budget := by
  have hstart : Batched budget overhead [] { size := overhead } :=
    ⟨rfl, rfl, fun _ h => (List.not_mem_nil h).elim, fun _ h => (List.not_mem_nil h).elim, rfl,
      fun hempty => absurd rfl hempty⟩
  have hall := batched_all paths hstart
  rw [List.nil_append] at hall
  unfold batchPaths
  generalize paths.foldl (Batching.add budget overhead) { size := overhead } = s at hall
  dsimp only
  refine ⟨?_, hall.skipped, ?_⟩
  · rw [← hall.kept]
    split
    · rw [List.flatten_append, List.flatten_singleton]
    · next hempty =>
        rw [not_not] at hempty
        rw [hempty, List.append_nil]
  · intro batch hbatch
    split at hbatch
    · next hne =>
        have hlast := (hall.cut hne).nonempty batch hbatch
        exact ⟨hlast, (hall.cut hne).short batch hbatch⟩
    · exact ⟨hall.nonempty batch hbatch, hall.short batch hbatch⟩

/-! ## In the order of their bytes -/

theorem byteSorted_perm (paths : List String) : (byteSorted paths).Perm paths :=
  List.perm_insertionSort _ paths

theorem byteSorted_sorted (paths : List String) :
    (byteSorted paths).Pairwise fun a b => pathBytes a ≤ pathBytes b := by
  have htotal : Std.Total fun a b : String => pathBytes a ≤ pathBytes b :=
    ⟨fun a b => le_total (pathBytes a) (pathBytes b)⟩
  have htrans : IsTrans String fun a b => pathBytes a ≤ pathBytes b :=
    ⟨fun _ _ _ h h' => le_trans h h'⟩
  exact List.pairwise_insertionSort _ paths

/-- Every path is once in a batch or among those that are left out, the batches keep the order of
the bytes and have lines within the budget, and only what no line can carry is left out. -/
theorem batches_complete (token : String) (budget : Nat) (paths : List String) :
    let batching := batchPaths budget (lineOverhead token) (byteSorted paths)
    (batching.1.flatten ++ batching.2.map (·.path)).Perm paths ∧
      batching.1.flatten.Pairwise (fun a b => pathBytes a ≤ pathBytes b) ∧
      (∀ batch ∈ batching.1, batch ≠ [] ∧
        (requestLine token (tarRequest batch)).length + 1 ≤ budget) ∧
      ∀ path ∈ batching.2.map (·.path),
        budget < (requestLine token (tarRequest [path])).length + 1 := by
  obtain ⟨hkept, hskipped, hbatches⟩ :=
    batchPaths_kept budget (lineOverhead token) (byteSorted paths)
  dsimp only
  refine ⟨?_, ?_, fun batch hbatch => ?_, fun path hpath => ?_⟩
  · rw [hkept, hskipped]
    exact (List.filter_append_perm _ _).trans (byteSorted_perm paths)
  · rw [hkept]
    exact (byteSorted_sorted paths).filter _
  · rw [length_requestLine]
    exact hbatches batch hbatch
  · rw [hskipped] at hpath
    have hnot := (List.mem_filter.mp hpath).2
    rw [Bool.not_eq_true', fits, decide_eq_false_iff_not, Nat.not_le] at hnot
    rw [length_requestLine]
    simpa [listBytes] using hnot

end OmniRush.Box
