import Mathlib.Algebra.Order.Ring.Int
import Mathlib.Data.List.Nodup

/-!
# Records

A record keeps a value for each of its names, in the order in which the names were first
set. Setting a name again changes its value in place. Code that fills a record in a loop is
`setAll` over what the loop sets.
-/

namespace OmniRush

/-- Entries of which no two have the same name. -/
structure Record (V : Type) where
  entries : List (String × V)
  distinct : (entries.map Prod.fst).Nodup

namespace Record

variable {V : Type}

def empty : Record V := ⟨[], .nil⟩

def names (r : Record V) : List String := r.entries.map Prod.fst

def get (r : Record V) (name : String) : Option V :=
  (r.entries.find? (·.1 = name)).map Prod.snd

/-! ## Setting a name -/

def setIn (name : String) (value : V) : List (String × V) → List (String × V)
  | [] => [(name, value)]
  | (n, v) :: rest => if n = name then (name, value) :: rest else (n, v) :: setIn name value rest

theorem mem_names_setIn {name n : String} {value : V} {entries : List (String × V)} :
    n ∈ (setIn name value entries).map Prod.fst ↔ n = name ∨ n ∈ entries.map Prod.fst := by
  induction entries with
  | nil => simp [setIn]
  | cons entry entries ih =>
      obtain ⟨m, v⟩ := entry
      unfold setIn
      split
      · next h => simp [h]
      · simp only [List.map_cons, List.mem_cons, ih]
        exact or_left_comm

theorem distinct_setIn {name : String} {value : V} {entries : List (String × V)}
    (h : (entries.map Prod.fst).Nodup) : ((setIn name value entries).map Prod.fst).Nodup := by
  induction entries with
  | nil => simp [setIn]
  | cons entry entries ih =>
      obtain ⟨m, v⟩ := entry
      rw [List.map_cons, List.nodup_cons] at h
      unfold setIn
      split
      · next hm => exact List.nodup_cons.mpr ⟨hm ▸ h.1, h.2⟩
      · next hm =>
          refine List.nodup_cons.mpr ⟨fun hmem => ?_, ih h.2⟩
          rcases mem_names_setIn.mp hmem with heq | hold
          · exact hm heq
          · exact h.1 hold

def set (r : Record V) (name : String) (value : V) : Record V :=
  ⟨setIn name value r.entries, distinct_setIn r.distinct⟩

def setAll (r : Record V) (entries : List (String × V)) : Record V :=
  entries.foldl (fun r entry => r.set entry.1 entry.2) r

def delete (r : Record V) (name : String) : Record V :=
  ⟨r.entries.filter fun entry => entry.1 ≠ name, r.distinct.sublist ((List.filter_sublist ..).map _)⟩

/-! ## What is in a record -/

theorem mem_names {r : Record V} {name : String} {value : V} (h : (name, value) ∈ r.entries) :
    name ∈ r.names := List.mem_map.mpr ⟨_, h, rfl⟩

theorem exists_of_mem_names {r : Record V} {name : String} (h : name ∈ r.names) :
    ∃ value, (name, value) ∈ r.entries := by
  obtain ⟨⟨n, value⟩, hmem, rfl⟩ := List.mem_map.mp h
  exact ⟨value, hmem⟩

theorem value_unique {r : Record V} {name : String} {v w : V} (h : (name, v) ∈ r.entries)
    (h' : (name, w) ∈ r.entries) : v = w :=
  congrArg Prod.snd (List.inj_on_of_nodup_map r.distinct h h' rfl)

theorem get_eq_some {r : Record V} {name : String} {value : V} :
    r.get name = some value ↔ (name, value) ∈ r.entries := by
  unfold get
  constructor
  · intro h
    obtain ⟨⟨n, v⟩, hfind, rfl⟩ := Option.map_eq_some_iff.mp h
    have hname : n = name := by simpa using List.find?_some hfind
    exact hname ▸ List.mem_of_find?_eq_some hfind
  · intro h
    have hsome : (r.entries.find? (·.1 = name)).isSome :=
      List.find?_isSome.mpr ⟨_, h, by simp⟩
    obtain ⟨⟨n, v⟩, hfind⟩ := Option.isSome_iff_exists.mp hsome
    have hname : n = name := by simpa using List.find?_some hfind
    subst hname
    rw [hfind, Option.map_some, value_unique (List.mem_of_find?_eq_some hfind) h]

theorem mem_set {r : Record V} {name n : String} {value v : V} :
    (n, v) ∈ (r.set name value).entries ↔
      (n = name ∧ v = value) ∨ (n ≠ name ∧ (n, v) ∈ r.entries) := by
  obtain ⟨entries, hdistinct⟩ := r
  change (n, v) ∈ setIn name value entries ↔ _ ∨ (n ≠ name ∧ (n, v) ∈ entries)
  induction entries with
  | nil =>
      simp only [setIn, List.mem_singleton, Prod.mk.injEq, List.not_mem_nil, and_false, or_false]
  | cons entry entries ih =>
      obtain ⟨m, w⟩ := entry
      rw [List.map_cons, List.nodup_cons] at hdistinct
      unfold setIn
      split
      · next hm =>
          subst hm
          have hnone : (n, v) ∈ entries → n ≠ m := by
            rintro hmem rfl
            exact hdistinct.1 (List.mem_map.mpr ⟨_, hmem, rfl⟩)
          simp only [List.mem_cons, Prod.mk.injEq]
          grind
      · next hm =>
          simp only [List.mem_cons, Prod.mk.injEq, ih hdistinct.2]
          grind

theorem get_set (r : Record V) (name : String) (value : V) (n : String) :
    (r.set name value).get n = if n = name then some value else r.get n := by
  refine Option.ext fun v => ?_
  rw [get_eq_some, mem_set]
  split
  · next h => simp [h, eq_comm]
  · next h => simp [h, get_eq_some]

theorem get_delete (r : Record V) (name n : String) :
    (r.delete name).get n = if n = name then none else r.get n := by
  refine Option.ext fun v => ?_
  have hmem : (n, v) ∈ (r.delete name).entries ↔ (n, v) ∈ r.entries ∧ n ≠ name := by
    simp [delete]
  rw [get_eq_some, hmem]
  split
  · next h => simp [h]
  · next h => simp [h, get_eq_some]

theorem set_set (r : Record V) (name : String) (v w : V) :
    (r.set name v).set name w = r.set name w := by
  obtain ⟨entries, hdistinct⟩ := r
  simp only [set, mk.injEq]
  clear hdistinct
  induction entries with
  | nil => simp [setIn]
  | cons entry entries ih =>
      obtain ⟨m, u⟩ := entry
      by_cases hm : m = name
      · simp [setIn, hm]
      · simp [setIn, hm, ih]

theorem get_empty (n : String) : (empty : Record V).get n = none := rfl

/-- Entries with different names are all set, and what they do not name stays. -/
theorem mem_setAll {r : Record V} {entries : List (String × V)}
    (h : (entries.map Prod.fst).Nodup) {n : String} {v : V} :
    (n, v) ∈ (r.setAll entries).entries ↔
      (n, v) ∈ entries ∨ (n ∉ entries.map Prod.fst ∧ (n, v) ∈ r.entries) := by
  induction entries generalizing r with
  | nil => simp [setAll]
  | cons entry entries ih =>
      obtain ⟨m, w⟩ := entry
      rw [List.map_cons, List.nodup_cons] at h
      have hrest : (n, v) ∈ entries → n ≠ m := by
        rintro hmem rfl
        exact h.1 (List.mem_map.mpr ⟨_, hmem, rfl⟩)
      have hstep : r.setAll ((m, w) :: entries) = (r.set m w).setAll entries := rfl
      rw [hstep, ih h.2, mem_set]
      simp only [List.mem_cons, Prod.mk.injEq, List.map_cons]
      grind

/-! ## Totals -/

/-- The sum of a measure of the values. -/
def total (f : V → Nat) (r : Record V) : Nat := (r.entries.map fun entry => f entry.2).sum

section

variable {f : V → Nat} {r : Record V} {name : String} {value : V}

theorem sum_setIn_new {entries : List (String × V)} (h : name ∉ entries.map Prod.fst) :
    ((setIn name value entries).map fun entry => f entry.2).sum =
      (entries.map fun entry => f entry.2).sum + f value := by
  induction entries with
  | nil => simp [setIn]
  | cons entry entries ih =>
      obtain ⟨n, v⟩ := entry
      rw [List.map_cons, List.mem_cons, not_or] at h
      rw [setIn, if_neg fun heq => h.1 heq.symm]
      simp only [List.map_cons, List.sum_cons, ih h.2]
      omega

theorem not_mem_names (h : r.get name = none) : name ∉ r.entries.map Prod.fst := by
  intro hin
  obtain ⟨value, hvalue⟩ := exists_of_mem_names hin
  rw [get_eq_some.mpr hvalue] at h
  cases h

theorem total_set_new (h : r.get name = none) :
    (r.set name value).total f = r.total f + f value := sum_setIn_new (not_mem_names h)

theorem sum_filter_name {entries : List (String × V)} (hdistinct : (entries.map Prod.fst).Nodup)
    (h : (name, value) ∈ entries) :
    ((entries.filter fun entry => entry.1 ≠ name).map fun entry => f entry.2).sum + f value =
      (entries.map fun entry => f entry.2).sum := by
  induction entries with
  | nil => cases h
  | cons entry entries ih =>
      obtain ⟨n, v⟩ := entry
      rw [List.map_cons, List.nodup_cons] at hdistinct
      rcases List.mem_cons.mp h with heq | hrest
      · cases heq
        have hall : entries.filter (fun entry => entry.1 ≠ name) = entries := by
          rw [List.filter_eq_self]
          intro entry hentry
          have hne : entry.1 ≠ name := fun heq =>
            hdistinct.1 (List.mem_map.mpr ⟨entry, hentry, heq⟩)
          simpa using hne
        rw [List.filter_cons_of_neg (by simp), hall, List.map_cons, List.sum_cons]
        exact Nat.add_comm ..
      · have hne : n ≠ name := fun heq =>
          hdistinct.1 (List.mem_map.mpr ⟨_, hrest, heq.symm⟩)
        rw [List.filter_cons_of_pos (by simpa using hne)]
        simp only [List.map_cons, List.sum_cons]
        have hsum := ih hdistinct.2 hrest
        omega

theorem total_delete (h : r.get name = some value) :
    (r.delete name).total f + f value = r.total f :=
  sum_filter_name r.distinct (get_eq_some.mp h)

theorem total_move (h : r.get name = some value) :
    ((r.delete name).set name value).total f = r.total f := by
  rw [total_set_new (by rw [get_delete, if_pos rfl]), total_delete h]

end

/-! ## The number of names -/

section

variable {r : Record V} {name : String} {value : V}

theorem length_setIn {entries : List (String × V)} :
    (setIn name value entries).length =
      if name ∈ entries.map Prod.fst then entries.length else entries.length + 1 := by
  induction entries with
  | nil => simp [setIn]
  | cons entry entries ih =>
      obtain ⟨n, v⟩ := entry
      rw [setIn]
      by_cases hn : n = name
      · simp [hn]
      · have hmem : name ∈ ((n, v) :: entries).map Prod.fst ↔ name ∈ entries.map Prod.fst := by
          rw [List.map_cons, List.mem_cons, or_iff_right fun heq => hn heq.symm]
        rw [if_neg hn, List.length_cons, ih, List.length_cons, if_congr hmem rfl rfl]
        split <;> rfl

theorem get_isNone : (r.get name).isNone ↔ name ∉ r.names := by
  rw [Option.isNone_iff_eq_none]
  refine ⟨fun h => not_mem_names h, fun h => ?_⟩
  by_contra hsome
  obtain ⟨v, hv⟩ := Option.ne_none_iff_exists'.mp hsome
  exact h (mem_names (get_eq_some.mp hv))

theorem length_set : (r.set name value).entries.length =
    if (r.get name).isNone then r.entries.length + 1 else r.entries.length := by
  have hlength : (r.set name value).entries.length =
      if name ∈ r.names then r.entries.length else r.entries.length + 1 := length_setIn
  rw [hlength]
  by_cases hmem : name ∈ r.names
  · rw [if_pos hmem, if_neg fun h => get_isNone.mp h hmem]
  · rw [if_neg hmem, if_pos (get_isNone.mpr hmem)]

theorem length_delete (h : (r.get name).isSome) :
    (r.delete name).entries.length + 1 = r.entries.length := by
  obtain ⟨v, hv⟩ := Option.isSome_iff_exists.mp h
  have htotal : (r.delete name).total (fun _ => 1) + 1 = r.total fun _ => 1 := total_delete hv
  simpa [total] using htotal

theorem delete_none (h : r.get name = none) : (r.delete name).entries = r.entries := by
  refine List.filter_eq_self.mpr fun entry hentry => ?_
  have hne : entry.1 ≠ name := by
    rintro rfl
    exact not_mem_names h (mem_names hentry)
  simpa using hne

theorem get_deleteAll {names : List String} (r : Record V) (name : String) :
    (names.foldl delete r).get name = if name ∈ names then none else r.get name := by
  induction names generalizing r with
  | nil => simp
  | cons n names ih =>
      rw [List.foldl_cons, ih, get_delete]
      by_cases hn : name = n <;> simp [hn]

theorem names_deleteAll {names : List String} (r : Record V) :
    (names.foldl delete r).names = r.names.filter (· ∉ names) := by
  induction names generalizing r with
  | nil => simp
  | cons n names ih =>
      have hdelete : (r.delete n).names = r.names.filter (· ≠ n) := by
        unfold Record.names delete
        rw [List.filter_map]
        rfl
      rw [List.foldl_cons, ih, hdelete, List.filter_filter]
      refine List.filter_congr fun name _ => ?_
      simp [Bool.and_comm]

end

/-! ## A copy -/

theorem setIn_new {name : String} {value : V} {entries : List (String × V)}
    (h : name ∉ entries.map Prod.fst) : setIn name value entries = entries ++ [(name, value)] := by
  induction entries with
  | nil => rfl
  | cons entry entries ih =>
      obtain ⟨m, v⟩ := entry
      simp only [List.map_cons, List.mem_cons, not_or] at h
      rw [setIn, if_neg fun hm => h.1 hm.symm, ih h.2]
      rfl

theorem entries_setAll_new {r : Record V} {entries : List (String × V)}
    (h : (r.names ++ entries.map Prod.fst).Nodup) :
    (r.setAll entries).entries = r.entries ++ entries := by
  induction entries generalizing r with
  | nil => exact (List.append_nil _).symm
  | cons entry entries ih =>
      obtain ⟨m, v⟩ := entry
      have hnew : m ∉ r.entries.map Prod.fst := by
        rw [List.map_cons] at h
        intro hm
        exact (List.disjoint_of_nodup_append h) hm List.mem_cons_self
      have hset : (r.set m v).entries = r.entries ++ [(m, v)] := setIn_new hnew
      have hstep : r.setAll ((m, v) :: entries) = (r.set m v).setAll entries := rfl
      have hnames : (r.set m v).names = r.names ++ [m] := by
        rw [names, hset, List.map_append]
        rfl
      rw [hstep, ih (by rw [hnames, List.append_assoc]; exact h), hset, List.append_assoc]
      rfl

theorem setAll_entries (r : Record V) : Record.empty.setAll r.entries = r := by
  have h : (Record.empty.setAll r.entries).entries = r.entries := entries_setAll_new r.distinct
  cases hcopy : Record.empty.setAll r.entries with
  | mk entries distinct =>
      rw [hcopy] at h
      cases h
      rfl

end Record

theorem names_filterMap {V W : Type} {entries : List (String × V)}
    {f : String × V → Option (String × W)} (h : ∀ e e', f e = some e' → e'.1 = e.1) :
    ((entries.filterMap f).map Prod.fst).Sublist (entries.map Prod.fst) := by
  induction entries with
  | nil => exact .slnil
  | cons entry entries ih =>
      rw [List.filterMap_cons]
      cases hf : f entry with
      | none => exact ih.cons _
      | some e =>
          rw [List.map_cons, List.map_cons, h entry e hf]
          exact ih.cons_cons _

end OmniRush
