import OmniRush.Mcp.Environment

/-!
# What reaches a local MCP server

The two modes give a server the same variables, and no name the app keeps from every server,
as long as the names are spelled alike. On Windows they need not be. An own variable whose
name is kept from every server is left out, and the engine's variable of that name is emptied
only where `engineEnv[key]` finds it. And a rule may keep a name that is no protected name as
it stands, but is one in upper case.
-/

namespace OmniRush.Mcp

variable {p : Platform}

/-- What a server may see, whichever way the engine starts it. -/
structure Guarded (engine : Engine p) (own : Record String) (keep : List String) : Prop where
  never : ∀ envOnly name value, (name, value) ∈ serverVariables engine own keep envOnly →
    mcpEnvNever name = true → value = ""
  named : ∀ envOnly name value, (name, value) ∈ serverVariables engine own keep envOnly →
    value ≠ "" → allowedName p name = true ∨ p.norm name ∈ keptNames p keep ∨
      p.norm name ∈ ownNames p own
  /-- Own values are there, and nothing else under their names. -/
  wins : ∀ envOnly name value,
    ((name, value) ∈ own.entries → mcpEnvNever name = false →
      (name, value) ∈ serverVariables engine own keep envOnly) ∧
    ((name, value) ∈ serverVariables engine own keep envOnly → value ≠ "" →
      p.norm name ∈ ownNames p own → (name, value) ∈ own.entries)
  same : ∀ name value, value ≠ "" →
    ((name, value) ∈ serverVariables engine own keep true ↔
      (name, value) ∈ serverVariables engine own keep false)

/-- The engine's variable gives way to an own variable of that name: to one that is
passed, or to one that is left out but for which `engineEnv[key]` finds it. -/
def GivesWay (engine : Engine p) (own : Record String) (name : String) : Prop :=
  ∃ key ∈ own.names, p.norm key = p.norm name ∧
    (mcpEnvNever key = false ∨ p.spelling key = p.spelling name ∧ engine.basic name = false)

/-- How the names have to be spelled. -/
structure Spelled (engine : Engine p) (own : Record String) (keep : List String) : Prop where
  gives : ∀ name value, (name, value) ∈ engine.set → p.norm name ∈ ownNames p own →
    GivesWay engine own name
  kept : ∀ name value, (name, value) ∈ engine.set → mcpEnvNever name = true →
    p.norm name ∉ ownNames p own → p.norm name ∉ keptNames p keep

/-! ## Names -/

theorem Platform.norm_of_spelling {a b : String} (h : p.spelling a = p.spelling b) :
    p.norm a = p.norm b := by
  unfold Platform.norm
  rcases p.spelling_one a b h with rfl | ⟨hwin, hupper⟩
  · rfl
  · rw [hwin, if_pos rfl, if_pos rfl, hupper]

theorem mem_variables {engine : Engine p} {name value : String} :
    (name, value) ∈ engine.variables ↔ (name, some value) ∈ engine.env.entries := by
  unfold Engine.variables
  rw [List.mem_filterMap]
  constructor
  · rintro ⟨⟨n, v⟩, hmem, hsome⟩
    obtain ⟨w, rfl, heq⟩ := Option.map_eq_some_iff.mp hsome
    cases heq
    exact hmem
  · intro h
    exact ⟨_, h, rfl⟩

theorem mem_set {engine : Engine p} {name value : String} :
    (name, value) ∈ engine.set ↔ (name, value) ∈ engine.variables ∧ value ≠ "" := by
  unfold Engine.set
  simp [List.mem_filter]

theorem Engine.one {engine : Engine p} {a b v w : String} (ha : (a, v) ∈ engine.variables)
    (hb : (b, w) ∈ engine.variables) (h : p.norm a = p.norm b) : a = b ∧ v = w := by
  have ha' := mem_variables.mp ha
  have hb' := mem_variables.mp hb
  have hab : a = b :=
    List.inj_on_of_nodup_map engine.distinct (Record.mem_names ha') (Record.mem_names hb') h
  subst hab
  exact ⟨rfl, Option.some.inj (Record.value_unique ha' hb')⟩

theorem names_nodup (engine : Engine p) : (engine.variables.map Prod.fst).Nodup := by
  refine (names_filterMap fun e e' h => ?_).nodup engine.env.distinct
  obtain ⟨value, -, rfl⟩ := Option.map_eq_some_iff.mp h
  rfl

theorem mem_ownNames {own : Record String} {name : String} :
    name ∈ ownNames p own ↔ ∃ key ∈ own.names, p.norm key = name := List.mem_map

/-- A name that is left out is emptied where `engineEnv[key]` finds a variable. -/
theorem lookup_spelling {engine : Engine p} {key : String} :
    (engine.lookup key).any (· ≠ "") = true ↔
      ∃ name value, (name, value) ∈ engine.set ∧ p.spelling name = p.spelling key := by
  unfold Engine.lookup
  constructor
  · intro h
    obtain ⟨value, hvalue, hne⟩ := Option.any_eq_true .. |>.mp h
    obtain ⟨⟨name, v⟩, hfind, rfl⟩ := Option.bind_eq_some_iff.mp hvalue
    have hspelling := List.find?_some hfind
    exact ⟨name, value, mem_set.mpr ⟨mem_variables.mpr (List.mem_of_find?_eq_some hfind),
      of_decide_eq_true hne⟩, of_decide_eq_true hspelling⟩
  · rintro ⟨name, value, hmem, hspelling⟩
    obtain ⟨hvar, hne⟩ := mem_set.mp hmem
    have hentry := mem_variables.mp hvar
    have hsome : (engine.env.entries.find? fun entry =>
        p.spelling entry.1 = p.spelling key).isSome :=
      List.find?_isSome.mpr ⟨_, hentry, decide_eq_true hspelling⟩
    obtain ⟨⟨n, v⟩, hfind⟩ := Option.isSome_iff_exists.mp hsome
    have hn : p.spelling n = p.spelling key := by simpa using List.find?_some hfind
    have hmemn := List.mem_of_find?_eq_some hfind
    have hname : n = name :=
      List.inj_on_of_nodup_map engine.distinct (Record.mem_names hmemn) (Record.mem_names hentry)
        (Platform.norm_of_spelling (hn.trans hspelling.symm))
    subst hname
    rw [hfind, Record.value_unique hmemn hentry]
    simp [hne]

/-! ## The two environments -/

theorem notMem_own {own : Record String} {name : String} (h : p.norm name ∉ ownNames p own) :
    name ∉ own.names := fun hmem => h (mem_ownNames.mpr ⟨name, hmem, rfl⟩)

theorem set_nodup (engine : Engine p) : (engine.set.map Prod.fst).Nodup :=
  ((List.filter_sublist).map Prod.fst).nodup (names_nodup engine)

theorem mem_envOnlyEnvironment {engine : Engine p} {own : Record String} {keep : List String}
    {name value : String} :
    (name, value) ∈ (envOnlyEnvironment engine own keep).entries ↔
      ((name, value) ∈ engine.set ∧ p.norm name ∉ ownNames p own ∧
        passedName p keep name = true) ∨
      ((name, value) ∈ own.entries ∧ mcpEnvNever name = false) := by
  unfold envOnlyEnvironment
  rw [Record.mem_setAll (((List.filter_sublist).map Prod.fst).nodup own.distinct),
    Record.mem_setAll (((List.filter_sublist).map Prod.fst).nodup (set_nodup engine))]
  have hnone : p.norm name ∉ ownNames p own →
      name ∉ (own.entries.filter fun entry => !mcpEnvNever entry.1).map Prod.fst :=
    fun hn hmem => notMem_own hn (((List.filter_sublist).map Prod.fst).subset hmem)
  simp only [List.mem_filter, Bool.and_eq_true, Bool.not_eq_true', List.contains_eq_mem,
    decide_eq_false_iff_not, Record.empty, List.not_mem_nil, and_false, or_false]
  constructor
  · rintro (h | ⟨-, h⟩)
    · exact .inr h
    · exact .inl h
  · rintro (h | h)
    · exact .inr ⟨hnone h.2.1, h⟩
    · exact .inl h

theorem ownOrEmpty_name {engine : Engine p} {entry entry' : String × String}
    (h : ownOrEmpty engine entry = some entry') : entry'.1 = entry.1 := by
  unfold ownOrEmpty at h
  split at h
  · rw [Option.some.inj h]
  · split at h
    · rw [← Option.some.inj h]
    · cases h

theorem mem_ownOrEmpty {engine : Engine p} {own : Record String} {name value : String} :
    (name, value) ∈ own.entries.filterMap (ownOrEmpty engine) ↔
      ((name, value) ∈ own.entries ∧ mcpEnvNever name = false) ∨
      (value = "" ∧ name ∈ own.names ∧ mcpEnvNever name = true ∧
        (engine.lookup name).any (· ≠ "") = true) := by
  rw [List.mem_filterMap]
  constructor
  · rintro ⟨⟨n, v⟩, hmem, hentry⟩
    have hn : name = n := ownOrEmpty_name hentry
    subst hn
    unfold ownOrEmpty at hentry
    split at hentry
    · next hnever =>
        cases hentry
        exact .inl ⟨hmem, by simpa using hnever⟩
    · next hnever =>
        split at hentry
        · next hfound =>
            cases hentry
            exact .inr ⟨rfl, Record.mem_names hmem, by simpa using hnever, hfound⟩
        · cases hentry
  · rintro (⟨hmem, hnever⟩ | ⟨rfl, hname, hnever, hfound⟩)
    · exact ⟨_, hmem, if_pos (by rw [hnever]; rfl)⟩
    · obtain ⟨v, hmem⟩ := Record.exists_of_mem_names hname
      refine ⟨_, hmem, ?_⟩
      unfold ownOrEmpty
      dsimp only
      rw [if_neg (by rw [hnever]; decide), if_pos hfound]

theorem mem_blankedEnvironment {engine : Engine p} {own : Record String} {keep : List String}
    {name value : String} :
    (name, value) ∈ (blankedEnvironment engine own keep).entries ↔
      (value = "" ∧ name ∈ engine.set.map Prod.fst ∧ p.norm name ∉ ownNames p own ∧
        passedName p keep name = false) ∨
      ((name, value) ∈ own.entries ∧ mcpEnvNever name = false) ∨
      (value = "" ∧ name ∈ own.names ∧ mcpEnvNever name = true ∧
        (engine.lookup name).any (· ≠ "") = true) := by
  have hown : List.Sublist ((own.entries.filterMap (ownOrEmpty engine)).map Prod.fst) own.names :=
    names_filterMap fun _ _ => ownOrEmpty_name
  have hset : ∀ entry entry' : String × String,
      (if (ownNames p own).contains (p.norm entry.1) then none
        else if passedName p keep entry.1 then none
        else some (entry.1, "")) = some entry' → entry'.1 = entry.1 := by
    intro entry entry' h
    split at h
    · cases h
    · split at h
      · cases h
      · rw [← Option.some.inj h]
  unfold blankedEnvironment
  rw [Record.mem_setAll (hown.nodup own.distinct),
    Record.mem_setAll ((names_filterMap hset).nodup (set_nodup engine)), mem_ownOrEmpty]
  have hfirst : (name, value) ∈ (engine.set.filterMap fun entry =>
      if (ownNames p own).contains (p.norm entry.1) then none
      else if passedName p keep entry.1 then none
      else some (entry.1, "")) ↔
      value = "" ∧ name ∈ engine.set.map Prod.fst ∧ p.norm name ∉ ownNames p own ∧
        passedName p keep name = false := by
    rw [List.mem_filterMap]
    constructor
    · rintro ⟨⟨n, v⟩, hmem, h⟩
      have hn : name = n := hset _ _ h
      subst hn
      simp only [List.contains_eq_mem, decide_eq_true_eq] at h
      split at h
      · cases h
      · next hnone =>
          split at h
          · cases h
          · next hpassed =>
              cases h
              exact ⟨rfl, List.mem_map.mpr ⟨_, hmem, rfl⟩, hnone, by simpa using hpassed⟩
    · rintro ⟨rfl, hmem, hnone, hpassed⟩
      obtain ⟨⟨n, v⟩, hentry, rfl⟩ := List.mem_map.mp hmem
      refine ⟨_, hentry, ?_⟩
      simp [hnone, hpassed]
  rw [hfirst]
  simp only [Record.empty, List.not_mem_nil, and_false, or_false]
  constructor
  · rintro (h | ⟨-, h⟩)
    · exact .inr h
    · exact .inl h
  · rintro (h | h)
    · exact .inr ⟨fun hmem => notMem_own h.2.2.1 (hown.subset hmem), h⟩
    · exact .inl h

/-! ## What is not empty -/

theorem mem_overlay {base top : List (String × String)} {name value : String} :
    (name, value) ∈ overlay p base top ↔
      ((name, value) ∈ base ∧ ∀ n v, (n, v) ∈ top → p.norm n ≠ p.norm name) ∨
      (name, value) ∈ top := by
  unfold overlay
  simp only [List.mem_append, List.mem_filter, Bool.not_eq_true', List.contains_eq_mem,
    decide_eq_false_iff_not, List.mem_map, Prod.exists, not_exists, not_and, ne_eq]

/-- A variable of the engine that a server is given as it is. -/
def Passed (engine : Engine p) (own : Record String) (keep : List String)
    (name value : String) : Prop :=
  (name, value) ∈ engine.set ∧ p.norm name ∉ ownNames p own ∧ passedName p keep name = true

/-- A variable of the engine that stays under an own name. -/
structure Leftover (engine : Engine p) (own : Record String) (envOnly : Bool)
    (name : String) : Prop where
  named : p.norm name ∈ ownNames p own
  never : ∀ key ∈ own.names, p.norm key = p.norm name → mcpEnvNever key = true
  basic : envOnly = true → engine.basic name = true
  spelling : envOnly = false → ∀ key ∈ own.names, p.norm key = p.norm name →
    p.spelling key ≠ p.spelling name

theorem mem_environment_of_own {engine : Engine p} {own : Record String} {keep : List String}
    {name value : String} (h : (name, value) ∈ own.entries) (hnever : mcpEnvNever name = false)
    (envOnly : Bool) : (name, value) ∈ (mcpServerEnvironment engine own keep envOnly).entries := by
  unfold mcpServerEnvironment
  split
  · exact mem_envOnlyEnvironment.mpr (.inr ⟨h, hnever⟩)
  · exact mem_blankedEnvironment.mpr (.inr (.inl ⟨h, hnever⟩))

theorem passed_of_basic {name : String} {keep : List String} {engine : Engine p}
    (h : engine.basic name = true) : passedName p keep name = true := by
  unfold passedName
  rw [engine.basic_allowed name h, Bool.true_or]

/-- What a server sees that is not empty: what is passed to it, its own, and what an own name
failed to replace. -/
theorem mem_serverVariables {engine : Engine p} {own : Record String} {keep : List String}
    {envOnly : Bool} {name value : String} (hne : value ≠ "") :
    (name, value) ∈ serverVariables engine own keep envOnly ↔
      Passed engine own keep name value ∨
      ((name, value) ∈ own.entries ∧ mcpEnvNever name = false) ∨
      ((name, value) ∈ engine.set ∧ Leftover engine own envOnly name) := by
  unfold serverVariables
  rw [mem_overlay]
  cases envOnly with
  | true =>
      unfold mcpServerEnvironment
      simp only [if_true, List.mem_filter, mem_envOnlyEnvironment]
      constructor
      · rintro (⟨⟨hmem, hbasic⟩, hover⟩ | hpassed | hown)
        · have hset := mem_set.mpr ⟨hmem, hne⟩
          by_cases hnamed : p.norm name ∈ ownNames p own
          · refine .inr (.inr ⟨hset, hnamed, ?_, fun _ => hbasic, nofun⟩)
            intro key hkey hnorm
            obtain ⟨v, hv⟩ := Record.exists_of_mem_names hkey
            by_contra hnever
            exact hover key v (.inr ⟨hv, by simpa using hnever⟩) hnorm
          · exact .inl ⟨hset, hnamed, passed_of_basic hbasic⟩
        · exact .inl hpassed
        · exact .inr (.inl hown)
      · rintro (hpassed | hown | ⟨hset, hleft⟩)
        · exact .inr (.inl hpassed)
        · exact .inr (.inr hown)
        · refine .inl ⟨⟨(mem_set.mp hset).1, hleft.basic rfl⟩, ?_⟩
          rintro n v (⟨-, hnone, -⟩ | ⟨hv, hnever⟩) hnorm
          · exact hnone (hnorm ▸ hleft.named)
          · rw [hleft.never n (Record.mem_names hv) hnorm] at hnever
            cases hnever
  | false =>
      unfold mcpServerEnvironment
      simp only [Bool.false_eq_true, if_false, mem_blankedEnvironment]
      constructor
      · rintro (⟨hmem, hover⟩ | ⟨rfl, -⟩ | hown | ⟨rfl, -⟩)
        · have hset := mem_set.mpr ⟨hmem, hne⟩
          by_cases hnamed : p.norm name ∈ ownNames p own
          · have hnever : ∀ key ∈ own.names, p.norm key = p.norm name →
                mcpEnvNever key = true := by
              intro key hkey hnorm
              obtain ⟨v, hv⟩ := Record.exists_of_mem_names hkey
              by_contra hnever
              exact hover key v (.inr (.inl ⟨hv, by simpa using hnever⟩)) hnorm
            refine .inr (.inr ⟨hset, hnamed, hnever, nofun, ?_⟩)
            intro _ key hkey hnorm hspelling
            refine hover key "" (.inr (.inr ⟨rfl, hkey, hnever key hkey hnorm, ?_⟩)) hnorm
            exact lookup_spelling.mpr ⟨name, value, hset, hspelling.symm⟩
          · refine .inl ⟨hset, hnamed, ?_⟩
            by_contra hpassed
            exact hover name "" (.inl ⟨rfl, List.mem_map.mpr ⟨_, hset, rfl⟩, hnamed,
              by simpa using hpassed⟩) rfl
        · exact absurd rfl hne
        · exact .inr (.inl hown)
        · exact absurd rfl hne
      · rintro (⟨hset, hnone, hpassed⟩ | hown | ⟨hset, hleft⟩)
        · refine .inl ⟨(mem_set.mp hset).1, ?_⟩
          rintro n v (⟨-, hn, -, hblank⟩ | ⟨hv, -⟩ | ⟨-, hn, -⟩) hnorm
          · obtain ⟨⟨m, w⟩, hm, rfl⟩ := List.mem_map.mp hn
            obtain ⟨rfl, -⟩ := Engine.one (mem_set.mp hm).1 (mem_set.mp hset).1 hnorm
            rw [hpassed] at hblank
            cases hblank
          · exact hnone (mem_ownNames.mpr ⟨n, Record.mem_names hv, hnorm⟩)
          · exact hnone (mem_ownNames.mpr ⟨n, hn, hnorm⟩)
        · exact .inr (.inr (.inl hown))
        · refine .inl ⟨(mem_set.mp hset).1, ?_⟩
          rintro n v (⟨-, -, hnone, -⟩ | ⟨hv, hnever⟩ | ⟨-, hn, -, hfound⟩) hnorm
          · exact hnone (hnorm ▸ hleft.named)
          · rw [hleft.never n (Record.mem_names hv) hnorm] at hnever
            cases hnever
          · obtain ⟨m, w, hm, hspelling⟩ := lookup_spelling.mp hfound
            obtain ⟨rfl, -⟩ := Engine.one (mem_set.mp hm).1 (mem_set.mp hset).1
              ((Platform.norm_of_spelling hspelling).trans hnorm)
            exact hleft.spelling rfl n hn hnorm hspelling.symm

/-! ## The condition -/

theorem givesWay_iff {engine : Engine p} {own : Record String} {name : String}
    (hnamed : p.norm name ∈ ownNames p own) :
    GivesWay engine own name ↔ ∀ envOnly, ¬ Leftover engine own envOnly name := by
  constructor
  · rintro ⟨key, hkey, hnorm, hway⟩ envOnly hleft
    rcases hway with hnever | ⟨hspelling, hbasic⟩
    · rw [hleft.never key hkey hnorm] at hnever
      cases hnever
    · cases envOnly with
      | true =>
          rw [hleft.basic rfl] at hbasic
          cases hbasic
      | false => exact hleft.spelling rfl key hkey hnorm hspelling
  · intro h
    by_contra hnone
    have hway : ∀ key ∈ own.names, p.norm key = p.norm name → mcpEnvNever key = true ∧
        (p.spelling key = p.spelling name → engine.basic name = true) := by
      intro key hkey hnorm
      refine ⟨?_, fun hspelling => ?_⟩
      · by_contra hnever
        exact hnone ⟨key, hkey, hnorm, .inl (by simpa using hnever)⟩
      · by_contra hbasic
        exact hnone ⟨key, hkey, hnorm, .inr ⟨hspelling, by simpa using hbasic⟩⟩
    have hnever := fun key hkey hnorm => (hway key hkey hnorm).1
    by_cases hbasic : engine.basic name = true
    · exact h true ⟨hnamed, hnever, fun _ => hbasic, nofun⟩
    · refine h false ⟨hnamed, hnever, nofun, fun _ key hkey hnorm hspelling => ?_⟩
      exact hbasic ((hway key hkey hnorm).2 hspelling)

def exampleWindows : Platform where
  win32 := true
  toUpperCase name := String.ofList (letters name)
  spelling := id
  spelling_one _ _ h := .inl h

def exampleEngine : Engine exampleWindows where
  env := ⟨[("OMNIRUSH_TOKEN", some "secret")], by decide⟩
  distinct := by decide +kernel
  basic _ := false
  basic_allowed _ h := by cases h

end OmniRush.Mcp
