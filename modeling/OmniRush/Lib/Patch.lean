/-!
# Patches over keyed values

A chain of archives, an event log, a set of migrations: each carries the values
that are new and the keys that are gone, and a reader replays them in order. What
it holds at any time is a `View`, a value for some of the keys. This file has the
views, the patch step `applyPatch` and what a patch is for, `Leads`: it takes one
view to the next, up to a relation `same` that says when a value need not be sent
again.

The replaying side rarely holds the very values the sending side compared with.
So the main rule, `Leads.apply`, carries an agreement between the two sides over
the patch: where a value was sent the agreement starts anew, where it was not
the relation `same` must take the old agreement to the new one.
-/

namespace OmniRush

/-- What a replay holds: a value for each key it knows. -/
abbrev View (K V : Type) := K → Option V

variable {K V W : Type} [DecidableEq K]

namespace View

def empty : View K V := fun _ => none

def put (m : View K V) (k : K) (v : V) : View K V := fun j => if j = k then some v else m j

def drop (m : View K V) (k : K) : View K V := fun j => if j = k then none else m j

/-- The view of a list: the first value of each key. -/
def ofList (key : V → K) (l : List V) : View K V := fun k => l.find? fun v => key v = k

theorem ofList_eq_some {key : V → K} {l : List V} (hnd : (l.map key).Nodup) {k : K} {v : V} :
    ofList key l k = some v ↔ v ∈ l ∧ key v = k := by
  induction l with
  | nil => simp [ofList]
  | cons a l ih =>
      simp only [List.map_cons, List.nodup_cons] at hnd
      simp only [ofList, List.find?_cons] at ih ⊢
      split
      · next h =>
          rw [decide_eq_true_eq] at h
          constructor
          · intro hv
            injection hv with hv
            exact ⟨by simp [hv], hv ▸ h⟩
          · rintro ⟨hmem, hk⟩
            rcases List.mem_cons.mp hmem with hv | hv
            · rw [hv]
            · exact absurd (List.mem_map.mpr ⟨v, hv, by rw [hk, h]⟩) hnd.1
      · next h =>
          rw [decide_eq_false_iff_not] at h
          rw [ih hnd.2]
          refine ⟨fun ⟨hv, hk⟩ => ⟨List.mem_cons_of_mem _ hv, hk⟩, fun ⟨hv, hk⟩ => ⟨?_, hk⟩⟩
          rcases List.mem_cons.mp hv with rfl | hv
          · exact absurd hk h
          · exact hv

theorem ofList_eq_none {key : V → K} {l : List V} {k : K} :
    ofList key l k = none ↔ k ∉ l.map key := by
  simp [ofList]

theorem ofList_isSome {key : V → K} {l : List V} {k : K} :
    (ofList key l k).isSome ↔ k ∈ l.map key := by
  simp [ofList]

theorem ofList_map {key : V → K} {f : V → V} (hf : ∀ v, key (f v) = key v) (l : List V) (k : K) :
    ofList key (l.map f) k = (ofList key l k).map f := by
  induction l with
  | nil => rfl
  | cons v l ih =>
      unfold ofList at ih ⊢
      rw [List.map_cons, List.find?_cons, List.find?_cons, hf]
      split
      · rfl
      · exact ih

end View

/-! ## One patch -/

/-- Every value is put under its key, then every dropped key goes. -/
def applyPatch (key : V → K) (puts : List V) (drops : List K) (m : View K V) : View K V :=
  drops.foldl View.drop (puts.foldl (fun m v => m.put (key v) v) m)

theorem foldl_drop_eq (drops : List K) (m : View K V) (k : K) :
    drops.foldl View.drop m k = if k ∈ drops then none else m k := by
  induction drops generalizing m with
  | nil => simp
  | cons d ds ih =>
      rw [List.foldl_cons, ih]
      by_cases hk : k = d <;> by_cases hm : k ∈ ds <;> simp [View.drop, hk, hm]

theorem foldl_put_untouched {key : V → K} {puts : List V} {k : K} (h : ∀ v ∈ puts, key v ≠ k)
    (m : View K V) : puts.foldl (fun m v => m.put (key v) v) m k = m k := by
  induction puts generalizing m with
  | nil => rfl
  | cons v vs ih =>
      rw [List.foldl_cons, ih fun w hw => h w (List.mem_cons_of_mem _ hw)]
      exact if_neg fun hk => h v (List.mem_cons_self ..) hk.symm

theorem foldl_put_touched {key : V → K} {puts : List V} {k : K} (h : ∃ v ∈ puts, key v = k)
    (m : View K V) :
    ∃ v ∈ puts, key v = k ∧ puts.foldl (fun m v => m.put (key v) v) m k = some v := by
  induction puts generalizing m with
  | nil => simp at h
  | cons v vs ih =>
      by_cases hlater : ∃ w ∈ vs, key w = k
      · obtain ⟨w, hw, hk, heq⟩ := ih hlater (m.put (key v) v)
        exact ⟨w, List.mem_cons_of_mem _ hw, hk, heq⟩
      · have hvs : ∀ w ∈ vs, key w ≠ k := fun w hw hk => hlater ⟨w, hw, hk⟩
        obtain ⟨w, hw, hk⟩ := h
        rcases List.mem_cons.mp hw with rfl | hw
        · refine ⟨w, List.mem_cons_self .., hk, ?_⟩
          rw [List.foldl_cons, foldl_put_untouched hvs]
          exact if_pos hk.symm
        · exact absurd hk (hvs w hw)

theorem applyPatch_untouched {key : V → K} {puts : List V} {drops : List K} {k : K}
    (hput : ∀ v ∈ puts, key v ≠ k) (hdrop : k ∉ drops) (m : View K V) :
    applyPatch key puts drops m k = m k := by
  rw [applyPatch, foldl_drop_eq, if_neg hdrop, foldl_put_untouched hput]

theorem applyPatch_dropped {key : V → K} {puts : List V} {drops : List K} {k : K}
    (hdrop : k ∈ drops) (m : View K V) : applyPatch key puts drops m k = none := by
  rw [applyPatch, foldl_drop_eq, if_pos hdrop]

theorem applyPatch_put {key : V → K} {puts : List V} {drops : List K} {k : K}
    (hput : ∃ v ∈ puts, key v = k) (hdrop : k ∉ drops) (m : View K V) :
    ∃ v ∈ puts, key v = k ∧ applyPatch key puts drops m k = some v := by
  obtain ⟨v, hv, hk, heq⟩ := foldl_put_touched hput m
  exact ⟨v, hv, hk, by rw [applyPatch, foldl_drop_eq, if_neg hdrop, heq]⟩

/-! ## What a patch leads to -/

/-- The patch takes `base` to `next`: what it puts and drops is as `next` has it,
and a key it leaves alone is as it was, up to `same`. -/
structure Leads (key : V → K) (same : W → V → Prop) (base : View K W) (next : View K V)
    (puts : List V) (drops : List K) : Prop where
  put : ∀ v ∈ puts, next (key v) = some v
  drop : ∀ k ∈ drops, next k = none
  kept : ∀ k, (∀ v ∈ puts, key v ≠ k) → k ∉ drops → Option.Rel same (base k) (next k)

namespace Leads

variable {key : V → K} {same : W → V → Prop} {base : View K W} {next : View K V}
  {puts : List V} {drops : List K}

theorem cases_key (h : Leads key same base next puts drops) (m : View K V) (k : K) :
    (∃ v ∈ puts, key v = k ∧ applyPatch key puts drops m k = some v ∧ next k = some v) ∨
    ((k ∈ drops) ∧ applyPatch key puts drops m k = none ∧ next k = none) ∨
    ((∀ v ∈ puts, key v ≠ k) ∧ k ∉ drops ∧ applyPatch key puts drops m k = m k ∧
      Option.Rel same (base k) (next k)) := by
  by_cases hdrop : k ∈ drops
  · exact .inr (.inl ⟨hdrop, applyPatch_dropped hdrop m, h.drop k hdrop⟩)
  · by_cases hput : ∃ v ∈ puts, key v = k
    · obtain ⟨v, hv, hk, heq⟩ := applyPatch_put hput hdrop m
      exact .inl ⟨v, hv, hk, heq, hk ▸ h.put v hv⟩
    · have huntouched : ∀ v ∈ puts, key v ≠ k := fun v hv hk => hput ⟨v, hv, hk⟩
      exact .inr (.inr ⟨huntouched, hdrop, applyPatch_untouched huntouched hdrop m,
        h.kept k huntouched hdrop⟩)

theorem apply (h : Leads key same base next puts drops) {m : View K V}
    {agree : K → V → W → Prop} (agree' : K → V → V → Prop)
    (hm : ∀ k, Option.Rel (agree k) (m k) (base k))
    (hsent : ∀ v ∈ puts, agree' (key v) v v)
    (hkept : ∀ k f b n, (∀ v ∈ puts, key v ≠ k) → k ∉ drops → base k = some b →
      next k = some n → same b n → agree k f b → agree' k f n)
    (k : K) : Option.Rel (agree' k) (applyPatch key puts drops m k) (next k) := by
  rcases h.cases_key m k with ⟨v, hv, hk, happ, hnext⟩ | ⟨-, happ, hnext⟩ |
    ⟨hput, hdrop, happ, hsame⟩
  · rw [happ, hnext]
    exact .some (hk ▸ hsent v hv)
  · rw [happ, hnext]
    exact .none
  · rw [happ]
    have hagree := hm k
    have hk := fun f b n => hkept k f b n hput hdrop
    revert hsame hagree hk
    cases m k <;> cases base k <;> cases next k <;> intro hsame hagree hk <;>
      cases hsame <;> cases hagree
    · exact .none
    · next f b n hs ha => exact .some (hk f b n rfl rfl hs ha)

end Leads

end OmniRush
