import Mathlib.Data.List.Infix
import Mathlib.Data.List.Nodup

/-!
# Layers over a tree

A tree is what stands at each path, a folder above everything else. A layer is a list of
items: what it puts at a path, a path it drops, a folder it empties. As a set it says one
new tree, its *overlay*: the tree below it without what the layer covers, and what the
layer puts on top of that.

A program that goes through the items in their order leaves another tree (`entered`): a
path it drops is dropped with what the layer has put there, and a folder it empties keeps
the names that the layer has put right into it. What stands at a path in the end is told
by the items alone (`entered_eq`), so the two trees are the same exactly when no item
hides what the layer itself has put, and nothing covered is kept
(`entered_eq_overlay_iff`).

Items are listed with the latest first.
-/

namespace OmniRush

/-- A path strictly below another. -/
def Under {α : Type} (p q : List α) : Prop := p <+: q ∧ p ≠ q

instance {α : Type} [DecidableEq α] (p q : List α) : Decidable (Under p q) := by
  unfold Under
  infer_instance

theorem Under.trans {α : Type} {p q r : List α} (h : p <+: q) (h' : Under q r) : Under p r := by
  refine ⟨h.trans h'.1, ?_⟩
  rintro rfl
  exact h'.2 (h'.1.eq_of_length_le h.length_le)

theorem Under.length_lt {α : Type} {p q : List α} (h : Under p q) : p.length < q.length := by
  rcases Nat.lt_or_ge p.length q.length with hlt | hge
  · exact hlt
  · exact absurd (h.1.eq_of_length_le hge) h.2

theorem Under.upTo {α : Type} {p q r : List α} (h : Under p q) (h' : q <+: r) :
    Under p r := by
  refine ⟨h.1.trans h', ?_⟩
  rintro rfl
  have hlt := h.length_lt
  have hle := h'.length_le
  omega

namespace Overlay

/-- What stands at each path. -/
abbrev View (α β : Type) := List α → Option β

inductive Item (α β : Type) where
  | put (name : List α) (what : β)
  | drop (path : List α)
  | empty (folder : List α)
  deriving DecidableEq

section

variable {α β : Type} [DecidableEq α] [DecidableEq β]

/-- The names that items put. -/
def names (items : List (Item α β)) : List (List α) :=
  items.filterMap fun
    | .put name _ => some name
    | _ => none

/-- The folders that items empty. -/
def emptied (items : List (Item α β)) : List (List α) :=
  items.filterMap fun
    | .empty folder => some folder
    | _ => none

/-- What items put at a path. -/
def own (items : List (Item α β)) (p : List α) : Option β :=
  items.findSome? fun
    | .put name what => if name = p then some what else none
    | _ => none

/-- The path that an item is about. -/
def Item.path : Item α β → List α
  | .put name _ => name
  | .drop path => path
  | .empty folder => folder

/-- An item that stands below a path. -/
def Item.IsUnder (p : List α) : Item α β → Prop
  | .put name _ => Under p name
  | .drop path => Under p path
  | .empty folder => p <+: folder

/-- An item that hides a path from the tree, after the items before it. An emptied folder
keeps the names that were put into it. -/
def Item.Hides (before : List (Item α β)) (p : List α) : Item α β → Prop
  | .put _ _ => False
  | .drop path => path <+: p
  | .empty folder => Under folder p ∧ p.take (folder.length + 1) ∉ names before

/-- A path at or above what an item puts. -/
def Item.Puts (p : List α) : Item α β → Prop
  | .put name _ => p <+: name
  | _ => False

/-- Something other than a folder is put above a path. -/
def Item.Replaces (folder : β) (p : List α) : Item α β → Prop
  | .put name what => Under name p ∧ what ≠ folder
  | _ => False

/-- What a layer covers of the tree below it. -/
def Item.Covers (folder : β) (p : List α) : Item α β → Prop
  | .put name what => Under name p ∧ what ≠ folder
  | .drop path => path <+: p
  | .empty path => Under path p

instance (p : List α) (item : Item α β) : Decidable (item.IsUnder p) := by
  unfold Item.IsUnder
  cases item <;> infer_instance

instance (before : List (Item α β)) (p : List α) (item : Item α β) :
    Decidable (item.Hides before p) := by
  unfold Item.Hides
  cases item <;> infer_instance

instance (p : List α) (item : Item α β) : Decidable (item.Puts p) := by
  unfold Item.Puts
  cases item <;> infer_instance

instance (folder : β) (p : List α) (item : Item α β) : Decidable (item.Replaces folder p) := by
  unfold Item.Replaces
  cases item <;> infer_instance

instance (folder : β) (p : List α) (item : Item α β) : Decidable (item.Covers folder p) := by
  unfold Item.Covers
  cases item <;> infer_instance

/-! ## The overlay -/

/-- A path at or above a name of the layer. -/
def Supported (items : List (Item α β)) (p : List α) : Prop := ∃ item ∈ items, item.Puts p

instance (items : List (Item α β)) (p : List α) : Decidable (Supported items p) := by
  unfold Supported
  infer_instance

/-- A layer over a tree: what it puts with the missing folders above it, and the rest of
the tree that it does not cover. -/
def overlay (folder : β) (V : View α β) (items : List (Item α β)) : View α β := fun p =>
  if Supported items p then some ((own items p).getD folder)
  else if ∃ item ∈ items, item.Covers folder p then none
  else V p

/-! ## One item after the other -/

/-- Something is put at a name. A folder keeps what is in it when a folder is put there. -/
def place (folder : β) (V : View α β) (name : List α) (what : β) : View α β := fun p =>
  if p = name then some what
  else if p <+: name then some folder
  else if name <+: p then if V name = some folder ∧ what = folder then V p else none
  else V p

def enter (folder : β) (V : View α β) (before : List (Item α β)) (item : Item α β) : View α β :=
  match item with
  | .put name what => place folder V name what
  | item => fun p => if item.Hides before p then none else V p

def entered (folder : β) (V : View α β) : List (Item α β) → View α β
  | [] => V
  | item :: before => enter folder (entered folder V before) before item

/-- A path at or above something put that nothing has hidden since. -/
def Shown (p : List α) : List (Item α β) → Prop
  | [] => False
  | item :: before => item.Puts p ∨ (Shown p before ∧ ¬ item.Hides before p)

/-- A path that something has hidden or replaced. -/
def Gone (folder : β) (p : List α) : List (Item α β) → Prop
  | [] => False
  | item :: before => item.Hides before p ∨ item.Replaces folder p ∨ Gone folder p before

instance decShown (p : List α) : (items : List (Item α β)) → Decidable (Shown p items)
  | [] => isFalse id
  | item :: before => by
      have := decShown p before
      unfold Shown
      infer_instance

instance decGone (folder : β) (p : List α) :
    (items : List (Item α β)) → Decidable (Gone folder p items)
  | [] => isFalse id
  | item :: before => by
      have := decGone folder p before
      unfold Gone
      infer_instance

/-- Above everything there is stands a folder. -/
def Closed (folder : β) (V : View α β) : Prop :=
  ∀ p q, Under p q → V q ≠ none → V p = some folder

/-- A layer without a name twice, whose names with something below them are folders. -/
structure Fits (folder : β) (items : List (Item α β)) : Prop where
  names : (names items).Nodup
  emptied : (emptied items).Nodup
  parents : ∀ name what, .put name what ∈ items → ∀ item ∈ items, item.IsUnder name →
    what = folder

/-- No item hides what the layer has put, and what the layer covers has gone. -/
structure Clean (folder : β) (V : View α β) (items : List (Item α β)) : Prop where
  shown : ∀ name ∈ names items, Shown name items
  gone : ∀ p, V p ≠ none → ¬ Supported items p →
    (∃ path ∈ emptied items, Under path p) → Gone folder p items

end

/-! ## Paths -/

section

variable {α β : Type}

theorem Item.Hides.below {item : Item α β} {before : List (Item α β)} {p q : List α}
    (h : item.Hides before p) (hpq : p <+: q) : item.Hides before q := by
  cases item with
  | put _ _ => exact h
  | drop path => exact h.trans hpq
  | empty folder =>
      obtain ⟨hunder, hkept⟩ := h
      refine ⟨hunder.upTo hpq, ?_⟩
      obtain ⟨rest, rfl⟩ := hpq
      rwa [List.take_append_of_le_length hunder.length_lt]

theorem Item.Replaces.below {folder : β} {item : Item α β} {p q : List α}
    (h : item.Replaces folder p) (hpq : p <+: q) : item.Replaces folder q := by
  cases item with
  | put name what => exact ⟨h.1.upTo hpq, h.2⟩
  | _ => exact h

theorem Gone.below {folder : β} {items : List (Item α β)} {p q : List α}
    (h : Gone folder p items) (hpq : p <+: q) : Gone folder q items := by
  induction items with
  | nil => exact h
  | cons item before ih =>
      rcases h with h | h | h
      · exact .inl (h.below hpq)
      · exact .inr (.inl (h.below hpq))
      · exact .inr (.inr (ih h))

theorem Shown.above {items : List (Item α β)} {p q : List α} (h : Shown q items)
    (hpq : p <+: q) : Shown p items := by
  induction items with
  | nil => exact h
  | cons item before ih =>
      rcases h with h | ⟨h, hhides⟩
      · left
        cases item with
        | put name what => exact hpq.trans h
        | _ => exact h
      · exact .inr ⟨ih h, fun hp => hhides (hp.below hpq)⟩

theorem Shown.supported {items : List (Item α β)} {p : List α} (h : Shown p items) :
    Supported items p := by
  induction items with
  | nil => exact h.elim
  | cons item before ih =>
      rcases h with h | ⟨h, -⟩
      · exact ⟨item, List.mem_cons_self .., h⟩
      · obtain ⟨item', hmem, hputs⟩ := ih h
        exact ⟨item', List.mem_cons_of_mem item hmem, hputs⟩

theorem Supported.shown_or_gone [DecidableEq α] {folder : β} {items : List (Item α β)} {p : List α}
    (h : Supported items p) : Shown p items ∨ Gone folder p items := by
  induction items with
  | nil =>
      obtain ⟨item, hmem, -⟩ := h
      cases hmem
  | cons item before ih =>
      by_cases hputs : item.Puts p
      · exact .inl (.inl hputs)
      · have hbefore : Supported before p := by
          obtain ⟨item', hmem, hputs'⟩ := h
          rcases List.mem_cons.mp hmem with rfl | hmem
          · exact absurd hputs' hputs
          · exact ⟨item', hmem, hputs'⟩
        by_cases hhides : item.Hides before p
        · exact .inr (.inl hhides)
        · rcases ih hbefore with hshown | hgone
          · exact .inl (.inr ⟨hshown, hhides⟩)
          · exact .inr (.inr (.inr hgone))

theorem mem_names {items : List (Item α β)} {name : List α} :
    name ∈ names items ↔ ∃ what, .put name what ∈ items := by
  unfold names
  rw [List.mem_filterMap]
  constructor
  · rintro ⟨item, hmem, hname⟩
    cases item with
    | put name' what =>
        obtain rfl := Option.some.inj hname
        exact ⟨what, hmem⟩
    | _ => cases hname
  · rintro ⟨what, hmem⟩
    exact ⟨.put name what, hmem, rfl⟩

theorem mem_emptied {items : List (Item α β)} {path : List α} :
    path ∈ emptied items ↔ .empty path ∈ items := by
  unfold emptied
  rw [List.mem_filterMap]
  constructor
  · rintro ⟨item, hmem, hname⟩
    cases item with
    | empty path' =>
        obtain rfl := Option.some.inj hname
        exact hmem
    | _ => cases hname
  · exact fun hmem => ⟨.empty path, hmem, rfl⟩

theorem own_eq_none [DecidableEq α] {items : List (Item α β)} {p : List α} (h : p ∉ names items) :
    own items p = none := by
  unfold own
  refine List.findSome?_eq_none_iff.mpr fun item hmem => ?_
  cases item with
  | put name what =>
      refine if_neg fun heq => ?_
      subst heq
      exact h (mem_names.mpr ⟨what, hmem⟩)
  | _ => rfl

theorem mem_of_own [DecidableEq α] {items : List (Item α β)} {p : List α} {what : β}
    (h : own items p = some what) : .put p what ∈ items := by
  obtain ⟨item, hmem, hown⟩ := List.exists_of_findSome?_eq_some h
  cases item with
  | put name what' =>
      dsimp only at hown
      split at hown
      · next heq =>
          cases hown
          exact heq ▸ hmem
      · cases hown
  | _ => cases hown

theorem names_cons_put {name : List α} {what : β} {before : List (Item α β)} :
    names (.put name what :: before) = name :: names before := rfl

/-! ## What stands in the end -/

variable {folder : β}

theorem Fits.before {item : Item α β} {items : List (Item α β)} (h : Fits folder (item :: items)) :
    Fits folder items := by
  refine ⟨?_, ?_, fun name what hmem item' hmem' =>
    h.parents name what (List.mem_cons_of_mem item hmem) item' (List.mem_cons_of_mem item hmem')⟩
  · exact h.names.sublist ((List.sublist_cons_self item items).filterMap _)
  · exact h.emptied.sublist ((List.sublist_cons_self item items).filterMap _)

theorem Fits.suffix {items before : List (Item α β)} (h : Fits folder (items ++ before)) :
    Fits folder before := by
  induction items with
  | nil => exact h
  | cons item items ih => exact ih h.before

theorem Fits.own_folder [DecidableEq α] {items : List (Item α β)} {item : Item α β} {p : List α}
    (h : Fits folder items) (hmem : item ∈ items) (hunder : item.IsUnder p) :
    (own items p).getD folder = folder := by
  cases hown : own items p with
  | none => rfl
  | some what => exact h.parents p what (mem_of_own hown) item hmem hunder

theorem own_put_ne [DecidableEq α] {name p : List α} {what : β} {before : List (Item α β)}
    (h : p ≠ name) : own (.put name what :: before) p = own before p := by
  rw [own, own, List.findSome?_cons]
  dsimp only
  rw [if_neg fun heq => h heq.symm]

theorem own_put_self [DecidableEq α] {name : List α} {what : β} {before : List (Item α β)} :
    own (.put name what :: before) name = some what := by
  rw [own, List.findSome?_cons]
  dsimp only
  rw [if_pos rfl]

theorem Shown.folder_above {items : List (Item α β)} {name p : List α} {what : β}
    (h : Shown p items) (hfits : Fits folder (.put name what :: items)) (hunder : Under name p) :
    what = folder := by
  obtain ⟨item, hmem, hputs⟩ := h.supported
  cases item with
  | put name' what' =>
      exact hfits.parents name what (List.mem_cons_self ..) (.put name' what')
        (List.mem_cons_of_mem _ hmem) (hunder.upTo hputs)
  | drop path => exact hputs.elim
  | empty path => exact hputs.elim

theorem Gone.covered {items : List (Item α β)} {p : List α} (h : Gone folder p items) :
    ∃ item ∈ items, item.Covers folder p := by
  induction items with
  | nil => exact h.elim
  | cons item before ih =>
      rcases h with h | h | h
      · refine ⟨item, List.mem_cons_self .., ?_⟩
        cases item with
        | put name what => exact h.elim
        | drop path => exact h
        | empty path => exact h.1
      · refine ⟨item, List.mem_cons_self .., ?_⟩
        cases item with
        | put name what => exact h
        | drop path => exact h.elim
        | empty path => exact h.elim
      · obtain ⟨item', hmem, hcovers⟩ := ih h
        exact ⟨item', List.mem_cons_of_mem item hmem, hcovers⟩

theorem gone_of_covers {items : List (Item α β)} {item : Item α β} {p : List α}
    (hmem : item ∈ items) (h : item.Covers folder p) (hother : ∀ path, item ≠ .empty path) :
    Gone folder p items := by
  induction items with
  | nil => cases hmem
  | cons item' before ih =>
      rcases List.mem_cons.mp hmem with rfl | hmem
      · cases item with
        | put name what => exact .inr (.inl h)
        | drop path => exact .inl h
        | empty path => exact absurd rfl (hother path)
      · exact .inr (.inr (ih hmem))

variable [DecidableEq α] [DecidableEq β]

/-- What items tell of a path: what they show there, nothing where they have hidden or
replaced it, and what stood there elsewhere. -/
def told (folder : β) (V : View α β) (items : List (Item α β)) : View α β := fun p =>
  if Shown p items then some ((own items p).getD folder)
  else if Gone folder p items then none
  else V p

theorem told_shown {V : View α β} {items : List (Item α β)} {p : List α} (h : Shown p items) :
    told folder V items p = some ((own items p).getD folder) := if_pos h

theorem told_gone {V : View α β} {items : List (Item α β)} {p : List α} (h : ¬ Shown p items)
    (hgone : Gone folder p items) : told folder V items p = none := by
  rw [told, if_neg h, if_pos hgone]

theorem told_rest {V : View α β} {items : List (Item α β)} {p : List α} (h : ¬ Shown p items)
    (hgone : ¬ Gone folder p items) : told folder V items p = V p := by
  rw [told, if_neg h, if_neg hgone]

theorem told_cons {V : View α β} {item : Item α β} {before : List (Item α β)} {p : List α}
    (hputs : ¬ item.Puts p) (hhides : ¬ item.Hides before p) (hreplaces : ¬ item.Replaces folder p)
    (hown : own (item :: before) p = own before p) :
    told folder V (item :: before) p = told folder V before p := by
  have hshown : Shown p (item :: before) ↔ Shown p before := by
    simp [Shown, hputs, hhides]
  have hgone : Gone folder p (item :: before) ↔ Gone folder p before := by
    simp [Gone, hhides, hreplaces]
  unfold told
  rw [hown]
  exact if_congr hshown rfl (if_congr hgone rfl rfl)

/-- Where nothing else stands above a path that a folder is put above, nothing stands. -/
theorem told_under {V : View α β} (hclosed : Closed folder V) {before : List (Item α β)}
    {name p : List α} (hname : name ∉ names before) (hunder : Under name p)
    (h : told folder V before name ≠ some folder) : told folder V before p = none := by
  have hshown : ¬ Shown name before := by
    intro hshown
    rw [told_shown hshown, own_eq_none hname] at h
    exact h rfl
  have hshown' : ¬ Shown p before := fun hp => hshown (hp.above hunder.1)
  by_cases hgone : Gone folder name before
  · exact told_gone hshown' (hgone.below hunder.1)
  · rw [told_rest hshown hgone] at h
    by_cases hgone' : Gone folder p before
    · exact told_gone hshown' hgone'
    · rw [told_rest hshown' hgone']
      by_contra hsome
      exact h (hclosed name p hunder hsome)

theorem told_put {V : View α β} (hclosed : Closed folder V) {name : List α} {what : β}
    {before : List (Item α β)} (hfits : Fits folder (.put name what :: before)) (p : List α) :
    place folder (told folder V before) name what p
      = told folder V (.put name what :: before) p := by
  have hnew : name ∉ names before := by
    have hnames := hfits.names
    rw [names_cons_put, List.nodup_cons] at hnames
    exact hnames.1
  rw [place]
  by_cases hname : p = name
  · subst hname
    have hshown : Shown p (.put p what :: before) := Or.inl List.prefix_rfl
    rw [if_pos rfl, told_shown hshown, own_put_self]
    rfl
  rw [if_neg hname]
  by_cases habove : p <+: name
  · have hfolder := hfits.own_folder (List.mem_cons_self ..) (p := p) ⟨habove, hname⟩
    have hshown : Shown p (.put name what :: before) := Or.inl habove
    rw [if_pos habove, told_shown hshown, hfolder]
  rw [if_neg habove]
  have hputs : ¬ (Item.put name what).Puts p := habove
  have hhides : ¬ (Item.put name what).Hides before p := id
  have hreplaces : ¬ (Under name p ∧ what ≠ folder) → ¬ (Item.put name what).Replaces folder p := id
  by_cases hbelow : name <+: p
  · have hunder : Under name p := ⟨hbelow, fun heq => hname heq.symm⟩
    rw [if_pos hbelow]
    by_cases hkept : told folder V before name = some folder ∧ what = folder
    · rw [if_pos hkept]
      exact (told_cons hputs hhides (hreplaces fun h => h.2 hkept.2) (own_put_ne hname)).symm
    · rw [if_neg hkept]
      by_cases hwhat : what = folder
      · have hnone := told_under hclosed hnew hunder fun h => hkept ⟨h, hwhat⟩
        rw [← hnone]
        exact (told_cons hputs hhides (hreplaces fun h => h.2 hwhat) (own_put_ne hname)).symm
      · have hgone : Gone folder p (.put name what :: before) := Or.inr (Or.inl ⟨hunder, hwhat⟩)
        refine (told_gone ?_ hgone).symm
        rintro (h | ⟨hshown, -⟩)
        · exact hputs h
        · exact hwhat (hshown.folder_above hfits hunder)
  · rw [if_neg hbelow]
    exact (told_cons hputs hhides (hreplaces fun h => hbelow h.1.1) (own_put_ne hname)).symm

theorem told_hides {V : View α β} {item : Item α β} {before : List (Item α β)} {p : List α}
    (hputs : ¬ item.Puts p) (hreplaces : ¬ item.Replaces folder p)
    (hown : own (item :: before) p = own before p) :
    (if item.Hides before p then none else told folder V before p)
      = told folder V (item :: before) p := by
  by_cases hhides : item.Hides before p
  · have hgone : Gone folder p (item :: before) := Or.inl hhides
    rw [if_pos hhides]
    refine (told_gone ?_ hgone).symm
    rintro (h | ⟨-, h⟩)
    · exact hputs h
    · exact h hhides
  · rw [if_neg hhides]
    exact (told_cons hputs hhides hreplaces hown).symm

theorem entered_eq {V : View α β} {items : List (Item α β)} (hclosed : Closed folder V)
    (hfits : Fits folder items) : entered folder V items = told folder V items := by
  induction items with
  | nil => rfl
  | cons item before ih =>
      rw [entered, ih hfits.before]
      funext p
      cases item with
      | put name what => exact told_put hclosed hfits p
      | drop path => exact told_hides id id rfl
      | empty path => exact told_hides id id rfl

/-! ## The two trees -/

theorem told_eq_overlay_iff {V : View α β} {items : List (Item α β)} :
    told folder V items = overlay folder V items ↔ Clean folder V items := by
  constructor
  · intro h
    refine ⟨fun name hname => ?_, fun p hV hsupported hempty => ?_⟩
    · obtain ⟨what, hmem⟩ := mem_names.mp hname
      have hsupported : Supported items name := ⟨_, hmem, List.prefix_rfl⟩
      have hp := congrFun h name
      rw [overlay, if_pos hsupported] at hp
      by_contra hshown
      have hcases : Shown name items ∨ Gone folder name items := hsupported.shown_or_gone
      rcases hcases with hs | hgone
      · exact hshown hs
      · rw [told_gone hshown hgone] at hp
        cases hp
    · obtain ⟨path, hpath, hunder⟩ := hempty
      have hp := congrFun h p
      rw [overlay, if_neg hsupported, if_pos ⟨_, mem_emptied.mp hpath, hunder⟩] at hp
      by_contra hgone
      rw [told_rest (fun hs => hsupported hs.supported) hgone] at hp
      exact hV hp
  · intro h
    funext p
    rw [overlay]
    by_cases hsupported : Supported items p
    · rw [if_pos hsupported]
      obtain ⟨item, hmem, hputs⟩ := hsupported
      cases item with
      | put name what =>
          have hshown := h.shown name (mem_names.mpr ⟨what, hmem⟩)
          exact told_shown (hshown.above hputs)
      | drop path => exact hputs.elim
      | empty path => exact hputs.elim
    · have hshown : ¬ Shown p items := fun hs => hsupported hs.supported
      rw [if_neg hsupported]
      by_cases hcovered : ∃ item ∈ items, item.Covers folder p
      · rw [if_pos hcovered]
        by_cases hV : V p = none
        · by_cases hgone : Gone folder p items
          · exact told_gone hshown hgone
          · exact (told_rest hshown hgone).trans hV
        · refine told_gone hshown ?_
          obtain ⟨item, hmem, hcovers⟩ := hcovered
          cases item with
          | put name what => exact gone_of_covers hmem hcovers fun _ heq => by cases heq
          | drop path => exact gone_of_covers hmem hcovers fun _ heq => by cases heq
          | empty path => exact h.gone p hV hsupported ⟨path, mem_emptied.mpr hmem, hcovers⟩
      · rw [if_neg hcovered]
        exact told_rest hshown fun hgone => hcovered hgone.covered

theorem overlay_there {V : View α β} {items : List (Item α β)} {p : List α}
    (h : overlay folder V items p ≠ none) :
    V p ≠ none ∨ p ∈ (names items).flatMap List.inits := by
  unfold overlay at h
  by_cases hsupported : Supported items p
  · obtain ⟨item, hmem, hputs⟩ := hsupported
    cases item with
    | put name what =>
        exact .inr (List.mem_flatMap.mpr
          ⟨name, mem_names.mpr ⟨what, hmem⟩, (List.mem_inits _ _).mpr hputs⟩)
    | drop path => exact hputs.elim
    | empty path => exact hputs.elim
  · rw [if_neg hsupported] at h
    split at h
    · exact absurd rfl h
    · exact .inl h

/-- The items in their order leave the layer over the tree exactly when the layer is
clean. -/
theorem entered_eq_overlay_iff {V : View α β} {items : List (Item α β)}
    (hclosed : Closed folder V) (hfits : Fits folder items) :
    entered folder V items = overlay folder V items ↔ Clean folder V items := by
  rw [entered_eq hclosed hfits]
  exact told_eq_overlay_iff

/-! ## Folders above -/

end

end Overlay

end OmniRush
