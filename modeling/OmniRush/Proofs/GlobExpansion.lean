import OmniRush.Archive.GlobExpansion

/-!
# What the expansion of a glob finds

The names below the base that a walk goes through stand for the components of the pattern, one for
one but at `**` (`PathMatches`), and each of them but the last is a folder that may be walked
(`FoldersOk`). Each of the three kinds of component keeps both, and so does the walk.
-/

namespace OmniRush.Archive

open Tree

/-! ## What a pattern stands for -/

/-- A name that a wildcard or `**` does not stand for. -/
def IsHidden (component name : String) : Prop :=
  name.startsWith "." = true ∧ component.startsWith "." = false

/-- The names that the components of a pattern stand for. -/
inductive PathMatches : List String → List String → Prop where
  | nil : PathMatches [] []
  | literal {name : String} {components names : List String} (hliteral : hasWildcard name = false)
      (h : PathMatches components names) : PathMatches (name :: components) (name :: names)
  | wildcard {component name : String} {components names : List String} {items : List Wildcard}
      (hwildcard : hasWildcard component = true)
      (hitems : componentItems component.toList = some items)
      (hname : Wildcard.Matches items name.toList) (hhidden : ¬ IsHidden component name)
      (h : PathMatches components names) : PathMatches (component :: components) (name :: names)
  | here {components names : List String} (h : PathMatches components names) :
      PathMatches ("**" :: components) names
  | folder {name : String} {components names : List String} (hhidden : ¬ IsHidden "**" name)
      (h : PathMatches ("**" :: components) names) :
      PathMatches ("**" :: components) (name :: names)

/-- A folder that is walked: no link, not one that is skipped, and a secret one only if the pattern
names it. -/
structure FolderOk (tree : Tree) (components : List String) (dir : Path) (name : String) :
    Prop where
  folder : (tree.lstat (dir ++ [name])).any OmniRush.Node.isFolder = true
  walked : name ∉ skippedExpansionDirs
  secret : isSecretFolder [name] = true → name ∈ components ∧ hasWildcard name = false

/-- Every name but the last is of such a folder. -/
def FoldersOk (tree : Tree) (components : List String) (dir : Path) (names : List String) : Prop :=
  ∀ before name after, names = before ++ name :: after → after ≠ [] →
    FolderOk tree components (dir ++ before) name

/-- What a walk of some components from a folder may find. -/
structure ExpandsTo (tree : Tree) (components : List String) (dir file : Path) : Prop where
  names : ∃ names, names ≠ [] ∧ file = dir ++ names ∧ PathMatches components names ∧
    FoldersOk tree components dir names
  /-- If its last component has a wildcard it is a file and no link. -/
  file : ∀ component, components.getLast? = some component → hasWildcard component = true →
    (tree.lstat file).any isFile = true

variable {tree : Tree} {dir file : Path} {component name : String} {components rest : List String}

theorem FolderOk.mono (h : FolderOk tree rest dir name) (hrest : ∀ c ∈ rest, c ∈ components) :
    FolderOk tree components dir name :=
  ⟨h.folder, h.walked, fun hsecret => ⟨hrest name (h.secret hsecret).1, (h.secret hsecret).2⟩⟩

theorem FoldersOk.cons {names : List String}
    (hname : names ≠ [] → FolderOk tree components dir name)
    (h : FoldersOk tree components (dir ++ [name]) names) :
    FoldersOk tree components dir (name :: names) := by
  intro before other after heq hafter
  cases before with
  | nil =>
      cases heq
      rw [List.append_nil]
      exact hname hafter
  | cons first before =>
      cases heq
      have hfolder := h before other after rfl hafter
      rwa [List.append_assoc, List.singleton_append] at hfolder

theorem FoldersOk.mono {names : List String} (h : FoldersOk tree rest dir names)
    (hrest : ∀ c ∈ rest, c ∈ components) : FoldersOk tree components dir names :=
  fun before other after heq hafter => (h before other after heq hafter).mono hrest

theorem named_last (hmatch : PathMatches [component] [name])
    (hfile : hasWildcard component = true → (tree.lstat (dir ++ [name])).any isFile = true) :
    ExpandsTo tree [component] dir (dir ++ [name]) where
  names := by
    refine ⟨[name], by simp, rfl, hmatch, fun before other after heq hafter => ?_⟩
    cases before with
    | nil =>
        cases heq
        exact absurd rfl hafter
    | cons first before =>
        rw [List.cons_append, List.cons.injEq] at heq
        exact absurd heq.2.symm (by simp)
  file other hother hwildcard := by
    cases hother
    exact hfile hwildcard

theorem ExpandsTo.into (h : ExpandsTo tree rest (dir ++ [name]) file) (hrest : rest ≠ [])
    (hfolder : FolderOk tree (component :: rest) dir name)
    (hmatch : ∀ names, PathMatches rest names → PathMatches (component :: rest) (name :: names)) :
    ExpandsTo tree (component :: rest) dir file where
  names := by
    obtain ⟨names, hne, rfl, hnames, hfolders⟩ := h.names
    refine ⟨name :: names, by simp, by simp, hmatch names hnames, ?_⟩
    exact .cons (fun _ => hfolder) (hfolders.mono fun c hc => List.mem_cons_of_mem _ hc)
  file other hother hwildcard := by
    refine h.file other ?_ hwildcard
    rwa [List.getLast?_cons_of_ne_nil hrest] at hother

/-- `**` stands for no folder. -/
theorem ExpandsTo.here (h : ExpandsTo tree rest dir file) (hrest : rest ≠ []) :
    ExpandsTo tree ("**" :: rest) dir file where
  names := by
    obtain ⟨names, hne, rfl, hnames, hfolders⟩ := h.names
    exact ⟨names, hne, rfl, .here hnames, hfolders.mono fun c hc => List.mem_cons_of_mem _ hc⟩
  file other hother hwildcard := by
    refine h.file other ?_ hwildcard
    rwa [List.getLast?_cons_of_ne_nil hrest] at hother

/-- `**` stands for one folder more. -/
theorem ExpandsTo.below (h : ExpandsTo tree ("**" :: rest) (dir ++ [name]) file)
    (hfolder : FolderOk tree ("**" :: rest) dir name) (hhidden : ¬ IsHidden "**" name) :
    ExpandsTo tree ("**" :: rest) dir file where
  names := by
    obtain ⟨names, hne, rfl, hnames, hfolders⟩ := h.names
    refine ⟨name :: names, by simp, by simp, .folder hhidden hnames, ?_⟩
    exact .cons (fun _ => hfolder) hfolders
  file := h.file

/-! ## The walk -/

theorem folderOk_of_isWalked (h : isWalked tree dir name = true) :
    FolderOk tree components dir name := by
  simp only [isWalked, Bool.and_eq_true, decide_eq_true_eq, Bool.not_eq_true'] at h
  obtain ⟨⟨hfolder, hwalked⟩, hsecret⟩ := h
  refine ⟨hfolder, hwalked, fun h => ?_⟩
  rw [hsecret] at h
  cases h

/-- What a step of a walk may do: it finds files that are named, and does not use up more than
there is. -/
structure Keeps (tree : Tree) (components : List String) (dir : Path) (s s' : ExpansionState) :
    Prop where
  found : ∀ file ∈ s'.found, file ∈ s.found ∨ ExpandsTo tree components dir file
  spent : s'.budget ≤ s.budget
  left : 0 ≤ s.budget → 0 ≤ s'.budget

theorem Keeps.refl (s : ExpansionState) : Keeps tree components dir s s :=
  ⟨fun _ h => .inl h, Int.le_refl _, fun h => h⟩

theorem Keeps.trans {s s' s'' : ExpansionState} (h : Keeps tree components dir s s')
    (h' : Keeps tree components dir s' s'') : Keeps tree components dir s s'' where
  found file hfile := (h'.found file hfile).elim (h.found file) .inr
  spent := Int.le_trans h'.spent h.spent
  left hs := h'.left (h.left hs)

theorem Keeps.mono {s s' : ExpansionState} {dir' : Path} {rest : List String}
    (h : Keeps tree rest dir' s s')
    (hnamed : ∀ file, ExpandsTo tree rest dir' file → ExpandsTo tree components dir file) :
    Keeps tree components dir s s' :=
  ⟨fun file hfile => (h.found file hfile).imp_right (hnamed file), h.spent, h.left⟩

/-- What is shown of the walks below a folder. -/
def WalkKeeps (tree : Tree) (walk : Path → List String → ExpansionState → ExpansionState) : Prop :=
  ∀ dir components s, Keeps tree components dir s (walk dir components s)

theorem visitChild_keeps {walk : Path → List String → ExpansionState → ExpansionState}
    (hwalk : WalkKeeps tree walk) (s : ExpansionState) (name : String) :
    Keeps tree (component :: rest) dir s (visitChild tree walk dir component rest s name) := by
  rw [visitChild]
  split
  · exact .refl s
  · next hfull =>
      simp only [ExpansionState.isFull, Bool.or_eq_true, decide_eq_true_eq, not_or] at hfull
      have hspend : Keeps tree (component :: rest) dir s { s with budget := s.budget - 1 } :=
        ⟨fun _ h => .inl h, by simp only []; omega, fun _ => by simp only []; omega⟩
      refine hspend.trans ?_
      simp only []
      split
      · exact .refl _
      · next hhidden =>
          have hhidden : ¬ IsHidden component name := by
            rintro ⟨hname, hcomponent⟩
            exact hhidden (by rw [hname, hcomponent]; rfl)
          split
          · next hstars =>
              subst hstars
              split
              · next hwalked =>
                  refine (hwalk (dir ++ [name]) ("**" :: rest) _).mono fun file h => ?_
                  exact h.below (folderOk_of_isWalked hwalked) hhidden
              · exact .refl _
          split
          · exact .refl _
          · next hmatch =>
              simp only [Bool.not_eq_true', Bool.not_eq_false, matchesComponent,
                Bool.and_eq_true] at hmatch
              obtain ⟨hwildcard, hany⟩ := hmatch
              obtain ⟨items, hitems, hname⟩ := (Option.any_eq_true _ _).mp hany
              rw [Wildcard.matchItems_iff] at hname
              have hstep := fun names =>
                @PathMatches.wildcard component name rest names items hwildcard hitems hname hhidden
              split
              · next hrest =>
                  subst hrest
                  split
                  · next hfile =>
                      refine ⟨fun file hin => ?_, Int.le_refl _, fun h => h⟩
                      rcases List.mem_append.mp hin with hbefore | hnew
                      · exact .inl hbefore
                      · rw [List.mem_singleton.mp hnew]
                        exact .inr (named_last (hstep [] .nil) fun _ => hfile)
                  · exact .refl _
              split
              · next hrest hwalked =>
                  refine (hwalk (dir ++ [name]) rest _).mono fun file h => ?_
                  exact h.into hrest (folderOk_of_isWalked hwalked) hstep
              · exact .refl _

theorem visitChildren_keeps {walk : Path → List String → ExpansionState → ExpansionState}
    (hwalk : WalkKeeps tree walk) (children : List String) (s : ExpansionState) :
    Keeps tree (component :: rest) dir s
      (children.foldl (visitChild tree walk dir component rest) s) := by
  induction children generalizing s with
  | nil => exact .refl s
  | cons name children ih => exact (visitChild_keeps hwalk s name).trans (ih _)

theorem walkGlob_nil (tree : Tree) (rounds : Nat) (dir : Path) (s : ExpansionState) :
    walkGlob tree rounds dir [] s = s := by
  cases rounds <;> rfl

/-- **The walk finds what is named.** -/
theorem walkGlob_keeps (tree : Tree) (rounds : Nat) : WalkKeeps tree (walkGlob tree rounds) := by
  induction rounds with
  | zero => exact fun _ _ s => .refl s
  | succ rounds ih =>
      intro dir components s
      cases components with
      | nil => exact .refl s
      | cons component rest =>
          rw [walkGlob]
          split
          · exact .refl s
          split
          · next hstars =>
              subst hstars
              have hhere : Keeps tree ("**" :: rest) dir s (walkGlob tree rounds dir rest s) := by
                cases rest with
                | nil =>
                    rw [walkGlob_nil]
                    exact .refl s
                | cons next rest =>
                    exact (ih dir (next :: rest) s).mono fun file h => h.here (by simp)
              simp only []
              split
              · exact hhere
              · exact hhere.trans (visitChildren_keeps ih _ _)
          split
          · next hliteral =>
              rw [Bool.not_eq_true'] at hliteral
              split
              · next hrest =>
                  subst hrest
                  refine ⟨fun file hin => ?_, Int.le_refl _, fun h => h⟩
                  rcases List.mem_append.mp hin with hbefore | hnew
                  · exact .inl hbefore
                  · rw [List.mem_singleton.mp hnew]
                    refine .inr (named_last (.literal hliteral .nil) fun hwildcard => ?_)
                    rw [hliteral] at hwildcard
                    cases hwildcard
              split
              · next hrest hwalked =>
                  rw [Bool.and_eq_true, decide_eq_true_eq] at hwalked
                  refine (ih (dir ++ [component]) rest s).mono fun file h => ?_
                  refine h.into hrest ⟨hwalked.1, hwalked.2, fun _ => ?_⟩ fun _ => .literal hliteral
                  exact ⟨List.mem_cons_self, hliteral⟩
              · exact .refl s
          · exact visitChildren_keeps ih _ s

/-! ## The expansion -/

def exampleTree : Tree :=
  [(["data"], .folder { mode := 0o755 }), (["data", "runs"], .folder { mode := 0o755 }),
    (["data", "runs", "a"], .folder { mode := 0o755 }),
    (["data", "runs", "a", "latest.csv"], .link { mode := 0o777 } "/etc/passwd")]

def exampleGlob : GlobPath := ⟨["data", "runs", "*", "latest.csv"], by decide⟩

end OmniRush.Archive
