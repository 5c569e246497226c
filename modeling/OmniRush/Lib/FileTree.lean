/-!
# A file tree with symbolic links

Folders, files and links under absolute paths, and the system calls on them. A path is
its components. The kernel follows a link in every component but the last, and in the
last too where the call asks for it, forty links at most; `..` climbs from wherever the
links have led.

What a path leads to depends on the folders and links there are (`Tree.kind`). A tree
with more of them leads wherever it led before (`Tree.folder_mono`), so a path that
named a folder is not led elsewhere by what a call creates, and a removal only makes
paths fail.

A call answers the tree it leaves and the paths, as the kernel found them, that it
created, wrote, linked or removed.
-/

namespace OmniRush

abbrev Path := List String

/-- The components of a text, split at the slashes. -/
def pathSegments (text : String) : List String :=
  (text.toList.foldr (fun c acc =>
    if c = '/' then [] :: acc
    else match acc with
      | [] => [[c]]
      | s :: rest => (c :: s) :: rest) [[]]).map String.ofList

def isAbsolute (text : String) : Bool := text.toList.head? = some '/'

/-- A component that names an entry of its folder. -/
def properName (c : String) : Bool := c ≠ "" && c ≠ "." && c ≠ ".."

/-- A rooted path with its empty, `.` and `..` components resolved as text. -/
def cleanRooted (segments : List String) : Path :=
  segments.foldl (fun path c =>
    if c = "" ∨ c = "." then path
    else if c = ".." then path.dropLast
    else path ++ [c]) []

theorem properName_cleanRooted {segments : List String} {c : String}
    (h : c ∈ cleanRooted segments) : properName c = true := by
  have hfold : ∀ (segments : List String) (path : Path), (∀ c ∈ path, properName c = true) →
      ∀ c ∈ segments.foldl (fun path c =>
        if c = "" ∨ c = "." then path
        else if c = ".." then path.dropLast
        else path ++ [c]) path, properName c = true := by
    intro segments
    induction segments with
    | nil => exact fun path hpath => hpath
    | cons d segments ih =>
        intro path hpath
        rw [List.foldl_cons]
        refine ih _ ?_
        split
        · exact hpath
        · next hdot =>
            split
            · exact fun c hc => hpath c (List.dropLast_subset path hc)
            · next hdots =>
                intro c hc
                rcases List.mem_append.mp hc with hc | hc
                · exact hpath c hc
                · rw [List.mem_singleton.mp hc]
                  simp only [not_or] at hdot
                  simp [properName, hdot, hdots]
  exact hfold segments [] (fun _ hc => (List.not_mem_nil hc).elim) c h

example : cleanRooted (pathSegments "/a//./b/../../../c/") = ["c"] := by decide

structure Attributes where
  mode : Nat
  mtime : Int := 0
  owner : Int × Int := (0, 0)
  deriving DecidableEq, Repr

inductive Node where
  | folder (attributes : Attributes)
  | file (attributes : Attributes) (content : List UInt8)
  | link (attributes : Attributes) (target : String)
  | special (attributes : Attributes) (device : Nat)
  deriving DecidableEq, Repr

def Node.attributes : Node → Attributes
  | .folder attributes | .file attributes _ | .link attributes _ | .special attributes _ => attributes

def Node.withAttributes (attributes : Attributes) : Node → Node
  | .folder _ => .folder attributes
  | .file _ content => .file attributes content
  | .link _ target => .link attributes target
  | .special _ device => .special attributes device

def Node.isFolder : Node → Bool
  | .folder _ => true
  | _ => false

/-- What the resolution of paths sees of a node. -/
inductive NodeKind where
  | folder
  | link (target : String)
  | other
  deriving DecidableEq

def Node.kind : Node → NodeKind
  | .folder _ => .folder
  | .link _ target => .link target
  | _ => .other

theorem Node.kind_withAttributes (n : Node) (attributes : Attributes) :
    (n.withAttributes attributes).kind = n.kind := by
  cases n <;> rfl

abbrev Tree := List (Path × Node)

namespace Tree

def get (t : Tree) (p : Path) : Option Node := (t.find? fun e => e.1 = p).map (·.2)

def set (t : Tree) (p : Path) (n : Node) : Tree := (p, n) :: t.filter fun e => e.1 ≠ p

/-- The tree without what is at a path or below it. -/
def prune (t : Tree) (p : Path) : Tree := t.filter fun e => ¬ p <+: e.1

def kind (t : Tree) (p : Path) : Option NodeKind := (t.get p).map Node.kind

def isFolder (t : Tree) (p : Path) : Bool := p = [] || t.kind p = some .folder

/-! ## Resolution -/

/-- Where a walk stops: at a path, at a link to follow, or nowhere. -/
inductive Stop where
  | at (p : Path)
  | link (folder : Path) (target : String) (rest : List String)
  | fail
  deriving DecidableEq

/-- The components up to the first link to follow. -/
def walk (t : Tree) (follow : Bool) : Path → List String → Stop
  | cur, [] => .at cur
  | cur, c :: rest =>
      if c = "" ∨ c = "." then walk t follow cur rest
      else if c = ".." then
        if t.isFolder cur.dropLast then walk t follow cur.dropLast rest else .fail
      else
        match t.kind (cur ++ [c]) with
        | some .folder => walk t follow (cur ++ [c]) rest
        | some (.link target) =>
            if rest = [] ∧ follow = false then .at (cur ++ [c]) else .link cur target rest
        | _ => if rest = [] then .at (cur ++ [c]) else .fail

/-- Where a link's target begins. -/
def linkBase (folder : Path) (target : String) : Path := if isAbsolute target then [] else folder

def resolveFrom (t : Tree) (follow : Bool) : Nat → Path → List String → Option Path
  | hops, cur, segments =>
      match t.walk follow cur segments with
      | .at p => some p
      | .fail => none
      | .link folder target rest =>
          match hops with
          | 0 => none
          | hops + 1 =>
              resolveFrom t follow hops (linkBase folder target) (pathSegments target ++ rest)

def maximumLinks : Nat := 40

/-- The path the kernel finds, links followed in the last component too. -/
def resolve (t : Tree) (p : Path) : Option Path := t.resolveFrom true maximumLinks [] p

/-- The path the kernel finds, a link in the last component left as it is. -/
def entry (t : Tree) (p : Path) : Option Path := t.resolveFrom false maximumLinks [] p

/-- The folder a path names. -/
def folder (t : Tree) (p : Path) : Option Path := (t.resolve p).filter t.isFolder

/-! ## System calls -/

inductive Errno where
  | noEntry
  | present
  | isFolder
  | invalid
  deriving DecidableEq, Repr

/-- What a call leaves and what it acted on. -/
abbrev Outcome := Except Errno (Tree × List Path)

def lstat (t : Tree) (p : Path) : Option Node := (t.entry p).bind t.get

def readlink (t : Tree) (p : Path) : Option String :=
  (t.entry p).bind fun q => match t.kind q with
    | some (.link target) => some target
    | _ => none

/-- A node where there is none. -/
def create (t : Tree) (p : Path) (n : Node) : Outcome :=
  match t.entry p with
  | none => .error .noEntry
  | some q =>
      if q = [] ∨ (t.get q).isSome then .error .present else .ok (t.set q n, [q])

def mkdir (t : Tree) (p : Path) (mode : Nat) : Outcome := t.create p (.folder { mode })

def symlink (t : Tree) (target : String) (p : Path) : Outcome :=
  if target = "" then .error .noEntry else t.create p (.link { mode := 0o777 } target)

/-- A hard link; a folder has none. The new name is a copy of the old one's node. -/
def link (t : Tree) (source p : Path) : Outcome :=
  match t.entry source with
  | none => .error .noEntry
  | some s =>
      match t.get s with
      | none => .error .noEntry
      | some n =>
          if s = [] ∨ n.isFolder then .error .isFolder
          else (t.create p n).map fun (t', touched) => (t', s :: touched)

/-- `open` with `O_CREAT` and `O_TRUNC`, and the writes that follow. -/
def writeFile (t : Tree) (p : Path) (mode : Nat) (content : List UInt8) : Outcome :=
  match t.resolve p with
  | none => .error .noEntry
  | some q =>
      if q = [] then .error .isFolder
      else
        match t.get q with
        | none => .ok (t.set q (.file { mode } content), [q])
        | some (.file attributes _) => .ok (t.set q (.file attributes content), [q])
        | some (.special attributes device) => .ok (t.set q (.special attributes device), [q])
        | some _ => .error .isFolder

/-- A change of attributes, on what the path leads to or on the link itself. -/
def setAttributes (t : Tree) (found : Option Path) (change : Attributes → Attributes) : Outcome :=
  match found with
  | none => .error .noEntry
  | some q =>
      match t.get q with
      | none => .error .noEntry
      | some n => .ok (t.set q (n.withAttributes (change n.attributes)), [q])

def chmod (t : Tree) (p : Path) (mode : Nat) : Outcome :=
  t.setAttributes (t.resolve p) fun a => { a with mode }

def chtimes (t : Tree) (p : Path) (mtime : Int) : Outcome :=
  t.setAttributes (t.resolve p) fun a => { a with mtime }

def lchown (t : Tree) (p : Path) (owner : Int × Int) : Outcome :=
  t.setAttributes (t.entry p) fun a => { a with owner }

/-- The names in a folder, in no particular order. -/
def readDir (t : Tree) (p : Path) : List String :=
  match t.folder p with
  | none => []
  | some f => (t.filterMap fun e => if e.1.dropLast = f then e.1.getLast? else none).filter
      properName

/-- A path and everything below it is removed; nothing is an error. -/
def removeAll (t : Tree) (p : Path) : Outcome :=
  match t.entry p with
  | none => .ok (t, [])
  | some q => .ok (t.prune q, (t.filter fun e => q <+: e.1).map (·.1))

/-! ## Lookups -/

theorem find_filter {keep : Path × Node → Bool} {q : Path} {t : Tree}
    (hkeep : ∀ e, e.1 = q → keep e = true) :
    (t.filter keep).find? (fun e => e.1 = q) = t.find? fun e => e.1 = q := by
  induction t with
  | nil => rfl
  | cons e t ih =>
      rw [List.find?_cons]
      by_cases he : e.1 = q
      · rw [List.filter_cons_of_pos (hkeep e he), List.find?_cons, decide_eq_true he]
      · rw [decide_eq_false he, ← ih]
        cases hk : keep e with
        | true => rw [List.filter_cons_of_pos hk, List.find?_cons, decide_eq_false he]
        | false => rw [List.filter_cons_of_neg (by simp [hk])]

theorem get_set {t : Tree} {p q : Path} {n : Node} :
    (t.set p n).get q = if q = p then some n else t.get q := by
  unfold get set
  rw [List.find?_cons]
  by_cases h : q = p
  · subst h
    simp
  · rw [if_neg h, decide_eq_false (fun h' => h h'.symm), find_filter]
    rintro e rfl
    exact decide_eq_true h

theorem get_prune {t : Tree} {p q : Path} :
    (t.prune p).get q = if p <+: q then none else t.get q := by
  unfold get prune
  split
  · next h =>
      rw [List.find?_eq_none.mpr]
      · rfl
      · intro e he heq
        exact of_decide_eq_true (List.mem_filter.mp he).2 (of_decide_eq_true heq ▸ h)
  · next h =>
      rw [find_filter]
      rintro e rfl
      exact decide_eq_true h

theorem kind_set_ne {t : Tree} {p q : Path} {n : Node} (h : q ≠ p) :
    (t.set p n).kind q = t.kind q := by
  unfold kind
  rw [get_set, if_neg h]

/-- A tree that has the folders, links and other nodes of another. -/
def Extends (t' t : Tree) : Prop := ∀ p k, t.kind p = some k → t'.kind p = some k

theorem extends_set_new {t : Tree} {p : Path} {n : Node} (h : t.get p = none) :
    (t.set p n).Extends t := by
  intro q k hk
  have hne : q ≠ p := by
    rintro rfl
    rw [kind, h] at hk
    cases hk
  rw [kind_set_ne hne, hk]

theorem extends_prune (t : Tree) (p : Path) : t.Extends (t.prune p) := by
  intro q k hk
  unfold kind at hk ⊢
  rw [get_prune] at hk
  split at hk
  · cases hk
  · exact hk

theorem Extends.isFolder {t t' : Tree} (h : t'.Extends t) {p : Path} (hp : t.isFolder p = true) :
    t'.isFolder p = true := by
  unfold Tree.isFolder at hp ⊢
  rcases Bool.or_eq_true_iff.mp hp with hp | hp
  · rw [hp, Bool.true_or]
  · rw [decide_eq_true (h p _ (of_decide_eq_true hp)), Bool.or_true]

/-! ## What a walk depends on -/

/-- A walk that ends at something, or at a link, ends there in a tree with more nodes. -/
theorem walk_mono {t t' : Tree} (h : t'.Extends t) {follow : Bool} {cur : Path}
    {segments : List String} :
    (∀ f, t.walk follow cur segments = .at f → f = [] ∨ t.kind f ≠ none →
      t'.walk follow cur segments = .at f) ∧
    ∀ f target rest, t.walk follow cur segments = .link f target rest →
      t'.walk follow cur segments = .link f target rest := by
  induction segments generalizing cur with
  | nil =>
      refine ⟨fun f hf _ => hf, fun f target rest hf => ?_⟩
      cases hf
  | cons c segments ih =>
      simp only [walk]
      split
      · exact ih
      · split
        · split
          · next hparent =>
              rw [if_pos (h.isFolder hparent)]
              exact ih
          · refine ⟨fun f hf _ => ?_, fun f target rest hf => ?_⟩ <;> cases hf
        · cases hkind : t.kind (cur ++ [c]) with
          | none =>
              refine ⟨fun f hf hthere => ?_, fun f target rest hf => ?_⟩
              · dsimp only at hf
                split at hf
                · cases hf
                  simp [hkind] at hthere
                · cases hf
              · dsimp only at hf
                split at hf <;> cases hf
          | some k =>
              rw [h _ _ hkind]
              cases k with
              | folder => exact ih
              | link target => exact ⟨fun f hf _ => hf, fun f target rest hf => hf⟩
              | other => exact ⟨fun f hf _ => hf, fun f target rest hf => hf⟩

theorem resolveFrom_mono {t t' : Tree} (h : t'.Extends t) {follow : Bool} {hops : Nat}
    {cur : Path} {segments : List String} {f : Path}
    (hf : t.resolveFrom follow hops cur segments = some f) (hthere : f = [] ∨ t.kind f ≠ none) :
    t'.resolveFrom follow hops cur segments = some f := by
  induction hops generalizing cur segments with
  | zero =>
      unfold resolveFrom at hf ⊢
      cases hwalk : t.walk follow cur segments with
      | «at» p =>
          rw [hwalk] at hf
          cases hf
          rw [(walk_mono h).1 f hwalk hthere]
      | fail => rw [hwalk] at hf; cases hf
      | link _ _ _ => rw [hwalk] at hf; cases hf
  | succ hops ih =>
      unfold resolveFrom at hf ⊢
      cases hwalk : t.walk follow cur segments with
      | «at» p =>
          rw [hwalk] at hf
          cases hf
          rw [(walk_mono h).1 f hwalk hthere]
      | fail => rw [hwalk] at hf; cases hf
      | link g target rest =>
          rw [hwalk] at hf
          rw [(walk_mono h).2 g target rest hwalk]
          exact ih hf

theorem isFolder_there {t : Tree} {f : Path} (hf : t.isFolder f = true) :
    f = [] ∨ t.kind f ≠ none := by
  rcases Bool.or_eq_true_iff.mp hf with hf | hf
  · exact .inl (of_decide_eq_true hf)
  · rw [of_decide_eq_true hf]
    exact .inr (Option.some_ne_none _)

theorem folder_mono {t t' : Tree} (h : t'.Extends t) {p f : Path} (hf : t.folder p = some f) :
    t'.folder p = some f := by
  obtain ⟨hresolve, hfolder⟩ := Option.filter_eq_some_iff.mp hf
  exact Option.filter_eq_some_iff.mpr 
    ⟨resolveFrom_mono h hresolve (isFolder_there hfolder), h.isFolder hfolder⟩

theorem isFolder_congr {t t' : Tree} (h : ∀ p, t'.kind p = t.kind p) :
    t'.isFolder = t.isFolder := by
  funext q
  rw [Tree.isFolder, Tree.isFolder, h]

/-- Paths lead where they led in a tree with the same folders, links and other nodes. -/
theorem walk_congr {t t' : Tree} (h : ∀ p, t'.kind p = t.kind p) (follow : Bool) (cur : Path)
    (segments : List String) : t'.walk follow cur segments = t.walk follow cur segments := by
  induction segments generalizing cur with
  | nil => rfl
  | cons c segments ih => simp only [walk, isFolder_congr h, h, ih]

theorem resolveFrom_congr_kind {t t' : Tree} (h : ∀ p, t'.kind p = t.kind p) (follow : Bool)
    (hops : Nat) (cur : Path) (segments : List String) :
    t'.resolveFrom follow hops cur segments = t.resolveFrom follow hops cur segments := by
  induction hops generalizing cur segments with
  | zero => rw [resolveFrom, resolveFrom, walk_congr h]
  | succ hops ih =>
      rw [resolveFrom, resolveFrom, walk_congr h]
      cases t.walk follow cur segments with
      | «at» p => rfl
      | fail => rfl
      | link f target rest => exact ih ..

theorem folder_congr {t t' : Tree} (h : ∀ p, t'.kind p = t.kind p) (p : Path) :
    t'.folder p = t.folder p := by
  rw [folder, folder, resolve, resolve, resolveFrom_congr_kind h, isFolder_congr h]

theorem lstat_isFolder {t : Tree} {p : Path} :
    (t.lstat p).any Node.isFolder = true ↔ ∃ q, t.entry p = some q ∧ t.kind q = some .folder := by
  unfold lstat kind
  cases t.entry p with
  | none => simp
  | some q =>
      cases hget : t.get q with
      | none => simp [hget]
      | some n => cases n <;> simp [hget, Node.isFolder, Node.kind]

theorem lstat_isFolder_congr {t t' : Tree} (h : ∀ p, t'.kind p = t.kind p) {p : Path}
    (hp : (t'.lstat p).any Node.isFolder = true) : (t.lstat p).any Node.isFolder = true := by
  obtain ⟨q, hq, hkind⟩ := lstat_isFolder.mp hp
  rw [entry, resolveFrom_congr_kind h] at hq
  exact lstat_isFolder.mpr ⟨q, hq, (h q).symm.trans hkind⟩

/-! ## The last component -/

theorem properName_iff {c : String} : properName c = true ↔ ¬(c = "" ∨ c = ".") ∧ c ≠ ".." := by
  simp [properName, and_assoc]

/-- One more component after a walk. -/
def Stop.extend (t : Tree) (follow : Bool) (c : String) : Stop → Stop
  | .at f => if t.isFolder f then t.walk follow f [c] else .fail
  | .link f target rest => .link f target (rest ++ [c])
  | .fail => .fail

theorem not_isFolder {t : Tree} {f : Path} {c : String} (h : t.kind (f ++ [c]) ≠ some .folder) :
    t.isFolder (f ++ [c]) = false := by
  simp [Tree.isFolder, h]

theorem walk_append {t : Tree} {follow : Bool} {cur : Path} {segments : List String} {c : String}
    (hcur : t.isFolder cur = true) :
    t.walk follow cur (segments ++ [c]) = (t.walk true cur segments).extend t follow c := by
  induction segments generalizing cur with
  | nil => simp only [List.nil_append, walk, Stop.extend, hcur, if_true]
  | cons d segments ih =>
      have hrest : segments ++ [c] ≠ [] := by simp
      rw [List.cons_append, walk, walk]
      split
      · exact ih hcur
      · split
        · split
          · next hparent => exact ih hparent
          · rfl
        · cases hkind : t.kind (cur ++ [d]) with
          | none =>
              have hfolder := not_isFolder (t := t) (f := cur) (c := d) (by simp [hkind])
              dsimp only
              split
              · rw [Stop.extend, hfolder, if_neg Bool.false_ne_true]
              · rfl
          | some k =>
              cases k with
              | folder => exact ih (by simp [Tree.isFolder, hkind])
              | link target =>
                  dsimp only
                  rw [if_neg fun h => hrest h.1, if_neg fun h => Bool.noConfusion h.2]
                  rfl
              | other =>
                  have hfolder := not_isFolder (t := t) (f := cur) (c := d) (by simp [hkind])
                  dsimp only
                  split
                  · rw [Stop.extend, hfolder, if_neg Bool.false_ne_true]
                  · rfl

theorem walk_link {t : Tree} {follow : Bool} {cur f : Path} {segments rest : List String}
    {target : String} (hcur : t.isFolder cur = true)
    (h : t.walk follow cur segments = .link f target rest) : t.isFolder f = true := by
  induction segments generalizing cur with
  | nil => cases h
  | cons d segments ih =>
      rw [walk] at h
      split at h
      · exact ih hcur h
      · split at h
        · split at h
          · next hparent => exact ih hparent h
          · cases h
        · split at h
          · next hkind => exact ih (by simp [Tree.isFolder, hkind]) h
          · split at h
            · cases h
            · cases h
              exact hcur
          · split at h <;> cases h

theorem linkBase_isFolder {t : Tree} {f : Path} {target : String} (hf : t.isFolder f = true) :
    t.isFolder (linkBase f target) = true := by
  unfold linkBase
  split
  · rfl
  · exact hf

theorem resolveFrom_at {t : Tree} {follow : Bool} {hops : Nat} {cur f : Path}
    {segments : List String} (h : t.walk follow cur segments = .at f) :
    t.resolveFrom follow hops cur segments = some f := by
  cases hops <;> rw [resolveFrom, h]

theorem resolveFrom_fail {t : Tree} {follow : Bool} {hops : Nat} {cur : Path}
    {segments : List String} (h : t.walk follow cur segments = .fail) :
    t.resolveFrom follow hops cur segments = none := by
  cases hops <;> rw [resolveFrom, h]

theorem resolveFrom_congr {t : Tree} {follow : Bool} {hops : Nat} {cur cur' : Path}
    {segments segments' : List String}
    (h : t.walk follow cur segments = t.walk follow cur' segments') :
    t.resolveFrom follow hops cur segments = t.resolveFrom follow hops cur' segments' := by
  cases hops <;> rw [resolveFrom, resolveFrom, h]

/-- A resolution is one of all components but the last, and of the last from there. -/
theorem resolveFrom_append {t : Tree} {follow : Bool} {hops : Nat} {cur q : Path}
    {segments : List String} {c : String} (hcur : t.isFolder cur = true)
    (h : t.resolveFrom follow hops cur (segments ++ [c]) = some q) :
    ∃ f hops', t.resolveFrom true hops cur segments = some f ∧ t.isFolder f = true ∧
      t.resolveFrom follow hops' f [c] = some q := by
  induction hops generalizing cur segments with
  | zero =>
      have hwhole : t.walk follow cur (segments ++ [c]) = _ := walk_append hcur
      cases hwalk : t.walk true cur segments with
      | «at» f =>
          rw [hwalk, Stop.extend] at hwhole
          by_cases hf : t.isFolder f = true
          · rw [if_pos hf] at hwhole
            exact ⟨f, 0, resolveFrom_at hwalk, hf, resolveFrom_congr hwhole ▸ h⟩
          · rw [if_neg hf] at hwhole
            rw [resolveFrom_fail hwhole] at h
            cases h
      | fail =>
          rw [hwalk] at hwhole
          rw [resolveFrom_fail hwhole] at h
          cases h
      | link f target rest =>
          rw [hwalk, Stop.extend] at hwhole
          rw [resolveFrom, hwhole] at h
          cases h
  | succ hops ih =>
      have hwhole : t.walk follow cur (segments ++ [c]) = _ := walk_append hcur
      cases hwalk : t.walk true cur segments with
      | «at» f =>
          rw [hwalk, Stop.extend] at hwhole
          by_cases hf : t.isFolder f = true
          · rw [if_pos hf] at hwhole
            exact ⟨f, hops + 1, resolveFrom_at hwalk, hf, resolveFrom_congr hwhole ▸ h⟩
          · rw [if_neg hf] at hwhole
            rw [resolveFrom_fail hwhole] at h
            cases h
      | fail =>
          rw [hwalk] at hwhole
          rw [resolveFrom_fail hwhole] at h
          cases h
      | link f target rest =>
          rw [hwalk, Stop.extend] at hwhole
          rw [resolveFrom, hwhole] at h
          dsimp only at h
          rw [← List.append_assoc] at h
          obtain ⟨g, hops', hg, hfolder, hlast⟩ :=
            ih (linkBase_isFolder (walk_link hcur hwalk)) h
          refine ⟨g, hops', ?_, hfolder, hlast⟩
          rw [resolveFrom, hwalk]
          exact hg

theorem resolveFrom_append_of_folder {t : Tree} {follow : Bool} {hops : Nat} {cur f : Path}
    {segments : List String} {c : String} (hcur : t.isFolder cur = true)
    (h : t.resolveFrom true hops cur segments = some f) (hf : t.isFolder f = true) :
    ∃ hops', t.resolveFrom follow hops cur (segments ++ [c]) = t.resolveFrom follow hops' f [c] := by
  induction hops generalizing cur segments with
  | zero =>
      have hwhole : t.walk follow cur (segments ++ [c]) = _ := walk_append hcur
      cases hwalk : t.walk true cur segments with
      | «at» g =>
          rw [resolveFrom_at hwalk] at h
          cases h
          rw [hwalk, Stop.extend, if_pos hf] at hwhole
          exact ⟨0, resolveFrom_congr hwhole⟩
      | fail =>
          rw [resolveFrom_fail hwalk] at h
          cases h
      | link _ _ _ =>
          rw [resolveFrom, hwalk] at h
          cases h
  | succ hops ih =>
      have hwhole : t.walk follow cur (segments ++ [c]) = _ := walk_append hcur
      cases hwalk : t.walk true cur segments with
      | «at» g =>
          rw [resolveFrom_at hwalk] at h
          cases h
          rw [hwalk, Stop.extend, if_pos hf] at hwhole
          exact ⟨hops + 1, resolveFrom_congr hwhole⟩
      | fail =>
          rw [resolveFrom_fail hwalk] at h
          cases h
      | link g target rest =>
          rw [resolveFrom, hwalk] at h
          obtain ⟨hops', hsame⟩ := ih (linkBase_isFolder (walk_link hcur hwalk)) h
          refine ⟨hops', ?_⟩
          rw [hwalk, Stop.extend] at hwhole
          rw [resolveFrom, hwhole, ← hsame, List.append_assoc]

theorem resolveFrom_last {t : Tree} {hops : Nat} {f : Path} {c : String}
    (hc : properName c = true) : t.resolveFrom false hops f [c] = some (f ++ [c]) := by
  obtain ⟨hdot, hdots⟩ := properName_iff.mp hc
  have hwalk : t.walk false f [c] = .at (f ++ [c]) := by
    rw [walk, if_neg hdot, if_neg hdots]
    split
    · rfl
    · rw [if_pos ⟨rfl, rfl⟩]
    · rw [if_pos rfl]
  unfold resolveFrom
  rw [hwalk]

theorem resolveFrom_last_follow {t : Tree} {hops : Nat} {f : Path} {c : String}
    (hc : properName c = true) (hlink : ∀ target, t.kind (f ++ [c]) ≠ some (.link target)) :
    t.resolveFrom true hops f [c] = some (f ++ [c]) := by
  obtain ⟨hdot, hdots⟩ := properName_iff.mp hc
  have hwalk : t.walk true f [c] = .at (f ++ [c]) := by
    rw [walk, if_neg hdot, if_neg hdots]
    split
    · rfl
    · next target hkind => exact absurd hkind (hlink target)
    · rw [if_pos rfl]
  unfold resolveFrom
  rw [hwalk]

theorem entry_append {t : Tree} {p q : Path} {c : String} (hc : properName c = true) :
    t.entry (p ++ [c]) = some q ↔ ∃ f, t.folder p = some f ∧ q = f ++ [c] := by
  constructor
  · intro h
    obtain ⟨f, hops, hf, hfolder, hlast⟩ := resolveFrom_append rfl h
    rw [resolveFrom_last hc] at hlast
    exact ⟨f, Option.filter_eq_some_iff.mpr ⟨hf, hfolder⟩, (Option.some.inj hlast).symm⟩
  · rintro ⟨f, hf, rfl⟩
    obtain ⟨hresolve, hfolder⟩ := Option.filter_eq_some_iff.mp hf
    obtain ⟨hops, hsame⟩ := resolveFrom_append_of_folder rfl hresolve hfolder
    rw [entry, hsame, resolveFrom_last hc]

theorem resolve_append {t : Tree} {p f q : Path} {c : String} (hc : properName c = true)
    (hf : t.folder p = some f) (hlink : ∀ target, t.kind (f ++ [c]) ≠ some (.link target))
    (h : t.resolve (p ++ [c]) = some q) : q = f ++ [c] := by
  obtain ⟨hresolve, hfolder⟩ := Option.filter_eq_some_iff.mp hf
  obtain ⟨hops, hsame⟩ := resolveFrom_append_of_folder rfl hresolve hfolder
  rw [resolve, hsame, resolveFrom_last_follow hc hlink] at h
  exact (Option.some.inj h).symm

theorem readlink_eq_none {t : Tree} {p f : Path} {c : String} (hc : properName c = true)
    (hf : t.folder p = some f) (h : t.readlink (p ++ [c]) = none) (target : String) :
    t.kind (f ++ [c]) ≠ some (.link target) := by
  intro hkind
  unfold readlink at h
  rw [(entry_append hc).mpr ⟨f, hf, rfl⟩, Option.bind_some, hkind] at h
  cases h

theorem folder_append {t : Tree} {p q : Path} {c : String} (hc : properName c = true)
    (hlink : t.readlink (p ++ [c]) = none) (h : t.folder (p ++ [c]) = some q) :
    ∃ f, t.folder p = some f ∧ q = f ++ [c] := by
  obtain ⟨hresolve, -⟩ := Option.filter_eq_some_iff.mp h
  obtain ⟨f, hops, hf, hfolder, -⟩ := resolveFrom_append rfl hresolve
  have hf : t.folder p = some f := Option.filter_eq_some_iff.mpr ⟨hf, hfolder⟩
  exact ⟨f, hf, resolve_append hc hf (readlink_eq_none hc hf hlink) hresolve⟩

theorem folder_of_get {t : Tree} {p f : Path} {c : String} {attributes : Attributes}
    (hc : properName c = true) (hf : t.folder p = some f)
    (hget : t.get (f ++ [c]) = some (.folder attributes)) :
    t.folder (p ++ [c]) = some (f ++ [c]) := by
  have hkind : t.kind (f ++ [c]) = some .folder := by
    rw [kind, hget]
    rfl
  obtain ⟨hresolve, hfolder⟩ := Option.filter_eq_some_iff.mp hf
  obtain ⟨hops, hsame⟩ := resolveFrom_append_of_folder rfl hresolve hfolder
  refine Option.filter_eq_some_iff.mpr ⟨?_, by simp [Tree.isFolder, hkind]⟩
  rw [resolve, hsame]
  refine resolveFrom_last_follow hc fun target h => ?_
  rw [hkind] at h
  cases h

/-! ## What the calls do -/

theorem create_ok {t t' : Tree} {p q : Path} {n : Node} {touched : List Path}
    (h : t.create p n = .ok (t', touched)) (hq : t.entry p = some q) :
    t.get q = none ∧ t' = t.set q n ∧ touched = [q] := by
  unfold create at h
  rw [hq] at h
  dsimp only at h
  split at h
  · cases h
  · next habsent =>
      cases h
      refine ⟨?_, rfl, rfl⟩
      cases hget : t.get q with
      | none => rfl
      | some n => exact absurd (Or.inr (by rw [hget]; rfl)) habsent

theorem create_entry {t t' : Tree} {p : Path} {n : Node} {touched : List Path}
    (h : t.create p n = .ok (t', touched)) : ∃ q, t.entry p = some q := by
  unfold create at h
  split at h
  · cases h
  · next q hq => exact ⟨q, hq⟩

theorem setAttributes_ok {t t' : Tree} {found : Option Path} {change : Attributes → Attributes}
    {touched : List Path} (h : t.setAttributes found change = .ok (t', touched)) :
    ∃ q n, found = some q ∧ t.get q = some n ∧
      t' = t.set q (n.withAttributes (change n.attributes)) ∧ touched = [q] := by
  unfold setAttributes at h
  split at h
  · cases h
  · next q =>
      split at h
      · cases h
      · next n hn =>
          cases h
          exact ⟨q, n, rfl, hn, rfl, rfl⟩

theorem kind_withAttributes {t : Tree} {q : Path} {n : Node} {a : Attributes}
    (hn : t.get q = some n) (p : Path) : (t.set q (n.withAttributes a)).kind p = t.kind p := by
  by_cases h : p = q
  · subst h
    rw [kind, kind, get_set, if_pos rfl, hn, Option.map_some, Option.map_some,
      Node.kind_withAttributes]
  · exact kind_set_ne h

theorem setAttributes_kind {t t' : Tree} {found : Option Path} {change : Attributes → Attributes}
    {touched : List Path} (h : t.setAttributes found change = .ok (t', touched)) (p : Path) :
    t'.kind p = t.kind p := by
  obtain ⟨q, n, -, hn, rfl, -⟩ := setAttributes_ok h
  exact kind_withAttributes hn p

theorem removeAll_ok {t t' : Tree} {p q : Path} {touched : List Path}
    (h : t.removeAll p = .ok (t', touched)) (hq : t.entry p = some q) :
    t' = t.prune q ∧ ∀ r ∈ touched, q <+: r := by
  unfold removeAll at h
  rw [hq] at h
  cases h
  refine ⟨rfl, fun r hr => ?_⟩
  obtain ⟨e, he, rfl⟩ := List.mem_map.mp hr
  exact of_decide_eq_true (List.mem_filter.mp he).2

theorem removeAll_none {t t' : Tree} {p : Path} {touched : List Path}
    (h : t.removeAll p = .ok (t', touched)) (hq : t.entry p = none) : t' = t ∧ touched = [] := by
  unfold removeAll at h
  rw [hq] at h
  cases h
  exact ⟨rfl, rfl⟩

end Tree

end OmniRush
