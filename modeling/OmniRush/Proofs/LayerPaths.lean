import OmniRush.Lib.Machine
import OmniRush.Oci.Layer

/-!
# Where an entry's path leads

`safeJoin` follows the links among an entry's parents one by one and takes each target
inside the root, as text. The kernel then walks the path it answers, so all is well as
long as that path has no link left on it that leads out (`Within`). Three things leave
one: a target with several components, whose own parents may be links; a chain longer
than the hops; a whiteout's folder, whose last component is not followed. A whiteout
that names its own folder or the one above removes that. And `Finish` uses the paths of
folders that later entries may have replaced by links.

`Contained` is the condition on a step that excludes these, said of the links there are.
From it the folder of every path that is answered is inside the root
(`safeJoinFrom_within`).
-/

namespace OmniRush.Oci

open OmniRush

/-- Strictly below a folder. -/
def Below (r p : Path) : Prop := r <+: p ∧ p ≠ r

theorem below_append {r f : Path} {c : String} (h : r <+: f) : Below r (f ++ [c]) := by
  refine ⟨h.trans (List.prefix_append f [c]), fun heq => ?_⟩
  have hlen := h.length_le
  rw [← heq, List.length_append, List.length_singleton] at hlen
  omega

theorem Below.of_prefix {r p q : Path} (h : Below r p) (hpq : p <+: q) : Below r q := by
  refine ⟨h.1.trans hpq, ?_⟩
  rintro rfl
  exact h.2 (hpq.eq_of_length_le h.1.length_le)

/-! ## The condition -/

section

variable (t : Tree) (root : Path)

/-- Every folder on the way of a path below the root is inside the root, as the kernel
finds it. -/
def Within (p : Path) : Prop :=
  ∀ n < p.length + 1, root.length ≤ n → ∀ f ∈ t.folder (p.take n), ∀ r ∈ t.folder root, r <+: f

/-- Followed hop by hop, no link from here has a target with a parent that leads out, and
none that leads out is left after the last hop. -/
def LinksStay : Nat → Path → Prop
  | 0, next => Within t root next
  | hops + 1, next =>
      ∀ target ∈ t.readlink next,
        Within t root (retarget root next target).dropLast ∧
          LinksStay hops (retarget root next target)

/-- The links among the parents of a name stay inside, and with `last` a link that the
name itself may be. -/
def WayStays (last : Bool) : Path → List String → Prop
  | _, [] => True
  | cur, part :: rest =>
      if rest = [] then last = true → Within t root (cur ++ [part])
      else LinksStay t root maximumHops (cur ++ [part]) ∧
        WayStays last (followHops t root maximumHops (cur ++ [part])) rest

end

/-- The state in which an entry is made, its parents being there. -/
def Unpacker.prepared (u : Unpacker) (hdr : Header) : Option Unpacker :=
  match (prepare hdr (cleanName hdr.name)).run.run u.counted with
  | (.ok _, v) => some v
  | (.error _, _) => none

/-- What a step finds keeps it below the root. -/
def Contained (u : Unpacker) : Action → Prop
  | .layer => True
  | .entry hdr =>
      ∀ base ∈ (cleanName hdr.name).getLast?,
        if hasWhiteoutPrefix base then
          WayStays u.tree u.root true u.root (cleanName hdr.name).dropLast ∧
            (base = ".wh..wh..opq" ∨ properName (whiteoutStem base) = true)
        else
          WayStays u.tree u.root false u.root (cleanName hdr.name) ∧
            (hdr.typeflag = .link → ∀ v ∈ u.prepared hdr,
              WayStays v.tree v.root false v.root (cleanName hdr.linkname))
  | .finish dirs =>
      ∀ d ∈ dirs, (u.tree.lstat d.path).any Node.isFolder = true →
        Within u.tree u.root d.path.dropLast

/-! ## Where safeJoin leads -/

section

variable {t : Tree} {root r : Path}

theorem Within.folder {p f : Path} (h : Within t root p) (hroot : t.folder root = some r)
    (hp : root.length ≤ p.length) (hf : t.folder p = some f) : r <+: f := by
  refine h p.length (by omega) hp f ?_ r hroot
  rw [List.take_length]
  exact hf

theorem Within.dropLast {p : Path} (h : Within t root p) : Within t root p.dropLast := by
  intro n hn hroot f hf
  rw [List.length_dropLast] at hn
  refine h n (by omega) hroot f ?_
  rwa [List.dropLast_eq_take, List.take_take, Nat.min_eq_left (by omega)] at hf

theorem within_root : Within t root root := by
  intro n hn hroot f hf r hr
  rw [List.take_of_length_le hroot] at hf
  have hsame := Option.some.inj (hf.symm.trans hr)
  exact hsame ▸ List.prefix_rfl

theorem Within.append {p : Path} {c : String} (h : Within t root p)
    (hroot : t.folder root = some r) (hp : root.length ≤ p.length) (hc : properName c = true)
    (hlink : t.readlink (p ++ [c]) = none) : Within t root (p ++ [c]) := by
  intro n hn hn' f hf r' hr'
  rw [List.length_append, List.length_singleton] at hn
  by_cases hlen : n ≤ p.length
  · rw [List.take_append_of_le_length hlen] at hf
    exact h n (by omega) hn' f hf r' hr'
  · rw [List.take_of_length_le (by rw [List.length_append, List.length_singleton]; omega)] at hf
    obtain ⟨g, hg, rfl⟩ := Tree.folder_append hc hlink hf
    obtain rfl := Option.some.inj (hroot.symm.trans hr')
    exact (h.folder hroot hp hg).trans (List.prefix_append g [c])

/-- Below the root, every component is a name. -/
def Lexical (root p : Path) : Prop := ∃ rest, p = root ++ rest ∧ ∀ c ∈ rest, properName c = true

theorem lexical_root : Lexical root root :=
  ⟨[], (List.append_nil root).symm, fun _ hc => (List.not_mem_nil hc).elim⟩

theorem Lexical.append {p : Path} {c : String} (h : Lexical root p) (hc : properName c = true) :
    Lexical root (p ++ [c]) := by
  obtain ⟨rest, rfl, hrest⟩ := h
  refine ⟨rest ++ [c], List.append_assoc .., fun d hd => ?_⟩
  rcases List.mem_append.mp hd with hd | hd
  · exact hrest d hd
  · rwa [List.mem_singleton.mp hd]

theorem Lexical.length {p : Path} (h : Lexical root p) : root.length ≤ p.length := by
  obtain ⟨rest, rfl, -⟩ := h
  rw [List.length_append]
  omega

theorem Lexical.cases {p : Path} (h : Lexical root p) :
    p = root ∨ ∃ q c, p = q ++ [c] ∧ Lexical root q ∧ properName c = true := by
  obtain ⟨rest, rfl, hrest⟩ := h
  rcases List.eq_nil_or_concat rest with rfl | ⟨rest, c, rfl⟩
  · exact .inl (List.append_nil root)
  · refine .inr ⟨root ++ rest, c, by simp, ⟨rest, rfl, fun d hd => ?_⟩, ?_⟩
    · exact hrest d (by simp [hd])
    · exact hrest c (by simp)

theorem lexical_retarget (next : Path) (target : String) : Lexical root (retarget root next target) := by
  unfold retarget
  split
  · exact ⟨_, rfl, fun _ => properName_cleanRooted⟩
  · exact ⟨_, rfl, fun _ => properName_cleanRooted⟩

theorem lexical_followHops {hops : Nat} {next : Path} (h : Lexical root next) :
    Lexical root (followHops t root hops next) := by
  induction hops generalizing next with
  | zero => exact h
  | succ hops ih =>
      rw [followHops]
      split
      · exact h
      · exact ih (lexical_retarget ..)

theorem followHops_within {hops : Nat} {next : Path} (hroot : t.folder root = some r)
    (hnext : Lexical root next) (hparent : Within t root next.dropLast)
    (hstay : LinksStay t root hops next) : Within t root (followHops t root hops next) := by
  induction hops generalizing next with
  | zero => exact hstay
  | succ hops ih =>
      rw [followHops]
      cases hlink : t.readlink next with
      | some target =>
          obtain ⟨hparent', hstay'⟩ := hstay target hlink
          exact ih (lexical_retarget ..) hparent' hstay'
      | none =>
          rcases hnext.cases with rfl | ⟨q, c, rfl, hq, hc⟩
          · exact within_root
          · rw [List.dropLast_concat] at hparent
            exact hparent.append hroot hq.length hc hlink

theorem safeJoinFrom_lexical {cur p : Path} {parts : List String} (hcur : Lexical root cur)
    (h : safeJoinFrom t root cur parts = some p) : Lexical root p := by
  induction parts generalizing cur with
  | nil =>
      cases h
      exact hcur
  | cons part rest ih =>
      rw [safeJoinFrom] at h
      split at h
      · cases h
      · next hpart =>
          have hproper : properName part = true := Bool.of_not_eq_false hpart
          split at h
          · cases h
            exact hcur.append hproper
          · exact ih (lexical_followHops (hcur.append hproper)) h

/-- The path of a name whose links stay inside: its folder is inside, and so is what the
name itself leads to where that was asked for. -/
theorem safeJoinFrom_within {last : Bool} {cur p : Path} {parts : List String}
    (hroot : t.folder root = some r) (hcur : Lexical root cur) (hin : Within t root cur)
    (hstay : WayStays t root last cur parts) (h : safeJoinFrom t root cur parts = some p) :
    (parts ≠ [] → Within t root p.dropLast) ∧ (last = true → Within t root p) := by
  induction parts generalizing cur with
  | nil =>
      cases h
      exact ⟨fun hne => absurd rfl hne, fun _ => hin⟩
  | cons part rest ih =>
      rw [safeJoinFrom] at h
      rw [WayStays] at hstay
      split at h
      · cases h
      · next hpart =>
          have hproper : properName part = true := Bool.of_not_eq_false hpart
          split at h
          · next hrest =>
              cases h
              rw [if_pos hrest] at hstay
              refine ⟨fun _ => ?_, hstay⟩
              rwa [List.dropLast_concat]
          · next hrest =>
              rw [if_neg hrest] at hstay
              obtain ⟨hlinks, hway⟩ := hstay
              have hlexical := hcur.append hproper
              obtain ⟨hfolder, hlast⟩ := ih (lexical_followHops hlexical)
                (followHops_within hroot hlexical (by rwa [List.dropLast_concat]) hlinks) hway h
              exact ⟨fun _ => hfolder hrest, hlast⟩

theorem safeJoinFrom_last {cur p : Path} {parts : List String} (hcur : Lexical root cur)
    (hparts : parts ≠ []) (h : safeJoinFrom t root cur parts = some p) :
    ∃ q c, p = q ++ [c] ∧ Lexical root q ∧ properName c = true := by
  induction parts generalizing cur with
  | nil => exact absurd rfl hparts
  | cons part rest ih =>
      rw [safeJoinFrom] at h
      split at h
      · cases h
      · next hpart =>
          have hproper : properName part = true := Bool.of_not_eq_false hpart
          split at h
          · cases h
            exact ⟨cur, part, rfl, hcur, hproper⟩
          · next hrest => exact ih (lexical_followHops (hcur.append hproper)) hrest h

end

end OmniRush.Oci
