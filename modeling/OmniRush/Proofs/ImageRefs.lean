import OmniRush.Oci.Ref

/-!
# A reference that is written out and read again

What `ParseRef` gives is cut from the text at separators, so each part lacks the separators it was
cut at (`WellFormed`), and what `String` writes is cut at the same places again. Only the tag is
not always where it was: `String` leaves an empty one out with its colon.
-/

namespace OmniRush.Oci

/-! ## Tags -/

/-- Nothing after the last slash is a tag. -/
def Untagged (s : Bytes) : Prop := ∀ a b, s = a ++ colon :: b → slash ∈ b

/-- A colon at the end, and another before it in the same part of the path. -/
def DoubleColon (s : Bytes) : Prop := ∃ a b, s = a ++ colon :: (b ++ [colon]) ∧ slash ∉ b

theorem splitTag_tagged {a b : Bytes} (hcolon : colon ∉ b) (hslash : slash ∉ b) :
    splitTag (a ++ colon :: b) = (a, b) := by
  simp only [splitTag, cutLast_append hcolon]
  rw [if_pos hslash]

theorem splitTag_untagged {s : Bytes} (h : Untagged s) : splitTag s = (s, []) := by
  simp only [splitTag]
  cases hcut : cutLast colon s with
  | none => rfl
  | some cut =>
      obtain ⟨a, b⟩ := cut
      have hslash := h a b (cutLast_eq_some.mp hcut).1
      simp only
      rw [if_neg (not_not_intro hslash)]

theorem splitTag_cases (s : Bytes) :
    (∃ a b, s = a ++ colon :: b ∧ colon ∉ b ∧ slash ∉ b ∧ splitTag s = (a, b)) ∨
      (Untagged s ∧ splitTag s = (s, [])) := by
  by_cases huntagged : Untagged s
  · exact .inr ⟨huntagged, splitTag_untagged huntagged⟩
  · simp only [Untagged, not_forall] at huntagged
    obtain ⟨a', b', hs, hslash⟩ := huntagged
    have hin : colon ∈ s := by
      rw [hs]
      exact List.mem_append_right _ List.mem_cons_self
    cases hcut : cutLast colon s with
    | none => exact absurd hin (cutLast_eq_none.mp hcut)
    | some cut =>
        obtain ⟨a, b⟩ := cut
        obtain ⟨hab, hcolon⟩ := cutLast_eq_some.mp hcut
        have hsuffix : b <:+ b' := suffix_of_not_mem (a := a') (by
          rw [← hs, hab]
          exact ⟨a ++ [colon], by simp⟩) hcolon
        have hslash' : slash ∉ b := fun hmem => hslash (hsuffix.mem hmem)
        refine .inl ⟨a, b, hab, hcolon, hslash', ?_⟩
        rw [hab]
        exact splitTag_tagged hcolon hslash'

/-- The tag that is cut off is empty, and something before it would be taken for one. -/
theorem doubleColon_iff {s : Bytes} :
    DoubleColon s ↔ (splitTag s).2 = [] ∧ ¬ Untagged (splitTag s).1 := by
  constructor
  · intro h
    obtain ⟨a, b, hs, hslash⟩ := h
    have hcut : splitTag s = (a ++ colon :: b, []) := by
      rw [hs, show a ++ colon :: (b ++ [colon]) = (a ++ colon :: b) ++ colon :: [] by simp]
      exact splitTag_tagged List.not_mem_nil List.not_mem_nil
    rw [hcut]
    exact ⟨rfl, fun huntagged => hslash (huntagged a b rfl)⟩
  · intro h
    rcases splitTag_cases s with ⟨p, t, hs, -, -, hcut⟩ | ⟨huntagged, hcut⟩
    · rw [hcut] at h
      obtain ⟨ht, hp⟩ := h
      simp only at ht hp
      simp only [Untagged, not_forall] at hp
      obtain ⟨a, b, hab, hslash⟩ := hp
      refine ⟨a, b, ?_, hslash⟩
      rw [hs, ht, hab]
      simp
    · rw [hcut] at h
      exact absurd huntagged h.2

/-! ## Registries -/

structure RegistryForm (registry : Bytes) : Prop where
  slash : slash ∉ registry
  atSign : atSign ∉ registry
  named : isRegistry registry = true
  normal : ¬ (registry = dockerIo ∨ registry = ascii "index.docker.io")
  start : ∀ word ∈ spaces, ¬ word <+: registry

theorem registryForm_dockerHub : RegistryForm dockerHub :=
  ⟨by decide, by decide, by decide, by decide, by decide⟩

/-- How `String` writes the registry. -/
def host (registry : Bytes) : Bytes := if registry = dockerHub then dockerIo else registry

structure HostForm (host : Bytes) : Prop where
  slash : slash ∉ host
  atSign : atSign ∉ host
  named : isRegistry host = true
  start : ∀ word ∈ spaces, ¬ word <+: host

theorem RegistryForm.host {registry : Bytes} (h : RegistryForm registry) :
    HostForm (host registry) := by
  simp only [Oci.host]
  split
  · exact ⟨by decide, by decide, by decide, by decide⟩
  · exact ⟨h.slash, h.atSign, h.named, h.start⟩

theorem hubName_host {registry : Bytes} (h : RegistryForm registry) :
    hubName (host registry) = registry := by
  simp only [host]
  by_cases hhub : registry = dockerHub
  · rw [if_pos hhub, hhub]
    decide
  · rw [if_neg hhub, hubName, if_neg h.normal]

theorem splitRegistry_host {registry rest : Bytes} (h : RegistryForm registry)
    (hrest : rest ≠ []) :
    splitRegistry (host registry ++ slash :: rest) = (registry, rest) := by
  simp only [splitRegistry, cutFirst_append h.host.slash]
  rw [if_pos ⟨hrest, h.host.named⟩, hubName_host h]

theorem doubleColon_append {first rest : Bytes} :
    DoubleColon (first ++ slash :: rest) ↔ DoubleColon rest := by
  constructor
  · intro h
    obtain ⟨a, b, heq, hb⟩ := h
    rcases List.append_eq_append_iff.mp heq with ⟨more, ha, hrest⟩ | ⟨more, hfirst, hrest⟩
    · cases more with
      | nil => cases hrest
      | cons x more =>
          obtain ⟨-, hrest⟩ := List.cons.inj hrest
          exact ⟨more, b, hrest, hb⟩
    · have hin : slash ∈ colon :: (b ++ [colon]) := by
        rw [hrest]
        exact List.mem_append_right _ List.mem_cons_self
      have hne : slash ≠ colon := by decide
      simp only [List.mem_cons, List.mem_append, List.not_mem_nil, or_false, hne, hb] at hin
  · intro h
    obtain ⟨a, b, hrest, hb⟩ := h
    exact ⟨first ++ slash :: a, b, by rw [hrest]; simp, hb⟩

theorem splitRegistry_spec {s : Bytes} (hat : atSign ∉ s)
    (hstart : ∀ word ∈ spaces, ¬ word <+: s) :
    RegistryForm (splitRegistry s).1 ∧ (splitRegistry s).2 <:+ s ∧
      (DoubleColon (splitRegistry s).2 ↔ DoubleColon s) := by
  have hhub : RegistryForm dockerHub ∧ s <:+ s ∧ True :=
    ⟨registryForm_dockerHub, List.suffix_refl _, trivial⟩
  simp only [splitRegistry]
  cases hcut : cutFirst slash s with
  | none => simpa only using hhub
  | some cut =>
      obtain ⟨first, rest⟩ := cut
      obtain ⟨hs, hslash⟩ := cutFirst_eq_some.mp hcut
      by_cases hnamed : rest ≠ [] ∧ isRegistry first = true
      · simp only [if_pos hnamed]
        refine ⟨?_, ⟨first ++ [slash], by rw [hs]; simp⟩, ?_⟩
        · simp only [hubName]
          split
          · exact registryForm_dockerHub
          · next hnormal =>
              rw [hs] at hat hstart
              refine ⟨hslash, fun hmem => hat (List.mem_append_left _ hmem), hnamed.2, hnormal, ?_⟩
              intro word hword hhead
              exact hstart word hword (hhead.trans (List.prefix_append _ _))
        · rw [hs]
          exact doubleColon_append.symm
      · simpa only [if_neg hnamed, iff_self] using hhub

/-! ## What is parsed -/

structure WellFormed (r : Ref) : Prop where
  registry : RegistryForm r.registry
  repo : r.repo ≠ [] ∧ atSign ∉ r.repo
  tag : colon ∉ r.tag ∧ slash ∉ r.tag ∧ atSign ∉ r.tag
  digest : r.digest = [] ∨ validDigest r.digest = true
  stop : r.digest = [] → r.tag ≠ [] ∧ ∀ word ∈ spaces, ¬ word <:+ r.tag

variable {toLower : Bytes → Bytes} {s : Bytes} {r : Ref}

theorem space_ne_nil : ∀ word ∈ spaces, word ≠ [] := by decide

theorem mem_space : ∀ word ∈ spaces, slash ∉ word ∧ colon ∉ word ∧ atSign ∉ word := by decide

theorem space_last : ∀ word ∈ spaces, word.getLast?.all isHexDigit = false := by decide

theorem digest_stop {digest : Bytes} (h : validDigest digest = true) :
    ∀ word ∈ spaces, ¬ word <:+ digest := by
  intro word hword hsuffix
  simp only [validDigest, Bool.and_eq_true, decide_eq_true_eq, List.all_eq_true] at h
  obtain ⟨⟨-, hlength⟩, hhex⟩ := h
  have hlast := space_last word hword
  cases hbyte : word.getLast? with
  | none => exact space_ne_nil word hword (List.getLast?_eq_none_iff.mp hbyte)
  | some b =>
      rw [hbyte] at hlast
      have hdigest : digest.getLast? = some b := by
        obtain ⟨front, rfl⟩ := hsuffix
        rw [List.getLast?_append, hbyte]
        rfl
      have hmem : b ∈ digest.drop 7 := by
        refine List.mem_of_getLast? ?_
        rw [List.getLast?_drop, if_neg (by omega), hdigest]
      rw [Option.all_some, hhex b hmem] at hlast
      cases hlast

/-- What `String` writes of the tag. -/
def tagPart (tag : Bytes) : Bytes := if tag ≠ [] then colon :: tag else []

theorem mem_tagPart {tag : Bytes} {b : UInt8} (hb : b ≠ colon) (h : b ∉ tag) :
    b ∉ tagPart tag := by
  simp only [tagPart]
  split
  · simp [hb, h]
  · exact List.not_mem_nil

theorem string_eq (r : Ref) : r.string =
    (host r.registry ++ slash :: (r.repo ++ tagPart r.tag)) ++
      (if r.digest ≠ [] then atSign :: r.digest else []) := by
  simp only [Ref.string, host, tagPart, List.append_assoc, List.cons_append]

theorem trimSpace_string (h : WellFormed r) : trimSpace r.string = r.string := by
  refine trim_of_trimmed ⟨fun word hword hhead => ?_, fun word hword hsuffix => ?_⟩
  · rw [string_eq, List.append_assoc, List.cons_append] at hhead
    exact h.registry.host.start word hword
      (prefix_of_not_mem hhead (mem_space word hword).1)
  · rw [string_eq] at hsuffix
    by_cases hdigest : r.digest = []
    · obtain ⟨htag, hstop⟩ := h.stop hdigest
      rw [if_neg (not_not_intro hdigest), List.append_nil, tagPart, if_pos htag,
        ← List.cons_append, ← List.append_assoc] at hsuffix
      exact hstop word hword (suffix_of_not_mem hsuffix (mem_space word hword).2.1)
    · rw [if_pos hdigest] at hsuffix
      exact digest_stop (h.digest.resolve_left hdigest) word hword
        (suffix_of_not_mem hsuffix (mem_space word hword).2.2)

theorem parseRef_string (h : WellFormed r) :
    parseRef toLower r.string =
      checkRepo toLower r.registry (qualify r.registry (splitTag (r.repo ++ tagPart r.tag)).1)
        (splitTag (r.repo ++ tagPart r.tag)).2 r.digest := by
  have hrest : r.repo ++ tagPart r.tag ≠ [] := fun hnil =>
    h.repo.1 (List.append_eq_nil_iff.mp hnil).1
  have hname : ∀ digest, parseName toLower
      (host r.registry ++ slash :: (r.repo ++ tagPart r.tag)) digest =
        checkRepo toLower r.registry
          (qualify r.registry (splitTag (r.repo ++ tagPart r.tag)).1)
          (splitTag (r.repo ++ tagPart r.tag)).2 digest := by
    intro digest
    simp only [parseName, splitRegistry_host h.registry hrest]
  have hat : atSign ∉ host r.registry ++ slash :: (r.repo ++ tagPart r.tag) := by
    have htag := mem_tagPart (by decide : atSign ≠ colon) h.tag.2.2
    have hne : atSign ≠ slash := by decide
    simp only [List.mem_append, List.mem_cons, hne, h.registry.host.atSign, h.repo.2, htag,
      or_self, not_false_eq_true]
  have hne : r.string ≠ [] := by
    rw [string_eq]
    simp
  simp only [parseRef, trimSpace_string h]
  rw [if_neg hne, string_eq]
  by_cases hdigest : r.digest = []
  · rw [if_neg (not_not_intro hdigest), List.append_nil, cutFirst_eq_none.mpr hat, hdigest]
    exact hname []
  · rw [if_pos hdigest, cutFirst_append hat]
    simp only
    rw [if_pos (h.digest.resolve_left hdigest)]
    exact hname r.digest

theorem checkRepo_ok {registry repo tag digest : Bytes}
    (h : checkRepo toLower registry repo tag digest = .ok r) :
    repo ≠ [] ∧ atSign ∉ repo ∧
      r = ⟨registry, repo, if tag = [] ∧ digest = [] then ascii "latest" else tag, digest⟩ ∧
      checkRepo toLower registry repo r.tag digest = .ok r := by
  simp only [checkRepo] at h
  split at h
  · cases h
  · next hgood =>
      cases h
      rw [not_or, not_or] at hgood
      refine ⟨hgood.1, fun hat => ?_, rfl, ?_⟩
      · refine hgood.2.1 (List.any_eq_true.mpr ⟨atSign, hat, ?_⟩)
        simp
      · simp only [checkRepo]
        rw [if_neg (by rw [not_or, not_or]; exact hgood)]
        by_cases htag : tag = [] ∧ digest = []
        · rw [if_pos htag, if_neg]
          exact fun hboth => absurd hboth.1 (by decide)
        · rw [if_neg htag, if_neg htag]

theorem parseRef_ok (h : parseRef toLower s = .ok r) :
    ∃ before, atSign ∉ before ∧ (∀ word ∈ spaces, ¬ word <+: before) ∧
      (trimSpace s = before ∧ r.digest = [] ∧ (∀ word ∈ spaces, ¬ word <:+ before) ∨
        cutFirst atSign (trimSpace s) = some (before, r.digest) ∧
          validDigest r.digest = true) ∧
      parseName toLower before r.digest = .ok r := by
  have htrimmed : Trimmed spaces (trimSpace s) := trim_trimmed space_ne_nil
  have hdigest : ∀ before digest, parseName toLower before digest = .ok r → r.digest = digest := by
    intro before digest hparse
    rw [(checkRepo_ok hparse).2.2.1]
  simp only [parseRef] at h
  split at h
  · cases h
  · cases hcut : cutFirst atSign (trimSpace s) with
    | none =>
        rw [hcut] at h
        have hnone := hdigest _ _ h
        exact ⟨trimSpace s, cutFirst_eq_none.mp hcut, htrimmed.start,
          .inl ⟨rfl, hnone, htrimmed.stop⟩, by rw [hnone]; exact h⟩
    | some cut =>
        obtain ⟨before, digest⟩ := cut
        rw [hcut] at h
        simp only at h
        split at h
        · next hvalid =>
            have hsame := hdigest _ _ h
            obtain ⟨heq, hat⟩ := cutFirst_eq_some.mp hcut
            refine ⟨before, hat, fun word hword hhead => ?_, .inr ⟨by rw [hsame], ?_⟩, ?_⟩
            · refine htrimmed.start word hword (hhead.trans ?_)
              rw [heq]
              exact List.prefix_append _ _
            · rw [hsame]
              exact hvalid
            · rw [hsame]
              exact h
        · cases h

theorem qualify_eq {registry repo : Bytes} (h : registry = dockerHub → slash ∈ repo) :
    qualify registry repo = repo := if_neg fun hboth => hboth.2 (h hboth.1)

theorem qualify_cases (registry repo : Bytes) :
    (registry = dockerHub ∧ qualify registry repo = ascii "library/" ++ repo) ∨
      ((registry = dockerHub → slash ∈ repo) ∧ qualify registry repo = repo) := by
  by_cases hplain : registry = dockerHub ∧ slash ∉ repo
  · exact .inl ⟨hplain.1, if_pos hplain⟩
  · refine .inr ⟨fun hhub => ?_, if_neg hplain⟩
    by_contra hslash
    exact hplain ⟨hhub, hslash⟩

theorem slash_mem_qualify (registry repo : Bytes) (hhub : registry = dockerHub) :
    slash ∈ qualify registry repo := by
  rcases qualify_cases registry repo with ⟨-, heq⟩ | ⟨hslash, heq⟩
  · rw [heq]
    exact List.mem_append_left _ (by decide)
  · rw [heq]
    exact hslash hhub

theorem untagged_qualify (registry repo : Bytes) :
    Untagged (qualify registry repo) ↔ Untagged repo := by
  rcases qualify_cases registry repo with ⟨-, heq⟩ | ⟨-, heq⟩
  · rw [heq]
    constructor
    · intro h a b hab
      refine h (ascii "library/" ++ a) b ?_
      rw [hab, List.append_assoc]
    · intro h a b hab
      rcases List.append_eq_append_iff.mp hab with ⟨more, -, hrepo⟩ | ⟨more, hlibrary, hrepo⟩
      · exact h more b hrepo
      · cases more with
        | nil => exact h [] b hrepo.symm
        | cons x more =>
            have hin : colon ∈ ascii "library/" := by
              rw [hlibrary, (List.cons.inj hrepo).1]
              exact List.mem_append_right _ List.mem_cons_self
            exact absurd hin (by decide)
  · rw [heq]

/-- A pinned reference that ends with a colon before its digest, and has another colon before
that in the same part of the path. -/
def EmptyTag (s : Bytes) : Prop :=
  ∃ before digest, cutFirst atSign (trimSpace s) = some (before, digest) ∧ DoubleColon before

/-- The parts of a reference that was parsed. -/
structure Parsed (toLower : Bytes → Bytes) (s : Bytes) (r : Ref) : Prop extends WellFormed r where
  hub : r.registry = dockerHub → slash ∈ r.repo
  again : checkRepo toLower r.registry r.repo r.tag r.digest = .ok r
  emptyTag : EmptyTag s ↔ r.tag = [] ∧ ¬ Untagged r.repo

theorem splitTag_tag (s : Bytes) :
    colon ∉ (splitTag s).2 ∧ slash ∉ (splitTag s).2 ∧ (splitTag s).2 <:+ s := by
  rcases splitTag_cases s with ⟨p, t, hs, hcolon, hslash, hcut⟩ | ⟨-, hcut⟩
  · rw [hcut]
    refine ⟨hcolon, hslash, ?_⟩
    rw [hs]
    exact (List.suffix_cons ..).trans (List.suffix_append ..)
  · rw [hcut]
    exact ⟨List.not_mem_nil, List.not_mem_nil, List.nil_suffix⟩

theorem parsed (h : parseRef toLower s = .ok r) : Parsed toLower s r := by
  obtain ⟨before, hat, hstart, hdigest, hparse⟩ := parseRef_ok h
  obtain ⟨hregistry, hsuffix, hcolons⟩ := splitRegistry_spec hat hstart
  obtain ⟨hcolon, hslash, htag⟩ := splitTag_tag (splitRegistry before).2
  have htwo := doubleColon_iff (s := (splitRegistry before).2)
  have hcheck : checkRepo toLower (splitRegistry before).1
      (qualify (splitRegistry before).1 (splitTag (splitRegistry before).2).1)
      (splitTag (splitRegistry before).2).2 r.digest = .ok r := hparse
  obtain ⟨hrepo, hrepoAt, hr, hagain⟩ := checkRepo_ok hcheck
  have hhub := slash_mem_qualify (splitRegistry before).1 (splitTag (splitRegistry before).2).1
  clear hparse hcheck
  rw [hcolons, ← untagged_qualify (splitRegistry before).1] at htwo
  generalize (splitTag (splitRegistry before).2).2 = tag at *
  generalize qualify (splitRegistry before).1 (splitTag (splitRegistry before).2).1 = repo at *
  generalize (splitRegistry before).1 = registry at *
  have hregistry' : r.registry = registry := congrArg Ref.registry hr
  have hrepo' : r.repo = repo := congrArg Ref.repo hr
  have htag' : r.tag = if tag = [] ∧ r.digest = [] then ascii "latest" else tag :=
    congrArg Ref.tag hr
  have hempty : r.tag = [] ↔ tag = [] ∧ r.digest ≠ [] := by
    rw [htag']
    by_cases hboth : tag = [] ∧ r.digest = []
    · rw [if_pos hboth]
      exact ⟨fun hnil => absurd hnil (by decide), fun hnot => absurd hboth.2 hnot.2⟩
    · rw [if_neg hboth]
      exact ⟨fun hnil => ⟨hnil, fun hdigest => hboth ⟨hnil, hdigest⟩⟩, fun hnil => hnil.1⟩
  exact {
    registry := hregistry' ▸ hregistry
    repo := by
      rw [hrepo']
      exact ⟨hrepo, hrepoAt⟩
    tag := by
      rw [htag']
      split
      · exact ⟨by decide, by decide, by decide⟩
      · exact ⟨hcolon, hslash, fun hmem => hat ((htag.trans hsuffix).mem hmem)⟩
    digest := by
      rcases hdigest with ⟨-, hnil, -⟩ | ⟨-, hvalid⟩
      · exact .inl hnil
      · exact .inr hvalid
    stop := by
      intro hnil
      refine ⟨fun htagnil => (hempty.mp htagnil).2 hnil, ?_⟩
      rw [htag']
      split
      · decide
      · rcases hdigest with ⟨-, -, hstop⟩ | ⟨-, hvalid⟩
        · exact fun word hword hend => hstop word hword (hend.trans (htag.trans hsuffix))
        · rw [hnil] at hvalid
          cases hvalid
    hub := by
      rw [hregistry', hrepo']
      exact hhub
    again := by
      rw [hregistry', hrepo']
      exact hagain
    emptyTag := by
      rw [hrepo', hempty]
      constructor
      · intro hboth
        obtain ⟨before', digest, hcut, hdouble⟩ := hboth
        rcases hdigest with ⟨htrim, -, -⟩ | ⟨hcut', hvalid⟩
        · rw [htrim, cutFirst_eq_none.mpr hat] at hcut
          cases hcut
        · rw [hcut'] at hcut
          cases hcut
          obtain ⟨htagnil, huntagged⟩ := htwo.mp hdouble
          refine ⟨⟨htagnil, fun hnil => ?_⟩, huntagged⟩
          rw [hnil] at hvalid
          cases hvalid
      · intro hboth
        obtain ⟨⟨htagnil, hsome⟩, huntagged⟩ := hboth
        rcases hdigest with ⟨-, hnil, -⟩ | ⟨hcut, -⟩
        · exact absurd hnil hsome
        · exact ⟨before, r.digest, hcut, htwo.mpr ⟨htagnil, huntagged⟩⟩ }

/-- A parsed reference that is written out is read as itself, unless its tag was empty and the
repository ends with what looks like one. -/
theorem parseRef_string_iff (h : parseRef toLower s = .ok r) :
    parseRef toLower r.string = .ok r ↔ ¬ EmptyTag s := by
  have hparsed := parsed h
  rw [parseRef_string hparsed.toWellFormed, hparsed.emptyTag]
  have hsame : ∀ cut, cut = (r.repo, r.tag) →
      checkRepo toLower r.registry (qualify r.registry cut.1) cut.2 r.digest = .ok r := by
    intro cut hcut
    rw [hcut, qualify_eq hparsed.hub]
    exact hparsed.again
  by_cases htag : r.tag = []
  · rw [tagPart, if_neg (not_not_intro htag), List.append_nil]
    rcases splitTag_cases r.repo with ⟨a, b, hrepo, -, hslash, hcut⟩ | ⟨huntagged, hcut⟩
    · have htagged : ¬ Untagged r.repo := fun huntagged => hslash (huntagged a b hrepo)
      refine iff_of_false (fun hok => ?_) (not_not_intro ⟨htag, htagged⟩)
      rw [hcut, qualify_eq] at hok
      · have hshort : r.repo = a := congrArg Ref.repo (checkRepo_ok hok).2.2.1
        have hlength := congrArg List.length (hrepo.symm.trans hshort)
        rw [List.length_append, List.length_cons] at hlength
        omega
      · intro hhub
        have hin := hparsed.hub hhub
        rw [hrepo, List.mem_append, List.mem_cons] at hin
        rcases hin with hin | heq | hin
        · exact hin
        · exact absurd heq (by decide)
        · exact absurd hin hslash
    · exact iff_of_true (hsame _ (by rw [hcut, htag])) fun hboth => hboth.2 huntagged
  · rw [tagPart, if_pos htag, splitTag_tagged hparsed.tag.1 hparsed.tag.2.1]
    exact iff_of_true (hsame _ rfl) fun hboth => htag hboth.1

def zeroDigest : Bytes := sha256Prefix ++ List.replicate 64 0x30

theorem parseRef_string_pinned :
    parseRef id (Ref.string ⟨ascii "ghcr.io", ascii "omnirush-ai/box-base", ascii "2026.10.1",
        zeroDigest⟩) =
      .ok ⟨ascii "ghcr.io", ascii "omnirush-ai/box-base", ascii "2026.10.1", zeroDigest⟩ ↔
    ¬ EmptyTag (ascii " ghcr.io/omnirush-ai/box-base:2026.10.1@" ++ zeroDigest) :=
  parseRef_string_iff (by rfl)

/-- The empty tag is left out, and what was the end of the repository is the tag. -/
theorem parseRef_string_emptyTag :
    parseRef id (ascii "a:b:@" ++ zeroDigest) =
        .ok ⟨dockerHub, ascii "library/a:b", [], zeroDigest⟩ ∧
      parseRef id (Ref.string ⟨dockerHub, ascii "library/a:b", [], zeroDigest⟩) =
        .ok ⟨dockerHub, ascii "library/a", ascii "b", zeroDigest⟩ :=
  ⟨by rfl, by rfl⟩

end OmniRush.Oci
