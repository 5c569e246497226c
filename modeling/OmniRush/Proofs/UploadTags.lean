import Mathlib.Algebra.Group.Nat.Defs
import OmniRush.Archive.Upload
import OmniRush.Lib.JsonRoundTrip

/-!
# The tags of an upload and the ranges of its parts

What `setEtag`, `clearEtags` and a listing do to the tag of each part, and how far the
loop over the parts still is from its end (`toGo`): a part without a tag weighs seven,
a refusal that is still allowed two, a first part without a URL one. Every turn of the
loop pays.

The parts of an upload that was cut by `ceilDiv` are ranges of the file, none empty,
and every byte is in exactly one.
-/

namespace OmniRush.Archive

open OmniRush

/-! ## Tags -/

theorem partKey_inj {p q : Nat} (h : partKey p = partKey q) : p = q := by
  have hchars := String.ofList_injective h
  have hp := @Json.parseNat_natChars p [] rfl
  rw [hchars, Json.parseNat_natChars q rfl] at hp
  exact (Prod.mk.inj (Option.some.inj hp)).1.symm

namespace ArchiveUploadState

variable {u : ArchiveUploadState} {size part q : Nat} {e e' : String}

@[simp] theorem etag_setEtag :
    (u.setEtag part e).etag q = if q = part then (some e).filter nonEmpty else u.etag q := by
  unfold etag setEtag
  simp only [List.find?_append, List.find?_filter]
  by_cases hq : q = part
  · rw [if_pos hq, List.find?_eq_none.mpr, Option.none_or, List.find?_cons_of_pos]
    · rfl
    · rw [hq]
      exact decide_eq_true rfl
    · intro a _ ha
      simp only [hq, decide_eq_true_eq] at ha
      exact ha.1 ha.2
  · have hkey : partKey part ≠ partKey q := fun h => hq (partKey_inj h).symm
    have hlast : [(partKey part, e)].find? (fun e => decide (e.1 = partKey q)) = none :=
      List.find?_cons_of_neg fun h => hkey (of_decide_eq_true h)
    have hsame : (fun a : String × String =>
        decide (decide (a.1 ≠ partKey part) = true ∧ decide (a.1 = partKey q) = true)) =
        fun a => decide (a.1 = partKey q) := by
      funext a
      rw [Bool.eq_iff_iff]
      simp only [decide_eq_true_eq]
      exact ⟨fun h => h.2, fun h => ⟨fun h' => hkey (h'.symm.trans h), h⟩⟩
    rw [if_neg hq, hlast, Option.or_none, hsame]

@[simp] theorem setEtag_partSize : (u.setEtag part e).partSize = u.partSize := rfl

@[simp] theorem setEtag_partCount : (u.setEtag part e).partCount = u.partCount := rfl

@[simp] theorem setEtag_clearEtags : (u.setEtag part e).clearEtags = u.clearEtags := rfl

@[simp] theorem clearEtags_clearEtags : u.clearEtags.clearEtags = u.clearEtags := rfl

@[simp] theorem etag_clearEtags : u.clearEtags.etag q = none := rfl

theorem mem_missing :
    q ∈ u.missing ↔ 1 ≤ q ∧ q ≤ u.partCount ∧ u.etag q = none := by
  unfold missing
  rw [List.mem_filter, List.mem_map, Option.isNone_iff_eq_none, and_assoc.symm]
  constructor
  · rintro ⟨⟨i, hi, rfl⟩, hnone⟩
    have hi := List.mem_range.mp hi
    exact ⟨⟨by omega, by omega⟩, hnone⟩
  · rintro ⟨⟨h1, hcount⟩, hnone⟩
    exact ⟨⟨q - 1, List.mem_range.mpr (by omega), by omega⟩, hnone⟩

theorem length_missing_le : u.missing.length ≤ u.partCount := by
  unfold missing
  refine (List.length_filter_le _ _).trans (le_of_eq ?_)
  rw [List.length_map, List.length_range]

/-- Tags that `u` has, `u'` has too, perhaps others. -/
structure Grows (u u' : ArchiveUploadState) : Prop where
  same : u'.clearEtags = u.clearEtags
  tagged : ∀ q, u'.etag q = none → u.etag q = none

theorem Grows.refl : Grows u u := ⟨rfl, fun _ h => h⟩

theorem Grows.trans {u' u'' : ArchiveUploadState} (h : Grows u u') (h' : Grows u' u'') :
    Grows u u'' := ⟨h'.same.trans h.same, fun q hq => h.tagged q (h'.tagged q hq)⟩

theorem Grows.partCount {u' : ArchiveUploadState} (h : Grows u u') :
    u'.partCount = u.partCount := by
  have heq := congrArg (fun v : ArchiveUploadState => v.partCount) h.same
  exact heq

theorem Grows.partSize {u' : ArchiveUploadState} (h : Grows u u') :
    u'.partSize = u.partSize := by
  have heq := congrArg (fun v : ArchiveUploadState => v.partSize) h.same
  exact heq

theorem grows_setEtag (he : nonEmpty e = true) : Grows u (u.setEtag part e) := by
  refine ⟨rfl, fun q hq => ?_⟩
  rw [etag_setEtag] at hq
  split at hq
  · rw [Option.filter_some_pos he] at hq
    cases hq
  · exact hq

theorem Grows.missing {u' : ArchiveUploadState} (h : Grows u u') :
    u'.missing = u.missing.filter fun q => (u'.etag q).isNone := by
  unfold ArchiveUploadState.missing
  rw [h.partCount, List.filter_filter]
  refine List.filter_congr fun q _ => ?_
  rw [Bool.eq_iff_iff, Bool.and_eq_true]
  simp only [Option.isNone_iff_eq_none]
  exact ⟨fun hq => ⟨hq, h.tagged q hq⟩, fun hq => hq.1⟩

theorem Grows.missing_le {u' : ArchiveUploadState} (h : Grows u u') :
    u'.missing.length ≤ u.missing.length := by
  rw [h.missing]
  exact List.length_filter_le _ _

theorem Grows.missing_lt {u' : ArchiveUploadState} (h : Grows u u') (hpart : part ∈ u.missing)
    (hetag : u'.etag part ≠ none) : u'.missing.length < u.missing.length := by
  rw [h.missing]
  refine lt_of_le_of_ne (List.length_filter_le _ _) fun heq => ?_
  have hall := List.length_filter_eq_length_iff.mp heq part hpart
  exact hetag (Option.isNone_iff_eq_none.mp hall)

theorem Grows.head_missing {u' : ArchiveUploadState} {rest : List Nat} (h : Grows u u')
    (hmissing : u.missing = part :: rest) (hetag : u'.etag part = none) :
    ∃ rest', u'.missing = part :: rest' := by
  refine ⟨rest.filter fun q => (u'.etag q).isNone, ?_⟩
  rw [h.missing, hmissing, List.filter_cons_of_pos]
  rw [hetag]
  rfl

/-! ## A listing -/

theorem grows_learn : ∀ {u : ArchiveUploadState} {held : List HeldPart},
    (∀ part ∈ held, nonEmpty part.etag = true) → Grows u (u.learn size held).1
  | _, [], _ => Grows.refl
  | u, part :: rest, hheld => by
      have hrest := fun p hp => hheld p (List.mem_cons_of_mem _ hp)
      unfold learn
      split
      · exact (grows_setEtag (hheld part List.mem_cons_self)).trans (grows_learn hrest)
      · exact grows_learn hrest

/-- A tag after a listing was there before, or the listing holds the whole part. -/
theorem etag_learn {e : String} : ∀ {u : ArchiveUploadState} {held : List HeldPart},
    (u.learn size held).1.etag q = some e →
    u.etag q = some e ∨
      (q, e) ∈ (held.filter (u.holds size)).map fun h => (h.part, h.etag)
  | _, [], h => .inl h
  | u, part :: rest, h => by
      unfold learn at h
      split at h
      · next hholds =>
          rcases etag_learn h with hetag | hmem
          · rw [etag_setEtag] at hetag
            split at hetag
            · next hq =>
                obtain rfl := Option.some.inj (Option.eq_some_of_filter_eq_some hetag)
                right
                rw [List.filter_cons_of_pos hholds.1, List.map_cons, hq]
                exact List.mem_cons_self
            · exact .inl hetag
          · right
            rw [List.filter_cons_of_pos hholds.1, List.map_cons]
            exact List.mem_cons_of_mem _ hmem
      · rcases etag_learn h with hetag | hmem
        · exact .inl hetag
        · right
          obtain ⟨p, hp, heq⟩ := List.mem_map.mp hmem
          exact List.mem_map.mpr ⟨p, List.mem_filter.mpr
            ⟨List.mem_cons_of_mem _ (List.mem_filter.mp hp).1, (List.mem_filter.mp hp).2⟩, heq⟩

/-! ## How far the loop still is -/

/-- Whether the first missing part has no URL. -/
def unlisted (u : ArchiveUploadState) (urls : List (Nat × String)) : Bool :=
  u.missing.head?.any fun part => (urlOf urls part).isNone

def toGo (u : ArchiveUploadState) (urls : List (Nat × String)) (forbiddenInRow : Nat) : Nat :=
  7 * u.missing.length + 2 * (maxForbiddenInRow - forbiddenInRow)
    + if u.unlisted urls then 1 else 0

theorem toGo_le (u : ArchiveUploadState) (urls : List (Nat × String)) (forbiddenInRow : Nat) :
    u.toGo urls forbiddenInRow ≤ 7 * u.partCount + 5 := by
  have hlength := length_missing_le (u := u)
  unfold toGo maxForbiddenInRow
  split <;> omega

theorem toGo_tagged {u' : ArchiveUploadState} {urls urls' : List (Nat × String)}
    {forbiddenInRow forbiddenInRow' : Nat} (h : Grows u u') (hpart : part ∈ u.missing)
    (hetag : u'.etag part ≠ none) :
    u'.toGo urls' forbiddenInRow' < u.toGo urls forbiddenInRow := by
  have hlt := h.missing_lt hpart hetag
  unfold toGo maxForbiddenInRow
  split <;> omega

theorem toGo_listed {u' : ArchiveUploadState} {urls urls' : List (Nat × String)}
    {forbiddenInRow : Nat} {rest : List Nat} (h : Grows u u')
    (hmissing : u.missing = part :: rest) (hurl : urlOf urls part = none)
    (hetag : u'.etag part = none) (hurl' : urlOf urls' part ≠ none) :
    u'.toGo urls' forbiddenInRow < u.toGo urls forbiddenInRow := by
  have hle := h.missing_le
  obtain ⟨rest', hmissing'⟩ := h.head_missing hmissing hetag
  have hlisted : u'.unlisted urls' = false := by
    unfold unlisted
    rw [hmissing', List.head?_cons, Option.any_some]
    exact Option.isNone_eq_false_iff.mpr (Option.isSome_iff_ne_none.mpr hurl')
  have hunlisted : u.unlisted urls = true := by
    unfold unlisted
    rw [hmissing, List.head?_cons, Option.any_some, hurl]
    rfl
  unfold toGo
  rw [hlisted, hunlisted, if_pos rfl, if_neg Bool.false_ne_true]
  omega

theorem toGo_refused {urls urls' : List (Nat × String)} {forbiddenInRow : Nat}
    {rest : List Nat} (hmissing : u.missing = part :: rest)
    (hurl : urlOf urls part ≠ none) (hrow : ¬ forbiddenInRow + 1 > maxForbiddenInRow) :
    u.toGo urls' (forbiddenInRow + 1) < u.toGo urls forbiddenInRow := by
  have hlisted : u.unlisted urls = false := by
    unfold unlisted
    rw [hmissing, List.head?_cons, Option.any_some]
    exact Option.isNone_eq_false_iff.mpr (Option.isSome_iff_ne_none.mpr hurl)
  unfold toGo
  unfold maxForbiddenInRow at hrow ⊢
  rw [hlisted, if_neg Bool.false_ne_true]
  split <;> omega

end ArchiveUploadState

/-! ## Ranges -/

theorem ceilDiv_le {size partSize : Nat} (h : 0 < partSize) : ceilDiv size partSize ≤ size := by
  unfold ceilDiv
  rw [Nat.div_le_iff_le_mul_add_pred h]
  have := Nat.le_mul_of_pos_left size h
  omega

theorem mul_lt_of_le_ceilDiv {size partSize part : Nat} (h : 0 < partSize) (hpart : 1 ≤ part)
    (hcount : part ≤ ceilDiv size partSize) : (part - 1) * partSize < size := by
  unfold ceilDiv at hcount
  have hle := (Nat.le_div_iff_mul_le h).mp hcount
  have hpos := Nat.le_mul_of_pos_left partSize hpart
  rw [Nat.sub_mul, Nat.one_mul]
  omega

theorem existsUnique_part {size partSize i : Nat} (h : 0 < partSize) (hi : i < size) :
    ∃! part, (1 ≤ part ∧ part ≤ ceilDiv size partSize) ∧
      (part - 1) * partSize ≤ i ∧ i < min (part * partSize) size := by
  have hdiv := Nat.div_mul_le_self i partSize
  have hlt := Nat.lt_div_mul_add h (a := i)
  refine ⟨i / partSize + 1, ⟨⟨Nat.le_add_left _ _, ?_⟩, ?_, ?_⟩, ?_⟩
  · unfold ceilDiv
    rw [Nat.le_div_iff_mul_le h, Nat.add_mul, Nat.one_mul]
    omega
  · rwa [Nat.add_sub_cancel]
  · rw [Nat.add_mul, Nat.one_mul, Nat.lt_min]
    exact ⟨hlt, hi⟩
  · rintro part ⟨⟨hpart, -⟩, hlow, hhigh⟩
    have hhigh := (Nat.lt_min.mp hhigh).1
    have hquot : i / partSize = part - 1 := by
      refine Nat.div_eq_of_lt_le hlow ?_
      rwa [Nat.sub_add_cancel hpart]
    omega

end OmniRush.Archive
