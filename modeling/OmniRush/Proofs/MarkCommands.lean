import OmniRush.Lib.Lists
import OmniRush.Proofs.CommandStarts

/-!
# Marking and stripping

Commands are marked where they start, which is after any boundary, and markers are stripped after
a blank only. So a marker comes off again where the command is the first of the line or has a
blank before it (`strip_inserted`), and otherwise it stays and the next marking writes another.

Both passes leave a word alone up to its first boundary, and a marker has no boundary in it: what
they look for at a place is decided by the word that stands there (`lead`).
-/

namespace OmniRush.Shell

/-! ## Words -/

/-- The characters of a text before its first boundary, and that boundary. -/
def lead : List Char → List Char × Option Char
  | [] => ([], none)
  | c :: rest => if isBoundary c then ([], some c) else (c :: (lead rest).1, (lead rest).2)

section

variable {c d : Char} {text rest left marker : List Char} {prev prev' : Option Char} {i n : Nat}
  {P : Nat → Bool}

theorem lead_append (h : ∀ c ∈ left, isBoundary c = false) :
    lead (left ++ text) = (left ++ (lead text).1, (lead text).2) := by
  induction left with
  | nil => rfl
  | cons c left ih =>
      obtain ⟨hc, hrest⟩ := List.forall_mem_cons.mp h
      rw [List.cons_append, lead, hc, ih hrest]
      rfl

theorem lead_eq_some (h : lead text = (marker, some c)) : ∃ rest, text = marker ++ c :: rest := by
  induction text generalizing marker with
  | nil => cases h
  | cons d rest ih =>
      rw [lead] at h
      split at h
      · cases h
        exact ⟨rest, rfl⟩
      · obtain ⟨rfl, hsome⟩ := Prod.mk.inj h
        obtain ⟨rest', hrest⟩ := ih (Prod.ext rfl hsome)
        exact ⟨rest', by rw [List.cons_append, ← hrest]⟩

theorem isSpace_of_not_boundary (h : isBoundary c = false) : isSpace c = false :=
  (Bool.or_eq_false_iff.mp h).1

theorem isBoundary_of_isSpace (h : isSpace c = true) : isBoundary c = true := by
  rw [isBoundary, h]
  rfl

/-! ## Along a text -/

/-- The relation holds at each character of a text, of the one before it, its position and the
text from it on. -/
def Along (R : Option Char → Nat → List Char → Prop) : Option Char → Nat → List Char → Prop
  | _, _, [] => True
  | prev, i, c :: rest => R prev i (c :: rest) ∧ Along R (some c) (i + 1) rest

theorem along_iff {R : Option Char → Nat → List Char → Prop} : Along R prev i text ↔
    ∀ before c after, text = before ++ c :: after →
      R (before.getLast?.or prev) (i + before.length) (c :: after) := by
  induction text generalizing prev i with
  | nil => exact ⟨fun _ before c after h => by simp at h, fun _ => trivial⟩
  | cons c rest ih =>
      rw [Along, ih]
      constructor
      · rintro ⟨hhere, hrest⟩ before d after h
        cases before with
        | nil =>
            obtain ⟨rfl, rfl⟩ := List.cons.inj h
            exact hhere
        | cons b before =>
            obtain ⟨rfl, hsplit⟩ := List.cons.inj h
            have hlater := hrest before d after hsplit
            rw [List.getLast?_cons, List.length_cons]
            rw [Nat.add_assoc, Nat.add_comm 1] at hlater
            cases hlast : before.getLast? <;> rwa [hlast] at hlater
      · intro h
        refine ⟨h [] c rest rfl, fun before d after hsplit => ?_⟩
        have hlater := h (c :: before) d after (by rw [hsplit]; rfl)
        rw [List.getLast?_cons, List.length_cons] at hlater
        rw [Nat.add_assoc, Nat.add_comm 1]
        cases hlast : before.getLast? <;> rwa [hlast] at hlater

theorem Along.append {R : Option Char → Nat → List Char → Prop}
    (h : Along R prev i (left ++ c :: rest)) : Along R (some c) (i + left.length + 1) rest := by
  induction left generalizing prev i with
  | nil => exact h.2
  | cons d left ih =>
      have hrest := ih h.2
      rwa [Nat.add_right_comm i, Nat.add_assoc i] at hrest

/-! ## Markers -/

theorem markerRun_isSome {marker : String} (h : ∀ c ∈ marker.toList, isBoundary c = false) :
    (markerRun marker text).isSome = true ↔
      ∃ c, lead text = (marker.toList, some c) ∧ isSpace c = true := by
  have hblanks : ∀ c rest, text = marker.toList ++ c :: rest →
      (text.drop marker.length).takeWhile isSpace = (c :: rest).takeWhile isSpace :=
    fun c rest htext => by rw [htext, ← String.length_toList, List.drop_left]
  unfold markerRun
  dsimp only
  constructor
  · intro hsome
    split at hsome
    · next hmatch =>
        obtain ⟨after, htext⟩ := startsWith_iff.mp hmatch.1
        have hblank := hmatch.2
        rw [htext, ← String.length_toList, List.drop_left] at hblank
        cases after with
        | nil => exact absurd rfl hblank
        | cons c rest =>
            cases hc : isSpace c with
            | false => exact absurd (List.takeWhile_cons_of_neg (by simp [hc])) hblank
            | true =>
                refine ⟨c, ?_, hc⟩
                rw [htext, lead_append h, lead, isBoundary_of_isSpace hc]
                simp
    · cases hsome
  · rintro ⟨c, hlead, hc⟩
    obtain ⟨rest, htext⟩ := lead_eq_some hlead
    have hne : (text.drop marker.length).takeWhile isSpace ≠ [] := by
      rw [hblanks c rest htext, List.takeWhile_cons_of_pos hc]
      exact List.cons_ne_nil _ _
    rw [if_pos ⟨startsWith_iff.mpr ⟨_, htext⟩, hne⟩]
    rfl

theorem none_of_any {p : Char → Bool} {cs : List Char} (h : cs.any p = false) :
    ∀ c ∈ cs, p c = false :=
  fun c hc => Bool.eq_false_iff.mpr (List.any_eq_false.mp h c hc)

theorem destructiveMarker_plain : ∀ c ∈ destructiveMarker.toList, isBoundary c = false :=
  none_of_any (by decide)

theorem destructiveMarker_cons :
    destructiveMarker.toList = 'D' :: "ESTRUCTIVE_COMMAND=1".toList := by
  decide

theorem legacyDestructiveMarker_plain :
    ∀ c ∈ legacyDestructiveMarker.toList, isBoundary c = false :=
  none_of_any (by decide)

theorem markerMatch_congr (h : lead text = lead rest)
    (hprev : prev.all isSpace = prev'.all isSpace) :
    markerMatch prev text = none ↔ markerMatch prev' rest = none := by
  have hrun : ∀ marker : String, (∀ c ∈ marker.toList, isBoundary c = false) →
      (markerRun marker text = none ↔ markerRun marker rest = none) := fun marker hmarker => by
    rw [← Option.not_isSome_iff_eq_none, ← Option.not_isSome_iff_eq_none,
      markerRun_isSome hmarker, markerRun_isSome hmarker, h]
  unfold markerMatch
  rw [hprev]
  split
  · rw [Option.or_eq_none_iff, Option.or_eq_none_iff, hrun _ destructiveMarker_plain,
      hrun _ legacyDestructiveMarker_plain]
  · rfl

theorem markerMatch_inside (hc : isSpace c = false) : markerMatch (some c) text = none := by
  unfold markerMatch
  rw [if_neg (by simp [hc])]

theorem markerMatch_marker (hprev : prev.all isSpace = true) (rest : List Char) :
    markerMatch prev (destructiveMarker.toList ++ ' ' :: rest) =
      some (destructiveMarker.length + (' ' :: rest.takeWhile isSpace).length) := by
  have hdrop : (destructiveMarker.toList ++ ' ' :: rest).drop destructiveMarker.length =
      ' ' :: rest := by
    rw [← String.length_toList, List.drop_left]
  unfold markerMatch markerRun
  rw [if_pos hprev, hdrop, List.takeWhile_cons_of_pos (by decide : isSpace ' ' = true)]
  dsimp only
  rw [if_pos ⟨startsWith_iff.mpr ⟨_, rfl⟩, List.cons_ne_nil _ _⟩]
  rfl

/-! ## Stripping -/

theorem stripFrom_none (h : markerMatch prev (c :: rest) = none) :
    stripFrom 0 prev (c :: rest) = c :: stripFrom 0 (some c) rest := by
  rw [stripFrom, h]

theorem stripFrom_congr (h : prev.all isSpace = prev'.all isSpace) :
    stripFrom n prev text = stripFrom n prev' text := by
  cases text with
  | nil => rw [stripFrom, stripFrom]
  | cons c rest =>
      cases n with
      | succ n => rw [stripFrom, stripFrom]
      | zero =>
          have hmatch : markerMatch prev (c :: rest) = markerMatch prev' (c :: rest) := by
            unfold markerMatch
            rw [h]
          rw [stripFrom, stripFrom, hmatch]

theorem stripFrom_skip : stripFrom left.length prev (left ++ text) =
    stripFrom 0 (left.getLast?.or prev) text := by
  induction left generalizing prev with
  | nil => rfl
  | cons c left ih =>
      rw [List.length_cons, List.cons_append, stripFrom, ih, List.getLast?_cons]
      cases left.getLast? <;> rfl

theorem stripFrom_word (hc : isSpace c = false) (h : ∀ d ∈ left, isSpace d = false) :
    stripFrom 0 (some c) (left ++ d :: rest) = left ++ d :: stripFrom 0 (some d) rest := by
  induction left generalizing c with
  | nil => exact stripFrom_none (markerMatch_inside hc)
  | cons e left ih =>
      obtain ⟨he, hrest⟩ := List.forall_mem_cons.mp h
      rw [List.cons_append, stripFrom_none (markerMatch_inside hc), ih he hrest]
      rfl

theorem stripFrom_lead : lead (c :: stripFrom 0 (some c) rest) = lead (c :: rest) := by
  induction rest generalizing c with
  | nil => rw [stripFrom]
  | cons d rest ih =>
      rw [lead, lead]
      split
      · rfl
      · next hc =>
          have hword : isSpace c = false := isSpace_of_not_boundary (Bool.eq_false_iff.mpr hc)
          rw [stripFrom_none (markerMatch_inside hword), ih]

/-- No marker is left at a place where it would be stripped. -/
def Unmarked (prev : Option Char) (i : Nat) (text : List Char) : Prop :=
  Along (fun prev _ text => markerMatch prev text = none) prev i text

theorem markerRun_last {marker : String} (h : markerRun marker text = some n) :
    ∃ last, (text.take n).getLast? = some last ∧ isSpace last = true := by
  unfold markerRun at h
  dsimp only at h
  split at h
  · next hmatch =>
      obtain ⟨after, htext⟩ := startsWith_iff.mp hmatch.1
      have hblank := hmatch.2
      cases h
      rw [htext, ← String.length_toList, List.drop_left] at hblank ⊢
      have htake : after.take (after.takeWhile isSpace).length = after.takeWhile isSpace :=
        List.prefix_iff_eq_take.mp (List.takeWhile_prefix _) |>.symm
      rw [List.take_length_add_append, htake, List.getLast?_append]
      obtain ⟨last, hlast⟩ := Option.isSome_iff_exists.mp (List.getLast?_isSome.mpr hblank)
      refine ⟨last, by rw [hlast]; rfl, ?_⟩
      exact List.all_eq_true.mp List.all_takeWhile last (List.mem_of_getLast? hlast)
  · cases h

/-- What is left has no marker in it, whatever the line had: no two parts of it make one where a
marker is taken out between them, since a blank is before the first one. -/
theorem unmarked_stripFrom
    (hprev : prev'.all isSpace = ((text.take n).getLast?.or prev).all isSpace) :
    Unmarked prev' i (stripFrom n prev text) := by
  fun_induction stripFrom n prev text generalizing prev' i with
  | case1 => trivial
  | case2 n prev c rest ih =>
      refine ih ?_
      rw [hprev, List.take_succ_cons, List.getLast?_cons]
      cases (rest.take n).getLast? <;> rfl
  | case3 prev c rest n hmatch ih =>
      have hblank : prev.all isSpace = true := by
        by_contra hnot
        rw [markerMatch, if_neg hnot] at hmatch
        cases hmatch
      rw [markerMatch, if_pos hblank] at hmatch
      obtain ⟨last, hlast, hspace⟩ : ∃ last, ((c :: rest).take n).getLast? = some last ∧
          isSpace last = true := by
        rcases Option.or_eq_some_iff.mp hmatch with hrun | ⟨-, hrun⟩
        · exact markerRun_last hrun
        · exact markerRun_last hrun
      refine ih ?_
      rw [hprev, List.take_zero]
      cases n with
      | zero => cases hlast
      | succ n =>
          rw [List.take_succ_cons, List.getLast?_cons] at hlast
          rw [Nat.add_sub_cancel]
          show prev.all isSpace = _
          rw [hblank]
          cases htake : (rest.take n).getLast? with
          | none =>
              rw [htake] at hlast
              cases hlast
              exact hspace.symm
          | some d =>
              rw [htake] at hlast
              cases hlast
              exact hspace.symm
  | case4 prev c rest hmatch ih =>
      exact ⟨(markerMatch_congr stripFrom_lead hprev).mpr hmatch, ih rfl⟩

theorem strip_unmarked (command : List Char) :
    Unmarked none 0 (stripDestructiveMarkers command) := unmarked_stripFrom rfl

/-! ## Marking -/

/-- What is put in front of a command. -/
def mark : List Char := (destructiveMarker ++ " ").toList

theorem mark_append (text : List Char) :
    mark ++ text = destructiveMarker.toList ++ ' ' :: text := by
  rw [mark, String.toList_append, List.append_assoc]
  rfl

/-- The text begins with a marker as it is written: one blank, and no second one. -/
def BeginsMarked (text : List Char) : Prop :=
  ∃ rest, text = destructiveMarker.toList ++ ' ' :: rest ∧ rest.head?.all (!isSpace ·) = true

/-- Marks are put in front of words, after boundaries. -/
def Placed (P : Nat → Bool) (prev : Option Char) (i : Nat) (text : List Char) : Prop :=
  Along (fun prev i text => P i = true →
    text.head?.all (!isSpace ·) = true ∧ prev.all isBoundary = true) prev i text

/-- Marks are put in after a blank, or in front of a marker. -/
def Removable (P : Nat → Bool) (prev : Option Char) (i : Nat) (text : List Char) : Prop :=
  Along (fun prev i text => P i = true → prev.all isSpace = true ∨ BeginsMarked text) prev i text

theorem Placed.not_inside (hc : isBoundary c = false) (h : Placed P (some c) i (d :: rest)) :
    P i = false := by
  cases hp : P i with
  | false => rfl
  | true => exact absurd (h.1 hp).2 (by simp [hc])

theorem inserted_of_not {piece : List Char} (h : P i = false) :
    inserted piece P i (c :: rest) = c :: inserted piece P (i + 1) rest := by
  rw [inserted, h]
  rfl

theorem Placed.word (piece : List Char) (hc : isBoundary c = false)
    (hword : ∀ d ∈ left, isBoundary d = false) (h : Placed P (some c) i (left ++ d :: rest)) :
    inserted piece P i (left ++ d :: rest) =
        left ++ d :: inserted piece P (i + left.length + 1) rest ∧
      (Removable P (some c) i (left ++ d :: rest) ↔
        Removable P (some d) (i + left.length + 1) rest) := by
  induction left generalizing c i with
  | nil =>
      have hnot := h.not_inside hc
      exact ⟨inserted_of_not hnot, fun hgood => hgood.2,
        fun hgood => ⟨fun hp => absurd (hnot.symm.trans hp) Bool.false_ne_true, hgood⟩⟩
  | cons e left ih =>
      obtain ⟨he, hrest⟩ := List.forall_mem_cons.mp hword
      have hnot := h.not_inside hc
      obtain ⟨hinserted, hgood⟩ := ih he hrest h.2
      rw [Nat.add_right_comm i, Nat.add_assoc i] at hinserted hgood
      rw [List.cons_append, List.cons_append, List.length_cons, inserted_of_not hnot, hinserted,
        ← hgood]
      exact ⟨rfl, fun hall => hall.2, fun hall =>
        ⟨fun hp => absurd (hnot.symm.trans hp) Bool.false_ne_true, hall⟩⟩

theorem Placed.lead {piece : List Char} (h : Placed P (some c) i rest) :
    lead (c :: inserted piece P i rest) = lead (c :: rest) := by
  induction rest generalizing c i with
  | nil => rfl
  | cons d rest ih =>
      rw [OmniRush.Shell.lead, OmniRush.Shell.lead]
      split
      · rfl
      · next hc =>
          rw [inserted_of_not (h.not_inside (Bool.eq_false_iff.mpr hc)), ih h.2]

theorem stripFrom_marker (hprev : prev.all isSpace = true) :
    stripFrom 0 prev (destructiveMarker.toList ++ ' ' :: rest) =
      stripFrom 0 (some ' ') (rest.dropWhile isSpace) := by
  have hblanks : rest = rest.takeWhile isSpace ++ rest.dropWhile isSpace :=
    List.takeWhile_append_dropWhile.symm
  have hall : (rest.takeWhile isSpace).all isSpace = true := List.all_takeWhile
  have hmatch := markerMatch_marker hprev rest
  generalize rest.takeWhile isSpace = blanks at *
  generalize rest.dropWhile isSpace = after at *
  subst hblanks
  have hskip : destructiveMarker.length + (' ' :: blanks).length - 1 =
      ("ESTRUCTIVE_COMMAND=1".toList ++ ' ' :: blanks).length := by
    rw [← String.length_toList, destructiveMarker_cons, List.length_cons, List.length_append]
    omega
  obtain ⟨last, hlast⟩ := Option.isSome_iff_exists.mp
    (List.getLast?_isSome.mpr (List.cons_ne_nil ' ' blanks))
  have hblank : isSpace last = true := by
    rcases List.mem_cons.mp (List.mem_of_getLast? hlast) with rfl | hin
    · decide
    · exact List.all_eq_true.mp hall last hin
  rw [destructiveMarker_cons, List.cons_append] at hmatch ⊢
  rw [stripFrom, hmatch]
  dsimp only
  rw [hskip, ← List.cons_append, ← List.append_assoc, stripFrom_skip, List.getLast?_append, hlast]
  exact stripFrom_congr (hblank.trans (by decide : isSpace ' ' = true).symm)

theorem strip_mark (hprev : prev.all isSpace = true) (hc : isSpace c = false)
    (hnone : markerMatch prev (c :: rest) = none) :
    stripFrom 0 prev (mark ++ c :: rest) = c :: stripFrom 0 (some c) rest := by
  have hsame : (some ' ').all isSpace = prev.all isSpace := by rw [hprev]; decide
  rw [mark_append, stripFrom_marker hprev, List.dropWhile_cons_of_neg (by simp [hc]),
    stripFrom_congr hsame, stripFrom_none hnone]

theorem strip_mark_stays (hprev : prev.all isSpace = false) :
    stripFrom 0 prev (mark ++ text) = mark ++ stripFrom 0 (some ' ') text := by
  have hnone : ∀ text, markerMatch prev text = none := fun text => by
    rw [markerMatch, if_neg (by simp [hprev])]
  have hword : ∀ c ∈ "ESTRUCTIVE_COMMAND=1".toList, isSpace c = false :=
    none_of_any (by decide)
  rw [mark_append, mark_append, destructiveMarker_cons, List.cons_append,
    stripFrom_none (hnone _), stripFrom_word (by decide) hword]
  rfl

theorem strip_inserted_cons (hplaced : Placed P prev i (c :: rest))
    (hunmarked : Unmarked prev i (c :: rest)) (h : prev.all isSpace = true ∨ P i = false) :
    stripFrom 0 prev (inserted mark P i (c :: rest)) =
      c :: stripFrom 0 (some c) (inserted mark P (i + 1) rest) := by
  have hnone : markerMatch prev (c :: inserted mark P (i + 1) rest) = none :=
    (markerMatch_congr (Placed.lead hplaced.2) rfl).mpr hunmarked.1
  cases hp : P i with
  | false => rw [inserted_of_not hp, stripFrom_none hnone]
  | true =>
      have hprev : prev.all isSpace = true := h.resolve_right (by simp [hp])
      have hc : isSpace c = false := by simpa using (hplaced.1 hp).1
      rw [inserted, hp, if_pos rfl, strip_mark hprev hc hnone]

theorem inserted_head (h : text.head?.all (!isSpace ·) = true) :
    (inserted mark P i text).dropWhile isSpace = inserted mark P i text := by
  cases text with
  | nil => rfl
  | cons c rest =>
      have hc : isSpace c = false := by simpa using h
      cases hp : P i with
      | false => rw [inserted_of_not hp, List.dropWhile_cons_of_neg (by simp [hc])]
      | true =>
          rw [inserted, hp, if_pos rfl, mark_append, destructiveMarker_cons, List.cons_append]
          exact List.dropWhile_cons_of_neg (by decide)

theorem Placed.dropWhile (hplaced : Placed P prev i text) (hunmarked : Unmarked prev i text)
    (hprev : prev.all isSpace = true) :
    ∃ prev' j, (inserted mark P i text).dropWhile isSpace =
        inserted mark P j (text.dropWhile isSpace) ∧ prev'.all isSpace = true ∧
      Placed P prev' j (text.dropWhile isSpace) ∧ Unmarked prev' j (text.dropWhile isSpace) := by
  induction text generalizing prev i with
  | nil => exact ⟨prev, i, rfl, hprev, hplaced, hunmarked⟩
  | cons c rest ih =>
      cases hc : isSpace c with
      | true =>
          have hnot : P i = false := by
            cases hp : P i with
            | false => rfl
            | true => exact absurd (hplaced.1 hp).1 (by simp [hc])
          rw [inserted_of_not hnot, List.dropWhile_cons_of_pos hc, List.dropWhile_cons_of_pos hc]
          exact ih hplaced.2 hunmarked.2 hc
      | false =>
          rw [List.dropWhile_cons_of_neg (by simp [hc])]
          exact ⟨prev, i, inserted_head (by simp [hc]), hprev, hplaced, hunmarked⟩

theorem strip_dropWhile (hplaced : Placed P (some ' ') i text)
    (hunmarked : Unmarked (some ' ') i text)
    (h : stripFrom 0 (some ' ') ((inserted mark P i text).dropWhile isSpace) = text) :
    text.head?.all (!isSpace ·) = true := by
  obtain ⟨prev', j, hdrop, hprev, hplaced', hunmarked'⟩ := hplaced.dropWhile hunmarked (by decide)
  have hhead := List.head?_dropWhile_not isSpace text
  have hsame : (some ' ').all isSpace = prev'.all isSpace := by rw [hprev]; decide
  rw [hdrop, stripFrom_congr hsame] at h
  cases hrest : text.dropWhile isSpace with
  | nil =>
      rw [hrest, inserted, stripFrom] at h
      rw [← h]
      rfl
  | cons c rest =>
      rw [hrest] at h hplaced' hunmarked' hhead
      rw [strip_inserted_cons hplaced' hunmarked' (.inl hprev)] at h
      rw [← h]
      simpa using hhead

theorem strip_inserted (hplaced : Placed P prev i text) (hunmarked : Unmarked prev i text) :
    stripFrom 0 prev (inserted mark P i text) = text ↔ Removable P prev i text := by
  induction hlength : text.length using Nat.strong_induction_on generalizing prev i text with
  | h n ih =>
  cases text with
  | nil => exact ⟨fun _ => trivial, fun _ => by rw [inserted, stripFrom]⟩
  | cons c rest =>
      by_cases hstrips : prev.all isSpace = true ∨ P i = false
      · have hhere : P i = true → prev.all isSpace = true ∨ BeginsMarked (c :: rest) := fun hp =>
          .inl (hstrips.resolve_right (by simp [hp]))
        have hrest := ih rest.length (by rw [← hlength, List.length_cons]; omega) hplaced.2
          hunmarked.2 rfl
        rw [strip_inserted_cons hplaced hunmarked hstrips, List.cons_inj_right, hrest]
        exact ⟨fun h => ⟨hhere, h⟩, fun h => h.2⟩
      · obtain ⟨hprev, hp⟩ := not_or.mp hstrips
        rw [Bool.not_eq_true] at hprev
        rw [Bool.not_eq_false] at hp
        -- the mark stays, so the line is as before only if it had a marker there
        have hmarked : ∀ after, c :: rest = destructiveMarker.toList ++ ' ' :: after → ∃ j,
            stripFrom 0 (some ' ') (c :: inserted mark P (i + 1) rest) =
              stripFrom 0 (some ' ') ((inserted mark P j after).dropWhile isSpace) ∧
            Placed P (some ' ') j after ∧ Unmarked (some ' ') j after ∧
            (Removable P (some c) (i + 1) rest ↔ Removable P (some ' ') j after) := by
          intro after heq
          have hplain : ∀ d ∈ "ESTRUCTIVE_COMMAND=1".toList, isBoundary d = false :=
            none_of_any (by decide)
          rw [destructiveMarker_cons, List.cons_append] at heq
          obtain ⟨rfl, rfl⟩ := List.cons.inj heq
          obtain ⟨hinserted, hremovable⟩ :=
            Placed.word mark (by decide) hplain hplaced.2
          refine ⟨_, ?_, Along.append hplaced.2, Along.append hunmarked.2, hremovable⟩
          rw [hinserted, ← List.cons_append, ← destructiveMarker_cons, stripFrom_marker (by decide)]
        have hshorter : ∀ after, c :: rest = destructiveMarker.toList ++ ' ' :: after →
            after.length < n := fun after heq => by
          rw [← hlength, heq, List.length_append, List.length_cons]
          omega
        rw [inserted, hp, if_pos rfl, strip_mark_stays hprev, mark_append]
        constructor
        · intro h
          obtain ⟨j, hstrip, hplaced', hunmarked', hremovable⟩ := hmarked _ h.symm
          have hhead := strip_dropWhile hplaced' hunmarked' hstrip.symm
          refine ⟨fun _ => .inr ⟨_, h.symm, hhead⟩, hremovable.mpr ?_⟩
          refine (ih _ (hshorter _ h.symm) hplaced' hunmarked' rfl).mp ?_
          rw [inserted_head hhead] at hstrip
          exact hstrip.symm
        · intro h
          obtain ⟨after, heq, hhead⟩ := (h.1 hp).resolve_left (by simp [hprev])
          obtain ⟨j, hstrip, hplaced', hunmarked', hremovable⟩ := hmarked _ heq
          have hafter := (ih _ (hshorter _ heq) hplaced' hunmarked' rfl).mpr (hremovable.mp h.2)
          rw [hstrip, inserted_head hhead, hafter]
          exact heq.symm

end

/-! ## The line -/

/-- Where the commands to be marked start. -/
def markedAt (command : List Char) (position : Nat) : Bool :=
  (destructiveCommands command).any fun entry => entry.segment.commandStart = position

theorem mem_starts {command : List Char} {position : Nat} :
    position ∈ ((destructiveCommands command).map fun entry => entry.segment.commandStart) ↔
      markedAt command position = true := by
  simp [markedAt]

theorem markedAt_wordAt {command : List Char} {position : Nat}
    (h : markedAt command position = true) : WordAt command position := by
  obtain ⟨entry, hentry, rfl⟩ := List.mem_map.mp (mem_starts.mpr h)
  exact destructive_wordAt hentry

theorem mark_inserted (command : List Char) : (markDestructiveCommands command).1 =
    inserted mark (markedAt (stripDestructiveMarkers command)) 0
      (stripDestructiveMarkers command) := by
  unfold markDestructiveCommands
  dsimp only
  generalize stripDestructiveMarkers command = clean
  split
  · next hnone =>
      exact (inserted_none fun j _ => by rw [markedAt, hnone]; rfl).symm
  · generalize hstarts : (destructiveCommands clean).map (fun entry =>
      entry.segment.commandStart) = starts
    generalize hoffsets : starts.eraseDups.insertionSort (· ≥ ·) = offsets
    have hmem : ∀ o, o ∈ offsets ↔ markedAt clean o = true := fun o => by
      rw [← hoffsets, List.mem_insertionSort, List.mem_eraseDups, ← hstarts, mem_starts]
    have hnodup : offsets.Nodup := by
      rw [← hoffsets]
      exact (List.perm_insertionSort _ _).nodup_iff.mpr (nodup_eraseDups _)
    have hsorted : offsets.Pairwise (· > ·) := by
      have hge : offsets.Pairwise (· ≥ ·) := by
        rw [← hoffsets]
        exact List.pairwise_insertionSort _ _
      exact (hge.and hnodup).imp fun h => Nat.lt_of_le_of_ne h.1 h.2.symm
    have hin : ∀ o ∈ offsets, o < clean.length := fun o ho => by
      obtain ⟨before, c, after, rfl, rfl, -⟩ := markedAt_wordAt ((hmem o).mp ho)
      simp
    refine (foldl_inserted hsorted hin).trans (inserted_congr fun j _ _ => ?_)
    rw [Bool.eq_iff_iff, List.contains_iff_mem, hmem]

theorem placed_markedAt (command : List Char) : Placed (markedAt command) none 0 command := by
  refine along_iff.mpr fun before c after heq hp => ?_
  obtain ⟨before', c', after', heq', hlength, hc, hbefore⟩ := markedAt_wordAt hp
  rw [Nat.zero_add] at hlength
  obtain ⟨rfl, hrest⟩ := List.append_inj (heq.symm.trans heq') hlength.symm
  obtain ⟨rfl, -⟩ := List.cons.inj hrest
  rw [Option.or_none]
  exact ⟨by simp [hc], hbefore⟩

/-- A marker in front of the position is stripped; or it stays, and the one that stands there
already is stripped in its place. -/
def ComesOff (command : List Char) (position : Nat) : Prop :=
  (command.take position).getLast?.all isSpace = true ∨ BeginsMarked (command.drop position)

theorem removable_iff (command : List Char) : Removable (markedAt command) none 0 command ↔
    ∀ entry ∈ destructiveCommands command, ComesOff command entry.segment.commandStart := by
  rw [Removable, along_iff]
  constructor
  · intro h entry hentry
    have hmarked := mem_starts.mp (List.mem_map_of_mem hentry)
    obtain ⟨before, c, after, heq, hlength, -⟩ := markedAt_wordAt hmarked
    have hgood := h before c after heq (by rwa [Nat.zero_add, hlength])
    rw [Option.or_none] at hgood
    rwa [ComesOff, ← hlength, heq, List.take_left, List.drop_left]
  · rintro h before c after rfl hp
    rw [Nat.zero_add] at hp
    obtain ⟨entry, hentry, hstart⟩ := List.mem_map.mp (mem_starts.mpr hp)
    have hgood := h entry hentry
    rwa [ComesOff, hstart, List.take_left, List.drop_left, ← Option.or_none (o := before.getLast?)]
      at hgood

/-- A marked line strips to the line it was made from, and marking it again changes nothing,
exactly where each marker comes off. -/
theorem mark_reversible_iff (command : List Char) :
    (stripDestructiveMarkers (markDestructiveCommands command).1 =
        stripDestructiveMarkers command ∧
      markDestructiveCommands (markDestructiveCommands command).1 =
        markDestructiveCommands command) ↔
    ∀ entry ∈ destructiveCommands (stripDestructiveMarkers command),
      ComesOff (stripDestructiveMarkers command) entry.segment.commandStart := by
  have hstrip : stripDestructiveMarkers (markDestructiveCommands command).1 =
        stripDestructiveMarkers command ↔
      Removable (markedAt (stripDestructiveMarkers command)) none 0
        (stripDestructiveMarkers command) := by
    rw [mark_inserted]
    exact strip_inserted (placed_markedAt _) (strip_unmarked command)
  have hagain : stripDestructiveMarkers (markDestructiveCommands command).1 =
        stripDestructiveMarkers command →
      markDestructiveCommands (markDestructiveCommands command).1 =
        markDestructiveCommands command := fun h => by
    rw [markDestructiveCommands, h]
    rfl
  rw [← removable_iff, ← hstrip]
  exact ⟨fun h => h.1, fun h => ⟨h, hagain h⟩⟩

/-- After an operator with no blank the marker stays, and marking writes a second one. -/
theorem mark_twice :
    ¬ (stripDestructiveMarkers (markDestructiveCommands "a;git push -f".toList).1 =
        stripDestructiveMarkers "a;git push -f".toList ∧
      markDestructiveCommands (markDestructiveCommands "a;git push -f".toList).1 =
        markDestructiveCommands "a;git push -f".toList) := by
  decide +kernel

end OmniRush.Shell
