import Mathlib.Data.List.Nodup
import OmniRush.Server.TurnDiff

/-!
# Ids stand for lines

A table numbers its texts in the order in which they were first seen, so no two of them have one
id, and an id once given out stays (`Extends`). So whatever lines were reached before, two lines
have one id exactly if they are the same (`same_spec`), and a search that compares ids goes as far
along a diagonal as the lines agree (`slide_spec`).
-/

namespace OmniRush.Server.TurnDiff

/-! ## The table -/

/-- The texts are numbered in the order in which they came in. -/
def Numbered (table : Record Nat) : Prop :=
  table.entries.map Prod.snd = List.range table.entries.length

/-- The ids of one table are still those of another. -/
def Extends (table table' : Record Nat) : Prop :=
  ∀ text id, table.get text = some id → table'.get text = some id

section

variable {table table' : Record Nat} {text other : String} {id : Nat}

theorem Numbered.inj (h : Numbered table) (htext : table.get text = some id)
    (hother : table.get other = some id) : text = other := by
  have hnodup : (table.entries.map Prod.snd).Nodup := by
    rw [h]
    exact List.nodup_range
  exact congrArg Prod.fst (List.inj_on_of_nodup_map hnodup (Record.get_eq_some.mp htext)
    (Record.get_eq_some.mp hother) rfl)

theorem entries_set_new {n : Nat} (h : table.get text = none) :
    (table.set text n).entries = table.entries ++ [(text, n)] := by
  refine Record.setIn_new fun hin => ?_
  obtain ⟨⟨name, m⟩, hentry, rfl⟩ := List.mem_map.mp hin
  rw [Record.get_eq_some.mpr hentry] at h
  cases h

theorem intern_spec (h : Numbered table) (text : String) :
    Numbered (intern table text).2 ∧ Extends table (intern table text).2 ∧
      (intern table text).2.get text = some (intern table text).1 := by
  unfold intern
  cases hget : table.get text with
  | some id => exact ⟨h, fun _ _ h => h, hget⟩
  | none =>
      refine ⟨?_, fun other id hother => ?_, ?_⟩
      · show List.map Prod.snd (table.set text _).entries = _
        rw [entries_set_new hget, List.map_append, h, List.length_append]
        exact List.range_succ.symm
      · show (table.set text _).get other = some id
        rw [Record.get_set, if_neg, hother]
        rintro rfl
        rw [hget] at hother
        cases hother
      · show (table.set text _).get text = _
        rw [Record.get_set, if_pos rfl]

end

/-! ## The ids given out -/

variable {keys : Side → List String} {ids ids' : LineIds} {side : Side} {index x y n m : Nat}

/-- Each id given out is that of its line. -/
structure Sound (keys : Side → List String) (ids : LineIds) : Prop where
  numbered : Numbered ids.table
  known : ∀ (side : Side) (i id : Nat), (ids.done side)[i]? = some id →
    ∃ key, (keys side)[i]? = some key ∧ ids.table.get key = some id

theorem sound_empty (keys : Side → List String) : Sound keys .empty :=
  ⟨rfl, fun _ _ _ h => by cases h⟩

theorem Sound.length_le (h : Sound keys ids) (side : Side) :
    (ids.done side).length ≤ (keys side).length := by
  refine Nat.le_of_not_lt fun hlt => ?_
  obtain ⟨key, hkey, -⟩ := h.known side _ _ (List.getElem?_eq_getElem hlt)
  rw [List.getElem?_eq_none (Nat.le_refl _)] at hkey
  cases hkey

theorem next_spec (h : Sound keys ids) (hlt : (ids.done side).length < (keys side).length) :
    Sound keys (ids.next keys side) ∧ Extends ids.table (ids.next keys side).table ∧
      ((ids.next keys side).done side).length = (ids.done side).length + 1 := by
  obtain ⟨key, hkey⟩ : ∃ key, (keys side)[(ids.done side).length]? = some key :=
    ⟨_, List.getElem?_eq_getElem hlt⟩
  have hgetD : (keys side).getD (ids.done side).length "" = key := by
    rw [List.getD_eq_getElem?_getD, hkey]
    rfl
  obtain ⟨hnumbered, hextends, hget⟩ := intern_spec h.numbered key
  rw [LineIds.next, hgetD]
  refine ⟨⟨hnumbered, fun s i id hid => ?_⟩, hextends, by simp⟩
  dsimp only at hid ⊢
  split at hid
  · next hs =>
      subst hs
      rcases Nat.lt_trichotomy i (ids.done s).length with hi | rfl | hi
      · rw [List.getElem?_append_left hi] at hid
        obtain ⟨key', hkey', hknown⟩ := h.known s i id hid
        exact ⟨key', hkey', hextends key' id hknown⟩
      · rw [List.getElem?_append_right (Nat.le_refl _), Nat.sub_self] at hid
        cases hid
        exact ⟨key, hkey, hget⟩
      · rw [List.getElem?_eq_none (by simp; omega)] at hid
        cases hid
  · obtain ⟨key', hkey', hknown⟩ := h.known s i id hid
    exact ⟨key', hkey', hextends key' id hknown⟩

theorem iterate_next (h : Sound keys ids) (hle : (ids.done side).length + n ≤ (keys side).length) :
    Sound keys ((fun ids => ids.next keys side)^[n] ids) ∧
      Extends ids.table ((fun ids => ids.next keys side)^[n] ids).table ∧
      (((fun ids => ids.next keys side)^[n] ids).done side).length =
        (ids.done side).length + n := by
  induction n generalizing ids with
  | zero => exact ⟨h, fun _ _ h => h, rfl⟩
  | succ n ih =>
      obtain ⟨hsound, hextends, hlength⟩ := next_spec h (by omega : _ < (keys side).length)
      obtain ⟨hsound', hextends', hlength'⟩ := ih hsound (by omega)
      rw [Function.iterate_succ_apply]
      exact ⟨hsound', fun text id hid => hextends' text id (hextends text id hid), by omega⟩

theorem idOf_spec (h : Sound keys ids) (hlt : index < (keys side).length) :
    Sound keys (ids.idOf keys side index).2 ∧
      Extends ids.table (ids.idOf keys side index).2.table ∧
      ∃ key, (keys side)[index]? = some key ∧
        (ids.idOf keys side index).2.table.get key = some (ids.idOf keys side index).1 := by
  have hle := h.length_le side
  have hfill : (ids.done side).length + (index + 1 - (ids.done side).length) ≤
      (keys side).length := by omega
  obtain ⟨hsound, hextends, hlength⟩ := iterate_next h hfill
  unfold LineIds.idOf
  dsimp only
  generalize (fun ids => ids.next keys side)^[_] ids = ids' at *
  refine ⟨hsound, hextends, ?_⟩
  have hid := List.getElem?_eq_getElem (by omega : index < (ids'.done side).length)
  rw [List.getD_eq_getElem?_getD, hid]
  exact hsound.known side index _ hid

theorem same_spec (h : Sound keys ids) (hx : x < (keys .a).length) (hy : y < (keys .b).length) :
    Sound keys (ids.same keys x y).2 ∧
      ((ids.same keys x y).1 = true ↔ Agree (keys .a) (keys .b) x y) := by
  obtain ⟨hsoundX, -, keyX, hkeyX, hidX⟩ := idOf_spec h hx
  obtain ⟨hsound, hextends, keyY, hkeyY, hidY⟩ := idOf_spec hsoundX hy
  have hidX' := hextends _ _ hidX
  refine ⟨hsound, ?_⟩
  show decide (_ = _) = true ↔ _
  rw [decide_eq_true_iff]
  constructor
  · intro hid
    rw [show (ids.idOf keys .a x).1 = _ from hid] at hidX'
    have hsame := hsound.numbered.inj hidX' hidY
    exact ⟨keyX, hkeyX, hsame ▸ hkeyY⟩
  · rintro ⟨key, hkey, hkey'⟩
    rw [hkeyX] at hkey
    rw [hkeyY] at hkey'
    cases hkey
    cases hkey'
    exact Option.some.inj (hidX'.symm.trans hidY)

/-! ## Along a diagonal -/

theorem slide_spec {fuel : Nat} (h : Sound keys ids) (hfuel : (keys .a).length ≤ x + fuel) :
    (slide keys (keys .a).length (keys .b).length fuel ids x y).1 =
        x + commonLength ((keys .a).drop x) ((keys .b).drop y) ∧
      Sound keys (slide keys (keys .a).length (keys .b).length fuel ids x y).2 := by
  induction fuel generalizing ids x y with
  | zero =>
      rw [commonLength_drop_eq_zero fun hagree => absurd hagree.lt.1 (by omega)]
      exact ⟨rfl, h⟩
  | succ fuel ih =>
      rw [slide]
      split
      · next hin =>
          obtain ⟨hsound, hsame⟩ := same_spec h hin.1 hin.2
          dsimp only
          split
          · next hequal =>
              obtain ⟨hend, hsound'⟩ := ih (x := x + 1) (y := y + 1) hsound (by omega)
              rw [hend, commonLength_drop (hsame.mp hequal)]
              exact ⟨by omega, hsound'⟩
          · next hdiffer =>
              rw [commonLength_drop_eq_zero fun hagree => hdiffer (hsame.mpr hagree)]
              exact ⟨rfl, hsound⟩
      · next hnot =>
          rw [commonLength_drop_eq_zero fun hagree => hnot hagree.lt]
          exact ⟨rfl, h⟩

end OmniRush.Server.TurnDiff
