import OmniRush.Archive.TurnPrompts

/-!
# One number for a turn

Three loops count the same turns. Each keeps, beside its own answer, the number of prompts
that opened a turn so far: `countTurns` is behind it by one exactly while a prompt awaits
its reply, `countOpened` counts those up to a time, and `spanFrom` waits for one of them.

What a message is to the loops depends on the messages before it alone, since no two have
one id (`opensTurn_append`). So a history may be cut anywhere, or go on.
-/

namespace OmniRush.Archive

variable {messages rest l l' : List Message} {m : Message} {steers : List MessageKey} {n : Nat}

/-- What the engine promises of the messages of a chat, in its order: their ids differ, and
each has a creation time that never goes back. -/
structure History (messages : List Message) : Prop where
  ids : messages.Pairwise fun m m' => m.id = none ∨ m.id ≠ m'.id
  created : ∀ m ∈ messages, (Message.numberOf (m.time.bind (·.created))).isSome = true
  sorted : messages.Pairwise fun m m' => ∀ c ∈ m.createdMs, ∀ c' ∈ m'.createdMs, c ≤ c'

theorem createdMs_of_number {c : Int} (h : Message.numberOf (m.time.bind (·.created)) = some c) :
    m.createdMs = some c := by
  unfold Message.createdMs
  cases htime : m.time with
  | none =>
      rw [htime] at h
      cases h
  | some time =>
      rw [htime, Option.bind_some] at h
      cases hcreated : time.created with
      | none =>
          rw [hcreated] at h
          cases h
      | some stamp =>
          rw [hcreated] at h
          cases stamp with
          | number ms =>
              dsimp only
              rw [hcreated]
              exact h
          | text parsed => cases h

/-! ## The prompts that open turns -/

/-- Their positions, from a position on. -/
def openersFrom (steers : List MessageKey) (index : Nat) : List Message → List Nat
  | [] => []
  | m :: messages =>
      if opensTurn m index steers then index :: openersFrom steers (index + 1) messages
      else openersFrom steers (index + 1) messages

/-- The positions of the prompts that open a turn, in order. -/
def turnOpeners (messages : List Message) : List Nat := openersFrom (steerPrompts messages) 0 messages

theorem openersFrom_append (steers : List MessageKey) (n : Nat) (l l' : List Message) :
    openersFrom steers n (l ++ l') =
      openersFrom steers n l ++ openersFrom steers (n + l.length) l' := by
  induction l generalizing n with
  | nil => rfl
  | cons m l ih =>
      have hindex : n + 1 + l.length = n + (m :: l).length := by
        rw [List.length_cons]
        omega
      simp only [List.cons_append, openersFrom]
      split
      · rw [ih, hindex, List.cons_append]
      · rw [ih, hindex]

theorem openersFrom_congr {steers' : List MessageKey}
    (h : ∀ i m, l[i]? = some m → opensTurn m (n + i) steers = opensTurn m (n + i) steers') :
    openersFrom steers n l = openersFrom steers' n l := by
  induction l generalizing n with
  | nil => rfl
  | cons m l ih =>
      have hhead := h 0 m rfl
      have htail : openersFrom steers (n + 1) l = openersFrom steers' (n + 1) l := by
        refine ih fun i m' hi => ?_
        have := h (i + 1) m' hi
        rwa [show n + 1 + i = n + (i + 1) by omega]
      rw [openersFrom, openersFrom, htail]
      rw [Nat.add_zero] at hhead
      rw [hhead]

theorem mem_openersFrom {i : Nat} (h : i ∈ openersFrom steers n l) :
    n ≤ i ∧ i < n + l.length := by
  induction l generalizing n with
  | nil => cases h
  | cons m l ih =>
      rw [List.length_cons]
      rw [openersFrom] at h
      split at h
      · rcases List.mem_cons.mp h with rfl | h
        · omega
        · have := ih h
          omega
      · have := ih h
        omega

/-- A turn's prompt splits the messages: the turns before it, and those after. -/
theorem openersFrom_split {k i : Nat} (h : (openersFrom steers n l)[k]? = some i) :
    ∃ before m after, l = before ++ m :: after ∧ i = n + before.length ∧
      opensTurn m i steers = true ∧ (openersFrom steers n before).length = k ∧
      (openersFrom steers (i + 1) after).head? = (openersFrom steers n l)[k + 1]? := by
  induction l generalizing n k with
  | nil => cases h
  | cons m l ih =>
      rw [openersFrom] at h ⊢
      split at h
      · next hopens =>
          rw [if_pos hopens]
          cases k with
          | zero =>
              obtain rfl : n = i := Option.some.inj h
              exact ⟨[], m, l, rfl, rfl, hopens, rfl, List.head?_eq_getElem? ..⟩
          | succ k =>
              obtain ⟨before, m', after, rfl, rfl, hopens', hlength, hnext⟩ := ih h
              refine ⟨m :: before, m', after, rfl, ?_, hopens', ?_, hnext⟩
              · rw [List.length_cons]
                omega
              · rw [openersFrom, if_pos hopens, List.length_cons, hlength]
      · next hopens =>
          rw [if_neg hopens]
          obtain ⟨before, m', after, rfl, rfl, hopens', hlength, hnext⟩ := ih h
          refine ⟨m :: before, m', after, rfl, ?_, hopens', ?_, hnext⟩
          · rw [List.length_cons]
            omega
          · rw [openersFrom, if_neg hopens, hlength]

/-! ## The steers of a history that goes on -/

theorem collect_append (s : SteerScan) :
    s.collect n (l ++ l') =
      s.collect n l ++ (l.foldl SteerScan.next s).collect (n + l.length) l' := by
  induction l generalizing s n with
  | nil => rfl
  | cons m l ih =>
      have hindex : n + 1 + l.length = n + (m :: l).length := by
        rw [List.length_cons]
        omega
      simp only [List.cons_append, SteerScan.collect, List.foldl_cons]
      split
      · rw [ih, hindex, List.cons_append]
      · rw [ih, hindex]

theorem collect_keys {s : SteerScan} {key : MessageKey} (h : key ∈ s.collect n l) :
    ∃ i m, m ∈ l ∧ n ≤ i ∧ key = m.key i := by
  induction l generalizing s n with
  | nil => cases h
  | cons m l ih =>
      have htail : key ∈ (s.next m).collect (n + 1) l →
          ∃ i m', m' ∈ m :: l ∧ n ≤ i ∧ key = m'.key i := by
        intro h
        obtain ⟨i, m', hmem, hle, hkey⟩ := ih h
        exact ⟨i, m', List.mem_cons_of_mem _ hmem, Nat.le_of_succ_le hle, hkey⟩
      rw [SteerScan.collect] at h
      split at h
      · rcases List.mem_cons.mp h with rfl | h
        · exact ⟨n, m, List.mem_cons_self .., Nat.le_refl _, rfl⟩
        · exact htail h
      · exact htail h

theorem opensTurn_append (h : History (messages ++ rest)) {i : Nat} (hi : messages[i]? = some m) :
    opensTurn m i (steerPrompts (messages ++ rest)) = opensTurn m i (steerPrompts messages) := by
  have hlt := (List.getElem?_eq_some_iff.mp hi).choose
  have hlater : m.key i ∉ (messages.foldl SteerScan.next {}).collect (0 + messages.length) rest := by
    intro hmem
    obtain ⟨j, m', hm', hle, hkey⟩ := collect_keys hmem
    have hids := (List.pairwise_append.mp h.ids).2.2 m (List.mem_of_getElem? hi) m' hm'
    unfold Message.key at hkey
    rcases hid : m.id with _ | id <;> rcases hid' : m'.id with _ | id' <;> rw [hid, hid'] at hkey
    · have hindex : i = j := MessageKey.index.inj hkey
      omega
    · cases hkey
    · cases hkey
    · rcases hids with hnone | hne
      · rw [hid] at hnone
        cases hnone
      · rw [hid, hid', MessageKey.id.inj hkey] at hne
        exact hne rfl
  unfold opensTurn steerPrompts
  rw [collect_append, List.contains_eq_mem, List.contains_eq_mem]
  simp only [List.mem_append, hlater, or_false]

theorem History.left (h : History (messages ++ rest)) : History messages where
  ids := (List.pairwise_append.mp h.ids).1
  created := fun m hm => h.created m (List.mem_append_left _ hm)
  sorted := (List.pairwise_append.mp h.sorted).1

theorem openersFrom_steers (h : History (messages ++ rest)) :
    openersFrom (steerPrompts (messages ++ rest)) 0 messages = turnOpeners messages := by
  refine openersFrom_congr fun i m hi => ?_
  rw [Nat.zero_add]
  exact opensTurn_append h hi

theorem turnOpeners_append (h : History (messages ++ rest)) :
    turnOpeners (messages ++ rest) = turnOpeners messages ++
      openersFrom (steerPrompts (messages ++ rest)) messages.length rest := by
  rw [turnOpeners, openersFrom_append, openersFrom_steers h, Nat.zero_add]

/-! ## `completedTurnCount` -/

/-- Whether a prompt awaits its reply after some messages. -/
def awaitingAfter (steers : List MessageKey) (index : Nat) (awaitingReply : Bool) :
    List Message → Bool
  | [] => awaitingReply
  | m :: messages =>
      if opensTurn m index steers then awaitingAfter steers (index + 1) true messages
      else awaitingAfter steers (index + 1) (awaitingReply && !m.answers) messages

theorem answers_eq (a : Bool) :
    (m.isAssistant && a && !m.isCompactionSummary && m.isEnded) = (a && m.answers) := by
  unfold Message.answers
  cases a <;> simp

theorem countTurns_add (steers : List MessageKey) (n : Nat) (l : List Message) (turns : Nat) (a : Bool) :
    countTurns steers n turns a l + (awaitingAfter steers n a l).toNat =
      turns + a.toNat + (openersFrom steers n l).length := by
  induction l generalizing n turns a with
  | nil => rfl
  | cons m l ih =>
      rw [countTurns, awaitingAfter, openersFrom]
      by_cases hopens : opensTurn m n steers = true
      · rw [if_pos hopens, if_pos hopens, if_pos hopens, ih, List.length_cons]
        cases a
        · simp only [Bool.false_eq_true, if_false, Bool.toNat_true, Bool.toNat_false]
          omega
        · simp only [if_true, Bool.toNat_true]
          omega
      · rw [if_neg hopens, if_neg hopens, if_neg hopens, answers_eq]
        cases hanswers : a && m.answers
        · have hsame : (a && !m.answers) = a := by
            cases a <;> simp_all
          rw [if_neg Bool.false_ne_true, hsame, ih]
        · rw [Bool.and_eq_true] at hanswers
          rw [if_pos rfl, hanswers.1, hanswers.2]
          have := ih (n := n + 1) (turns + 1) false
          simp only [Bool.not_true, Bool.and_false, Bool.toNat_true, Bool.toNat_false] at this ⊢
          omega

theorem countTurns_append (turns : Nat) (a : Bool) :
    countTurns steers n turns a (l ++ l') =
      countTurns steers (n + l.length) (countTurns steers n turns a l) (awaitingAfter steers n a l)
        l' := by
  induction l generalizing n turns a with
  | nil => rfl
  | cons m l ih =>
      have hindex : n + (m :: l).length = n + 1 + l.length := by
        rw [List.length_cons]
        omega
      simp only [List.cons_append, countTurns, awaitingAfter, hindex]
      split
      · exact ih _ _
      · rw [answers_eq]
        cases hanswers : a && m.answers
        · have hsame : (a && !m.answers) = a := by
            cases a <;> simp_all
          rw [if_neg Bool.false_ne_true, if_neg Bool.false_ne_true, hsame]
          exact ih _ _
        · rw [Bool.and_eq_true] at hanswers
          rw [if_pos rfl, if_pos rfl, hanswers.2, Bool.not_true, Bool.and_false]
          exact ih _ _

theorem le_countTurns (turns : Nat) (a : Bool) : turns ≤ countTurns steers n turns a l := by
  induction l generalizing n turns a with
  | nil => exact Nat.le_refl _
  | cons m l ih =>
      rw [countTurns]
      split
      · cases a
        · exact ih _ _
        · exact Nat.le_of_succ_le (ih _ _)
      · split
        · have := ih (n := n + 1) (turns + 1) false
          omega
        · exact ih _ _

theorem countTurns_congr {steers' : List MessageKey} (turns : Nat) (a : Bool)
    (h : ∀ i m, l[i]? = some m → opensTurn m (n + i) steers = opensTurn m (n + i) steers') :
    countTurns steers n turns a l = countTurns steers' n turns a l := by
  induction l generalizing n turns a with
  | nil => rfl
  | cons m l ih =>
      have hhead := h 0 m rfl
      have htail : ∀ i m', l[i]? = some m' →
          opensTurn m' (n + 1 + i) steers = opensTurn m' (n + 1 + i) steers' := by
        intro i m' hi
        have := h (i + 1) m' hi
        rwa [show n + 1 + i = n + (i + 1) by omega]
      rw [Nat.add_zero] at hhead
      rw [countTurns, countTurns, hhead]
      split
      · exact ih _ _ htail
      · split
        · exact ih _ _ htail
        · exact ih _ _ htail

theorem awaitingAfter_concat (a : Bool) :
    awaitingAfter steers n a (l ++ [m]) =
      if opensTurn m (n + l.length) steers then true else awaitingAfter steers n a l && !m.answers := by
  induction l generalizing n a with
  | nil => rfl
  | cons x l ih =>
      have hindex : n + (x :: l).length = n + 1 + l.length := by
        rw [List.length_cons]
        omega
      simp only [List.cons_append, awaitingAfter, hindex]
      split
      · exact ih _
      · exact ih _

theorem completedTurnCount_answered (h : History messages) {k i j : Nat} {a : Message}
    (hk : (turnOpeners messages)[k]? = some i) (hlt : i < j) (hj : messages[j]? = some a)
    (hanswers : a.answers = true) (hnext : ∀ x ∈ (turnOpeners messages)[k + 1]?, j < x) :
    completedTurnCount (some (messages.take (j + 1))) = some (k + 1) := by
  obtain ⟨before, m, after, hsplit, hi, hopens, hbefore, hhead⟩ := openersFrom_split hk
  rw [Nat.zero_add] at hi
  have hafter : after[j - i - 1]? = some a := by
    rw [hsplit, List.getElem?_append_right (by omega), ← hi,
      show j - i = (j - i - 1) + 1 by omega, List.getElem?_cons_succ] at hj
    exact hj
  obtain ⟨hlength, -⟩ := List.getElem?_eq_some_iff.mp hafter
  have hcut : messages.take (j + 1) = before ++ m :: after.take (j - i) := by
    rw [hsplit, List.take_append, List.take_of_length_le (by omega), ← hi,
      show j + 1 - i = (j - i) + 1 by omega, List.take_succ_cons]
  have hlast : after.take (j - i) = after.take (j - i - 1) ++ [a] := by
    rw [show j - i = (j - i - 1) + 1 by omega, List.take_add_one, hafter]
    rfl
  -- no prompt after the turn's own opens a turn up to the answer
  have hnone : openersFrom (steerPrompts messages) (i + 1) (after.take (j - i)) = [] := by
    refine List.eq_nil_iff_forall_not_mem.mpr fun x hx => ?_
    obtain ⟨y, hy⟩ : ∃ y, (openersFrom (steerPrompts messages) (i + 1) (after.take (j - i))).head? = some y :=
      Option.isSome_iff_exists.mp (List.isSome_head?.mpr (List.ne_nil_of_mem hx))
    have hwhole : (openersFrom (steerPrompts messages) (i + 1) after).head? = some y := by
      have happend := openersFrom_append (steerPrompts messages) (i + 1)
        (after.take (j - i)) (after.drop (j - i))
      rw [List.take_append_drop] at happend
      rw [happend, List.head?_append, hy]
      rfl
    rw [hhead] at hwhole
    have hlate := hnext y hwhole
    have hbound := (mem_openersFrom (List.mem_of_head? hy)).2
    rw [List.length_take] at hbound
    omega
  have hmessages : messages = messages.take (j + 1) ++ messages.drop (j + 1) :=
    (List.take_append_drop ..).symm
  have hcount : countTurns (steerPrompts (messages.take (j + 1))) 0 0 false (messages.take (j + 1)) =
      countTurns (steerPrompts messages) 0 0 false (messages.take (j + 1)) := by
    refine countTurns_congr _ _ fun x y hx => ?_
    rw [Nat.zero_add]
    have h' : History (messages.take (j + 1) ++ messages.drop (j + 1)) := by rwa [← hmessages]
    have hsame := opensTurn_append h' hx
    rw [← hmessages] at hsame
    exact hsame.symm
  rw [completedTurnCount, Option.map_some, hcount]
  have hadd := countTurns_add (steerPrompts messages) 0 (messages.take (j + 1)) 0 false
  have hopeners : (openersFrom (steerPrompts messages) 0 (messages.take (j + 1))).length = k + 1 := by
    rw [hcut, openersFrom_append, Nat.zero_add, ← hi, openersFrom, if_pos hopens, hnone,
      List.length_append, hbefore, List.length_singleton]
  have hawaits : awaitingAfter (steerPrompts messages) 0 false (messages.take (j + 1)) = false := by
    have hclosed : opensTurn a (i + 1 + (after.take (j - i - 1)).length) (steerPrompts messages) ≠ true := by
      intro hopens'
      rw [hlast, openersFrom_append, openersFrom, if_pos hopens'] at hnone
      exact absurd hnone (List.append_ne_nil_of_right_ne_nil _ (List.cons_ne_nil _ _))
    rw [hcut, hlast, ← List.cons_append, ← List.append_assoc, awaitingAfter_concat, if_neg, hanswers,
      Bool.not_true, Bool.and_false]
    rw [List.length_append, List.length_cons, ← hi]
    rwa [show 0 + (i + ((after.take (j - i - 1)).length + 1)) =
      i + 1 + (after.take (j - i - 1)).length by omega]
  rw [hawaits, hopeners] at hadd
  exact congrArg some (by simpa using hadd)

/-! ## `promptTurnAt` -/

theorem countOpened_append (steers : List MessageKey) («at» : Int) (n turns : Nat)
    (l l' : List Message) :
    countOpened steers «at» n turns (l ++ l') =
      countOpened steers «at» (n + l.length) (countOpened steers «at» n turns l) l' := by
  induction l generalizing n turns with
  | nil => rfl
  | cons m l ih =>
      have hindex : n + (m :: l).length = n + 1 + l.length := by
        rw [List.length_cons]
        omega
      simp only [List.cons_append, countOpened, hindex]
      split
      · exact ih _ _
      · exact ih _ _

theorem countOpened_early {«at» : Int} (turns : Nat) (h : ∀ m ∈ l, ∀ c ∈ m.createdMs, c ≤ «at») :
    countOpened steers «at» n turns l = turns + (openersFrom steers n l).length := by
  induction l generalizing n turns with
  | nil => rfl
  | cons m l ih =>
      have hall : m.createdMs.all (· ≤ «at») = true := by
        rw [Option.all_eq_true]
        exact fun c hc => decide_eq_true (h m (List.mem_cons_self ..) c hc)
      have htail := fun m' hm' => h m' (List.mem_cons_of_mem m hm')
      rw [countOpened, openersFrom, hall, Bool.and_true]
      split
      · rw [ih _ htail, List.length_cons]
        omega
      · exact ih _ htail

theorem countOpened_late {«at» : Int} (turns : Nat)
    (h : ∀ i m, l[i]? = some m → opensTurn m (n + i) steers = true →
      m.createdMs.all (· ≤ «at») = false) :
    countOpened steers «at» n turns l = turns := by
  induction l generalizing n turns with
  | nil => rfl
  | cons m l ih =>
      have hskip : (opensTurn m n steers && m.createdMs.all (· ≤ «at»)) = false := by
        rw [Bool.and_eq_false_iff]
        cases hopens : opensTurn m n steers
        · exact .inl rfl
        · exact .inr (h 0 m rfl hopens)
      rw [countOpened, hskip, if_neg Bool.false_ne_true]
      refine ih turns fun i m' hi hopens => h (i + 1) m' hi ?_
      rwa [show n + (i + 1) = n + 1 + i by omega]

theorem opensTurn_of_nil (h : openersFrom steers n l = []) {i : Nat} (hi : l[i]? = some m) :
    opensTurn m (n + i) steers = false := by
  induction l generalizing n i with
  | nil => cases hi
  | cons x l ih =>
      rw [openersFrom] at h
      split at h
      · cases h
      · next hopens =>
          cases i with
          | zero =>
              obtain rfl := Option.some.inj hi
              exact Bool.eq_false_iff.mpr hopens
          | succ i =>
              have := ih h (i := i) hi
              rwa [show n + (i + 1) = n + 1 + i by omega]

theorem History.createdMs (h : History messages) (hm : m ∈ messages) :
    ∃ c, Message.numberOf (m.time.bind (·.created)) = some c ∧ m.createdMs = some c := by
  obtain ⟨c, hc⟩ := Option.isSome_iff_exists.mp (h.created m hm)
  exact ⟨c, hc, createdMs_of_number hc⟩

/-- When the first prompt that opens a turn was created after a time, so were the others. -/
theorem opener_late (steers : List MessageKey) (n : Nat) («at» : Int)
    (hsorted : l.Pairwise fun m m' => ∀ c ∈ m.createdMs, ∀ c' ∈ m'.createdMs, c ≤ c')
    (hcreated : ∀ m ∈ l, ∃ c, m.createdMs = some c)
    (hfirst : ∀ first m, (openersFrom steers n l)[0]? = some first → l[first - n]? = some m →
      ∀ c ∈ m.createdMs, «at» < c)
    (j : Nat) (x : Message) (hj : l[j]? = some x) (hopens : opensTurn x (n + j) steers = true) :
    x.createdMs.all (· ≤ «at») = false := by
  obtain ⟨cx, hcx⟩ := hcreated x (List.mem_of_getElem? hj)
  rcases hopeners : (openersFrom steers n l)[0]? with _ | first
  · have hnil := List.getElem?_eq_none_iff.mp hopeners
    rw [opensTurn_of_nil (List.eq_nil_of_length_eq_zero (Nat.le_zero.mp hnil)) hj] at hopens
    cases hopens
  · obtain ⟨mid, y, tail, rfl, rfl, -, hmid, -⟩ := openersFrom_split hopeners
    obtain ⟨cy, hcy⟩ := hcreated y (List.mem_append_right _ (List.mem_cons_self ..))
    have hlater : «at» < cy := by
      refine hfirst _ y hopeners ?_ cy hcy
      rw [Nat.add_sub_cancel_left, List.getElem?_append_right (Nat.le_refl _), Nat.sub_self]
      rfl
    have hle : cy ≤ cx := by
      rcases Nat.lt_trichotomy j mid.length with hlt | rfl | hgt
      · rw [List.getElem?_append_left hlt] at hj
        rw [opensTurn_of_nil (List.eq_nil_of_length_eq_zero hmid) hj] at hopens
        cases hopens
      · rw [List.getElem?_append_right (Nat.le_refl _), Nat.sub_self] at hj
        obtain rfl : y = x := Option.some.inj hj
        rw [hcy] at hcx
        exact Int.le_of_eq (Option.some.inj hcx)
      · rw [List.getElem?_append_right (Nat.le_of_lt hgt),
          show j - mid.length = (j - mid.length - 1) + 1 by omega, List.getElem?_cons_succ] at hj
        rw [List.pairwise_append, List.pairwise_cons] at hsorted
        exact hsorted.2.1.1 x (List.mem_of_getElem? hj) cy hcy cx hcx
    rw [hcx]
    exact decide_eq_false (Int.not_le.mpr (Int.lt_of_lt_of_le hlater hle))

theorem promptTurnAt_prompted (h : History messages) {k i : Nat} {«at» : Int}
    (hk : (turnOpeners messages)[k]? = some i) (hi : messages[i]? = some m)
    (hsent : ∀ c ∈ m.createdMs, c ≤ «at»)
    (hnext : ∀ x m', (turnOpeners messages)[k + 1]? = some x → messages[x]? = some m' →
      ∀ c ∈ m'.createdMs, «at» < c) :
    promptTurnAt (some messages) «at» = some (k + 1) := by
  obtain ⟨before, m', after, hsplit, hi', hopens, hbefore, hhead⟩ := openersFrom_split hk
  rw [Nat.zero_add] at hi'
  obtain rfl : m' = m := by
    rw [hsplit, hi', List.getElem?_append_right (Nat.le_refl _), Nat.sub_self] at hi
    exact Option.some.inj hi
  have hsorted := h.sorted
  rw [hsplit, List.pairwise_append, List.pairwise_cons] at hsorted
  obtain ⟨-, ⟨-, hafter⟩, hbetween⟩ := hsorted
  obtain ⟨c, -, hc⟩ := h.createdMs (List.mem_of_getElem? hi)
  have hearly : ∀ x ∈ before ++ [m'], ∀ c' ∈ x.createdMs, c' ≤ «at» := by
    intro x hx c' hc'
    rcases List.mem_append.mp hx with hx | hx
    · exact Int.le_trans (hbetween x hx m' (List.mem_cons_self ..) c' hc' c hc) (hsent c hc)
    · obtain rfl := List.mem_singleton.mp hx
      exact hsent c' hc'
  have hlate := opener_late (steerPrompts messages) (i + 1) «at» hafter
    (fun x hx => (h.createdMs (by
      rw [hsplit]
      exact List.mem_append_right _ (List.mem_cons_of_mem _ hx))).imp fun _ => And.right)
    fun first x hfirst hx c' hc' => by
      refine hnext first x ?_ ?_ c' hc'
      · rw [turnOpeners, ← hhead, List.head?_eq_getElem?, hfirst]
      · obtain ⟨-, hbound⟩ := mem_openersFrom (List.mem_of_getElem? hfirst)
        have hle := (mem_openersFrom (List.mem_of_getElem? hfirst)).1
        rw [hsplit, List.getElem?_append_right (by omega), ← hi',
          show first - i = (first - (i + 1)) + 1 by omega, List.getElem?_cons_succ]
        exact hx
  have hcount : countOpened (steerPrompts messages) «at» 0 0 messages = k + 1 := by
    have hmessages : messages = (before ++ [m']) ++ after := by
      rw [List.append_assoc]
      exact hsplit
    have happend := countOpened_append (steerPrompts messages) «at» 0 0 (before ++ [m']) after
    rw [← hmessages] at happend
    rw [happend, countOpened_early _ hearly, countOpened_late]
    · rw [openersFrom_append, openersFrom, List.length_append, hbefore, Nat.zero_add, Nat.zero_add,
        ← hi', if_pos hopens]
      rfl
    · rwa [List.length_append, List.length_singleton, Nat.zero_add, ← hi']
  rw [promptTurnAt, Option.bind_some]
  dsimp only
  rw [hcount, if_pos (Nat.succ_pos k)]

/-! ## `turnSpan` -/

theorem spanFrom_skip {turn opened : Nat} (h : opened + (openersFrom steers n l).length < turn) :
    spanFrom steers turn n opened none (l ++ l') =
      spanFrom steers turn (n + l.length) (opened + (openersFrom steers n l).length) none l' := by
  induction l generalizing n opened with
  | nil => rfl
  | cons m l ih =>
      have hindex : n + (m :: l).length = n + 1 + l.length := by
        rw [List.length_cons]
        omega
      rw [List.cons_append, hindex]
      rw [openersFrom] at h ⊢
      rw [spanFrom]
      split at h
      · next hopens =>
          rw [List.length_cons] at h
          rw [if_pos hopens, if_pos hopens, if_neg (by omega), if_neg (by omega), ih (by omega),
            List.length_cons]
          congr 1
          omega
      · next hopens =>
          rw [if_neg hopens, if_neg hopens]
          exact ih h

theorem spanFrom_opened (steers : List MessageKey) (turn n : Nat) (l : List Message)
    (span : TurnSpan) :
    ∃ span', spanFrom steers turn n turn (some span) l = some span' ∧
      span'.opened = span.opened := by
  induction l generalizing n span with
  | nil => exact ⟨span, rfl, rfl⟩
  | cons m l ih =>
      rw [spanFrom]
      split
      · rw [if_neg (Nat.succ_ne_self turn), if_pos (Nat.lt_succ_self turn)]
        exact ⟨span, rfl, rfl⟩
      · dsimp only [Option.map_some]
        split
        · split
          · exact ih _ ⟨span.opened, _⟩
          · exact ih _ span
        · exact ih _ span

theorem turnSpan_opened (h : History messages) {k i : Nat}
    (hk : (turnOpeners messages)[k]? = some i) (hi : messages[i]? = some m) :
    ∃ span, turnSpan (some messages) (k + 1) = some span ∧ m.createdMs = some span.opened := by
  obtain ⟨before, m', after, hsplit, hi', hopens, hbefore, -⟩ := openersFrom_split hk
  rw [Nat.zero_add] at hi'
  obtain rfl : m' = m := by
    rw [hsplit, hi', List.getElem?_append_right (Nat.le_refl _), Nat.sub_self] at hi
    exact Option.some.inj hi
  obtain ⟨c, hnumber, hc⟩ := h.createdMs (List.mem_of_getElem? hi)
  obtain ⟨span, hspan, hopened⟩ := spanFrom_opened (steerPrompts messages) (k + 1) (i + 1)
    after ⟨c, none⟩
  refine ⟨span, ?_, by rw [hc, hopened]⟩
  rw [turnSpan, Option.bind_some, if_neg (by omega), ← hspan]
  generalize hsteers : steerPrompts messages = steers at *
  rw [hsplit, spanFrom_skip (by omega), hbefore, Nat.zero_add, Nat.zero_add, ← hi', spanFrom,
    if_pos hopens, if_pos rfl, hnumber]

/-! ## The agreement -/

/-- A turn-opening prompt at `i` with `k` such prompts before it is turn `k + 1` for every
function that numbers turns. -/
structure Numbered (messages : List Message) (k i : Nat) (m : Message) : Prop where
  /-- After its answer, any that ended before the next turn's prompt, it is completed. -/
  completed : ∀ j a, i < j → messages[j]? = some a → a.answers = true →
    (∀ x ∈ (turnOpeners messages)[k + 1]?, j < x) →
      completedTurnCount (some (messages.take (j + 1))) = some (k + 1)
  prompted : ∀ «at», (∀ c ∈ m.createdMs, c ≤ «at») →
    (∀ x m', (turnOpeners messages)[k + 1]? = some x → messages[x]? = some m' →
      ∀ c ∈ m'.createdMs, «at» < c) → promptTurnAt (some messages) «at» = some (k + 1)
  span : ∃ span, turnSpan (some messages) (k + 1) = some span ∧ m.createdMs = some span.opened

/-- What a history that goes on leaves as it is. -/
structure Continued (messages all : List Message) : Prop where
  openers : turnOpeners messages <+: turnOpeners all
  opens : ∀ i m, messages[i]? = some m →
    opensTurn m i (steerPrompts all) = opensTurn m i (steerPrompts messages)
  completed : ∃ c c', completedTurnCount (some messages) = some c ∧
    completedTurnCount (some all) = some c' ∧ c ≤ c'

theorem History.continued (h : History (messages ++ rest)) : Continued messages (messages ++ rest) where
  openers := by
    rw [turnOpeners_append h]
    exact List.prefix_append ..
  opens := fun _ _ hi => opensTurn_append h hi
  completed := by
    refine ⟨_, _, rfl, rfl, ?_⟩
    have hsame : countTurns (steerPrompts messages) 0 0 false messages =
        countTurns (steerPrompts (messages ++ rest)) 0 0 false messages := by
      refine countTurns_congr _ _ fun x y hx => ?_
      rw [Nat.zero_add]
      exact (opensTurn_append h hx).symm
    dsimp only
    rw [hsame, countTurns_append]
    exact le_countTurns _ _

/-- The turns of a chat have one number each, wherever it is asked for, and keep it when the
chat goes on. -/
theorem turns_numbered (h : History messages) :
    (∀ k i m, (turnOpeners messages)[k]? = some i → messages[i]? = some m →
      Numbered messages k i m) ∧
    ∀ rest, History (messages ++ rest) → Continued messages (messages ++ rest) := by
  refine ⟨fun k i m hk hi => ?_, fun rest h => h.continued⟩
  exact
    { completed := fun j a hlt hj hanswers hnext => completedTurnCount_answered h hk hlt hj hanswers hnext
      prompted := fun _ hsent hnext => promptTurnAt_prompted h hk hi hsent hnext
      span := turnSpan_opened h hk hi }

/-- A prompt, its answer, a compaction, a prompt that is steered and one that is stopped. -/
def sampleChat : List Message :=
  [{ id := some "m1", role := some "user", time := some { created := some (.number 10) } },
    { id := some "m2", role := some "assistant", finish := some "stop",
      time := some { created := some (.number 11), completed := some (.number 15) } },
    { id := some "m3", role := some "user", parts := [{ type := "compaction" }],
      time := some { created := some (.number 20) } },
    { id := some "m4", role := some "assistant", summary := true, finish := some "stop",
      time := some { created := some (.number 21), completed := some (.number 45) } },
    { id := some "m5", role := some "user", time := some { created := some (.number 40) } },
    { id := some "m6", role := some "assistant", finish := some "tool-calls",
      time := some { created := some (.number 41), completed := some (.number 50) } },
    { id := some "m7", role := some "user", time := some { created := some (.number 45) } },
    { id := some "m8", role := some "assistant", finish := some "stop",
      time := some { created := some (.number 51), completed := some (.number 60) } },
    { id := some "m9", role := some "user", time := some { created := some (.number 70) } }]

theorem sampleChat_numbered :
    (∃ m, sampleChat[4]? = some m ∧ Numbered sampleChat 1 4 m) ∧
      Continued (sampleChat.take 5) sampleChat := by
  have h : History (sampleChat.take 5 ++ sampleChat.drop 5) :=
    { ids := by decide
      created := by decide
      sorted := by decide }
  exact ⟨⟨_, rfl, (turns_numbered h).1 1 4 _ (by decide) rfl⟩, (turns_numbered h.left).2 _ h⟩

/-! ## Turns since a compaction -/

/-- The summary of a compaction that went well. -/
def Message.compacted (m : Message) : Bool :=
  m.role = some "assistant" && m.isCompactionSummary && m.error.isNone

theorem opensTurn_assistant {i : Nat} (h : m.role = some "assistant") :
    opensTurn m i steers = false := by
  simp [opensTurn, Message.isPromptMessage, Message.roleOf, h]

theorem turnsSince_append (turns : Nat) :
    turnsSince steers n turns (l ++ l') =
      turnsSince steers (n + l.length) (turnsSince steers n turns l) l' := by
  induction l generalizing n turns with
  | nil => rfl
  | cons m l ih =>
      have hindex : n + (m :: l).length = n + 1 + l.length := by
        rw [List.length_cons]
        omega
      simp only [List.cons_append, turnsSince, hindex]
      split
      · exact ih _
      · split
        · exact ih _
        · exact ih _

/-- Where no compaction went well, every prompt that opens a turn counts. -/
theorem turnsSince_openers (turns : Nat) (h : ∀ m ∈ l, m.compacted = false) :
    turnsSince steers n turns l = turns + (openersFrom steers n l).length := by
  induction l generalizing n turns with
  | nil => rfl
  | cons m l ih =>
      have hrest : ∀ m ∈ l, m.compacted = false := fun m hm => h m (List.mem_cons_of_mem _ hm)
      rw [turnsSince, openersFrom]
      split
      · next hsummary =>
          -- a compaction that failed: it counts for nothing
          have hfailed := h m List.mem_cons_self
          rw [Message.compacted, hsummary, Bool.true_and] at hfailed
          have hrole : m.role = some "assistant" := by
            simpa using (Bool.and_eq_true_iff.mp hsummary).1
          rw [if_neg (by simp [hfailed]), if_neg (by simp [opensTurn_assistant hrole])]
          exact ih turns hrest
      · split
        · rw [ih (turns + 1) hrest, List.length_cons]
          omega
        · exact ih turns hrest

/-- A chat's turns are counted from its last compaction that went well. -/
theorem turnsSinceCompaction_counts (messages : List Message) :
    ((∀ m ∈ messages, m.compacted = false) →
      turnsSinceCompaction (some messages) = some (turnOpeners messages).length) ∧
    ∀ before m after, messages = before ++ m :: after → m.compacted = true →
      (∀ m' ∈ after, m'.compacted = false) →
      turnsSinceCompaction (some messages) =
        some ((turnOpeners messages).countP (before.length < ·)) := by
  refine ⟨fun h => congrArg some ?_, fun before m after heq hm hafter => congrArg some ?_⟩
  · show turnsSince (steerPrompts messages) 0 0 messages = _
    rw [turnsSince_openers 0 h, Nat.zero_add, turnOpeners]
  · obtain ⟨hsummary, hnone⟩ := Bool.and_eq_true_iff.mp hm
    have hrole : m.role = some "assistant" := by
      simpa using (Bool.and_eq_true_iff.mp hsummary).1
    show turnsSince (steerPrompts messages) 0 0 messages = _
    rw [turnOpeners]
    generalize steerPrompts messages = steers
    rw [heq, openersFrom_append, Nat.zero_add, List.countP_append, openersFrom,
      if_neg (by simp [opensTurn_assistant hrole]), turnsSince_append, turnsSince, if_pos hsummary,
      if_pos hnone, turnsSince_openers 0 hafter, Nat.zero_add]
    have hbefore : (openersFrom steers 0 before).countP (before.length < ·) = 0 :=
      List.countP_eq_zero.mpr fun i hi => by
        have := mem_openersFrom hi
        simp only [decide_eq_true_eq]
        omega
    have hlater : (openersFrom steers (before.length + 1) after).countP (before.length < ·) =
        (openersFrom steers (before.length + 1) after).length :=
      List.countP_eq_length.mpr fun i hi => by
        have := mem_openersFrom hi
        simp only [decide_eq_true_eq]
        omega
    rw [hbefore, hlater, Nat.zero_add, Nat.zero_add]

theorem sampleChat_compacted :
    turnsSinceCompaction (some sampleChat) =
      some ((turnOpeners sampleChat).countP ((sampleChat.take 3).length < ·)) :=
  (turnsSinceCompaction_counts sampleChat).2 (sampleChat.take 3) sampleChat[3]
    (sampleChat.drop 4) rfl rfl (by decide)

end OmniRush.Archive
