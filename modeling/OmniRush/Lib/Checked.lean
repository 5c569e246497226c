/-!
# Checked code

Code that answers or throws, and what is known of either: `Ends E x Q` says that the
answer of `x` satisfies `Q` and that what it throws is among `E`. A check throws where
its condition holds, and behind it the condition is known not to; there is one rule for
each way such code is put together.
-/

namespace OmniRush

/-- Throws where `bad` holds. -/
def reject {ε : Type} (bad : Prop) [Decidable bad] (e : ε) : Except ε Unit :=
  if bad then .error e else .ok ()

/-- The code answers with `Q` or throws one of `E`. -/
def Ends {ε α : Type} (E : ε → Prop) (x : Except ε α) (Q : α → Prop) : Prop :=
  match x with
  | .ok a => Q a
  | .error e => E e

theorem ok_bind {ε α β : Type} (a : α) (f : α → Except ε β) : (Except.ok a >>= f) = f a := rfl

theorem reject_pass {ε : Type} {bad : Prop} [Decidable bad] {e : ε} (h : ¬bad) :
    reject bad e = .ok () := if_neg h

theorem reject_fail {ε : Type} {bad : Prop} [Decidable bad] {e : ε} (h : bad) :
    reject bad e = .error e := if_pos h

theorem reject_bind_ok {ε α : Type} {bad : Prop} [Decidable bad] {e : ε}
    {next : Unit → Except ε α} {a : α} (h : (reject bad e >>= next) = .ok a) :
    ¬bad ∧ next () = .ok a := by
  by_cases hbad : bad
  · rw [reject_fail hbad] at h
    cases h
  · rw [reject_pass hbad] at h
    exact ⟨hbad, h⟩

theorem bind_eq_ok {ε α β : Type} {x : Except ε α} {f : α → Except ε β} {b : β}
    (h : (x >>= f) = .ok b) : ∃ a, x = .ok a ∧ f a = .ok b := by
  cases x with
  | error e => cases h
  | ok a => exact ⟨a, rfl, h⟩

namespace Ends

variable {ε α β : Type} {E : ε → Prop} {Q : α → Prop} {R : β → Prop}

theorem pure {a : α} (h : Q a) : Ends E (Pure.pure a) Q := h

theorem throw {e : ε} (h : E e) : Ends E (Except.error e : Except ε α) Q := h

theorem bind {x : Except ε α} {f : α → Except ε β} (hx : Ends E x Q)
    (hf : ∀ a, Q a → Ends E (f a) R) : Ends E (x >>= f) R := by
  cases x with
  | error e => exact hx
  | ok a => exact hf a hx

theorem weaken {x : Except ε α} {Q' : α → Prop} (hx : Ends E x Q) (h : ∀ a, Q a → Q' a) :
    Ends E x Q' := by
  cases x with
  | error e => exact hx
  | ok a => exact h a hx

theorem check {bad : Prop} [Decidable bad] {e : ε} {next : Unit → Except ε α} (he : E e)
    (hnext : ¬bad → Ends E (next ()) Q) : Ends E (reject bad e >>= next) Q := by
  by_cases hbad : bad
  · rw [reject_fail hbad]
    exact he
  · rw [reject_pass hbad]
    exact hnext hbad

theorem ok {x : Except ε α} {a : α} (h : Ends E x Q) (hx : x = .ok a) : Q a := by
  rw [hx] at h
  exact h

theorem error {x : Except ε α} {e : ε} (h : Ends E x Q) (hx : x = .error e) : E e := by
  rw [hx] at h
  exact h

end Ends

end OmniRush
