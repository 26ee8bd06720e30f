import Mathlib.Tactic.Common

/-!
# Results and errors

What holds of a computation however it comes out: one predicate for the values
it can give, one for the errors it can end with.
-/

namespace Basis

variable {ε α β : Type}

/-- It comes to a value that has `P`, or to an error that has `E`. -/
def Gives (P : α → Prop) (E : ε → Prop) : Except ε α → Prop
  | .ok a => P a
  | .error e => E e

theorem ok_of_toOption {x : Except ε α} {a : α} (h : x.toOption = some a) : x = .ok a := by
  cases x with
  | error e => cases h
  | ok b =>
      cases h
      rfl

namespace Gives

variable {P : α → Prop} {Q : β → Prop} {E : ε → Prop} {x : Except ε α} {f : α → Except ε β}

theorem pure {a : α} (h : P a) : Gives P E (.ok a) := h

theorem error {e : ε} (h : E e) : Gives P E (.error e) := h

theorem bind (hx : Gives P E x) (hf : ∀ a, x = .ok a → P a → Gives Q E (f a)) :
    Gives Q E (x >>= f) := by
  cases x with
  | error e => exact hx
  | ok a => exact hf a rfl hx

theorem mono {P' : α → Prop} {E' : ε → Prop} (hx : Gives P E x) (hP : ∀ a, P a → P' a)
    (hE : ∀ e, E e → E' e) : Gives P' E' x := by
  cases x with
  | error e => exact hE e hx
  | ok a => exact hP a hx

theorem of_ok {a : α} (hx : Gives P E x) (h : x = .ok a) : P a := by
  subst h
  exact hx

theorem of_error {e : ε} (hx : Gives P E x) (h : x = .error e) : E e := by
  subst h
  exact hx

end Gives

end Basis
