import Mathlib.Algebra.Group.Int.Defs
import Mathlib.Algebra.Group.Nat.Defs
import Mathlib.Tactic.Common

/-!
# Three-valued outcomes of C code

What a call of a C function can do, seen from its caller: complete with a
value, leave by the program's own error exit (a `longjmp` that does not
come back), or do something the language gives no meaning to (an access
out of bounds, a failed `assert`, a signed overflow).

`fault` is kept apart from `raise` because the two are judged differently:
a raised error is behaviour, a fault is the absence of any.
-/

namespace Basis

universe u

/-- Result of running a piece of C code. -/
inductive Outcome (α : Type u) where
  | ok (a : α)
  | raise (msg : String)
  | fault
deriving Repr, DecidableEq

namespace Outcome

variable {α β γ : Type u}

@[inline] protected def bind (x : Outcome α) (f : α → Outcome β) : Outcome β :=
  match x with
  | .ok a => f a
  | .raise m => .raise m
  | .fault => .fault

instance : Monad Outcome where
  pure := .ok
  bind := Outcome.bind

@[simp] theorem pure_eq (a : α) : (pure a : Outcome α) = .ok a := rfl
@[simp] theorem ok_bind (a : α) (f : α → Outcome β) : (Outcome.ok a >>= f) = f a := rfl
@[simp] theorem raise_bind (m : String) (f : α → Outcome β) :
    (Outcome.raise m >>= f) = .raise m := rfl
@[simp] theorem fault_bind (f : α → Outcome β) :
    ((Outcome.fault : Outcome α) >>= f) = .fault := rfl

@[simp] theorem map_ok (f : α → β) (a : α) : f <$> Outcome.ok a = .ok (f a) := rfl
@[simp] theorem map_fault (f : α → β) : f <$> (Outcome.fault : Outcome α) = .fault := rfl

theorem bind_assoc (x : Outcome α) (f : α → Outcome β) (g : β → Outcome γ) :
    (x >>= f) >>= g = x >>= fun a => f a >>= g := by
  cases x <;> rfl

instance : LawfulMonad Outcome :=
  LawfulMonad.mk' Outcome (fun x => by cases x <;> rfl) (fun _ _ => rfl)
    (fun x f g => bind_assoc x f g)

/-- A sequence completes exactly when both parts do. -/
theorem bind_eq_ok {x : Outcome α} {f : α → Outcome β} {b : β} :
    (x >>= f) = .ok b ↔ ∃ a, x = .ok a ∧ f a = .ok b := by
  cases x <;> simp

theorem map_eq_ok {x : Outcome α} {f : α → β} {b : β} :
    f <$> x = .ok b ↔ ∃ a, x = .ok a ∧ f a = b := by
  rw [← bind_pure_comp, bind_eq_ok]
  simp

/-- The function left by its error exit. -/
def Raises (x : Outcome α) : Prop := ∃ msg, x = .raise msg

/-- What a completed run answers. -/
def toOption (x : Outcome α) : Option α :=
  match x with
  | .ok a => some a
  | _ => none

@[simp] theorem toOption_eq_some {x : Outcome α} {a : α} :
    x.toOption = some a ↔ x = .ok a := by
  cases x <;> simp [toOption]

/-- A checked condition of the source: `su_assert(s, cond, msg)`. -/
def check (cond : Bool) (msg : String) : Outcome Unit :=
  if cond then .ok () else .raise msg

/-- A C `assert`, or an access that is only defined under `cond`. -/
def require (cond : Bool) : Outcome Unit :=
  if cond then .ok () else .fault

/-- Read a slot of an array that is only defined inside its bounds. -/
def ofOption (x : Option α) : Outcome α :=
  match x with
  | some a => .ok a
  | none => .fault

@[simp] theorem ofOption_some (a : α) : ofOption (some a) = .ok a := rfl
@[simp] theorem ofOption_none : ofOption (none : Option α) = .fault := rfl
@[simp] theorem ofOption_eq_ok {x : Option α} {a : α} :
    ofOption x = .ok a ↔ x = some a := by
  cases x <;> simp [ofOption]

@[simp] theorem check_true (m : String) : check true m = .ok () := rfl
@[simp] theorem check_false (m : String) : check false m = .raise m := rfl
@[simp] theorem require_true : require true = .ok () := rfl
@[simp] theorem require_false : require false = .fault := rfl

@[simp] theorem check_eq_ok {c : Bool} {m : String} {u : Unit} :
    check c m = .ok u ↔ c = true := by
  cases c <;> simp [check]

@[simp] theorem require_eq_ok {c : Bool} {u : Unit} :
    require c = .ok u ↔ c = true := by
  cases c <;> simp [require]

/-! ## Postconditions -/

/-- If it completes, then with a value that has `P`. -/
def Ensures (x : Outcome α) (P : α → Prop) : Prop := ∀ a, x = .ok a → P a

theorem ensures_ok {P : α → Prop} {a : α} (h : P a) : Ensures (.ok a) P := by
  rintro _ ⟨⟩
  exact h

theorem ensures_raise {P : α → Prop} {m : String} : Ensures (.raise m : Outcome α) P :=
  fun _ h => nomatch h

theorem ensures_fault {P : α → Prop} : Ensures (.fault : Outcome α) P := fun _ h => nomatch h

theorem Ensures.bind {P : β → Prop} {x : Outcome α} {f : α → Outcome β}
    (h : ∀ a, x = .ok a → Ensures (f a) P) : Ensures (x >>= f) P := by
  intro b hb
  obtain ⟨a, ha, hf⟩ := bind_eq_ok.mp hb
  exact h a ha b hf

theorem Ensures.map {P : β → Prop} {x : Outcome α} {f : α → β}
    (h : Ensures x fun a => P (f a)) : Ensures (f <$> x) P := by
  cases x with
  | ok a => exact ensures_ok (h a rfl)
  | raise m => exact ensures_raise
  | fault => exact ensures_fault

end Outcome

end Basis
