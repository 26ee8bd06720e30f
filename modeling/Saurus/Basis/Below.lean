import Saurus.Basis.Machine

/-!
# Computations that say less

A computation says less than another if, wherever it does not fault, the
other comes to the same. Computations are put together so that this holds of
the whole when it holds of the parts; a recursion on a bound is then the same
for every bound that is large enough.
-/

namespace Basis

variable {σ α β : Type}

/-- Where `x` does not fault it is `y`. -/
def Outcome.Below (x y : Outcome α) : Prop := x = .fault ∨ x = y

namespace Outcome.Below

variable {x y : Outcome α}

theorem rfl : x.Below x := Or.inr (Eq.refl x)

theorem fault : (Outcome.fault : Outcome α).Below y := Or.inl (Eq.refl _)

theorem eq (h : x.Below y) (hx : x ≠ .fault) : x = y := h.resolve_left hx

theorem bind {f g : α → Outcome β} (h : x.Below y) (hfg : ∀ a, (f a).Below (g a)) :
    (x >>= f).Below (y >>= g) := by
  rcases h with h | h
  · exact Or.inl (by rw [h, Outcome.fault_bind])
  · rw [h]
    cases y with
    | ok a => exact hfg a
    | raise msg => exact .rfl
    | fault => exact .rfl

end Outcome.Below

/-- From every state. -/
def Below (m m' : StateT σ Outcome α) : Prop := ∀ s, (m s).Below (m' s)

namespace Below

variable {m m' : StateT σ Outcome α}

theorem rfl : Below m m := fun _ => .rfl

theorem of_eq (h : m = m') : Below m m' := h ▸ .rfl

theorem bind {f g : α → StateT σ Outcome β} (h : Below m m') (hfg : ∀ a, Below (f a) (g a)) :
    Below (m >>= f) (m' >>= g) := fun s => (h s).bind fun r => hfg r.1 r.2

end Below

end Basis
