import Mathlib.Tactic.Common

/-!
# Counted runs

A run that may fail, with how many items it has used on the way, whether it
fails or not, and how deep its calls were nested. `Within` bounds both by what
there is to be used; the rules follow the shape of a run.
-/

namespace Basis

universe u v

/-- A run: the items it has used, the depth of its calls, and what it comes to. -/
structure Counted (ε : Type u) (α : Type v) where
  items : Nat
  depth : Nat
  result : Except ε α

namespace Counted

variable {ε : Type u} {α β : Type v}

/-- What fails or gives a result at once, having used so many items. -/
def use (items : Nat) (x : Except ε α) : Counted ε α := ⟨items, 0, x⟩

protected def bind (c : Counted ε α) (f : α → Counted ε β) : Counted ε β :=
  match c.result with
  | .error e => ⟨c.items, c.depth, .error e⟩
  | .ok a => ⟨c.items + (f a).items, max c.depth (f a).depth, (f a).result⟩

instance : Monad (Counted ε) where
  pure a := use 0 (.ok a)
  bind := Counted.bind

/-- A call, one deeper than the calls in it. -/
def call (c : Counted ε α) : Counted ε α := { c with depth := c.depth + 1 }

@[simp] theorem result_use (items : Nat) (x : Except ε α) : (use items x).result = x := rfl

@[simp] theorem result_pure (a : α) : (pure a : Counted ε α).result = .ok a := rfl

@[simp] theorem result_call (c : Counted ε α) : c.call.result = c.result := rfl

theorem bind_error {c : Counted ε α} {e : ε} (h : c.result = .error e) (f : α → Counted ε β) :
    c >>= f = ⟨c.items, c.depth, .error e⟩ := by
  change Counted.bind c f = _
  rw [Counted.bind, h]

theorem bind_ok {c : Counted ε α} {a : α} (h : c.result = .ok a) (f : α → Counted ε β) :
    c >>= f = ⟨c.items + (f a).items, max c.depth (f a).depth, (f a).result⟩ := by
  change Counted.bind c f = _
  rw [Counted.bind, h]

@[simp] theorem result_bind (c : Counted ε α) (f : α → Counted ε β) :
    (c >>= f).result = c.result >>= fun a => (f a).result := by
  cases h : c.result with
  | error e =>
      rw [bind_error h]
      rfl
  | ok a =>
      rw [bind_ok h]
      rfl

/-! ## Bounds -/

/-- Of `n` items, those that are used and, with a result, those it leaves; and
no more than `k` calls are open beyond the items used. -/
structure Within (n k : Nat) (left : α → Nat) (c : Counted ε α) : Prop where
  items : c.items ≤ n
  depth : c.depth ≤ c.items + k
  left : ∀ a, c.result = .ok a → c.items + left a ≤ n

variable {n k : Nat} {left : α → Nat} {left' : β → Nat}

theorem Within.error (e : ε) : Within n k left (use 0 (.error e)) where
  items := Nat.zero_le _
  depth := Nat.zero_le _
  left a h := by cases h

theorem Within.pure {a : α} (h : left a ≤ n) : Within n k left (Pure.pure a : Counted ε α) where
  items := Nat.zero_le _
  depth := Nat.zero_le _
  left b hb := by
    cases hb
    exact (Nat.zero_add _).symm ▸ h

/-- One run after another, which may use what the first has left. Its calls
may be deeper by the items that the first has used. -/
theorem Within.bind {c : Counted ε α} {f : α → Counted ε β} (hc : Within n k left c)
    (hf : ∀ a, c.result = .ok a → Within (left a) (c.items + k) left' (f a)) :
    Within n k left' (c >>= f) := by
  cases h : c.result with
  | error e =>
      rw [bind_error h]
      refine ⟨hc.items, hc.depth, fun b hb => ?_⟩
      cases hb
  | ok a =>
      have hleft := hc.left a h
      have hrest := hf a h
      rw [bind_ok h]
      refine ⟨?_, ?_, fun b hb => ?_⟩
      · have := hrest.items
        dsimp only
        omega
      · have := hc.depth
        have := hrest.depth
        dsimp only
        omega
      · have := hrest.left b hb
        dsimp only
        omega

theorem Within.call {c : Counted ε α} (h : Within n k left c) : Within n (k + 1) left c.call where
  items := h.items
  depth := Nat.succ_le_succ h.depth
  left := h.left

theorem Within.mono {k' : Nat} {c : Counted ε α} (h : Within n k left c) (hk : k ≤ k') :
    Within n k' left c where
  items := h.items
  depth := Nat.le_trans h.depth (Nat.add_le_add_left hk _)
  left := h.left

end Counted

end Basis
