import Mathlib.Logic.Function.Basic
import Mathlib.Tactic.Common

/-!
# Slices of memory

Memory is a total function on addresses. `slice` reads a run of cells as a
list and `overwrite` writes one; the lemmas say how the two meet, and what a
write leaves alone.
-/

namespace Basis

variable {α : Type*}

/-- The `n` cells from `i` on. -/
def slice (f : Nat → α) (i n : Nat) : List α := (List.range n).map fun j => f (i + j)

/-- The cells from `i` on replaced by `vs`. -/
def overwrite (f : Nat → α) (i : Nat) (vs : List α) : Nat → α :=
  fun j => if i ≤ j then (vs[j - i]?).getD (f j) else f j

@[simp] theorem length_slice (f : Nat → α) (i n : Nat) : (slice f i n).length = n := by
  simp [slice]

@[simp] theorem slice_zero (f : Nat → α) (i : Nat) : slice f i 0 = [] := rfl

theorem getElem?_slice {f : Nat → α} {i n j : Nat} (h : j < n) :
    (slice f i n)[j]? = some (f (i + j)) := by
  rw [slice, List.getElem?_map, List.getElem?_range h]
  rfl

theorem slice_congr {f g : Nat → α} {i n : Nat} (h : ∀ j, i ≤ j → j < i + n → f j = g j) :
    slice f i n = slice g i n :=
  List.map_congr_left fun _ hj =>
    h _ (Nat.le_add_right ..) (Nat.add_lt_add_left (List.mem_range.mp hj) i)

theorem slice_add (f : Nat → α) (i m n : Nat) :
    slice f i (m + n) = slice f i m ++ slice f (i + m) n := by
  simp only [slice, List.range_add, List.map_append, List.map_map]
  congr 1
  exact List.map_congr_left fun j _ => by simp [Nat.add_assoc]

theorem slice_one (f : Nat → α) (i : Nat) : slice f i 1 = [f i] := rfl

theorem slice_succ (f : Nat → α) (i n : Nat) : slice f i (n + 1) = f i :: slice f (i + 1) n := by
  rw [Nat.add_comm n 1, slice_add]
  rfl

/-- A slice that reads as two lists, split where they meet. -/
theorem slice_eq_append {f : Nat → α} {i n : Nat} {xs ys : List α}
    (h : slice f i n = xs ++ ys) :
    slice f i xs.length = xs ∧ slice f (i + xs.length) ys.length = ys := by
  have hn : n = xs.length + ys.length := by rw [← List.length_append, ← h, length_slice]
  rw [hn, slice_add] at h
  exact List.append_inj h (length_slice ..)

theorem overwrite_of_lt {f : Nat → α} {i j : Nat} {vs : List α} (h : j < i) :
    overwrite f i vs j = f j := if_neg (Nat.not_le.mpr h)

theorem slice_overwrite (f : Nat → α) (i : Nat) (vs : List α) :
    slice (overwrite f i vs) i vs.length = vs := by
  refine List.ext_getElem? fun j => ?_
  by_cases hj : j < vs.length
  · rw [getElem?_slice hj, overwrite, if_pos (Nat.le_add_right ..), Nat.add_sub_cancel_left,
      List.getElem?_eq_getElem hj, Option.getD_some]
  · rw [List.getElem?_eq_none (by simpa using hj), List.getElem?_eq_none (by simpa using hj)]

@[simp] theorem overwrite_nil (f : Nat → α) (i : Nat) : overwrite f i [] = f := by
  funext j
  simp [overwrite]

theorem overwrite_singleton (f : Nat → α) (i : Nat) (v : α) :
    overwrite f i [v] = Function.update f i v := by
  funext j
  rcases Nat.lt_trichotomy j i with hlt | rfl | hgt
  · rw [overwrite_of_lt hlt, Function.update_of_ne (Nat.ne_of_lt hlt)]
  · simp [overwrite]
  · obtain ⟨d, rfl⟩ := Nat.exists_eq_add_of_lt hgt
    rw [Function.update_of_ne (Nat.ne_of_gt hgt), overwrite, if_pos (Nat.le_of_lt hgt),
      Nat.add_assoc, Nat.add_sub_cancel_left]
    rfl

/-- A write on top of a slice makes it longer. -/
theorem slice_overwrite_append (f : Nat → α) (i n : Nat) (vs : List α) :
    slice (overwrite f (i + n) vs) i (n + vs.length) = slice f i n ++ vs := by
  rw [slice_add, slice_overwrite]
  congr 1
  exact slice_congr fun _ _ hlt => overwrite_of_lt hlt

end Basis
