import Saurus.Basis.Outcome

/-!
# Copies between blocks of memory

A block is the list of its cells. `memcpy` faults unless it stays inside both
blocks. An allocator gives a block of the size it was asked for, or none;
`Gives` is a run that comes to a value unless it is given none.
-/

namespace Basis

universe u

variable {α : Type u}

/-- `num` cells of `src` from `j` on, copied over those of `dest` from `i` on. -/
def memcpy (dest : List α) (i : Nat) (src : List α) (j num : Nat) : Outcome (List α) :=
  if i + num ≤ dest.length ∧ j + num ≤ src.length then
    .ok (dest.take i ++ (src.drop j).take num ++ dest.drop (i + num))
  else .fault

theorem memcpy_ok {dest src : List α} {i j num : Nat} (hdest : i + num ≤ dest.length)
    (hsrc : j + num ≤ src.length) :
    memcpy dest i src j num
      = .ok (dest.take i ++ (src.drop j).take num ++ dest.drop (i + num)) :=
  if_pos ⟨hdest, hsrc⟩

/-- A copy behind what is there already. -/
theorem memcpy_append {done rest src : List α} {j num : Nat} (hrest : num ≤ rest.length)
    (hsrc : j + num ≤ src.length) :
    memcpy (done ++ rest) done.length src j num
      = .ok (done ++ (src.drop j).take num ++ rest.drop num) := by
  rw [memcpy_ok (by rw [List.length_append]; omega) hsrc, List.take_left, List.drop_append,
    Nat.add_sub_cancel_left, List.drop_eq_nil_of_le (Nat.le_add_right ..), List.nil_append]

/-- A whole block is copied to the front of another. -/
theorem memcpy_front {dest src : List α} (h : src.length ≤ dest.length) :
    memcpy dest 0 src 0 src.length = .ok (src ++ dest.drop src.length) := by
  rw [memcpy_ok (by omega) (by omega), List.take_zero, List.nil_append, List.drop_zero,
    List.take_length, Nat.zero_add]

/-- What gives a block of so many cells in place of another one, or none. -/
structure Allocator (α : Type u) where
  resize : List α → Nat → Option (List α)
  length_resize : ∀ {block block' : List α} {n : Nat}, resize block n = some block' →
    block'.length = n

/-- Some block is not given. -/
def Allocator.Refuses (alloc : Allocator α) : Prop := ∃ block n, alloc.resize block n = none

namespace Outcome

variable {β : Type u} {refuses : Prop} {msg : String} {P : α → Prop} {Q : β → Prop}

/-- The run comes to a value with `P`, unless memory is refused. -/
def Gives (refuses : Prop) (msg : String) (x : Outcome α) (P : α → Prop) : Prop :=
  (∃ a, x = .ok a ∧ P a) ∨ refuses ∧ x = .raise msg

theorem gives_ok {a : α} (h : P a) : Gives refuses msg (.ok a) P := Or.inl ⟨a, rfl, h⟩

theorem Gives.bind {x : Outcome α} {f : α → Outcome β} (hx : Gives refuses msg x P)
    (hf : ∀ a, P a → Gives refuses msg (f a) Q) : Gives refuses msg (x >>= f) Q := by
  rcases hx with ⟨a, rfl, ha⟩ | ⟨hrefuses, rfl⟩
  · exact hf a ha
  · exact Or.inr ⟨hrefuses, rfl⟩

theorem Gives.imp {R : α → Prop} {x : Outcome α} (hx : Gives refuses msg x P)
    (h : ∀ a, P a → R a) : Gives refuses msg x R := by
  rcases hx with ⟨a, rfl, ha⟩ | hraise
  · exact gives_ok (h a ha)
  · exact Or.inr hraise

end Outcome

end Basis
