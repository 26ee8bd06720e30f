import Mathlib.Logic.Function.Basic
import Mathlib.Tactic.Common

/-!
# Linked lists in memory

A singly linked list is an address and a memory `next` of successors. `Seg`
reads the cells passed on the way from one address to another; a whole list
is a segment that ends in `0`, the null address.
-/

namespace Basis

/-- From `a` the cells `as` are passed, none of them null, and then `b` is
reached. -/
def Seg (next : Nat → Nat) : Nat → List Nat → Nat → Prop
  | a, [], b => a = b
  | a, x :: xs, b => a = x ∧ x ≠ 0 ∧ Seg next (next x) xs b

variable {next : Nat → Nat}

theorem seg_append : ∀ {xs ys : List Nat} {a b : Nat},
    Seg next a (xs ++ ys) b ↔ ∃ m, Seg next a xs m ∧ Seg next m ys b
  | [], ys, a, b => by simp [Seg]
  | x :: xs, ys, a, b => by
      simp only [List.cons_append, Seg, seg_append]
      constructor
      · rintro ⟨rfl, hx, m, hxs, hys⟩
        exact ⟨m, ⟨rfl, hx, hxs⟩, hys⟩
      · rintro ⟨m, ⟨rfl, hx, hxs⟩, hys⟩
        exact ⟨rfl, hx, m, hxs, hys⟩

theorem Seg.snoc {xs : List Nat} {a x : Nat} (h : Seg next a xs x) (hx : x ≠ 0) :
    Seg next a (xs ++ [x]) (next x) :=
  seg_append.mpr ⟨x, h, rfl, hx, rfl⟩

/-- A segment depends on the links of its own cells only. -/
theorem Seg.congr {next' : Nat → Nat} : ∀ {xs : List Nat} {a b : Nat}, Seg next a xs b →
    (∀ x ∈ xs, next' x = next x) → Seg next' a xs b
  | [], _, _, h, _ => h
  | x :: xs, _, _, ⟨ha, hx, hxs⟩, hsame => by
      refine ⟨ha, hx, ?_⟩
      rw [hsame x List.mem_cons_self]
      exact hxs.congr fun y hy => hsame y (List.mem_cons_of_mem _ hy)

/-- Redirecting a link that is not in the segment. -/
theorem Seg.update {xs : List Nat} {a b p q : Nat} (h : Seg next a xs b) (hp : p ∉ xs) :
    Seg (Function.update next p q) a xs b :=
  h.congr fun _ hx => Function.update_of_ne (ne_of_mem_of_not_mem hx hp) ..

/-- Redirecting the last link of a segment. -/
theorem Seg.relink {xs : List Nat} {a b p : Nat} (h : Seg next a (xs ++ [p]) b)
    (hp : p ∉ xs) (q : Nat) : Seg (Function.update next p q) a (xs ++ [p]) q := by
  obtain ⟨m, hxs, rfl, hp0, -⟩ := seg_append.mp h
  have hlast := (hxs.update (q := q) hp).snoc hp0
  rwa [Function.update_self] at hlast

end Basis
