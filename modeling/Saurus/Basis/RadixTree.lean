import Mathlib.Algebra.Group.Int.Defs
import Mathlib.Algebra.Group.Nat.Defs
import Mathlib.Tactic.Common

/-!
# Left-packed radix trees

Trees whose nodes have at most `b` children and whose leaves are the
elements of a list, in order. In a `Full` tree of height `l` every node has
all its children, so it holds `b ^ l` elements. A `Packed` tree may miss
children on its right edge, but only whole chunks of `b` leaves: all its
children but the last are full and the last is packed again.

In a packed tree the digits of a position in base `b` are the path to its
element. `packed_child` is that fact for one digit; an access that walks
down and an update that rebuilds the path both go through it.
-/

namespace Basis

namespace Radix

universe u

/-- A tree; its height is not part of it. -/
inductive Tree (α : Type u) where
  | leaf (a : α)
  | node (children : List (Tree α))
deriving Repr

variable {α : Type u}

namespace Tree

/-- The leaves, from left to right. -/
def toList : Tree α → List α
  | .leaf a => [a]
  | .node cs => cs.flatMap toList

@[simp] theorem toList_leaf (a : α) : (leaf a).toList = [a] := by rw [toList]

@[simp] theorem toList_node (cs : List (Tree α)) :
    (node cs).toList = cs.flatMap toList := by rw [toList]

theorem toList_chunk (xs : List α) : (node (xs.map leaf)).toList = xs := by
  induction xs with
  | nil => simp
  | cons x xs ih => simpa using ih

end Tree

open Radix.Tree

/-! ## Shapes -/

/-- Height `l`, every node with exactly `b` children. -/
def Full (b : Nat) : Nat → Tree α → Prop
  | 0, .leaf _ => True
  | l + 1, .node cs => cs.length = b ∧ ∀ c ∈ cs, Full b l c
  | _, _ => False

/-- Height `l + 1`, complete up to some chunk of `b` leaves and empty after
it. -/
def Packed (b : Nat) : Nat → Tree α → Prop
  | 0, t => Full b 1 t
  | l + 1, .node cs => ∃ front last, cs = front ++ [last] ∧ front.length < b
      ∧ (∀ c ∈ front, Full b (l + 1) c) ∧ Packed b l last
  | _ + 1, .leaf _ => False

variable {b l : Nat}

theorem Full.exists_node {t : Tree α} (h : Full b (l + 1) t) :
    ∃ cs, t = .node cs ∧ cs.length = b ∧ ∀ c ∈ cs, Full b l c := by
  cases t with
  | leaf a => exact h.elim
  | node cs => exact ⟨cs, rfl, h⟩

theorem Packed.exists_node {t : Tree α} (h : Packed b l t) : ∃ cs, t = .node cs := by
  cases t with
  | leaf a => cases l <;> exact h.elim
  | node cs => exact ⟨cs, rfl⟩

theorem packed_snoc {front : List (Tree α)} {last : Tree α} (hlen : front.length < b)
    (hfront : ∀ c ∈ front, Full b (l + 1) c) (hlast : Packed b l last) :
    Packed b (l + 1) (.node (front ++ [last])) :=
  ⟨front, last, rfl, hlen, hfront, hlast⟩

/-- A chunk holds its elements and nothing else. -/
theorem Full.chunk {cs : List (Tree α)} (h : Full b 1 (.node cs)) :
    ∃ xs : List α, cs = xs.map leaf ∧ xs.length = b := by
  obtain ⟨hlen, hleaf⟩ := h
  have hmap : ∃ xs : List α, cs = xs.map leaf := by
    clear hlen
    induction cs with
    | nil => exact ⟨[], rfl⟩
    | cons c cs ih =>
        obtain ⟨xs, rfl⟩ := ih fun c hc => hleaf c (List.mem_cons_of_mem _ hc)
        cases c with
        | leaf a => exact ⟨a :: xs, rfl⟩
        | node ds => exact (hleaf _ List.mem_cons_self).elim
  obtain ⟨xs, rfl⟩ := hmap
  exact ⟨xs, rfl, by simpa using hlen⟩

theorem full_chunk {xs : List α} (h : xs.length = b) : Full b 1 (.node (xs.map leaf)) :=
  ⟨by rw [List.length_map, h], fun c hc => by
    obtain ⟨a, -, rfl⟩ := List.mem_map.mp hc
    exact trivial⟩

mutual

/-- A full tree is packed. -/
theorem Full.packed (hb : 0 < b) : ∀ {l : Nat} {t : Tree α}, Full b (l + 1) t → Packed b l t
  | 0, _, h => h
  | l + 1, t, h => by
      obtain ⟨cs, rfl, hlen, hcs⟩ := h.exists_node
      exact packed_of_full hb (by rintro rfl; simp at hlen; omega) (Nat.le_of_eq hlen) hcs

/-- So is a node that only lacks whole children. -/
theorem packed_of_full (hb : 0 < b) {l : Nat} {cs : List (Tree α)} (hne : cs ≠ [])
    (hlen : cs.length ≤ b) (hcs : ∀ c ∈ cs, Full b (l + 1) c) : Packed b (l + 1) (.node cs) := by
  rw [← List.dropLast_concat_getLast hne]
  refine packed_snoc ?_ (fun c hc => hcs c (List.dropLast_subset _ hc))
    ((hcs _ (List.getLast_mem hne)).packed hb)
  have := List.length_pos_iff.mpr hne
  rw [List.length_dropLast]
  omega

end

/-! ## Sizes -/

theorem length_flatMap_uniform {m : Nat} {cs : List (Tree α)}
    (h : ∀ c ∈ cs, c.toList.length = m) : (cs.flatMap toList).length = cs.length * m := by
  induction cs with
  | nil => simp
  | cons c cs ih =>
      rw [List.flatMap_cons, List.length_append, h c List.mem_cons_self,
        ih fun c hc => h c (List.mem_cons_of_mem _ hc), List.length_cons, Nat.succ_mul,
        Nat.add_comm]

theorem Full.length_toList : ∀ {l : Nat} {t : Tree α}, Full b l t → t.toList.length = b ^ l
  | 0, .leaf a, _ => by simp
  | 0, .node cs, h => h.elim
  | l + 1, t, h => by
      obtain ⟨cs, rfl, hlen, hcs⟩ := h.exists_node
      rw [toList_node, length_flatMap_uniform fun c hc => (hcs c hc).length_toList, hlen,
        Nat.pow_succ, Nat.mul_comm]

theorem Packed.length_le : ∀ {l : Nat} {t : Tree α}, Packed b l t →
    t.toList.length ≤ b ^ (l + 1)
  | 0, t, h => Nat.le_of_eq h.length_toList
  | l + 1, .node cs, h => by
      obtain ⟨front, last, rfl, hlen, hfront, hlast⟩ := h
      have hle := hlast.length_le
      have hsize := length_flatMap_uniform fun c hc => (hfront c hc).length_toList
      have hmul : (front.length + 1) * b ^ (l + 1) ≤ b * b ^ (l + 1) :=
        Nat.mul_le_mul_right _ hlen
      have hone : (front.length + 1) * b ^ (l + 1) = front.length * b ^ (l + 1) + b ^ (l + 1) :=
        Nat.succ_mul ..
      rw [toList_node, List.flatMap_append, List.length_append, hsize, List.flatMap_singleton,
        Nat.pow_succ b (l + 1), Nat.mul_comm (b ^ (l + 1)) b]
      omega

/-- Packed trees grow by whole chunks. -/
theorem Packed.dvd_length : ∀ {l : Nat} {t : Tree α}, Packed b l t → b ∣ t.toList.length
  | 0, t, h => ⟨1, by rw [Full.length_toList h, Nat.pow_one, Nat.mul_one]⟩
  | l + 1, .node cs, h => by
      obtain ⟨front, last, rfl, -, hfront, hlast⟩ := h
      rw [toList_node, List.flatMap_append, List.length_append, List.flatMap_singleton,
        length_flatMap_uniform fun c hc => (hfront c hc).length_toList]
      exact Nat.dvd_add (Nat.dvd_mul_left_of_dvd (Nat.dvd_mul_left ..) _) hlast.dvd_length

/-- No packed tree is empty. -/
theorem Packed.toList_ne_nil (hb : 0 < b) : ∀ {l : Nat} {t : Tree α}, Packed b l t →
    t.toList ≠ []
  | 0, t, h => by
      have hlen := Full.length_toList h
      intro hnil
      rw [hnil, Nat.pow_one] at hlen
      simp at hlen
      omega
  | l + 1, .node cs, h => by
      obtain ⟨front, last, rfl, -, -, hlast⟩ := h
      rw [toList_node, List.flatMap_append, List.flatMap_singleton]
      exact List.append_ne_nil_of_right_ne_nil _ (hlast.toList_ne_nil hb)

/-! ## One digit of a position -/

/-- Reading past `j` children of equal size lands in child `j`. -/
theorem getElem?_flatMap {m : Nat} {c : Tree α} {r : Nat} (hr : r < c.toList.length) :
    ∀ {cs : List (Tree α)} {j : Nat}, cs[j]? = some c →
      (∀ t ∈ cs.take j, t.toList.length = m) →
      (cs.flatMap toList)[j * m + r]? = c.toList[r]?
  | [], _, hc, _ => by simp at hc
  | d :: cs, 0, hc, _ => by
      obtain rfl : d = c := by simpa using hc
      rw [List.flatMap_cons, Nat.zero_mul, Nat.zero_add, List.getElem?_append_left hr]
  | d :: cs, j + 1, hc, hm => by
      have hd : d.toList.length = m := hm d (by simp)
      rw [List.flatMap_cons, List.getElem?_append_right (by rw [Nat.succ_mul]; omega),
        show (j + 1) * m + r - d.toList.length = j * m + r by rw [Nat.succ_mul]; omega]
      exact getElem?_flatMap hr (by simpa using hc) fun t ht => hm t (by simp [ht])

/-- Writing there changes that child only. -/
theorem set_flatMap {m : Nat} {c c' : Tree α} {r : Nat} {a : α} (hr : r < c.toList.length)
    (hc' : c'.toList = c.toList.set r a) :
    ∀ {cs : List (Tree α)} {j : Nat}, cs[j]? = some c →
      (∀ t ∈ cs.take j, t.toList.length = m) →
      (cs.set j c').flatMap toList = (cs.flatMap toList).set (j * m + r) a
  | [], _, hc, _ => by simp at hc
  | d :: cs, 0, hc, _ => by
      obtain rfl : d = c := by simpa using hc
      rw [List.set_cons_zero, List.flatMap_cons, List.flatMap_cons, Nat.zero_mul, Nat.zero_add,
        List.set_append_left _ _ hr, hc']
  | d :: cs, j + 1, hc, hm => by
      have hd : d.toList.length = m := hm d (by simp)
      rw [List.set_cons_succ, List.flatMap_cons, List.flatMap_cons,
        List.set_append_right _ _ (by rw [Nat.succ_mul]; omega),
        show (j + 1) * m + r - d.toList.length = j * m + r by rw [Nat.succ_mul]; omega,
        set_flatMap hr hc' (by simpa using hc) fun t ht => hm t (by simp [ht])]

/-- **One digit.** The leading digit of a position of a packed tree names
the child that holds it, and the remaining digits its position there. -/
theorem packed_child {cs : List (Tree α)} (h : Packed b (l + 1) (.node cs)) {r : Nat}
    (hr : r < (cs.flatMap toList).length) :
    ∃ c, cs[r / b ^ (l + 1)]? = some c ∧ Packed b l c
      ∧ r % b ^ (l + 1) < c.toList.length
      ∧ (∀ t ∈ cs.take (r / b ^ (l + 1)), t.toList.length = b ^ (l + 1)) := by
  obtain ⟨front, last, rfl, hlen, hfront, hlast⟩ := h
  have hsize := length_flatMap_uniform fun c hc => (hfront c hc).length_toList
  have hle := hlast.length_le
  rw [List.flatMap_append, List.length_append, hsize, List.flatMap_singleton] at hr
  have hpos : 0 < b ^ (l + 1) := Nat.pow_pos (by omega)
  have hdiv := Nat.div_add_mod r (b ^ (l + 1))
  have hmod := Nat.mod_lt r hpos
  rcases Nat.lt_or_ge (r / b ^ (l + 1)) front.length with hlt | hge
  · have hchild := hfront _ (List.getElem_mem hlt)
    refine ⟨front[r / b ^ (l + 1)], ?_, hchild.packed (by omega), ?_, fun t ht => ?_⟩
    · rw [List.getElem?_append_left hlt, List.getElem?_eq_getElem hlt]
    · rw [hchild.length_toList]; exact hmod
    · rw [List.take_append_of_le_length (by omega)] at ht
      exact (hfront t (List.mem_of_mem_take ht)).length_toList
  · -- the position is past the full children, hence in the last one
    have heq : r / b ^ (l + 1) = front.length := by
      refine Nat.le_antisymm (Nat.lt_succ_iff.mp ?_) hge
      rw [Nat.div_lt_iff_lt_mul hpos, Nat.succ_mul]
      omega
    have hrest : r % b ^ (l + 1) < last.toList.length := by
      rw [heq, Nat.mul_comm] at hdiv
      omega
    refine ⟨last, by rw [heq, List.getElem?_concat_length], hlast, hrest, fun t ht => ?_⟩
    rw [heq, List.take_left' rfl] at ht
    exact (hfront t ht).length_toList

/-! ## Replacing a child -/

theorem full_set {cs : List (Tree α)} (h : Full b (l + 1) (.node cs)) {c' : Tree α} (j : Nat)
    (hc' : Full b l c') : Full b (l + 1) (.node (cs.set j c')) :=
  ⟨by rw [List.length_set, h.1], fun c hc =>
    (List.mem_or_eq_of_mem_set hc).elim (h.2 c) fun heq => heq ▸ hc'⟩

theorem packed_set {cs : List (Tree α)} (h : Packed b (l + 1) (.node cs)) {c c' : Tree α}
    {j : Nat} (hc : cs[j]? = some c) (hfull : Full b (l + 1) c → Full b (l + 1) c')
    (hpacked : Packed b l c → Packed b l c') :
    Packed b (l + 1) (.node (cs.set j c')) := by
  obtain ⟨front, last, rfl, hlen, hfront, hlast⟩ := h
  rcases Nat.lt_or_ge j front.length with hlt | hge
  · rw [List.getElem?_append_left hlt] at hc
    rw [List.set_append_left _ _ hlt]
    refine packed_snoc (by rwa [List.length_set]) (fun d hd => ?_) hlast
    rcases List.mem_or_eq_of_mem_set hd with hd | rfl
    · exact hfront d hd
    · exact hfull (hfront c (List.mem_of_getElem? hc))
  · obtain ⟨hj, -⟩ := List.getElem?_eq_some_iff.mp hc
    obtain rfl : j = front.length := by simp at hj; omega
    obtain rfl : last = c := by simpa using hc
    rw [List.set_append_right _ _ (Nat.le_refl _), Nat.sub_self, List.set_cons_zero]
    exact packed_snoc hlen hfront (hpacked hlast)

/-! ## Shapes are canonical -/

namespace Tree

universe v

variable {β : Type v}

/-- The same tree with `f` on its leaves. -/
def map (f : α → β) : Tree α → Tree β
  | .leaf a => .leaf (f a)
  | .node cs => .node (cs.map (map f))

theorem map_leaf (f : α → β) (a : α) : (leaf a).map f = .leaf (f a) := by rw [map]

theorem map_node (f : α → β) (cs : List (Tree α)) :
    (node cs).map f = .node (cs.map (map f)) := by rw [map]

theorem toList_map (f : α → β) : ∀ t : Tree α, (t.map f).toList = t.toList.map f
  | .leaf a => by rw [map_leaf, toList_leaf, toList_leaf, List.map_singleton]
  | .node cs => by
      rw [map_node, toList_node, toList_node, List.flatMap_map, List.map_flatMap,
        List.flatMap_def, List.flatMap_def]
      exact congrArg List.flatten (List.map_congr_left fun c _ => toList_map f c)

end Tree

section Map

universe v

variable {β : Type v} (f : α → β)

theorem Full.map : ∀ {l : Nat} {t : Tree α}, Full b l t → Full b l (t.map f)
  | 0, .leaf a, _ => by rw [map_leaf]; exact trivial
  | l + 1, t, h => by
      obtain ⟨cs, rfl, hlen, hcs⟩ := h.exists_node
      rw [map_node]
      refine ⟨by rw [List.length_map, hlen], fun d hd => ?_⟩
      obtain ⟨c, hc, rfl⟩ := List.mem_map.mp hd
      exact (hcs c hc).map

theorem Packed.map : ∀ {l : Nat} {t : Tree α}, Packed b l t → Packed b l (t.map f)
  | 0, _, h => Full.map f h
  | l + 1, .node cs, h => by
      obtain ⟨front, last, rfl, hlen, hfront, hlast⟩ := h
      rw [map_node, List.map_append, List.map_singleton]
      refine packed_snoc (by rwa [List.length_map]) (fun d hd => ?_) hlast.map
      obtain ⟨c, hc, rfl⟩ := List.mem_map.mp hd
      exact (hfront c hc).map f

end Map

/-- Children of one size are known from what they hold together. -/
theorem eq_of_flatMap {m : Nat} : ∀ {cs cs' : List (Tree α)}, cs.length = cs'.length →
    (∀ c ∈ cs, c.toList.length = m) → (∀ c ∈ cs', c.toList.length = m) →
    (∀ c ∈ cs, ∀ c' ∈ cs', c.toList = c'.toList → c = c') →
    cs.flatMap toList = cs'.flatMap toList → cs = cs'
  | [], cs', hlen, _, _, _, _ => (List.length_eq_zero_iff.mp hlen.symm).symm
  | c :: cs, [], hlen, _, _, _, _ => by cases hlen
  | c :: cs, c' :: cs', hlen, hm, hm', heq, h => by
      rw [List.flatMap_cons, List.flatMap_cons] at h
      obtain ⟨hc, hm⟩ := List.forall_mem_cons.mp hm
      obtain ⟨hc', hm'⟩ := List.forall_mem_cons.mp hm'
      obtain ⟨hhead, htail⟩ := List.append_inj h (hc.trans hc'.symm)
      rw [heq c List.mem_cons_self c' List.mem_cons_self hhead,
        eq_of_flatMap (Nat.succ.inj hlen) hm hm' (fun d hd d' hd' =>
          heq d (List.mem_cons_of_mem _ hd) d' (List.mem_cons_of_mem _ hd')) htail]

theorem Full.eq_of_toList : ∀ {l : Nat} {t t' : Tree α}, Full b l t → Full b l t' →
    t.toList = t'.toList → t = t'
  | 0, .leaf a, .leaf a', _, _, h => by
      rw [toList_leaf, toList_leaf] at h
      rw [(List.cons.inj h).1]
  | l + 1, t, t', ht, ht', h => by
      obtain ⟨cs, rfl, hlen, hcs⟩ := ht.exists_node
      obtain ⟨cs', rfl, hlen', hcs'⟩ := ht'.exists_node
      rw [toList_node, toList_node] at h
      rw [eq_of_flatMap (hlen.trans hlen'.symm) (fun c hc => (hcs c hc).length_toList)
        (fun c hc => (hcs' c hc).length_toList)
        (fun c hc c' hc' => (hcs c hc).eq_of_toList (hcs' c' hc')) h]

/-- **Canonical.** A packed tree is known from its height and its leaves. -/
theorem Packed.eq_of_toList (hb : 0 < b) : ∀ {l : Nat} {t t' : Tree α}, Packed b l t →
    Packed b l t' → t.toList = t'.toList → t = t'
  | 0, _, _, ht, ht', h => Full.eq_of_toList ht ht' h
  | l + 1, .node cs, .node cs', ht, ht', h => by
      obtain ⟨front, last, rfl, -, hfront, hlast⟩ := ht
      obtain ⟨front', last', rfl, -, hfront', hlast'⟩ := ht'
      have hsize : ∀ c ∈ front, c.toList.length = b ^ (l + 1) :=
        fun c hc => (hfront c hc).length_toList
      have hsize' : ∀ c ∈ front', c.toList.length = b ^ (l + 1) :=
        fun c hc => (hfront' c hc).length_toList
      simp only [toList_node, List.flatMap_append, List.flatMap_singleton] at h
      -- the last child of each holds some but at most a full child's leaves
      have hlen : front.length = front'.length := by
        have hpos := List.length_pos_iff.mpr (hlast.toList_ne_nil hb)
        have hpos' := List.length_pos_iff.mpr (hlast'.toList_ne_nil hb)
        have hle := hlast.length_le
        have hle' := hlast'.length_le
        have hsum := congrArg List.length h
        rw [List.length_append, List.length_append, length_flatMap_uniform hsize,
          length_flatMap_uniform hsize'] at hsum
        by_contra hne
        rcases Nat.lt_or_gt_of_ne hne with hlt | hgt
        · have := Nat.mul_le_mul_right (b ^ (l + 1)) hlt
          rw [Nat.succ_mul] at this
          omega
        · have := Nat.mul_le_mul_right (b ^ (l + 1)) hgt
          rw [Nat.succ_mul] at this
          omega
      have hflat : (front.flatMap toList).length = (front'.flatMap toList).length := by
        rw [length_flatMap_uniform hsize, length_flatMap_uniform hsize', hlen]
      obtain ⟨hfronts, hlasts⟩ := List.append_inj h hflat
      rw [hlast.eq_of_toList hb hlast' hlasts, eq_of_flatMap hlen hsize hsize'
        (fun c hc c' hc' => (hfront c hc).eq_of_toList (hfront' c' hc')) hfronts]

end Radix

end Basis
