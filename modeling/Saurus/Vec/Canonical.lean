import Mathlib.Order.Bounds.Defs
import Saurus.Vec.Refine

/-!
# The shape of a vector is canonical

A vector that represents a list is the only one that does: the length of the
tail and the number of levels are known from the length of the list, and so
is the packed tree of the other elements. That an update undoes another is
then a matter of the lists.
-/

namespace Saurus

open Basis Basis.Radix

/-- What remains of a vector without its elements: the tree with the length of
every node, and the length of the tail. -/
structure Skeleton where
  shift : Nat
  root : List (Radix.Tree Unit)
  tail : Nat

def Vec.skeleton (v : Vec) : Skeleton :=
  ⟨v.shift, v.root.map (Radix.Tree.map fun _ => ()), v.tail.length⟩

/-- The length of the tail of a vector of `n` elements. -/
def tailLength (n : Nat) : Nat := if n = 0 then 0 else (n - 1) % 32 + 1

/-! ## Tail and levels -/

section Shape

variable {v : Vec} {level : Nat} {ts : List Value}

theorem VecShape.tailLength (h : VecShape v level ts) :
    ts.length = tailLength (rootList v ++ ts).length := by
  have hroom := h.room
  have hdvd := h.dvd
  rw [List.length_append, Saurus.tailLength]
  by_cases hts : ts = []
  · rw [hts, rootList, h.first hts]
    rfl
  · have hpos := List.length_pos_iff.mpr hts
    rw [if_neg (by omega)]
    omega

/-- The levels are enough for the elements outside the tail, and one level
less would not be. -/
theorem VecShape.levels (h : VecShape v level ts) :
    (rootList v).length ≤ 32 ^ (level + 2)
      ∧ (0 < level → 32 ^ (level + 1) < (rootList v).length) := by
  rcases h.root with hp | ⟨hlevel, hnil⟩
  · have hle := hp.length_le
    rw [Radix.Tree.toList_node] at hle
    refine ⟨hle, fun hl => ?_⟩
    have htwo := h.least hl
    obtain ⟨front, last, hroot, -, hfront, hlast⟩ := hp
    have hpos := List.length_pos_iff.mpr (hlast.toList_ne_nil (by decide))
    have hsize := length_flatMap_uniform fun c hc => (hfront c hc).length_toList
    rw [hroot, List.length_append, List.length_singleton] at htwo
    rw [rootList, hroot, List.flatMap_append, List.length_append, hsize, List.flatMap_singleton]
    have := Nat.mul_le_mul_right (32 ^ (level + 1)) (show 1 ≤ front.length by omega)
    omega
  · rw [rootList, hnil]
    exact ⟨Nat.zero_le _, fun hl => by omega⟩

theorem VecShape.level_eq (h : VecShape v level ts) {v' : Vec} {level' : Nat} {ts' : List Value}
    (h' : VecShape v' level' ts') (hlen : (rootList v).length = (rootList v').length) :
    level = level' := by
  obtain ⟨hle, hlt⟩ := h.levels
  obtain ⟨hle', hlt'⟩ := h'.levels
  rw [hlen] at hle hlt
  by_contra hne
  rcases Nat.lt_or_gt_of_ne hne with hl | hl
  · have := Nat.pow_le_pow_right (n := 32) (by decide) (show level + 2 ≤ level' + 1 by omega)
    have := hlt' (by omega)
    omega
  · have := Nat.pow_le_pow_right (n := 32) (by decide) (show level' + 2 ≤ level + 1 by omega)
    have := hlt (by omega)
    omega

end Shape

/-- The root of a vector is known from its levels and its leaves. -/
theorem root_eq {α : Type} {level : Nat} {r r' : List (Radix.Tree α)}
    (h : Packed 32 (level + 1) (.node r) ∨ (level = 0 ∧ r = []))
    (h' : Packed 32 (level + 1) (.node r') ∨ (level = 0 ∧ r' = []))
    (heq : r.flatMap Radix.Tree.toList = r'.flatMap Radix.Tree.toList) : r = r' := by
  have hne : ∀ {r : List (Radix.Tree α)}, Packed 32 (level + 1) (.node r) →
      r.flatMap Radix.Tree.toList ≠ [] :=
    fun hp => Radix.Tree.toList_node _ ▸ hp.toList_ne_nil (by decide)
  rcases h with hp | ⟨-, rfl⟩
  · rcases h' with hp' | ⟨-, rfl⟩
    · exact Radix.Tree.node.inj (hp.eq_of_toList (by decide) hp' (by
        rw [Radix.Tree.toList_node, Radix.Tree.toList_node, heq]))
    · exact absurd heq (hne hp)
  · rcases h' with hp' | ⟨-, rfl⟩
    · exact absurd heq.symm (hne hp')
    · rfl

theorem root_map {α β : Type} (f : α → β) {level : Nat} {r : List (Radix.Tree α)}
    (h : Packed 32 (level + 1) (.node r) ∨ (level = 0 ∧ r = [])) :
    Packed 32 (level + 1) (.node (r.map (Radix.Tree.map f)))
      ∨ (level = 0 ∧ r.map (Radix.Tree.map f) = []) :=
  h.imp (fun hp => Radix.Tree.map_node f r ▸ hp.map f)
    fun ⟨hlevel, hnil⟩ => ⟨hlevel, by rw [hnil]; rfl⟩

/-! ## One vector for every list -/

theorem VecRepresents.unique {v v' : Vec} {xs : List Value} (h : VecRepresents v xs)
    (h' : VecRepresents v' xs) : v = v' := by
  obtain ⟨level, ts, hs, rfl, hcnt⟩ := h
  obtain ⟨level', ts', hs', heq, hcnt'⟩ := h'
  have htail : ts.length = ts'.length := by rw [hs.tailLength, hs'.tailLength, heq]
  have hlen : (rootList v).length = (rootList v').length := by
    have := congrArg List.length heq
    rw [List.length_append, List.length_append] at this
    omega
  obtain ⟨hroot, rfl⟩ := List.append_inj heq hlen
  obtain rfl := hs.level_eq hs' hlen
  have hr := root_eq hs.root hs'.root hroot
  cases v
  cases v'
  simp only [Vec.mk.injEq]
  exact ⟨hcnt.trans hcnt'.symm, hs.shift.trans hs'.shift.symm, hr, hs.tail.trans hs'.tail.symm⟩

/-- Vectors of as many elements have the same skeleton. -/
theorem VecRepresents.skeleton_eq {v v' : Vec} {xs xs' : List Value} (h : VecRepresents v xs)
    (h' : VecRepresents v' xs') (hlen : xs.length = xs'.length) : v.skeleton = v'.skeleton := by
  obtain ⟨level, ts, hs, rfl, -⟩ := h
  obtain ⟨level', ts', hs', rfl, -⟩ := h'
  have htail : ts.length = ts'.length := by rw [hs.tailLength, hs'.tailLength, hlen]
  have hroot : (rootList v).length = (rootList v').length := by
    rw [List.length_append, List.length_append] at hlen
    omega
  obtain rfl := hs.level_eq hs' hroot
  have hleaves : ∀ r : VectorNode, (r.map (Radix.Tree.map fun _ => ())).flatMap Radix.Tree.toList
      = List.replicate (r.flatMap Radix.Tree.toList).length () := by
    intro r
    rw [← Radix.Tree.toList_node, ← Radix.Tree.map_node, Radix.Tree.toList_map,
      Radix.Tree.toList_node, List.map_const']
  have hblank := root_eq (root_map (fun _ => ()) hs.root) (root_map (fun _ => ()) hs'.root)
    (by rw [hleaves, hleaves, ← rootList, ← rootList, hroot])
  rw [Vec.skeleton, Vec.skeleton, hs.shift, hs'.shift, hs.tail, hs'.tail, List.length_map,
    List.length_map, htail, hblank]

/-! ## Runs -/

/-- An update that completes has kept `cnt` an `int`. -/
theorem step_length_lt {v v' : Vec} {xs ys : List Value} {op : VecOp} (h : VecRepresents v xs)
    (hlen : xs.length < 2 ^ 31) (hrun : op.run v = .ok v') (hys : op.abstract xs = some ys) :
    ys.length < 2 ^ 31 := by
  cases op with
  | push val =>
      cases hys
      obtain ⟨_, _, _, _, hcnt⟩ := h
      obtain ⟨cnt, hadd, -⟩ := Outcome.bind_eq_ok.mp hrun
      have hlt : v.cnt + 1 < 2 ^ 31 := by
        by_contra hge
        rw [cntAdd_fault (Int.not_lt.mp hge)] at hadd
        cases hadd
      rw [List.length_append, List.length_singleton]
      omega
  | pop =>
      obtain ⟨-, heq⟩ := Option.ite_none_left_eq_some.mp hys
      cases heq
      rw [List.length_dropLast]
      omega
  | set i val =>
      obtain ⟨-, heq⟩ := Option.ite_none_right_eq_some.mp hys
      cases heq
      rwa [List.length_set]

theorem VecRepresents.step {v v' : Vec} {xs : List Value} {op : VecOp} (h : VecRepresents v xs)
    (hlen : xs.length < 2 ^ 31) (hrun : op.run v = .ok v') :
    ∃ ys, VecRepresents v' ys ∧ ys.length < 2 ^ 31 := by
  have hcap := fun (ys : List Value) hys => @step_length_lt v v' xs ys op h hlen hrun hys
  have hstep := vecRepresents_step h op hcap
  rw [hrun] at hstep
  cases habs : op.abstract xs with
  | none =>
      rw [habs] at hstep
      obtain ⟨msg, hmsg⟩ := hstep
      cases hmsg
  | some ys =>
      rw [habs] at hstep
      obtain ⟨v1, h1, hr1⟩ := hstep
      exact ⟨ys, Outcome.ok.inj h1 ▸ hr1, hcap ys habs⟩

theorem VecRepresents.run : ∀ {ops : List VecOp} {v v' : Vec} {xs : List Value},
    VecRepresents v xs → xs.length < 2 ^ 31 → ops.foldlM VecOp.run v = .ok v' →
    ∃ ys, VecRepresents v' ys ∧ ys.length < 2 ^ 31
  | [], v, v', xs, h, hlen, hrun => ⟨xs, Outcome.ok.inj hrun ▸ h, hlen⟩
  | op :: ops, v, v', xs, h, hlen, hrun => by
      rw [List.foldlM_cons] at hrun
      obtain ⟨v1, hop, hrun⟩ := Outcome.bind_eq_ok.mp hrun
      obtain ⟨ys, h1, hlen1⟩ := VecRepresents.step h hlen hop
      exact VecRepresents.run h1 hlen1 hrun

/-- Pop undoes push. -/
theorem pop_push {v v1 : Vec} {xs : List Value} (h : VecRepresents v xs) (hlen : xs.length < 2 ^ 31)
    {x : Value} (hpush : vectorPush v x = .ok v1) : vectorPop v1 = .ok v := by
  have hcap : (xs ++ [x]).length < 2 ^ 31 := @step_length_lt v v1 xs _ (.push x) h hlen hpush rfl
  rw [List.length_append, List.length_singleton] at hcap
  obtain ⟨v1', hpush', hr1⟩ := vectorPush_ok h x hcap
  obtain rfl := Outcome.ok.inj (hpush.symm.trans hpush')
  obtain ⟨v2, hpop, hr2⟩ := vectorPop_ok hr1 (List.append_ne_nil_of_right_ne_nil _ (by simp))
  rw [List.dropLast_concat] at hr2
  rw [hpop, hr2.unique h]

/-- The shifts under which the trie has room for the elements outside the
tail. -/
def ShiftFits (v : Vec) (shift : Nat) : Prop := 5 ≤ shift ∧ 5 ∣ shift ∧ tailoff v ≤ 2 ^ (shift + 5)

theorem shift_isLeast {v : Vec} {xs : List Value} (h : VecRepresents v xs) :
    IsLeast {shift | ShiftFits v shift} v.shift := by
  obtain ⟨level, ts, hs, rfl, hcnt⟩ := h
  obtain ⟨hle, hlt⟩ := hs.levels
  have hpow : ∀ k, 2 ^ (5 * k) = 32 ^ k := fun k => by rw [Nat.pow_mul]
  constructor
  · refine ⟨by rw [hs.shift]; omega, by rw [hs.shift]; exact Nat.dvd_mul_right .., ?_⟩
    rw [hs.tailoff hcnt, hs.shift, show 5 * (level + 1) + 5 = 5 * (level + 2) by omega]
    exact_mod_cast hpow _ ▸ hle
  · rintro shift ⟨h5, ⟨k, rfl⟩, hfits⟩
    rw [hs.tailoff hcnt, show 5 * k + 5 = 5 * (k + 1) by omega] at hfits
    have hfits : (rootList v).length ≤ 32 ^ (k + 1) := by
      rw [← hpow]
      exact_mod_cast hfits
    rw [hs.shift]
    by_contra hno
    have hpos : 0 < level := by omega
    have := Nat.pow_le_pow_right (n := 32) (by decide) (show k + 1 ≤ level + 1 by omega)
    have := hlt hpos
    omega

/-- **Vectors are canonical.** The shape of a vector that some run of updates
leads to is known from `cnt`: two such vectors of one `cnt` have the same
skeleton. Its shift is the least that fits, and pop undoes push. -/
theorem vector_shape_canonical {ops : List VecOp} {v : Vec} (h : runVec ops = .ok v) :
    (∀ ops' v', runVec ops' = .ok v' → v'.cnt = v.cnt → v'.skeleton = v.skeleton)
      ∧ v.tail.length = tailLength v.cnt.toNat
      ∧ IsLeast {shift | ShiftFits v shift} v.shift
      ∧ ∀ x, (v.cnt + 1 < 2 ^ 31 → ∃ v1, vectorPush v x = .ok v1)
        ∧ ∀ v1, vectorPush v x = .ok v1 → vectorPop v1 = .ok v := by
  obtain ⟨xs, hr, hlen⟩ := VecRepresents.run vecRepresents_empty (by decide) h
  have hcnt : v.cnt = xs.length := hr.choose_spec.choose_spec.2.2
  refine ⟨fun ops' v' h' heq => ?_, ?_, shift_isLeast hr, fun x => ⟨fun hcap => ?_, fun v1 =>
    pop_push hr hlen⟩⟩
  · obtain ⟨xs', hr', -⟩ := VecRepresents.run vecRepresents_empty (by decide) h'
    have hcnt' : v'.cnt = xs'.length := hr'.choose_spec.choose_spec.2.2
    exact hr'.skeleton_eq hr (by omega)
  · obtain ⟨level, ts, hs, rfl, -⟩ := hr
    rw [hcnt, Int.toNat_natCast, hs.tail, List.length_map]
    exact hs.tailLength
  · obtain ⟨v1, hpush, -⟩ := vectorPush_ok hr x (by omega)
    exact ⟨v1, hpush⟩

/-- The vector of one element, pushed and popped once more. -/
theorem vector_shape_canonical_one :
    vectorPop ⟨2, 5, [], [.leaf ⟨.nil, 0#64⟩, .leaf ⟨.nil, 1#64⟩]⟩
      = .ok ⟨1, 5, [], [.leaf ⟨.nil, 0#64⟩]⟩ :=
  ((@vector_shape_canonical [.push ⟨.nil, 0#64⟩, .push ⟨.nil, 1#64⟩, .pop] _ rfl).2.2.2
    ⟨.nil, 1#64⟩).2 _ rfl

end Saurus
