import Mathlib.Data.List.Basic
import Saurus.Map.Set

/-!
# `without` on shaped nodes

`WithoutPost` says what each of the three possible answers promises: the
node itself when the key was absent, `NULL` when the key was the only one
below the node, another shaped node that differs in that key alone
otherwise. `nodeWithout_ok` proves it by induction on the shape.
-/

namespace Saurus

open Basis Basis.Sparse Basis.Keyed

/-- What an answer of `without` promises about the node it was asked of. -/
def WithoutPost (n : Node) (s : Nat) (hash : BitVec 32) (key : Value) : WithoutTo → Prop
  | .same => nodeFind n hash key = .ok none
  | .null => (∃ v, nodeFind n hash key = .ok (some v))
      ∧ ∀ h k, ¬(h = hash ∧ valueEq k key = true) → nodeFind n h k = .ok none
  | .other n' => (∃ v, nodeFind n hash key = .ok (some v))
      ∧ Shaped s n' ∧ Unbound n n' hash key

theorem nodeWithoutAt_eq (nodes : List Node) (i : Nat) (hash : BitVec 32) (key : Value) :
    nodeWithoutAt nodes i hash key
      = Outcome.ofOption nodes[i]? >>= fun c => nodeWithout c hash key := by
  induction nodes generalizing i with
  | nil => simp [nodeWithoutAt]
  | cons c nodes ih =>
      cases i with
      | zero => simp [nodeWithoutAt]
      | succ i => simpa [nodeWithoutAt] using ih i

/-! ## Buckets -/

/-- Without the one of a pair, the other is left. -/
theorem exists_other_of_pair {l : List (Value × Value)} {i : Nat} (h2 : l.length = 2)
    (hi : i < l.length) :
    ∃ q, (if i = 0 then l[1]? else l[0]?) = some q ∧ l.take i ++ l.drop (i + 1) = [q] := by
  obtain ⟨a, b, rfl⟩ := List.length_eq_two.mp h2
  rcases Nat.le_one_iff_eq_zero_or_eq_one.mp (Nat.le_of_lt_succ hi) with rfl | rfl
  · exact ⟨b, rfl, rfl⟩
  · exact ⟨a, rfl, rfl⟩

theorem collisionNodeWithout_ok {s : Nat} {nh : BitVec 32} {kvs : List (Value × Value)}
    (htwo : 2 ≤ kvs.length) (hlen : kvs.length ≤ 255) (hd : Distinct valueEq kvs)
    (hash : BitVec 32) (key : Value) :
    ∃ w, collisionNodeWithout (kvs.map (leafOf nh)) hash key = .ok w
      ∧ WithoutPost (.collision nh (kvs.map (leafOf nh))) s hash key w := by
  unfold collisionNodeWithout
  rw [collisionNodeFindIndex_leaves, Outcome.ok_bind]
  by_cases hh : hash = nh
  case neg =>
    rw [if_neg hh]
    exact ⟨.same, rfl, by rw [WithoutPost, nodeFind_collision, if_neg hh]⟩
  subst hh
  rw [if_pos rfl]
  cases hp : position valueEq kvs key with
  | none =>
      exact ⟨.same, rfl, by
        rw [WithoutPost, nodeFind_collision, if_pos rfl, position_eq_none_iff.mp hp]⟩
  | some i =>
      obtain ⟨p, -, -, hl⟩ := lookup_of_position hp
      have hfound : ∃ v, nodeFind (.collision hash (kvs.map (leafOf hash))) hash key
          = .ok (some v) := ⟨p.2, by rw [nodeFind_collision, if_pos rfl, hl]⟩
      have hi := position_lt hp
      have hrem := lookup_remove keyEqv hd hp
      -- what is found in the bucket after the removal
      have hgone : ∀ h k, (if h = hash
            then lookup valueEq (kvs.take i ++ kvs.drop (i + 1)) k else none)
          = if h = hash ∧ valueEq k key = true then none
            else if h = hash then lookup valueEq kvs k else none := by
        intro h k
        rw [hrem]
        by_cases hh : h = hash
        · by_cases hk : valueEq k key = true <;> simp [hh, hk]
        · simp [hh]
      dsimp only
      rw [List.length_map]
      by_cases h2 : kvs.length = 2
      · rw [if_pos h2]
        -- the other leaf of the pair takes the place of the bucket
        obtain ⟨q, hq, hrest⟩ := exists_other_of_pair h2 hi
        rw [List.getElem?_map, List.getElem?_map, ← apply_ite (Option.map (leafOf hash)), hq]
        refine ⟨.other (leafOf hash q), rfl, hfound, .leaf .., fun h k => ?_⟩
        have := hgone h k
        rw [hrest, lookup_cons, lookup_nil] at this
        rw [leafOf, nodeFind_leaf, nodeFind_collision]
        by_cases hc : h = hash ∧ valueEq k key = true
        · rw [if_pos hc] at this ⊢
          rw [← this]
          by_cases hkq : valueEq k q.1 = true <;> simp [hc.1, hkq]
        · rw [if_neg hc] at this ⊢
          rw [← this]
          by_cases hh : h = hash
          · by_cases hkq : valueEq k q.1 = true <;> simp [hh, hkq]
          · simp [hh]
      · rw [if_neg h2]
        have hmap : nodeCreateOnly ((kvs.map (leafOf hash)).take i
              ++ (kvs.map (leafOf hash)).drop (i + 1))
            = (kvs.take i ++ kvs.drop (i + 1)).map (leafOf hash) := by
          rw [nodeCreateOnly_of_lt (by simp; omega), List.map_append, List.map_take,
            List.map_drop]
        refine ⟨.other (.collision hash ((kvs.take i ++ kvs.drop (i + 1)).map (leafOf hash))),
          by rw [hmap]; rfl, hfound,
          .collision hash (by simp; omega) (by simp; omega) (hd.remove i), fun h k => ?_⟩
        rw [nodeFind_collision, nodeFind_collision, hgone h k]
        split <;> rfl

/-! ## Index and full nodes -/

section Branches

variable {b : BitVec 32} {nodes : List Node} {s : Nat} {hash : BitVec 32} {key : Value}

/-- If the slot at the key's own index loses the key, so does the array. -/
theorem branch_unbound {b' : BitVec 32} {nodes' : List Node} {x : Option Node}
    (hch : ∀ j, childAt b' nodes' j
      = if j = mask hash s then x else childAt b nodes j)
    (hx : ∀ h k, slotFind x h k = if h = hash ∧ valueEq k key = true
      then .ok none else branchFind b nodes (mask hash s) h k)
    (h : BitVec 32) (k : Value) :
    branchFind b' nodes' (mask h s) h k = if h = hash ∧ valueEq k key = true
      then .ok none else branchFind b nodes (mask h s) h k := by
  rw [branchFind_update hch]
  by_cases hm : mask h s = mask hash s
  · rw [if_pos hm, hm]
    exact hx h k
  · rw [if_neg hm, if_neg fun hc => hm (by rw [hc.1])]

/-- The child gone, nothing else was there to be found. -/
theorem slotFind_gone {c : Node} (hc : childAt b nodes (mask hash s) = some c)
    (hnull : ∀ h k, ¬(h = hash ∧ valueEq k key = true) → nodeFind c h k = .ok none)
    (h : BitVec 32) (k : Value) :
    slotFind none h k = if h = hash ∧ valueEq k key = true
      then .ok none else branchFind b nodes (mask hash s) h k := by
  by_cases hk : h = hash ∧ valueEq k key = true
  · rw [if_pos hk]; rfl
  · rw [if_neg hk, branchFind_of_childAt hc, hnull h k hk]; rfl

theorem Branch.replace (hb : Branch s b nodes) {c c' : Node}
    (hc : childAt b nodes (mask hash s) = some c) (hs : Shaped (s + 5) c')
    (hu : Unbound c c' hash key) :
    Branch s b (nodes.set (rank b (mask hash s)) c')
      ∧ ∀ h k, branchFind b (nodes.set (rank b (mask hash s)) c') (mask h s) h k
        = if h = hash ∧ valueEq k key = true then .ok none
          else branchFind b nodes (mask h s) h k := by
  have hch := childAt_set hb.dense (bit_of_childAt hc) c'
  refine ⟨hb.update (hb.dense.set ..) hch fun d hd => ?_, branch_unbound hch fun h k => ?_⟩
  · obtain rfl := Option.some.inj hd
    exact ⟨hs, fun h k v hf => hb.path _ c hc h k v (hu.found hf)⟩
  · rw [branchFind_of_childAt hc]; exact hu h k

theorem Branch.drop (hb : Branch s b nodes) {c : Node}
    (hc : childAt b nodes (mask hash s) = some c)
    (hnull : ∀ h k, ¬(h = hash ∧ valueEq k key = true) → nodeFind c h k = .ok none) :
    Branch s (b &&& ~~~ BitVec.twoPow 32 (mask hash s))
        (nodes.take (rank b (mask hash s)) ++ nodes.drop (rank b (mask hash s) + 1))
      ∧ ∀ h k, branchFind (b &&& ~~~ BitVec.twoPow 32 (mask hash s))
          (nodes.take (rank b (mask hash s)) ++ nodes.drop (rank b (mask hash s) + 1))
          (mask h s) h k
        = if h = hash ∧ valueEq k key = true then .ok none
          else branchFind b nodes (mask h s) h k := by
  have hbit := bit_of_childAt hc
  have hch := childAt_erase hb.dense hbit
  refine ⟨hb.update (hb.dense.erase hbit) hch fun d hd => ?_,
    branch_unbound hch (slotFind_gone hc hnull)⟩
  cases hd

/-- A bitmap other than the key's own bit has a second one. -/
theorem exists_other_bit (hbit : b.getLsbD (mask hash s) = true) (hne : b ≠ bitpos hash s) :
    ∃ j, j ≠ mask hash s ∧ b.getLsbD j = true := by
  by_contra hno
  refine hne (BitVec.eq_of_getLsbD_eq fun j hj => ?_)
  rw [bitpos, BitVec.getLsbD_twoPow]
  by_cases hji : j = mask hash s
  · rw [hji, hbit]; simp [mask_lt]
  · have : b.getLsbD j = false := by
      cases hbj : b.getLsbD j with
      | false => rfl
      | true => exact absurd ⟨j, hji, hbj⟩ hno
    rw [this]; simp [Ne.symm hji]

theorem ne_nil_of_branchFind_bit {b' : BitVec 32} {nodes' : List Node} (hd : Dense b' nodes')
    {j : Nat} (hj : b'.getLsbD j = true) : nodes' ≠ [] := by
  obtain ⟨c, hc⟩ := hd.exists_childAt hj
  intro h0
  have := mem_of_childAt hc
  rw [h0] at this
  cases this

theorem ne_allOnes_of_bit {c : BitVec 32} {j : Nat} (hj : j < 32)
    (h : c.getLsbD j = false) : c ≠ BitVec.allOnes 32 := by
  intro h0
  rw [h0, BitVec.getLsbD_allOnes] at h
  simp [hj] at h

theorem idxNodeWithout_ok (nh : BitVec 32) (hb : Branch s b nodes) (hne : nodes ≠ [])
    (hnf : b ≠ BitVec.allOnes 32) {c : Node} (hc : childAt b nodes (mask hash s) = some c)
    {w : WithoutTo} (hw : WithoutPost c (s + 5) hash key w) :
    ∃ w', idxNodeWithout b nodes s hash w = .ok w'
      ∧ WithoutPost (.idx b s nh nodes) s hash key w' := by
  have hs : s < 32 := by have := hb.shift; omega
  have hbit := bit_of_childAt hc
  have hfind : nodeFind (.idx b s nh nodes) hash key = nodeFind c hash key := by
    rw [nodeFind_idx hs hb.dense, branchFind_of_childAt hc]
  unfold idxNodeWithout
  dsimp only
  rw [idxNodeIndex_bitpos]
  cases w with
  | same => exact ⟨.same, rfl, hfind.trans hw⟩
  | null =>
      obtain ⟨hfound, hnull⟩ := hw
      obtain ⟨hb', hu⟩ := hb.drop hc hnull
      by_cases hone : b = bitpos hash s
      · dsimp only
        rw [if_pos hone]
        refine ⟨.null, rfl, hfind ▸ hfound, fun h k hk => ?_⟩
        rw [nodeFind_idx hs hb.dense]
        by_cases hm : mask h s = mask hash s
        · rw [hm, branchFind_of_childAt hc]; exact hnull h k hk
        · refine branchFind_of_none (childAt_eq_none ?_) h k
          rw [hone, bitpos, BitVec.getLsbD_twoPow]
          simp [Ne.symm hm]
      · dsimp only
        obtain ⟨j, hji, hj⟩ := exists_other_bit hbit hone
        have hne' := ne_nil_of_branchFind_bit hb'.dense
          (j := j) (by rw [getLsbD_andNot_twoPow b (mask_lt hash s), hj]; simp [hji])
        have hnf' := ne_allOnes_of_bit (mask_lt hash s)
          (c := b &&& ~~~ BitVec.twoPow 32 (mask hash s))
          (by rw [getLsbD_andNot_twoPow b (mask_lt hash s)]; simp)
        have hlen := length_le_of_dense hb'.dense
        obtain ⟨nh', hnew⟩ := createIdxNode_ok hne'
          (b &&& ~~~ BitVec.twoPow 32 (mask hash s)) s
        rw [if_neg hone, nodeCreateOnly_of_lt (by omega), bitpos, hnew]
        refine ⟨.other _, rfl, hfind ▸ hfound, hb'.toIdx hne' hnf' nh', fun h k => ?_⟩
        rw [nodeFind_idx hs hb'.dense, nodeFind_idx hs hb.dense]
        exact hu h k
  | other c' =>
      obtain ⟨hfound, hsh, hun⟩ := hw
      obtain ⟨hb', hu⟩ := hb.replace hc hsh hun
      have hne' : nodes.set (rank b (mask hash s)) c' ≠ [] := by simpa using hne
      obtain ⟨nh', hnew⟩ := createIdxNode_ok hne' b s
      dsimp only
      rw [hnew]
      refine ⟨.other _, rfl, hfind ▸ hfound, hb'.toIdx hne' hnf nh', fun h k => ?_⟩
      rw [nodeFind_idx hs hb'.dense, nodeFind_idx hs hb.dense]
      exact hu h k

theorem fullNodeWithout_ok (nh : BitVec 32) (hb : Branch s (BitVec.allOnes 32) nodes)
    {c : Node} (hc : childAt (BitVec.allOnes 32) nodes (mask hash s) = some c)
    {w : WithoutTo} (hw : WithoutPost c (s + 5) hash key w) :
    ∃ w', fullNodeWithout nodes s hash w = .ok w'
      ∧ WithoutPost (.full s nh nodes) s hash key w' := by
  have hs : s < 32 := by have := hb.shift; omega
  have hm := mask_lt hash s
  have hrank : rank (BitVec.allOnes 32) (mask hash s) = mask hash s :=
    rank_allOnes (Nat.le_of_lt hm)
  have hfind : nodeFind (.full s nh nodes) hash key = nodeFind c hash key := by
    rw [nodeFind_full hs hb.dense, branchFind_of_childAt hc]
  unfold fullNodeWithout
  dsimp only
  cases w with
  | same => exact ⟨.same, rfl, hfind.trans hw⟩
  | null =>
      obtain ⟨hfound, hnull⟩ := hw
      obtain ⟨hb', hu⟩ := hb.drop hc hnull
      rw [hrank, BitVec.allOnes_and] at hb' hu
      -- some bit other than the one cleared
      obtain ⟨j, hji, hj⟩ := exists_other_bit (bit_of_childAt hc)
        (Ne.symm (bitpos_ne_allOnes hash s))
      have hne' := ne_nil_of_branchFind_bit hb'.dense (j := j) (by
        rw [← BitVec.allOnes_and (x := ~~~ BitVec.twoPow 32 (mask hash s)),
          getLsbD_andNot_twoPow _ hm, hj]
        simp [hji])
      have hnf' := ne_allOnes_of_bit hm (c := ~~~ BitVec.twoPow 32 (mask hash s)) (by
        rw [← BitVec.allOnes_and (x := ~~~ BitVec.twoPow 32 (mask hash s)),
          getLsbD_andNot_twoPow _ hm]
        simp)
      have hlen := length_le_of_dense hb'.dense
      obtain ⟨nh', hnew⟩ := createIdxNode_ok hne' (~~~ BitVec.twoPow 32 (mask hash s)) s
      dsimp only
      rw [nodeCreateOnly_of_lt (by omega), bitpos, hnew]
      refine ⟨.other _, rfl, hfind ▸ hfound, hb'.toIdx hne' hnf' nh', fun h k => ?_⟩
      rw [nodeFind_idx hs hb'.dense, nodeFind_full hs hb.dense]
      exact hu h k
  | other c' =>
      obtain ⟨hfound, hsh, hun⟩ := hw
      obtain ⟨hb', hu⟩ := hb.replace hc hsh hun
      rw [hrank] at hb' hu
      have hne' : nodes.set (mask hash s) c' ≠ [] := by
        have hmem := mem_of_childAt hc
        intro h0
        have : nodes = [] := by simpa using h0
        rw [this] at hmem; cases hmem
      obtain ⟨nh', hnew⟩ := createFullNode_ok hne' s
      dsimp only
      rw [hnew]
      refine ⟨.other _, rfl, hfind ▸ hfound, hb'.toFull nh', fun h k => ?_⟩
      rw [nodeFind_full hs hb'.dense, nodeFind_full hs hb.dense]
      exact hu h k

end Branches

/-! ## All of `without` -/

theorem nodeWithout_ok {s : Nat} {n : Node} (hn : Shaped s n) (hash : BitVec 32)
    (key : Value) :
    ∃ w, nodeWithout n hash key = .ok w ∧ WithoutPost n s hash key w := by
  induction hn with
  | leaf lh lk lv =>
      rw [nodeWithout]
      by_cases hc : hash = lh ∧ valueEq key lk = true
      · rw [if_pos hc]
        refine ⟨.null, rfl, ⟨lv, by rw [nodeFind_leaf, if_pos hc]⟩, fun h k hk => ?_⟩
        rw [nodeFind_leaf, if_neg]
        rintro ⟨rfl, hk'⟩
        exact hk ⟨hc.1.symm, valueEq_trans hk' (valueEq_symm hc.2)⟩
      · rw [if_neg hc]
        exact ⟨.same, rfl, by rw [WithoutPost, nodeFind_leaf, if_neg hc]⟩
  | collision nh htwo hlen hd =>
      rw [nodeWithout]
      exact collisionNodeWithout_ok htwo hlen hd hash key
  | @idx s b nodes nh hs hd hne hnf hch hpath ih =>
      have hs32 : s < 32 := by omega
      rw [nodeWithout, shiftDefined_of_lt hs32, Outcome.ok_bind]
      dsimp only
      rw [idxNodeIndex_bitpos]
      cases hbit : b.getLsbD (mask hash s) with
      | false =>
          rw [if_neg (by rw [and_bitpos, hbit]; decide)]
          refine ⟨.same, rfl, ?_⟩
          rw [WithoutPost, nodeFind_idx hs32 hd, branchFind_of_none (childAt_eq_none hbit)]
      | true =>
          obtain ⟨c, hc⟩ := hd.exists_childAt hbit
          obtain ⟨w, hw, hpost⟩ := ih _ c hc
          rw [if_pos ((and_bitpos ..).mpr hbit), nodeWithoutAt_eq, ← childAt_of_bit hbit, hc,
            Outcome.ofOption_some, Outcome.ok_bind, hw, Outcome.ok_bind]
          exact idxNodeWithout_ok nh ⟨hs, hd, hch, hpath⟩ hne hnf hc hpost
  | @full s nodes nh hs hd hch hpath ih =>
      have hs32 : s < 32 := by omega
      have hm := mask_lt hash s
      obtain ⟨c, hc⟩ := hd.exists_childAt
        (i := mask hash s) (by rw [BitVec.getLsbD_allOnes]; simpa using hm)
      obtain ⟨w, hw, hpost⟩ := ih _ c hc
      rw [nodeWithout, shiftDefined_of_lt hs32, Outcome.ok_bind, nodeWithoutAt_eq,
        ← childAt_allOnes nodes hm, hc, Outcome.ofOption_some, Outcome.ok_bind, hw,
        Outcome.ok_bind]
      exact fullNodeWithout_ok nh ⟨hs, hd, hch, hpath⟩ hc hpost

end Saurus
