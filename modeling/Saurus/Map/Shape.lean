import Saurus.Basis.KeyedList
import Saurus.Basis.SparseArray
import Saurus.Map.Node

/-!
# The shape of map nodes

`Shaped s n`: node `n` may stand at shift `s` of a trie. An index or full
node at `s` has `s ≤ 30`, a child array as dense as its bitmap, and every
hash found below its `i`-th child has fragment `i` at `s`; a collision node
holds between 2 and 255 leaves of one hash with pairwise different keys.

The invariant speaks about the hashes below a node through `nodeFind`
itself, so a node operation is specified by one equation for `nodeFind`
(`Bound`, `Unbound`) and the path condition of the parent follows from it.
-/

namespace Saurus

open Basis Basis.Sparse Basis.Keyed

theorem keyEqv : KeyEqv valueEq := ⟨valueEq_refl, valueEq_symm, valueEq_congr_left⟩

/-! ## Hash fragments -/

theorem mask_lt (h : BitVec 32) (s : Nat) : mask h s < 32 := by
  unfold mask
  rw [BitVec.toNat_and]
  exact Nat.lt_of_le_of_lt Nat.and_le_right (by decide)

theorem idxNodeIndex_bitpos (b h : BitVec 32) (s : Nat) :
    idxNodeIndex b (bitpos h s) = rank b (mask h s) :=
  cpop_and_pred_eq_rank b (mask_lt h s)

theorem and_bitpos (b h : BitVec 32) (s : Nat) :
    (b &&& bitpos h s ≠ 0#32) ↔ b.getLsbD (mask h s) = true := by
  have hne : BitVec.twoPow 32 (mask h s) ≠ 0#32 := fun h0 => by
    have := congrArg (fun x => x.getLsbD (mask h s)) h0
    simp [mask_lt h s] at this
  rw [bitpos, BitVec.and_twoPow]
  cases b.getLsbD (mask h s) <;> simp [hne]

@[simp] theorem shiftDefined_of_lt {s : Nat} (h : s < 32) : shiftDefined s = .ok () := by
  simp [shiftDefined, h]

/-- The hashes agree on the bits below `s`: they walk the same path. -/
def AgreeBelow (s : Nat) (h h' : BitVec 32) : Prop :=
  ∀ j, j < s → h.getLsbD j = h'.getLsbD j

theorem AgreeBelow.eq {s : Nat} {h h' : BitVec 32} (ha : AgreeBelow s h h')
    (hs : 32 ≤ s) : h = h' :=
  BitVec.eq_of_getLsbD_eq fun i hi => ha i (by omega)

theorem getLsbD_mask_bits {h : BitVec 32} {s t : Nat} (ht : t < 5) (hst : s + t < 32) :
    (h.sshiftRight s &&& 0x1f#32).getLsbD t = h.getLsbD (s + t) := by
  have h31 : (0x1f#32).getLsbD t = true := by
    have : ∀ t : Fin 5, (0x1f#32).getLsbD t.val = true := by decide
    exact this ⟨t, ht⟩
  rw [BitVec.getLsbD_and, h31, BitVec.getLsbD_sshiftRight]
  simp [hst]
  omega

theorem AgreeBelow.next {s : Nat} {h h' : BitVec 32} (ha : AgreeBelow s h h')
    (hm : mask h s = mask h' s) : AgreeBelow (s + 5) h h' := by
  intro j hj
  by_cases hjs : j < s
  · exact ha j hjs
  by_cases hj32 : j < 32
  · obtain ⟨t, rfl⟩ : ∃ t, j = s + t := ⟨j - s, by omega⟩
    have hbits := BitVec.eq_of_toNat_eq (x := h.sshiftRight s &&& 0x1f#32)
      (y := h'.sshiftRight s &&& 0x1f#32) hm
    rw [← getLsbD_mask_bits (by omega) hj32, hbits, getLsbD_mask_bits (by omega) hj32]
  · rw [BitVec.getLsbD_of_ge h j (by omega), BitVec.getLsbD_of_ge h' j (by omega)]

/-! ## What `nodeFind` computes, node by node -/

theorem nodeFindAt_eq (nodes : List Node) (i : Nat) (hash : BitVec 32) (key : Value) :
    nodeFindAt nodes i hash key
      = Outcome.ofOption nodes[i]? >>= fun c => nodeFind c hash key := by
  induction nodes generalizing i with
  | nil => simp [nodeFindAt]
  | cons c nodes ih =>
      cases i with
      | zero => simp [nodeFindAt]
      | succ i => simpa [nodeFindAt] using ih i

/-- Finding below a slot that may be absent. -/
def slotFind (x : Option Node) (hash : BitVec 32) (key : Value) : Outcome (Option Value) :=
  match x with
  | none => .ok none
  | some c => nodeFind c hash key

/-- Finding in a sparse array of children. -/
def branchFind (b : BitVec 32) (nodes : List Node) (i : Nat) (hash : BitVec 32)
    (key : Value) : Outcome (Option Value) :=
  slotFind (childAt b nodes i) hash key

theorem nodeFindAt_rank {b : BitVec 32} {nodes : List Node} {i : Nat}
    (hd : Dense b nodes) (hb : b.getLsbD i = true) (hash : BitVec 32) (key : Value) :
    nodeFindAt nodes (rank b i) hash key = branchFind b nodes i hash key := by
  obtain ⟨c, hc⟩ := hd.exists_childAt hb
  rw [nodeFindAt_eq, branchFind, hc, ← childAt_of_bit hb, hc]
  rfl

theorem nodeFind_idx {b : BitVec 32} {s : Nat} {nodes : List Node} (hs : s < 32)
    (hd : Dense b nodes) (nh hash : BitVec 32) (key : Value) :
    nodeFind (.idx b s nh nodes) hash key
      = branchFind b nodes (mask hash s) hash key := by
  rw [nodeFind, shiftDefined_of_lt hs, Outcome.ok_bind]
  dsimp only
  rw [idxNodeIndex_bitpos]
  cases hb : b.getLsbD (mask hash s) with
  | false =>
      rw [if_neg (by rw [and_bitpos, hb]; decide), branchFind, childAt_eq_none hb]
      rfl
  | true => rw [if_pos ((and_bitpos ..).mpr hb), nodeFindAt_rank hd hb]

theorem nodeFind_full {s : Nat} {nodes : List Node} (hs : s < 32)
    (hd : Dense (BitVec.allOnes 32) nodes) (nh hash : BitVec 32) (key : Value) :
    nodeFind (.full s nh nodes) hash key
      = branchFind (BitVec.allOnes 32) nodes (mask hash s) hash key := by
  have hm := mask_lt hash s
  rw [nodeFind, shiftDefined_of_lt hs, Outcome.ok_bind,
    ← nodeFindAt_rank hd (by rw [BitVec.getLsbD_allOnes]; simpa using hm),
    rank_allOnes (Nat.le_of_lt hm)]

/-- The leaves of a collision node are its hash with a bucket of pairs. -/
def leafOf (h : BitVec 32) (p : Value × Value) : Node := .leaf h p.1 p.2

theorem collisionNodeFindIndex_leaves (h : BitVec 32) (kvs : List (Value × Value))
    (hash : BitVec 32) (key : Value) :
    collisionNodeFindIndex (kvs.map (leafOf h)) hash key
      = .ok (if hash = h then position valueEq kvs key else none) := by
  induction kvs with
  | nil => simp [collisionNodeFindIndex, position]
  | cons p kvs ih =>
      rw [List.map_cons, collisionNodeFindIndex, ih, position_cons, leafOf, nodeFind]
      by_cases hh : hash = h <;> cases hk : valueEq key p.1 <;> simp [hh]

theorem nodeFind_collision (nh h : BitVec 32) (kvs : List (Value × Value))
    (hash : BitVec 32) (key : Value) :
    nodeFind (.collision nh (kvs.map (leafOf h))) hash key
      = .ok (if hash = h then lookup valueEq kvs key else none) := by
  rw [nodeFind, collisionNodeFindIndex_leaves]
  by_cases hh : hash = h
  · cases hp : position valueEq kvs key with
    | none => simp [hh, position_eq_none_iff.mp hp]
    | some i =>
        obtain ⟨p, hi, -, hl⟩ := lookup_of_position hp
        simp [hh, hi, hl, leafOf]
  · simp [hh]

theorem nodeFind_leaf (lh : BitVec 32) (lk lv : Value) (hash : BitVec 32) (key : Value) :
    nodeFind (.leaf lh lk lv) hash key
      = .ok (if hash = lh ∧ valueEq key lk = true then some lv else none) := by
  rw [nodeFind]; rfl

/-! ## The invariant -/

/-- Node `n` may stand at shift `s`. -/
inductive Shaped : Nat → Node → Prop where
  | leaf {s : Nat} (h : BitVec 32) (k v : Value) : Shaped s (.leaf h k v)
  | collision {s : Nat} (h : BitVec 32) {kvs : List (Value × Value)}
      (two : 2 ≤ kvs.length) (len : kvs.length ≤ 255) (distinct : Distinct valueEq kvs) :
      Shaped s (.collision h (kvs.map (leafOf h)))
  | idx {s : Nat} {b : BitVec 32} {nodes : List Node} (nh : BitVec 32)
      (shift : s ≤ 30) (dense : Dense b nodes) (nonempty : nodes ≠ [])
      (notFull : b ≠ BitVec.allOnes 32)
      (children : ∀ i c, childAt b nodes i = some c → Shaped (s + 5) c)
      (path : ∀ i c, childAt b nodes i = some c →
        ∀ h k v, nodeFind c h k = .ok (some v) → mask h s = i) :
      Shaped s (.idx b s nh nodes)
  | full {s : Nat} {nodes : List Node} (nh : BitVec 32)
      (shift : s ≤ 30) (dense : Dense (BitVec.allOnes 32) nodes)
      (children : ∀ i c, childAt (BitVec.allOnes 32) nodes i = some c → Shaped (s + 5) c)
      (path : ∀ i c, childAt (BitVec.allOnes 32) nodes i = some c →
        ∀ h k v, nodeFind c h k = .ok (some v) → mask h s = i) :
      Shaped s (.full s nh nodes)

/-- The part of the invariant index and full nodes share. -/
structure Branch (s : Nat) (b : BitVec 32) (nodes : List Node) : Prop where
  shift : s ≤ 30
  dense : Dense b nodes
  children : ∀ i c, childAt b nodes i = some c → Shaped (s + 5) c
  path : ∀ i c, childAt b nodes i = some c →
    ∀ h k v, nodeFind c h k = .ok (some v) → mask h s = i

theorem Branch.toIdx {s : Nat} {b : BitVec 32} {nodes : List Node} (hb : Branch s b nodes)
    (hne : nodes ≠ []) (hnf : b ≠ BitVec.allOnes 32) (nh : BitVec 32) :
    Shaped s (.idx b s nh nodes) :=
  .idx nh hb.shift hb.dense hne hnf hb.children hb.path

theorem Branch.toFull {s : Nat} {nodes : List Node}
    (hb : Branch s (BitVec.allOnes 32) nodes) (nh : BitVec 32) :
    Shaped s (.full s nh nodes) :=
  .full nh hb.shift hb.dense hb.children hb.path

/-! ## Specifications of the updates -/

/-- `n'` is `n` with the key bound to (a value equal to) `val`. -/
def Bound (n n' : Node) (hash : BitVec 32) (key val : Value) : Prop :=
  ∃ v, valueEq val v = true ∧ ∀ h k, nodeFind n' h k
    = if h = hash ∧ valueEq k key = true then .ok (some v) else nodeFind n h k

/-- `n'` is `n` without the key. -/
def Unbound (n n' : Node) (hash : BitVec 32) (key : Value) : Prop :=
  ∀ h k, nodeFind n' h k
    = if h = hash ∧ valueEq k key = true then .ok none else nodeFind n h k

/-- The bucket of `hash` still has room for `key`. -/
def Room (n : Node) (hash : BitVec 32) (key : Value) : Prop :=
  nodeFind n hash key = .ok none → ∀ ks : List Value,
    ks.Pairwise (fun a b => valueEq a b = false) →
    (∀ x ∈ ks, ∃ v, nodeFind n hash x = .ok (some v)) → ks.length < 255

/-- What `set` owes its caller. -/
structure SetOk (n : Node) (s : Nat) (hash : BitVec 32) (key val : Value)
    (res : Outcome (SetTo × Bool)) (r : SetTo) (added : Bool) : Prop where
  eq : res = .ok (r, added)
  shaped : Shaped s (r.get n)
  bound : Bound n (r.get n) hash key val
  fresh : added = true ↔ nodeFind n hash key = .ok none
  same : r = .same → added = false

theorem Bound.found {n n' : Node} {hash : BitVec 32} {key val : Value}
    (hb : Bound n n' hash key val) {h : BitVec 32} {k v : Value}
    (hf : nodeFind n' h k = .ok (some v)) :
    h = hash ∨ nodeFind n h k = .ok (some v) := by
  obtain ⟨w, -, hw⟩ := hb
  rw [hw] at hf
  split at hf
  · rename_i hc; exact Or.inl hc.1
  · exact Or.inr hf

theorem Unbound.found {n n' : Node} {hash : BitVec 32} {key : Value}
    (hu : Unbound n n' hash key) {h : BitVec 32} {k v : Value}
    (hf : nodeFind n' h k = .ok (some v)) : nodeFind n h k = .ok (some v) := by
  rw [hu] at hf
  split at hf
  · cases hf
  · exact hf

/-! ## Finding is total on shaped nodes -/

theorem Shaped.find_ok {s : Nat} {n : Node} (hn : Shaped s n) (hash : BitVec 32)
    (key : Value) : ∃ r, nodeFind n hash key = .ok r := by
  induction hn with
  | leaf h k v => exact ⟨_, nodeFind_leaf ..⟩
  | collision h _ _ _ => exact ⟨_, nodeFind_collision ..⟩
  | @idx s b nodes nh hs hd _ _ _ _ ih =>
      rw [nodeFind_idx (by omega) hd, branchFind]
      cases hc : childAt b nodes (mask hash s) with
      | none => exact ⟨none, rfl⟩
      | some c => exact ih _ c hc
  | @full s nodes nh hs hd _ _ ih =>
      rw [nodeFind_full (by omega) hd, branchFind]
      cases hc : childAt (BitVec.allOnes 32) nodes (mask hash s) with
      | none => exact ⟨none, rfl⟩
      | some c => exact ih _ c hc

end Saurus
