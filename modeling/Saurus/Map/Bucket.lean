import Saurus.Map.Refine

/-!
# Keys that share a hash

All keys of one hash end up in one place: the path of the hash through the
trie ends in a single node, and with two keys or more that node is their
bucket. `LeadsTo` follows the path. It asks nothing of the bucket's length, so
it still holds after a bucket has outgrown the `unsigned char` its length
is stored in, where the shape of the map is lost.
-/

namespace Saurus

open Basis Basis.Sparse Basis.Keyed

/-! ## The path of a hash -/

/-- From `n` at shift `s` the path of `h` ends, `d` levels down, in the
bucket `kvs` of this hash. -/
inductive LeadsTo (h : BitVec 32) : Nat → Node → Nat → List (Value × Value) → Prop
  | here {s : Nat} (kvs : List (Value × Value)) :
      LeadsTo h s (.collision h (kvs.map (leafOf h))) 0 kvs
  | idx {s d : Nat} {b nh : BitVec 32} {nodes : List Node} {c : Node}
      {kvs : List (Value × Value)} (shift : s < 32) (dense : Dense b nodes)
      (child : childAt b nodes (mask h s) = some c) (ends : LeadsTo h (s + 5) c d kvs) :
      LeadsTo h s (.idx b s nh nodes) (d + 1) kvs
  | full {s d : Nat} {nh : BitVec 32} {nodes : List Node} {c : Node}
      {kvs : List (Value × Value)} (shift : s < 32) (dense : Dense (BitVec.allOnes 32) nodes)
      (child : childAt (BitVec.allOnes 32) nodes (mask h s) = some c)
      (ends : LeadsTo h (s + 5) c d kvs) :
      LeadsTo h s (.full s nh nodes) (d + 1) kvs

variable {h : BitVec 32}

/-- What is found under the hash is what is in the bucket. -/
theorem LeadsTo.find {s d : Nat} {n : Node} {kvs : List (Value × Value)}
    (he : LeadsTo h s n d kvs) (k : Value) : nodeFind n h k = .ok (lookup valueEq kvs k) := by
  induction he with
  | here kvs => rw [nodeFind_collision, if_pos rfl]
  | idx hs hd hc _ ih => rw [nodeFind_idx hs hd, branchFind_of_childAt hc, ih]
  | full hs hd hc _ ih => rw [nodeFind_full hs hd, branchFind_of_childAt hc, ih]

/-- What `set` makes of a bucket, and whether it adds a leaf. -/
def bucketSet (kvs : List (Value × Value)) (key val : Value) : List (Value × Value) × Bool :=
  match position valueEq kvs key with
  | some i => (kvs.set i (key, val), false)
  | none => (nodeCreateOnly (kvs ++ [(key, val)]), true)

theorem nodeCreateOnly_map {α β : Type*} (f : α → β) (xs : List α) :
    nodeCreateOnly (xs.map f) = (nodeCreateOnly xs).map f := by
  rw [nodeCreateOnly, nodeCreateOnly, List.length_map, List.map_take]

theorem collisionNodeSet_bucket (set : SetFn) (key val : Value) (kvs : List (Value × Value))
    (s : Nat) :
    collisionNodeSet set h key val h (kvs.map (leafOf h)) s
      = .ok (.other (.collision h ((bucketSet kvs key val).1.map (leafOf h))),
          (bucketSet kvs key val).2) := by
  unfold collisionNodeSet bucketSet
  rw [if_pos rfl, collisionNodeFindIndex_leaves, if_pos rfl, Outcome.ok_bind]
  cases position valueEq kvs key with
  | some i =>
      dsimp only
      rw [List.map_set]
      rfl
  | none =>
      dsimp only
      rw [← nodeCreateOnly_map, List.map_append]
      rfl

/-- `set` under the hash of a bucket changes the bucket alone. -/
theorem LeadsTo.set {s d : Nat} {n : Node} {kvs : List (Value × Value)} (he : LeadsTo h s n d kvs)
    (key val : Value) : ∀ {depth : Nat}, d < depth →
    ∃ n', nodeSet depth h key val n s = .ok (.other n', (bucketSet kvs key val).2)
      ∧ LeadsTo h s n' d (bucketSet kvs key val).1 := by
  induction he with
  | @here s kvs =>
      intro depth hd
      obtain ⟨e, rfl⟩ : ∃ e, depth = e + 1 := ⟨depth - 1, by omega⟩
      exact ⟨_, collisionNodeSet_bucket _ key val kvs s, .here _⟩
  | @idx s d b nh nodes c kvs hs hdense hc _ ih =>
      intro depth hd
      obtain ⟨e, rfl⟩ : ∃ e, depth = e + 1 := ⟨depth - 1, by omega⟩
      obtain ⟨c', hrun, hends⟩ := ih (Nat.lt_of_succ_lt_succ hd)
      have hbit := bit_of_childAt hc
      have hlt := hdense.rank_lt hbit
      obtain ⟨nh', hnew⟩ := createIdxNode_ok (n := nodes.set (rank b (mask h s)) c')
        (List.ne_nil_of_length_pos (by rw [List.length_set]; omega)) b s
      refine ⟨_, idxNodeSet_other hs hbit hc hrun hnew, .idx hs (hdense.set ..) ?_ hends⟩
      rw [childAt_set hdense hbit, if_pos rfl]
  | @full s d nh nodes c kvs hs hdense hc _ ih =>
      intro depth hd
      obtain ⟨e, rfl⟩ : ∃ e, depth = e + 1 := ⟨depth - 1, by omega⟩
      obtain ⟨c', hrun, hends⟩ := ih (Nat.lt_of_succ_lt_succ hd)
      have hbit := bit_of_childAt hc
      have hrank : rank (BitVec.allOnes 32) (mask h s) = mask h s :=
        rank_allOnes (Nat.le_of_lt (mask_lt h s))
      have hlt := hdense.rank_lt hbit
      obtain ⟨nh', hnew⟩ := createFullNode_ok (n := nodes.set (mask h s) c')
        (List.ne_nil_of_length_pos (by rw [List.length_set]; omega)) s
      refine ⟨_, fullNodeSet_other hs hc hrun hnew, .full hs (hdense.set ..) ?_ hends⟩
      have hch := childAt_set hdense hbit c' (mask h s)
      rwa [hrank, if_pos rfl] at hch

/-- Two different keys of one hash in a shaped node are in a bucket, at most
seven levels down. -/
theorem Shaped.ends {s : Nat} {n : Node} (hn : Shaped s n) {k k' v v' : Value}
    (hk : nodeFind n h k = .ok (some v)) (hk' : nodeFind n h k' = .ok (some v'))
    (hne : valueEq k k' = false) :
    ∃ d kvs, LeadsTo h s n d kvs ∧ Distinct valueEq kvs ∧ kvs.length ≤ 255
      ∧ (d = 0 ∨ 5 * d + s ≤ 35) := by
  induction hn with
  | leaf lh lk lv =>
      rw [nodeFind_leaf] at hk hk'
      by_cases hc : h = lh ∧ valueEq k lk = true
      · by_cases hc' : h = lh ∧ valueEq k' lk = true
        · rw [valueEq_trans hc.2 (valueEq_symm hc'.2)] at hne
          cases hne
        · rw [if_neg hc'] at hk'
          cases hk'
      · rw [if_neg hc] at hk
        cases hk
  | @collision s nh kvs htwo hlen hd =>
      rw [nodeFind_collision] at hk
      by_cases hh : h = nh
      · subst hh
        exact ⟨0, kvs, .here kvs, hd, hlen, Or.inl rfl⟩
      · rw [if_neg hh] at hk
        cases hk
  | @idx s b nodes nh hs hd hne' _ _ _ ih =>
      rw [nodeFind_idx (by omega) hd, branchFind] at hk hk'
      cases hc : childAt b nodes (mask h s) with
      | none => rw [hc] at hk; cases hk
      | some c =>
          rw [hc] at hk hk'
          obtain ⟨d, kvs, he, hdist, hlen, hdepth⟩ := ih _ c hc hk hk'
          exact ⟨d + 1, kvs, .idx (by omega) hd hc he, hdist, hlen, Or.inr (by omega)⟩
  | @full s nodes nh hs hd _ _ ih =>
      rw [nodeFind_full (by omega) hd, branchFind] at hk hk'
      cases hc : childAt (BitVec.allOnes 32) nodes (mask h s) with
      | none => rw [hc] at hk; cases hk
      | some c =>
          rw [hc] at hk hk'
          obtain ⟨d, kvs, he, hdist, hlen, hdepth⟩ := ih _ c hc hk hk'
          exact ⟨d + 1, kvs, .full (by omega) hd hc he, hdist, hlen, Or.inr (by omega)⟩

/-! ## Lengths asked for -/

/-- The lengths `vt->set` calls `node_create_only` with; `node_clone` and
`node_create1` and `2` go through it. -/
def setAsks : Nat → BitVec 32 → Value → Value → Node → Nat → List Nat
  | 0, _, _, _, _, _ => []
  | depth + 1, hash, key, val, n, shift =>
      let split (branch : Node) : List Nat :=
        1 :: setAsks depth hash key val
          (.idx (bitpos (getHash branch) shift) shift (getHash branch) [branch]) shift
      let child (nodes : List Node) (idx : Nat) : List Nat :=
        match nodes[idx]? with
        | none => []
        | some tmp => setAsks depth hash key val tmp (shift + 5) ++
            match nodeSet depth hash key val tmp (shift + 5) with
            | .ok (.other _, _) => [nodes.length]
            | _ => []
      match n with
      | .empty => []
      | .leaf lh lk lv =>
          if hash = lh then if valueEq key lk = true then [] else [2] else split (.leaf lh lk lv)
      | .collision nhash leaves =>
          if hash = nhash then
            match collisionNodeFindIndex leaves hash key with
            | .ok none => [leaves.length + 1]
            | _ => [leaves.length]
          else split (.collision nhash leaves)
      | .idx bitmap _ _ nodes =>
          let bit := bitpos hash shift
          if bitmap &&& bit ≠ 0#32 then child nodes (idxNodeIndex bitmap bit)
          else [nodes.length + 1]
      | .full _ _ nodes => child nodes (mask hash shift)

section Asks

variable {hash : BitVec 32} {key val : Value}

/-- The calls made at a child and for the copy of its array. -/
theorem childAsks_fit {depth s : Nat} {nodes : List Node} {idx : Nat} (hlen : nodes.length ≤ 32)
    (hchild : ∀ c, nodes[idx]? = some c →
      ∀ len ∈ setAsks depth hash key val c (s + 5), len < 256) :
    ∀ len ∈ (match nodes[idx]? with
      | none => []
      | some tmp => setAsks depth hash key val tmp (s + 5) ++
          match nodeSet depth hash key val tmp (s + 5) with
          | .ok (.other _, _) => [nodes.length]
          | _ => []), len < 256 := by
  intro len hmem
  cases hc : nodes[idx]? with
  | none => rw [hc] at hmem; cases hmem
  | some c =>
      rw [hc] at hmem
      rcases List.mem_append.mp hmem with hmem | hmem
      · exact hchild c hc len hmem
      · split at hmem
        · rw [List.mem_singleton.mp hmem]
          omega
        · cases hmem

/-- A leaf or a bucket of another hash goes into an index node of its own. -/
theorem splitAsks_fit {depth s : Nat} {branch : Node}
    (hchild : ∀ e, e < depth → ∀ len ∈ setAsks e hash key val branch (s + 5), len < 256) :
    ∀ len ∈ 1 :: setAsks depth hash key val
      (.idx (bitpos (getHash branch) s) s (getHash branch) [branch]) s, len < 256 := by
  intro len hmem
  rcases List.mem_cons.mp hmem with rfl | hmem
  · decide
  obtain _ | e := depth
  · cases hmem
  rw [setAsks] at hmem
  dsimp only at hmem
  by_cases hbit : bitpos (getHash branch) s &&& bitpos hash s ≠ 0#32
  · rw [if_pos hbit] at hmem
    refine childAsks_fit (by simp) (fun c hc => ?_) len hmem
    obtain rfl : branch = c := List.mem_singleton.mp (List.mem_of_getElem? hc) |>.symm
    exact hchild e (Nat.lt_succ_self e)
  · rw [if_neg hbit] at hmem
    rw [List.mem_singleton.mp hmem, List.length_singleton]
    decide

/-- `set` on a shaped node with room for the key asks for no more slots than
an `unsigned char` can count. -/
theorem setAsks_fit : ∀ (depth : Nat) {n : Node} {s : Nat}, Shaped s n → Room n hash key →
    ∀ len ∈ setAsks depth hash key val n s, len < 256 := by
  intro depth
  induction depth using Nat.strongRecOn with
  | ind depth ih =>
  intro n s hn hroom
  obtain _ | d := depth
  · intro len hmem
    cases hmem
  -- one level down
  have below : ∀ (b : BitVec 32) (nodes : List Node), s ≤ 30 → Dense b nodes →
      (∀ i c, childAt b nodes i = some c → Shaped (s + 5) c) →
      (∀ k, nodeFind n hash k = branchFind b nodes (mask hash s) hash k) →
      b.getLsbD (mask hash s) = true → ∀ c, nodes[rank b (mask hash s)]? = some c →
      ∀ len ∈ setAsks d hash key val c (s + 5), len < 256 := by
    intro b nodes hs hd hch hfind hbit c hc
    rw [← childAt_of_bit hbit] at hc
    exact ih d (Nat.lt_succ_self d) (hch _ c hc)
      (hroom.child fun k => by rw [hfind, branchFind_of_childAt hc])
  cases hn with
  | leaf lh lk lv =>
      rw [setAsks]
      dsimp only
      split_ifs
      · simp
      · simp
      · exact splitAsks_fit fun e he => ih e (Nat.lt_succ_of_lt he) (.leaf ..) hroom
  | @collision _ nh kvs htwo hlen hd =>
      rw [setAsks]
      dsimp only
      by_cases hh : hash = nh
      · subst hh
        rw [if_pos rfl, collisionNodeFindIndex_leaves, if_pos rfl]
        cases hp : position valueEq kvs key with
        | some i =>
            intro len hmem
            rw [List.mem_singleton.mp hmem, List.length_map]
            omega
        | none =>
            have hlt := room_bucket hd hroom (position_eq_none_iff.mp hp)
            intro len hmem
            rw [List.mem_singleton.mp hmem, List.length_map]
            omega
      · rw [if_neg hh]
        exact splitAsks_fit fun e he =>
          ih e (Nat.lt_succ_of_lt he) (.collision nh htwo hlen hd) hroom
  | @idx _ b nodes nh hs hd hne hnf hch hpath =>
      rw [setAsks]
      dsimp only
      have h32 := length_le_of_dense hd
      by_cases hbit : b &&& bitpos hash s ≠ 0#32
      · rw [if_pos hbit, idxNodeIndex_bitpos]
        exact childAsks_fit h32 (below b nodes hs hd hch (fun k => nodeFind_idx (by omega) hd ..)
          ((and_bitpos ..).mp hbit))
      · rw [if_neg hbit]
        intro len hmem
        rw [List.mem_singleton.mp hmem]
        omega
  | @full _ nodes nh hs hd hch hpath =>
      rw [setAsks]
      have hm := mask_lt hash s
      have hbelow := below (BitVec.allOnes 32) nodes hs hd hch
        (fun k => nodeFind_full (by omega) hd ..) (by rw [BitVec.getLsbD_allOnes]; simpa using hm)
      rw [rank_allOnes (Nat.le_of_lt hm)] at hbelow
      exact childAsks_fit (length_le_of_dense hd) hbelow

end Asks

end Saurus
