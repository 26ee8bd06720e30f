import Saurus.Map.Shape

/-!
# `set` on shaped nodes

Each node kind has one lemma: given that `set` on the child it descends to
does its duty, the node does its own. `nodeSet_ok` ties them together by
induction on the recursion depth. The descent through `create_idx_node3`
ends because two different hashes that agree on the path so far must
differ in a later fragment, and there is none beyond shift 30.
-/

namespace Saurus

open Basis Basis.Sparse Basis.Keyed

/-! ## One child replaced, added or dropped -/

section Branches

variable {b : BitVec 32} {nodes : List Node} {s : Nat}

theorem length_le_of_dense (hd : Dense b nodes) : nodes.length ≤ 32 := by
  rw [hd]
  have := BitVec.toNat_cpop_le b
  rwa [toNat_cpop_eq_rank] at this

theorem branchFind_of_childAt {i : Nat} {c : Node} (hc : childAt b nodes i = some c)
    (h : BitVec 32) (k : Value) : branchFind b nodes i h k = nodeFind c h k := by
  rw [branchFind, hc, slotFind]

theorem branchFind_of_none {i : Nat} (hc : childAt b nodes i = none)
    (h : BitVec 32) (k : Value) : branchFind b nodes i h k = .ok none := by
  rw [branchFind, hc, slotFind]

/-- An update that changed the partial array at `i` alone changed what is
found there alone. -/
theorem branchFind_update {b' : BitVec 32} {nodes' : List Node} {i : Nat}
    {x : Option Node}
    (hch : ∀ j, childAt b' nodes' j = if j = i then x else childAt b nodes j)
    (j : Nat) (h : BitVec 32) (k : Value) :
    branchFind b' nodes' j h k
      = if j = i then slotFind x h k else branchFind b nodes j h k := by
  unfold branchFind
  rw [hch]
  by_cases hj : j = i <;> simp [hj]

/-- The shared invariant survives an update at one index whose new child,
if any, is shaped and only holds hashes of that index. -/
theorem Branch.update (hb : Branch s b nodes) {b' : BitVec 32} {nodes' : List Node}
    {i : Nat} {x : Option Node} (hd : Dense b' nodes')
    (hch : ∀ j, childAt b' nodes' j = if j = i then x else childAt b nodes j)
    (hx : ∀ c, x = some c → Shaped (s + 5) c
      ∧ ∀ h k v, nodeFind c h k = .ok (some v) → mask h s = i) :
    Branch s b' nodes' := by
  refine ⟨hb.shift, hd, fun j c hc => ?_, fun j c hc => ?_⟩
  all_goals
    rw [hch] at hc
    split at hc
  · exact (hx c hc).1
  · exact hb.children j c hc
  · rename_i hji; rw [hji]; exact (hx c hc).2
  · exact hb.path j c hc

/-- If the child at the key's own index binds the key, so does the array. -/
theorem branch_bound {b' : BitVec 32} {nodes' : List Node} {hash : BitVec 32}
    {key v : Value} {c' : Node}
    (hch : ∀ j, childAt b' nodes' j
      = if j = mask hash s then some c' else childAt b nodes j)
    (hc' : ∀ h k, nodeFind c' h k = if h = hash ∧ valueEq k key = true
      then .ok (some v) else branchFind b nodes (mask hash s) h k)
    (h : BitVec 32) (k : Value) :
    branchFind b' nodes' (mask h s) h k = if h = hash ∧ valueEq k key = true
      then .ok (some v) else branchFind b nodes (mask h s) h k := by
  rw [branchFind_update hch]
  by_cases hm : mask h s = mask hash s
  · rw [if_pos hm, hm]
    exact hc' h k
  · rw [if_neg hm, if_neg fun hc => hm (by rw [hc.1])]

/-- Where the child has found the value already, its array has. -/
theorem branch_bound_same {hash : BitVec 32} {key v : Value} {c : Node}
    (hc : childAt b nodes (mask hash s) = some c)
    (hbound : ∀ h k, nodeFind c h k = if h = hash ∧ valueEq k key = true
      then .ok (some v) else nodeFind c h k)
    (h : BitVec 32) (k : Value) :
    branchFind b nodes (mask h s) h k = if h = hash ∧ valueEq k key = true
      then .ok (some v) else branchFind b nodes (mask h s) h k := by
  by_cases hk : h = hash ∧ valueEq k key = true
  · rw [if_pos hk, hk.1, branchFind_of_childAt hc, ← hk.1]
    have := hbound h k
    rwa [if_pos hk] at this
  · rw [if_neg hk]

/-- A child that binds the key in place of the one at the key's index. -/
theorem Branch.put (hb : Branch s b nodes) {hash : BitVec 32} {key val v : Value} {c c' : Node}
    (hc : childAt b nodes (mask hash s) = some c) (hs : Shaped (s + 5) c')
    (hv : valueEq val v = true)
    (hbound : ∀ h k, nodeFind c' h k = if h = hash ∧ valueEq k key = true
      then .ok (some v) else nodeFind c h k) :
    Branch s b (nodes.set (rank b (mask hash s)) c')
      ∧ ∀ h k, branchFind b (nodes.set (rank b (mask hash s)) c') (mask h s) h k
        = if h = hash ∧ valueEq k key = true then .ok (some v)
          else branchFind b nodes (mask h s) h k := by
  have hch := childAt_set hb.dense (bit_of_childAt hc) c'
  refine ⟨hb.update (hb.dense.set ..) hch fun d hd => ?_, branch_bound hch fun h k => ?_⟩
  · obtain rfl := Option.some.inj hd
    refine ⟨hs, fun h k w hf => ?_⟩
    have hput : Bound c c' hash key val := ⟨v, hv, hbound⟩
    rcases hput.found hf with rfl | hf
    · rfl
    · exact hb.path _ c hc h k w hf
  · rw [branchFind_of_childAt hc]
    exact hbound h k

/-- A leaf of the key in the slot at the key's index. -/
theorem Branch.add (hb : Branch s b nodes) {hash : BitVec 32} (key val : Value)
    (hbit : b.getLsbD (mask hash s) = false) :
    Branch s (b ||| BitVec.twoPow 32 (mask hash s))
        (nodes.take (rank b (mask hash s)) ++ .leaf hash key val
          :: nodes.drop (rank b (mask hash s)))
      ∧ ∀ h k, branchFind (b ||| BitVec.twoPow 32 (mask hash s))
          (nodes.take (rank b (mask hash s)) ++ .leaf hash key val
            :: nodes.drop (rank b (mask hash s))) (mask h s) h k
        = if h = hash ∧ valueEq k key = true then .ok (some val)
          else branchFind b nodes (mask h s) h k := by
  have hm := mask_lt hash s
  have hch := childAt_insert hb.dense hm hbit (.leaf hash key val)
  refine ⟨hb.update (hb.dense.insert hm hbit _) hch fun d hx => ?_,
    branch_bound hch fun h k => ?_⟩
  · obtain rfl := Option.some.inj hx
    refine ⟨.leaf .., fun h k v hf => ?_⟩
    rw [nodeFind_leaf] at hf
    by_cases hc : h = hash ∧ valueEq k key = true
    · rw [hc.1]
    · rw [if_neg hc] at hf
      cases hf
  · rw [nodeFind_leaf, branchFind_of_none (childAt_eq_none hbit)]
    split <;> rfl

end Branches

theorem createIdxNode_ok {n : List Node} (h : n ≠ []) (b : BitVec 32) (s : Nat) :
    ∃ nh, createIdxNode b n s = .ok (.idx b s nh n) := by
  cases n with
  | nil => exact absurd rfl h
  | cons c n => exact ⟨getHash c, rfl⟩

theorem createFullNode_ok {n : List Node} (h : n ≠ []) (s : Nat) :
    ∃ nh, createFullNode n s = .ok (.full s nh n) := by
  cases n with
  | nil => exact absurd rfl h
  | cons c n => exact ⟨getHash c, rfl⟩

/-! ## Index and full nodes -/

section Steps

variable {set : SetFn} {s : Nat} {hash : BitVec 32} {key val : Value}

theorem idxNodeSet_same {b : BitVec 32} {nodes : List Node} {c : Node} {a : Bool} (hs : s < 32)
    (hbit : b.getLsbD (mask hash s) = true) (hc : childAt b nodes (mask hash s) = some c)
    (hset : set c (s + 5) = .ok (.same, a)) :
    idxNodeSet set hash key val b nodes s = .ok (.same, a) := by
  rw [childAt_of_bit hbit] at hc
  unfold idxNodeSet
  rw [shiftDefined_of_lt hs, Outcome.ok_bind]
  simp only [if_pos ((and_bitpos ..).mpr hbit), idxNodeIndex_bitpos, hc, Outcome.ofOption_some,
    Outcome.ok_bind, hset, Outcome.pure_eq]

theorem idxNodeSet_other {b : BitVec 32} {nodes : List Node} {c c' n : Node} {a : Bool}
    (hs : s < 32) (hbit : b.getLsbD (mask hash s) = true)
    (hc : childAt b nodes (mask hash s) = some c) (hset : set c (s + 5) = .ok (.other c', a))
    (hnew : createIdxNode b (nodes.set (rank b (mask hash s)) c') s = .ok n) :
    idxNodeSet set hash key val b nodes s = .ok (.other n, a) := by
  rw [childAt_of_bit hbit] at hc
  unfold idxNodeSet
  rw [shiftDefined_of_lt hs, Outcome.ok_bind]
  simp only [if_pos ((and_bitpos ..).mpr hbit), idxNodeIndex_bitpos, hc, Outcome.ofOption_some,
    Outcome.ok_bind, hset, hnew, Outcome.pure_eq]

/-- Without the key's bit a leaf goes into a slot of its own. -/
theorem idxNodeSet_add {b : BitVec 32} {nodes : List Node} (hs : s < 32)
    (hbit : b.getLsbD (mask hash s) = false)
    (hlen : (nodes.take (rank b (mask hash s)) ++ .leaf hash key val
      :: nodes.drop (rank b (mask hash s))).length < 256) :
    idxNodeSet set hash key val b nodes s
      = createIdxNode2 (b ||| BitVec.twoPow 32 (mask hash s))
          (nodes.take (rank b (mask hash s)) ++ .leaf hash key val
            :: nodes.drop (rank b (mask hash s))) s
        >>= fun n => pure (.other n, true) := by
  unfold idxNodeSet
  rw [shiftDefined_of_lt hs, Outcome.ok_bind]
  dsimp only
  rw [if_neg (by rw [and_bitpos, hbit]; decide), idxNodeIndex_bitpos, nodeCreateOnly_of_lt hlen,
    bitpos]

theorem idxNodeSet_ok {b : BitVec 32} {nodes : List Node} (nh : BitVec 32)
    (hb : Branch s b nodes) (hne : nodes ≠ []) (hnf : b ≠ BitVec.allOnes 32)
    (hset : ∀ c, childAt b nodes (mask hash s) = some c →
      ∃ r a, SetOk c (s + 5) hash key val (set c (s + 5)) r a) :
    ∃ r a, SetOk (.idx b s nh nodes) s hash key val
      (idxNodeSet set hash key val b nodes s) r a := by
  have hs : s < 32 := by have := hb.shift; omega
  have hd := hb.dense
  cases hbit : b.getLsbD (mask hash s) with
  | true =>
      obtain ⟨c, hc⟩ := hd.exists_childAt hbit
      obtain ⟨r, a, hr⟩ := hset c hc
      obtain ⟨v, hv, hbound⟩ := hr.bound
      have hfind : nodeFind c hash key = nodeFind (.idx b s nh nodes) hash key := by
        rw [nodeFind_idx hs hd, branchFind_of_childAt hc]
      cases r with
      | same =>
          refine ⟨.same, a, idxNodeSet_same hs hbit hc hr.eq, hb.toIdx hne hnf nh,
            ⟨v, hv, fun h k => ?_⟩, hfind ▸ hr.fresh, hr.same⟩
          rw [SetTo.get, nodeFind_idx hs hd]
          exact branch_bound_same hc hbound h k
      | other c' =>
          have hne' : nodes.set (rank b (mask hash s)) c' ≠ [] := by simpa using hne
          obtain ⟨nh', hnew⟩ := createIdxNode_ok hne' b s
          have hshaped : Shaped (s + 5) c' := hr.shaped
          obtain ⟨hb', hbound'⟩ := hb.put hc hshaped hv hbound
          refine ⟨.other (.idx b s nh' (nodes.set (rank b (mask hash s)) c')), a,
            idxNodeSet_other hs hbit hc hr.eq hnew, hb'.toIdx hne' hnf nh',
            ⟨v, hv, fun h k => ?_⟩, hfind ▸ hr.fresh, fun h => by cases h⟩
          rw [SetTo.get, nodeFind_idx hs hb'.dense, nodeFind_idx hs hd]
          exact hbound' h k
  | false =>
      obtain ⟨hb', hbound⟩ := hb.add key val hbit
      have hlen := length_le_of_dense hb'.dense
      have hfresh : nodeFind (.idx b s nh nodes) hash key = .ok none := by
        rw [nodeFind_idx hs hd, branchFind_of_none (childAt_eq_none hbit)]
      rw [idxNodeSet_add hs hbit (by omega), createIdxNode2, BitVec.neg_one_eq_allOnes]
      by_cases hfull : b ||| BitVec.twoPow 32 (mask hash s) = BitVec.allOnes 32
      · rw [if_pos hfull]
        obtain ⟨nh', hnew⟩ := createFullNode_ok
          (n := nodes.take (rank b (mask hash s)) ++ .leaf hash key val
            :: nodes.drop (rank b (mask hash s))) (by simp) s
        rw [hfull] at hb' hbound
        refine ⟨.other _, true, by rw [hnew]; rfl, hb'.toFull nh',
          ⟨val, valueEq_refl _, fun h k => ?_⟩,
          by simp [hfresh], fun h => by cases h⟩
        rw [SetTo.get, nodeFind_full hs hb'.dense, nodeFind_idx hs hd]
        exact hbound h k
      · rw [if_neg hfull]
        obtain ⟨nh', hnew⟩ := createIdxNode_ok
          (n := nodes.take (rank b (mask hash s)) ++ .leaf hash key val
            :: nodes.drop (rank b (mask hash s))) (by simp)
            (b ||| BitVec.twoPow 32 (mask hash s)) s
        refine ⟨.other _, true, by rw [hnew]; rfl, hb'.toIdx (by simp) hfull nh',
          ⟨val, valueEq_refl _, fun h k => ?_⟩, by simp [hfresh], fun h => by cases h⟩
        rw [SetTo.get, nodeFind_idx hs hb'.dense, nodeFind_idx hs hd]
        exact hbound h k

theorem fullNodeSet_same {nodes : List Node} {c : Node} {a : Bool} (hs : s < 32)
    (hc : childAt (BitVec.allOnes 32) nodes (mask hash s) = some c)
    (hset : set c (s + 5) = .ok (.same, a)) : fullNodeSet set hash nodes s = .ok (.same, a) := by
  rw [childAt_allOnes nodes (mask_lt hash s)] at hc
  unfold fullNodeSet
  rw [shiftDefined_of_lt hs, Outcome.ok_bind]
  simp only [hc, Outcome.ofOption_some, Outcome.ok_bind, hset, Outcome.pure_eq]

theorem fullNodeSet_other {nodes : List Node} {c c' n : Node} {a : Bool} (hs : s < 32)
    (hc : childAt (BitVec.allOnes 32) nodes (mask hash s) = some c)
    (hset : set c (s + 5) = .ok (.other c', a))
    (hnew : createFullNode (nodes.set (mask hash s) c') s = .ok n) :
    fullNodeSet set hash nodes s = .ok (.other n, a) := by
  rw [childAt_allOnes nodes (mask_lt hash s)] at hc
  unfold fullNodeSet
  rw [shiftDefined_of_lt hs, Outcome.ok_bind]
  simp only [hc, Outcome.ofOption_some, Outcome.ok_bind, hset, hnew, Outcome.pure_eq]

theorem fullNodeSet_ok {nodes : List Node} (nh : BitVec 32)
    (hb : Branch s (BitVec.allOnes 32) nodes)
    (hset : ∀ c, childAt (BitVec.allOnes 32) nodes (mask hash s) = some c →
      ∃ r a, SetOk c (s + 5) hash key val (set c (s + 5)) r a) :
    ∃ r a, SetOk (.full s nh nodes) s hash key val (fullNodeSet set hash nodes s) r a := by
  have hs : s < 32 := by have := hb.shift; omega
  have hd := hb.dense
  have hm := mask_lt hash s
  have hbit : (BitVec.allOnes 32).getLsbD (mask hash s) = true := by
    rw [BitVec.getLsbD_allOnes]; simpa using hm
  have hrank : rank (BitVec.allOnes 32) (mask hash s) = mask hash s :=
    rank_allOnes (Nat.le_of_lt hm)
  obtain ⟨c, hc⟩ := hd.exists_childAt hbit
  obtain ⟨r, a, hr⟩ := hset c hc
  have hfind : nodeFind c hash key = nodeFind (.full s nh nodes) hash key := by
    rw [nodeFind_full hs hd, branchFind_of_childAt hc]
  obtain ⟨v, hv, hbound⟩ := hr.bound
  cases r with
  | same =>
      refine ⟨.same, a, fullNodeSet_same hs hc hr.eq, hb.toFull nh, ⟨v, hv, fun h k => ?_⟩,
        hfind ▸ hr.fresh, hr.same⟩
      rw [SetTo.get, nodeFind_full hs hd]
      exact branch_bound_same hc hbound h k
  | other c' =>
      have hne : nodes.set (mask hash s) c' ≠ [] := by
        intro h0
        have hlen := congrArg List.length h0
        rw [List.length_set, hd, rank_allOnes (Nat.le_refl 32)] at hlen
        cases hlen
      obtain ⟨nh', hnew⟩ := createFullNode_ok hne s
      have hshaped : Shaped (s + 5) c' := hr.shaped
      obtain ⟨hb', hbound'⟩ := hb.put hc hshaped hv hbound
      rw [hrank] at hb' hbound'
      refine ⟨.other (.full s nh' (nodes.set (mask hash s) c')), a,
        fullNodeSet_other hs hc hr.eq hnew, hb'.toFull nh', ⟨v, hv, fun h k => ?_⟩,
        hfind ▸ hr.fresh, fun h => by cases h⟩
      rw [SetTo.get, nodeFind_full hs hb'.dense, nodeFind_full hs hd]
      exact hbound' h k

/-! ## Splitting a leaf or a bucket off -/

theorem bitpos_eq_or (h : BitVec 32) (s : Nat) :
    bitpos h s = 0#32 ||| BitVec.twoPow 32 (mask h s) := by
  rw [bitpos, BitVec.zero_or]

theorem dense_empty : Dense (0#32) ([] : List Node) := by
  rw [Sparse.Dense, ← toNat_cpop_eq_rank, BitVec.cpop_zero]; rfl

theorem childAt_single (bh : BitVec 32) (s : Nat) (branch : Node) :
    Dense (bitpos bh s) [branch]
      ∧ ∀ j, childAt (bitpos bh s) [branch] j = if j = mask bh s then some branch else none := by
  have hm := mask_lt bh s
  have hd := dense_empty.insert hm (by simp) branch
  have hch := childAt_insert dense_empty hm (by simp) branch
  rw [rank_zero_width, List.take_zero, List.drop_zero, List.nil_append, ← bitpos_eq_or] at hd hch
  have hnone : ∀ j, childAt (0#32) ([] : List Node) j = none :=
    fun j => childAt_eq_none (by simp)
  exact ⟨hd, fun j => by rw [hch, hnone]⟩

/-- The one-child index node `create_idx_node3` starts from. -/
theorem branch_single {bh : BitVec 32} {branch : Node} (hs : s ≤ 30)
    (hbr : Shaped (s + 5) branch)
    (hall : ∀ h k v, nodeFind branch h k = .ok (some v) → h = bh) :
    Branch s (bitpos bh s) [branch]
      ∧ ∀ j, childAt (bitpos bh s) [branch] j = if j = mask bh s then some branch else none := by
  obtain ⟨hd, hch⟩ := childAt_single bh s branch
  have hslot : ∀ j c, childAt (bitpos bh s) [branch] j = some c → j = mask bh s ∧ c = branch := by
    intro j c hc
    rw [hch] at hc
    split at hc
    · rename_i hj
      exact ⟨hj, (Option.some.inj hc).symm⟩
    · cases hc
  refine ⟨⟨hs, hd, fun j c hc => ?_, fun j c hc h k v hf => ?_⟩, hch⟩
  · rw [(hslot j c hc).2]
    exact hbr
  · obtain ⟨rfl, rfl⟩ := hslot j c hc
    rw [hall h k v hf]

theorem bitpos_ne_allOnes (h : BitVec 32) (s : Nat) : bitpos h s ≠ BitVec.allOnes 32 := by
  intro heq
  have hbits : ∀ j, j < 32 → j = mask h s := by
    intro j hj
    have := congrArg (fun x => x.getLsbD j) heq
    simp only [bitpos, BitVec.getLsbD_twoPow, BitVec.getLsbD_allOnes, hj, mask_lt,
      decide_true, Bool.true_and, decide_eq_true_eq] at this
    exact this.symm
  have h0 := hbits 0 (by omega)
  have h1 := hbits 1 (by omega)
  omega

/-- `create_idx_node3` binds the key over a branch that holds one hash only. -/
theorem createIdxNode3_ok {branch : Node} (hs : s ≤ 30) (hbr : ∀ t, Shaped t branch)
    (hall : ∀ h k v, nodeFind branch h k = .ok (some v) → h = getHash branch)
    (hset : ∀ nh, ∃ r a, SetOk (.idx (bitpos (getHash branch) s) s nh [branch]) s hash key val
      (set (.idx (bitpos (getHash branch) s) s nh [branch]) s) r a) :
    ∃ r a, SetOk branch s hash key val (createIdxNode3 set s branch) r a := by
  have hs32 : s < 32 := by omega
  obtain ⟨hb, hch⟩ := branch_single hs (hbr (s + 5)) hall
  obtain ⟨nh, hnew⟩ := createIdxNode_ok (List.cons_ne_nil branch [])
    (bitpos (getHash branch) s) s
  obtain ⟨r, a, hr⟩ := hset nh
  -- the one-child node finds what the branch finds
  have hfind : ∀ h k,
      nodeFind (.idx (bitpos (getHash branch) s) s nh [branch]) h k = nodeFind branch h k := by
    intro h k
    rw [nodeFind_idx hs32 hb.dense, branchFind, hch]
    by_cases hm : mask h s = mask (getHash branch) s
    · rw [if_pos hm, slotFind]
    · rw [if_neg hm, slotFind]
      obtain ⟨o, ho⟩ := (hbr s).find_ok h k
      cases o with
      | none => exact ho.symm
      | some v => exact absurd (by rw [hall h k v ho]) hm
  refine ⟨.other (r.get _), a, ?_, hr.shaped, ?_, ?_, fun h => by cases h⟩
  · rw [createIdxNode3, shiftDefined_of_lt hs32, Outcome.ok_bind, hnew, Outcome.ok_bind, hr.eq]
    rfl
  · obtain ⟨v, hv, hbound⟩ := hr.bound
    exact ⟨v, hv, fun h k => by rw [← hfind]; exact hbound h k⟩
  · rw [← hfind]; exact hr.fresh

/-! ## Leaves and buckets -/

theorem leafNodeSet_ok {lh : BitVec 32} {lk lv : Value}
    (hsplit : hash ≠ lh → ∃ r a, SetOk (.leaf lh lk lv) s hash key val
      (createIdxNode3 set s (.leaf lh lk lv)) r a) :
    ∃ r a, SetOk (.leaf lh lk lv) s hash key val
      (leafNodeSet set hash key val lh lk lv s) r a := by
  unfold leafNodeSet
  by_cases hh : hash = lh
  · subst hh
    rw [if_pos rfl]
    by_cases hk : valueEq key lk = true
    · rw [if_pos hk]
      have hfound : ¬ nodeFind (.leaf hash lk lv) hash key = .ok none := by
        rw [nodeFind_leaf, if_pos ⟨rfl, hk⟩]; simp
      have hclass : ∀ k, valueEq k key = valueEq k lk := fun k => by
        rw [valueEq_comm k key, valueEq_comm k lk, valueEq_congr_left hk]
      by_cases hv : valueEq val lv = true
      · rw [if_pos hv]
        refine ⟨.same, false, rfl, .leaf .., ⟨lv, hv, fun h k => ?_⟩, by simp [hfound],
          fun _ => rfl⟩
        rw [SetTo.get, nodeFind_leaf, hclass]
        split <;> rfl
      · rw [if_neg hv]
        refine ⟨.other _, false, rfl, .leaf hash key val, ⟨val, valueEq_refl _, fun h k => ?_⟩,
          by simp [hfound], fun _ => rfl⟩
        rw [SetTo.get, nodeFind_leaf, nodeFind_leaf, ← hclass]
        split <;> rfl
    · rw [if_neg hk]
      have hk' : valueEq lk key = false := by
        rw [valueEq_comm]; simpa using hk
      have hkeys : lookup valueEq [(lk, lv)] key = none := by
        rw [lookup_cons, if_neg hk, lookup_nil]
      have hdist : Distinct valueEq ([(lk, lv)] ++ [(key, val)]) :=
        Distinct.concat keyEqv (List.pairwise_singleton _ _) hkeys val
      refine ⟨.other (.collision hash (List.map (leafOf hash) ([(lk, lv)] ++ [(key, val)]))),
        true, rfl, .collision hash (by simp) (by simp) hdist,
        ⟨val, valueEq_refl _, fun h k => ?_⟩, ?_, fun h => by cases h⟩
      · rw [SetTo.get, nodeFind_collision, nodeFind_leaf, lookup_concat keyEqv hkeys,
          lookup_cons, lookup_nil]
        by_cases hh : h = hash
        · by_cases hkk : valueEq k key = true <;> simp [hh, hkk]
        · simp [hh]
      · rw [nodeFind_leaf, if_neg fun hc => hk hc.2]; simp
  · rw [if_neg hh]; exact hsplit hh

/-- The keys of a bucket witness how full it is. -/
theorem room_bucket {h : BitVec 32} {kvs : List (Value × Value)}
    (hd : Distinct valueEq kvs) (hroom : Room (.collision h (kvs.map (leafOf h))) h key)
    (hnone : lookup valueEq kvs key = none) : kvs.length < 255 := by
  have hkeys : (kvs.map (·.1)).Pairwise (fun a b => valueEq a b = false) :=
    List.pairwise_map.mpr hd
  have hlen := hroom (by rw [nodeFind_collision, if_pos rfl, hnone]) _ hkeys
    (fun x hx => ?_)
  · simpa using hlen
  · obtain ⟨p, hp, rfl⟩ := List.mem_map.mp hx
    rw [nodeFind_collision, if_pos rfl]
    cases hl : lookup valueEq kvs p.1 with
    | none =>
        have := lookup_eq_none_iff.mp hl p hp
        rw [valueEq_refl] at this
        cases this
    | some v => exact ⟨v, rfl⟩

theorem collisionNodeSet_ok {nh : BitVec 32} {kvs : List (Value × Value)}
    (htwo : 2 ≤ kvs.length) (hlen : kvs.length ≤ 255) (hd : Distinct valueEq kvs)
    (hroom : Room (.collision nh (kvs.map (leafOf nh))) hash key)
    (hsplit : hash ≠ nh → ∃ r a, SetOk (.collision nh (kvs.map (leafOf nh))) s hash key val
      (createIdxNode3 set s (.collision nh (kvs.map (leafOf nh)))) r a) :
    ∃ r a, SetOk (.collision nh (kvs.map (leafOf nh))) s hash key val
      (collisionNodeSet set hash key val nh (kvs.map (leafOf nh)) s) r a := by
  unfold collisionNodeSet
  by_cases hh : hash = nh
  · subst hh
    rw [if_pos rfl, collisionNodeFindIndex_leaves, if_pos rfl, Outcome.ok_bind]
    cases hp : position valueEq kvs key with
    | some i =>
        obtain ⟨p, -, -, hl⟩ := lookup_of_position hp
        have hmap : (kvs.map (leafOf hash)).set i (.leaf hash key val)
            = (kvs.set i (key, val)).map (leafOf hash) := by
          rw [List.map_set]; rfl
        refine ⟨.other (.collision hash ((kvs.set i (key, val)).map (leafOf hash))), false,
          by simp only [hmap]; rfl, .collision hash (by simpa using htwo) (by simpa using hlen)
            (hd.set keyEqv hp val), ⟨val, valueEq_refl _, fun h k => ?_⟩, ?_, fun _ => rfl⟩
        · rw [SetTo.get, nodeFind_collision, nodeFind_collision, lookup_set keyEqv hp]
          by_cases hh : h = hash
          · by_cases hkk : valueEq k key = true <;> simp [hh, hkk]
          · simp [hh]
        · rw [nodeFind_collision, if_pos rfl, hl]; simp
    | none =>
        have hnone := position_eq_none_iff.mp hp
        have hlt := room_bucket hd hroom hnone
        have hmap : nodeCreateOnly (kvs.map (leafOf hash) ++ [.leaf hash key val])
            = (kvs ++ [(key, val)]).map (leafOf hash) := by
          rw [nodeCreateOnly_of_lt (by simp; omega), List.map_append]; rfl
        refine ⟨.other (.collision hash ((kvs ++ [(key, val)]).map (leafOf hash))), true,
          by simp only [hmap]; rfl, .collision hash (by simp; omega) (by simp; omega)
            (hd.concat keyEqv hnone val), ⟨val, valueEq_refl _, fun h k => ?_⟩, ?_,
          fun h => by cases h⟩
        · rw [SetTo.get, nodeFind_collision, nodeFind_collision, lookup_concat keyEqv hnone]
          by_cases hh : h = hash
          · by_cases hkk : valueEq k key = true <;> simp [hh, hkk]
          · simp [hh]
        · rw [nodeFind_collision, if_pos rfl, hnone]; simp
  · rw [if_neg hh]; exact hsplit hh

end Steps

/-! ## All of `set` -/

theorem AgreeBelow.shift_le {s : Nat} {h h' : BitVec 32} (ha : AgreeBelow s h h')
    (hne : h ≠ h') (h5 : s % 5 = 0) : s ≤ 30 := by
  by_contra hs
  exact hne (ha.eq (by omega))

/-- Room for the key at a node is room at the child it descends to. -/
theorem Room.child {n c : Node} {hash : BitVec 32} {key : Value} (hr : Room n hash key)
    (hfind : ∀ k, nodeFind n hash k = nodeFind c hash k) : Room c hash key := by
  intro hnone ks hks hfound
  exact hr (by rw [hfind]; exact hnone) ks hks fun x hx => by rw [hfind]; exact hfound x hx

/-- `vt->set` on a shaped node: it returns, keeps the shape, binds exactly
the key, and reports an added leaf exactly when the key was absent. The
induction is on the recursion depth; a split at `s` takes two calls. -/
theorem nodeSet_ok {hash : BitVec 32} {key val : Value} :
    ∀ (depth : Nat) (n : Node) (s : Nat), Shaped s n → s % 5 = 0 → s ≤ 35 →
      2 * (35 - s) + 5 ≤ 5 * depth →
      (∀ h k v, nodeFind n h k = .ok (some v) → AgreeBelow s hash h) →
      Room n hash key →
      ∃ r a, SetOk n s hash key val (nodeSet depth hash key val n s) r a := by
  intro depth
  induction depth using Nat.strongRecOn with
  | ind depth ih =>
  intro n s hn h5 h35 hdepth hagree hroom
  obtain ⟨d, rfl⟩ : ∃ d, depth = d + 1 := ⟨depth - 1, by omega⟩
  -- one level down, on a child reached by the key's own fragment
  have below : ∀ (d' : Nat) (b : BitVec 32) (nodes : List Node), d' < d + 1 → s ≤ 30 →
      2 * (30 - s) + 5 ≤ 5 * d' → Branch s b nodes →
      (∀ k, branchFind b nodes (mask hash s) hash k = nodeFind n hash k) →
      (∀ h k v, branchFind b nodes (mask h s) h k = .ok (some v) → AgreeBelow s hash h) →
      ∀ c, childAt b nodes (mask hash s) = some c →
        ∃ r a, SetOk c (s + 5) hash key val (nodeSet d' hash key val c (s + 5)) r a := by
    intro d' b nodes hd' hs hdep hb hfind hag c hc
    refine ih d' hd' c (s + 5) (hb.children _ c hc) (by omega) (by omega) (by omega) ?_ ?_
    · intro h k v hf
      have hm := hb.path _ c hc h k v hf
      refine (hag h k v ?_).next hm.symm
      rw [hm, branchFind_of_childAt hc]; exact hf
    · exact hroom.child fun k => by rw [← hfind, branchFind_of_childAt hc]
  -- a leaf or a bucket of another hash is split off first
  have split : ∀ branch : Node, n = branch → (∀ t, Shaped t branch) →
      (∀ h k v, nodeFind branch h k = .ok (some v) → h = getHash branch) →
      (∃ k v, nodeFind branch (getHash branch) k = .ok (some v)) → hash ≠ getHash branch →
      ∃ r a, SetOk branch s hash key val
        (createIdxNode3 (nodeSet d hash key val) s branch) r a := by
    intro branch hnb hbr hall hex hne
    obtain ⟨k0, v0, hf0⟩ := hex
    have hs := (hagree _ k0 v0 (hnb ▸ hf0)).shift_le hne h5
    obtain ⟨e, rfl⟩ : ∃ e, d = e + 1 := ⟨d - 1, by omega⟩
    obtain ⟨hb, hch⟩ := branch_single hs (hbr (s + 5)) hall
    have hfind : ∀ h k, branchFind (bitpos (getHash branch) s) [branch] (mask h s) h k
        = nodeFind branch h k := by
      intro h k
      rw [branchFind, hch]
      by_cases hm : mask h s = mask (getHash branch) s
      · rw [if_pos hm, slotFind]
      · rw [if_neg hm, slotFind]
        obtain ⟨o, ho⟩ := (hbr s).find_ok h k
        cases o with
        | none => exact ho.symm
        | some v => exact absurd (by rw [hall h k v ho]) hm
    refine createIdxNode3_ok hs hbr hall fun nh => ?_
    exact idxNodeSet_ok nh hb (List.cons_ne_nil _ _) (bitpos_ne_allOnes _ _)
      (below e _ _ (by omega) hs (by omega) hb (fun k => by rw [hfind, hnb])
        fun h k v hf => hagree h k v (by rw [hnb, ← hfind]; exact hf))
  cases hn with
  | leaf lh lk lv =>
      refine leafNodeSet_ok fun hne => split _ rfl (fun t => .leaf ..) ?_ ?_ hne
      · intro h k v hf
        rw [nodeFind_leaf] at hf
        by_cases hc : h = lh ∧ valueEq k lk = true
        · exact hc.1
        · rw [if_neg hc] at hf; cases hf
      · exact ⟨lk, lv, by rw [nodeFind_leaf]; simp [getHash]⟩
  | @collision _ nh kvs htwo hlen hd =>
      refine collisionNodeSet_ok htwo hlen hd hroom fun hne =>
        split _ rfl (fun t => .collision nh htwo hlen hd) ?_ ?_ hne
      · intro h k v hf
        rw [nodeFind_collision] at hf
        by_cases hc : h = nh
        · exact hc
        · rw [if_neg hc] at hf; cases hf
      · obtain ⟨p, kvs', rfl⟩ : ∃ p kvs', kvs = p :: kvs' := by
          cases kvs with
          | nil => simp at htwo
          | cons p kvs' => exact ⟨p, kvs', rfl⟩
        exact ⟨p.1, p.2, by rw [nodeFind_collision, lookup_cons]; simp [getHash]⟩
  | @idx _ b nodes nh hs hd hne hnf hch hpath =>
      have hb : Branch s b nodes := ⟨hs, hd, hch, hpath⟩
      exact idxNodeSet_ok nh hb hne hnf
        (below d b nodes (by omega) hs (by omega) hb
          (fun k => (nodeFind_idx (by omega) hd ..).symm)
          fun h k v hf => hagree h k v (by rw [nodeFind_idx (by omega) hd]; exact hf))
  | @full _ nodes nh hs hd hch hpath =>
      have hb : Branch s (BitVec.allOnes 32) nodes := ⟨hs, hd, hch, hpath⟩
      exact fullNodeSet_ok nh hb
        (below d _ nodes (by omega) hs (by omega) hb
          (fun k => (nodeFind_full (by omega) hd ..).symm)
          fun h k v hf => hagree h k v (by rw [nodeFind_full (by omega) hd]; exact hf))

end Saurus
