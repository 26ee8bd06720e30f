import Saurus.Map.Bucket

/-!
# The depth of a map

A node lies below the root along a path of slots, one level for every five
bits of the hash. `Placed path n` says that `n` may lie there: the hashes in
it have the slots of the path for fragments, and an index or full node has
its depth for shift. Two different hashes part at shift 30 at the latest,
where the two bits that are left, sign extended, still tell them apart, so
that separating two leaves never goes deeper.

Nothing is asked of the length of a bucket, and none of this is lost when a
bucket outgrows the `unsigned char` its length is stored in.
-/

namespace Saurus

open Basis Basis.Sparse Basis.Keyed

/-! ## Where a node lies -/

/-- `c` is stored in `n` or below it, down the slots `path`. -/
inductive Under : Node → List Nat → Node → Prop where
  | here (n : Node) : Under n [] n
  | idx {b nh : BitVec 32} {s i : Nat} {nodes : List Node} {path : List Nat} {c n : Node}
      (child : childAt b nodes i = some c) (below : Under c path n) :
      Under (.idx b s nh nodes) (i :: path) n
  | full {nh : BitVec 32} {s i : Nat} {nodes : List Node} {path : List Nat} {c n : Node}
      (child : nodes[i]? = some c) (below : Under c path n) :
      Under (.full s nh nodes) (i :: path) n

/-- A leaf of this hash is stored in `n`, wherever that is. -/
inductive HasHash (h : BitVec 32) : Node → Prop where
  | leaf (k v : Value) : HasHash h (.leaf h k v)
  | collision {nh : BitVec 32} {leaves : List Node} {c : Node} (mem : c ∈ leaves)
      (inLeaf : HasHash h c) : HasHash h (.collision nh leaves)
  | idx {b nh : BitVec 32} {s : Nat} {nodes : List Node} {c : Node} (mem : c ∈ nodes)
      (inChild : HasHash h c) : HasHash h (.idx b s nh nodes)
  | full {nh : BitVec 32} {s : Nat} {nodes : List Node} {c : Node} (mem : c ∈ nodes)
      (inChild : HasHash h c) : HasHash h (.full s nh nodes)

/-- The shift stored in an index or full node. -/
def Node.shift : Node → Option Nat
  | .idx _ s _ _ => some s
  | .full s _ _ => some s
  | _ => none

/-- The hash has the slots of the path for fragments. -/
def OnPath (path : List Nat) (h : BitVec 32) : Prop :=
  ∀ j i, path[j]? = some i → mask h (5 * j) = i

/-! ## Shifts asked for -/

mutual

/-- The shifts `vt->find` evaluates `MASK` or `BITPOS` with. -/
def findShifts : Node → BitVec 32 → Value → List Nat
  | .empty, _, _ => []
  | .leaf _ _ _, _, _ => []
  | .collision _ leaves, hash, key => findIndexShifts leaves hash key
  | .idx bitmap shift _ nodes, hash, key =>
      let bit := bitpos hash shift
      shift :: if bitmap &&& bit ≠ 0#32 then
        findShiftsAt nodes (idxNodeIndex bitmap bit) hash key else []
  | .full shift _ nodes, hash, key => shift :: findShiftsAt nodes (mask hash shift) hash key

/-- The same for `collision_node_find_index`, up to the leaf found. -/
def findIndexShifts : List Node → BitVec 32 → Value → List Nat
  | [], _, _ => []
  | tmp :: rest, hash, key =>
      findShifts tmp hash key ++ match nodeFind tmp hash key with
        | .ok none => findIndexShifts rest hash key
        | _ => []

def findShiftsAt : List Node → Nat → BitVec 32 → Value → List Nat
  | [], _, _, _ => []
  | tmp :: _, 0, hash, key => findShifts tmp hash key
  | _ :: rest, i + 1, hash, key => findShiftsAt rest i hash key

end

mutual

/-- The shifts `vt->without` evaluates `MASK` or `BITPOS` with. A full node
that loses a child evaluates `BITPOS` once more, with the shift it has. -/
def withoutShifts : Node → BitVec 32 → Value → List Nat
  | .empty, _, _ => []
  | .leaf _ _ _, _, _ => []
  | .collision _ leaves, hash, key => findIndexShifts leaves hash key
  | .idx bitmap shift _ nodes, hash, key =>
      let bit := bitpos hash shift
      shift :: if bitmap &&& bit ≠ 0#32 then
        withoutShiftsAt nodes (idxNodeIndex bitmap bit) hash key else []
  | .full shift _ nodes, hash, key => shift :: withoutShiftsAt nodes (mask hash shift) hash key

def withoutShiftsAt : List Node → Nat → BitVec 32 → Value → List Nat
  | [], _, _, _ => []
  | tmp :: _, 0, hash, key => withoutShifts tmp hash key
  | _ :: rest, i + 1, hash, key => withoutShiftsAt rest i hash key

end

/-- The shifts `vt->set` evaluates `MASK` or `BITPOS` with, those of
`create_idx_node3` and of the `set` on its new node included. -/
def setShifts : Nat → BitVec 32 → Value → Node → Nat → List Nat
  | 0, _, _, _, _ => []
  | depth + 1, hash, key, n, shift =>
      let split (branch : Node) : List Nat :=
        shift :: setShifts depth hash key
          (.idx (bitpos (getHash branch) shift) shift (getHash branch) [branch]) shift
      let child (nodes : List Node) (idx : Nat) : List Nat :=
        match nodes[idx]? with
        | none => []
        | some tmp => setShifts depth hash key tmp (shift + 5)
      match n with
      | .empty => []
      | .leaf lh lk lv => if hash = lh then [] else split (.leaf lh lk lv)
      | .collision nhash leaves =>
          if hash = nhash then findIndexShifts leaves hash key
          else split (.collision nhash leaves)
      | .idx bitmap _ _ nodes =>
          let bit := bitpos hash shift
          shift :: if bitmap &&& bit ≠ 0#32 then child nodes (idxNodeIndex bitmap bit) else []
      | .full _ _ nodes => shift :: child nodes (mask hash shift)

/-! ## The invariant -/

/-- Node `n` may lie at the end of the path. -/
inductive Placed : List Nat → Node → Prop where
  | leaf {path : List Nat} {h : BitVec 32} (k v : Value) (on : OnPath path h) :
      Placed path (.leaf h k v)
  | collision {path : List Nat} {h : BitVec 32} (kvs : List (Value × Value))
      (on : OnPath path h) : Placed path (.collision h (kvs.map (leafOf h)))
  | idx {path : List Nat} {s : Nat} {b : BitVec 32} {nodes : List Node} (nh : BitVec 32)
      (depth : s = 5 * path.length) (shift : s ≤ 30) (dense : Dense b nodes)
      (nonempty : nodes ≠ [])
      (children : ∀ i c, childAt b nodes i = some c → Placed (path ++ [i]) c) :
      Placed path (.idx b s nh nodes)
  | full {path : List Nat} {s : Nat} {nodes : List Node} (nh : BitVec 32)
      (depth : s = 5 * path.length) (shift : s ≤ 30)
      (dense : Dense (BitVec.allOnes 32) nodes)
      (children : ∀ i c, childAt (BitVec.allOnes 32) nodes i = some c → Placed (path ++ [i]) c) :
      Placed path (.full s nh nodes)

variable {path : List Nat} {h hash : BitVec 32} {key val : Value}

theorem onPath_nil (h : BitVec 32) : OnPath [] h := by
  intro j i hj
  cases hj

theorem onPath_concat {i : Nat} :
    OnPath (path ++ [i]) h ↔ OnPath path h ∧ mask h (5 * path.length) = i := by
  constructor
  · intro hon
    refine ⟨fun j x hj => hon j x ?_, hon path.length i ?_⟩
    · rw [List.getElem?_append_left (List.getElem?_eq_some_iff.mp hj).1, hj]
    · rw [List.getElem?_append_right (Nat.le_refl _), Nat.sub_self]
      rfl
  · rintro ⟨hon, hm⟩ j x hj
    rcases Nat.lt_or_ge j path.length with hlt | hge
    · rw [List.getElem?_append_left hlt] at hj
      exact hon j x hj
    · rw [List.getElem?_append_right hge, List.getElem?_singleton] at hj
      split at hj
      · obtain rfl : j = path.length := by omega
        rw [hm, Option.some.inj hj]
      · cases hj

/-- Hashes on one path agree below its end. -/
theorem OnPath.agree {h' : BitVec 32} : ∀ {path : List Nat}, OnPath path h → OnPath path h' →
    AgreeBelow (5 * path.length) h h' := by
  intro path
  induction path using List.reverseRecOn with
  | nil =>
      intro _ _ j hj
      exact absurd hj (Nat.not_lt_zero j)
  | append_singleton path i ih =>
      intro hon hon'
      obtain ⟨hon, hm⟩ := onPath_concat.mp hon
      obtain ⟨hon', hm'⟩ := onPath_concat.mp hon'
      rw [List.length_append, List.length_singleton, Nat.mul_add]
      exact (ih hon hon').next (hm.trans hm'.symm)

/-! ## What the invariant says -/

/-- Where a node may lie its nodes lie, each at the end of its own path. -/
theorem Placed.under {n c : Node} {p : List Nat} (hu : Under n p c) :
    ∀ {path : List Nat}, Placed path n → Placed (path ++ p) c := by
  induction hu with
  | here n =>
      intro path hn
      rwa [List.append_nil]
  | @idx b nh s i nodes p c n hc _ ih =>
      intro path hn
      cases hn with
      | idx _ _ _ _ _ children =>
          have := ih (children i c hc)
          rwa [List.append_assoc] at this
  | @full nh s i nodes p c n hc _ ih =>
      intro path hn
      cases hn with
      | full _ _ _ dense children =>
          have hi : i < 32 := by
            have hlen := (List.getElem?_eq_some_iff.mp hc).1
            have := length_le_of_dense dense
            omega
          have := ih (children i c (by rw [childAt_allOnes nodes hi, hc]))
          rwa [List.append_assoc] at this

theorem Placed.onPath {n : Node} (hn : Placed path n) : HasHash h n → OnPath path h := by
  induction hn with
  | leaf k v on =>
      intro hh
      cases hh
      exact on
  | collision kvs on =>
      intro hh
      cases hh with
      | collision hmem hleaf =>
          obtain ⟨p, -, rfl⟩ := List.mem_map.mp hmem
          cases hleaf
          exact on
  | idx nh _ _ dense _ _ ih =>
      intro hh
      cases hh with
      | idx hmem hchild =>
          obtain ⟨i, hc⟩ := dense.exists_slot hmem
          exact (onPath_concat.mp (ih i _ hc hchild)).1
  | full nh _ _ dense _ ih =>
      intro hh
      cases hh with
      | full hmem hchild =>
          obtain ⟨i, hc⟩ := dense.exists_slot hmem
          exact (onPath_concat.mp (ih i _ hc hchild)).1

theorem Placed.shift_eq {n : Node} (hn : Placed path n) {s : Nat} (hs : n.shift = some s) :
    s = 5 * path.length := by
  cases hn with
  | leaf => cases hs
  | collision => cases hs
  | idx nh depth =>
      obtain rfl := Option.some.inj hs
      exact depth
  | full nh depth =>
      obtain rfl := Option.some.inj hs
      exact depth

/-! ## Finding -/

theorem findShiftsAt_eq (nodes : List Node) (i : Nat) (hash : BitVec 32) (key : Value) :
    findShiftsAt nodes i hash key
      = match nodes[i]? with
        | none => []
        | some c => findShifts c hash key := by
  induction nodes generalizing i with
  | nil => simp [findShiftsAt]
  | cons c nodes ih =>
      cases i with
      | zero => simp [findShiftsAt]
      | succ i => simpa [findShiftsAt] using ih i

/-- No leaf of a bucket asks for a fragment. -/
theorem findIndexShifts_leaves (h : BitVec 32) (kvs : List (Value × Value)) (hash : BitVec 32)
    (key : Value) : findIndexShifts (kvs.map (leafOf h)) hash key = [] := by
  induction kvs with
  | nil => rfl
  | cons p kvs ih =>
      rw [List.map_cons, findIndexShifts, ih]
      cases nodeFind (leafOf h p) hash key with
      | ok o => cases o <;> rfl
      | raise m => rfl
      | fault => rfl

/-- The shift of a node, then those of a child. -/
theorem shifts_le_cons {s : Nat} {l : List Nat} (hs : s ≤ 30) (hl : ∀ t ∈ l, t ≤ 30) :
    ∀ t ∈ s :: l, t ≤ 30 := by
  intro t ht
  rcases List.mem_cons.mp ht with rfl | ht
  · exact hs
  · exact hl t ht

theorem getElem?_of_bit {b : BitVec 32} {nodes : List Node} {s : Nat}
    (hbit : b &&& bitpos hash s ≠ 0#32) :
    nodes[idxNodeIndex b (bitpos hash s)]? = childAt b nodes (mask hash s) := by
  rw [idxNodeIndex_bitpos, childAt_of_bit ((and_bitpos ..).mp hbit)]

/-- `vt->find` returns and keeps to the shifts of the path. -/
theorem Placed.find {n : Node} (hn : Placed path n) (hash : BitVec 32) (key : Value) :
    (∃ r, nodeFind n hash key = .ok r) ∧ ∀ s ∈ findShifts n hash key, s ≤ 30 := by
  induction hn with
  | leaf k v _ => exact ⟨⟨_, nodeFind_leaf ..⟩, by simp [findShifts]⟩
  | collision kvs _ =>
      refine ⟨⟨_, nodeFind_collision ..⟩, ?_⟩
      rw [findShifts, findIndexShifts_leaves]
      simp
  | @idx path s b nodes nh _ hs hd _ _ ih =>
      rw [nodeFind_idx (by omega) hd, branchFind, findShifts]
      by_cases hbit : b &&& bitpos hash s ≠ 0#32
      · obtain ⟨c, hc⟩ := hd.exists_childAt ((and_bitpos ..).mp hbit)
        obtain ⟨hfind, hshifts⟩ := ih _ c hc
        rw [if_pos hbit, findShiftsAt_eq, getElem?_of_bit hbit, hc]
        exact ⟨hfind, shifts_le_cons hs hshifts⟩
      · rw [if_neg hbit, childAt_eq_none (by simpa [and_bitpos] using hbit)]
        exact ⟨⟨none, rfl⟩, shifts_le_cons hs (by simp)⟩
  | @full path s nodes nh _ hs hd _ ih =>
      have hm := mask_lt hash s
      obtain ⟨c, hc⟩ := hd.exists_childAt (i := mask hash s)
        (by rw [BitVec.getLsbD_allOnes]; simpa using hm)
      obtain ⟨hfind, hshifts⟩ := ih _ c hc
      rw [nodeFind_full (by omega) hd, branchFind, findShifts, findShiftsAt_eq,
        ← childAt_allOnes nodes hm, hc]
      exact ⟨hfind, shifts_le_cons hs hshifts⟩

/-! ## Updates of one slot -/

/-- What an index or full node at the end of the path has below it. -/
structure Level (path : List Nat) (b : BitVec 32) (nodes : List Node) : Prop where
  shift : 5 * path.length ≤ 30
  dense : Dense b nodes
  children : ∀ i c, childAt b nodes i = some c → Placed (path ++ [i]) c

section Levels

variable {b : BitVec 32} {nodes : List Node}

theorem Level.toIdx (hl : Level path b nodes) (hne : nodes ≠ []) (nh : BitVec 32) :
    Placed path (.idx b (5 * path.length) nh nodes) :=
  .idx nh rfl hl.shift hl.dense hne hl.children

theorem Level.toFull (hl : Level path (BitVec.allOnes 32) nodes) (nh : BitVec 32) :
    Placed path (.full (5 * path.length) nh nodes) :=
  .full nh rfl hl.shift hl.dense hl.children

theorem Level.update (hl : Level path b nodes) {b' : BitVec 32} {nodes' : List Node} {i : Nat}
    {x : Option Node} (hd : Dense b' nodes')
    (hch : ∀ j, childAt b' nodes' j = if j = i then x else childAt b nodes j)
    (hx : ∀ c, x = some c → Placed (path ++ [i]) c) : Level path b' nodes' := by
  refine ⟨hl.shift, hd, fun j c hc => ?_⟩
  rw [hch] at hc
  split at hc
  · rename_i hji
    rw [hji]
    exact hx c hc
  · exact hl.children j c hc

theorem Level.put (hl : Level path b nodes) {i : Nat} {c' : Node} (hb : b.getLsbD i = true)
    (hc : Placed (path ++ [i]) c') : Level path b (nodes.set (rank b i) c') := by
  refine hl.update (hl.dense.set ..) (childAt_set hl.dense hb c') fun c hx => ?_
  obtain rfl := Option.some.inj hx
  exact hc

theorem Level.add (hl : Level path b nodes) (hon : OnPath path hash) (key val : Value)
    (hb : b.getLsbD (mask hash (5 * path.length)) = false) :
    Level path (b ||| BitVec.twoPow 32 (mask hash (5 * path.length)))
      (nodes.take (rank b (mask hash (5 * path.length))) ++ .leaf hash key val
        :: nodes.drop (rank b (mask hash (5 * path.length)))) := by
  have hm := mask_lt hash (5 * path.length)
  refine hl.update (hl.dense.insert hm hb _) (childAt_insert hl.dense hm hb _) fun c hx => ?_
  obtain rfl := Option.some.inj hx
  exact .leaf key val (onPath_concat.mpr ⟨hon, rfl⟩)

theorem Level.drop (hl : Level path b nodes) {i : Nat} (hb : b.getLsbD i = true) :
    Level path (b &&& ~~~ BitVec.twoPow 32 i)
      (nodes.take (rank b i) ++ nodes.drop (rank b i + 1)) := by
  refine hl.update (hl.dense.erase hb) (childAt_erase hl.dense hb) fun c hx => ?_
  cases hx

/-! ## Removing -/

theorem withoutShiftsAt_eq (nodes : List Node) (i : Nat) (hash : BitVec 32) (key : Value) :
    withoutShiftsAt nodes i hash key
      = match nodes[i]? with
        | none => []
        | some c => withoutShifts c hash key := by
  induction nodes generalizing i with
  | nil => simp [withoutShiftsAt]
  | cons c nodes ih =>
      cases i with
      | zero => simp [withoutShiftsAt]
      | succ i => simpa [withoutShiftsAt] using ih i

/-- `vt->without` returns, with a node that may lie where `n` does. -/
def Stays (path : List Nat) (res : Outcome WithoutTo) : Prop :=
  ∃ w, res = .ok w ∧ ∀ n', w = .other n' → Placed path n'

theorem collisionNodeWithout_placed {kvs : List (Value × Value)} (hon : OnPath path h)
    (hash : BitVec 32) (key : Value) :
    Stays path (collisionNodeWithout (kvs.map (leafOf h)) hash key) := by
  unfold collisionNodeWithout
  rw [collisionNodeFindIndex_leaves, Outcome.ok_bind]
  by_cases hh : hash = h
  case neg =>
    rw [if_neg hh]
    exact ⟨.same, rfl, fun _ hw => by cases hw⟩
  subst hh
  rw [if_pos rfl]
  cases hp : position valueEq kvs key with
  | none => exact ⟨.same, rfl, fun _ hw => by cases hw⟩
  | some i =>
      dsimp only
      rw [List.length_map]
      by_cases h2 : kvs.length = 2
      · obtain ⟨q, hq, -⟩ := exists_other_of_pair h2 (position_lt hp)
        rw [if_pos h2, List.getElem?_map, List.getElem?_map,
          ← apply_ite (Option.map (leafOf hash)), hq]
        refine ⟨.other (leafOf hash q), rfl, fun n' hn => ?_⟩
        obtain rfl := WithoutTo.other.inj hn
        exact .leaf q.1 q.2 hon
      · rw [if_neg h2, ← List.map_take, ← List.map_drop, ← List.map_append,
          nodeCreateOnly_map]
        refine ⟨_, rfl, fun n' hn => ?_⟩
        obtain rfl := WithoutTo.other.inj hn
        exact .collision _ hon

theorem idxNodeWithout_placed (hl : Level path b nodes) (hne : nodes ≠ [])
    (hbit : b.getLsbD (mask hash (5 * path.length)) = true) {w : WithoutTo}
    (hw : ∀ c', w = .other c' → Placed (path ++ [mask hash (5 * path.length)]) c') :
    Stays path (idxNodeWithout b nodes (5 * path.length) hash w) := by
  unfold idxNodeWithout
  dsimp only
  rw [idxNodeIndex_bitpos]
  cases w with
  | same => exact ⟨.same, rfl, fun _ hn => by cases hn⟩
  | null =>
      dsimp only
      by_cases hone : b = bitpos hash (5 * path.length)
      · rw [if_pos hone]
        exact ⟨.null, rfl, fun _ hn => by cases hn⟩
      · have hl' := hl.drop hbit
        obtain ⟨j, hji, hj⟩ := exists_other_bit hbit hone
        have hne' := ne_nil_of_branchFind_bit hl'.dense (j := j)
          (by rw [getLsbD_andNot_twoPow b (mask_lt ..), hj]; simp [hji])
        have hlen := length_le_of_dense hl'.dense
        obtain ⟨nh, hnew⟩ := createIdxNode_ok hne'
          (b &&& ~~~ BitVec.twoPow 32 (mask hash (5 * path.length))) (5 * path.length)
        rw [if_neg hone, nodeCreateOnly_of_lt (by omega), bitpos, hnew]
        refine ⟨_, rfl, fun n' hn => ?_⟩
        obtain rfl := WithoutTo.other.inj hn
        exact hl'.toIdx hne' nh
  | other c' =>
      have hl' := hl.put hbit (hw c' rfl)
      have hne' : nodes.set (rank b (mask hash (5 * path.length))) c' ≠ [] := by simpa using hne
      obtain ⟨nh, hnew⟩ := createIdxNode_ok hne' b (5 * path.length)
      dsimp only
      rw [hnew]
      refine ⟨_, rfl, fun n' hn => ?_⟩
      obtain rfl := WithoutTo.other.inj hn
      exact hl'.toIdx hne' nh

theorem fullNodeWithout_placed (hl : Level path (BitVec.allOnes 32) nodes) {w : WithoutTo}
    (hw : ∀ c', w = .other c' → Placed (path ++ [mask hash (5 * path.length)]) c') :
    Stays path (fullNodeWithout nodes (5 * path.length) hash w) := by
  have hm := mask_lt hash (5 * path.length)
  have hbit : (BitVec.allOnes 32).getLsbD (mask hash (5 * path.length)) = true := by
    rw [BitVec.getLsbD_allOnes]
    simpa using hm
  have hrank : rank (BitVec.allOnes 32) (mask hash (5 * path.length))
      = mask hash (5 * path.length) := rank_allOnes (Nat.le_of_lt hm)
  unfold fullNodeWithout
  cases w with
  | same => exact ⟨.same, rfl, fun _ hn => by cases hn⟩
  | null =>
      have hl' := hl.drop hbit
      rw [hrank, BitVec.allOnes_and] at hl'
      obtain ⟨j, hji, hj⟩ := exists_other_bit hbit (Ne.symm (bitpos_ne_allOnes hash _))
      have hne' := ne_nil_of_branchFind_bit hl'.dense (j := j) (by
        rw [← BitVec.allOnes_and (x := ~~~ BitVec.twoPow 32 _), getLsbD_andNot_twoPow _ hm, hj]
        simp [hji])
      have hlen := length_le_of_dense hl'.dense
      obtain ⟨nh, hnew⟩ := createIdxNode_ok hne'
        (~~~ BitVec.twoPow 32 (mask hash (5 * path.length))) (5 * path.length)
      dsimp only
      rw [nodeCreateOnly_of_lt (by omega), bitpos, hnew]
      refine ⟨_, rfl, fun n' hn => ?_⟩
      obtain rfl := WithoutTo.other.inj hn
      exact hl'.toIdx hne' nh
  | other c' =>
      have hl' := hl.put hbit (hw c' rfl)
      rw [hrank] at hl'
      have hne' : nodes.set (mask hash (5 * path.length)) c' ≠ [] := by
        refine ne_nil_of_branchFind_bit hl'.dense hbit
      obtain ⟨nh, hnew⟩ := createFullNode_ok hne' (5 * path.length)
      dsimp only
      rw [hnew]
      refine ⟨_, rfl, fun n' hn => ?_⟩
      obtain rfl := WithoutTo.other.inj hn
      exact hl'.toFull nh

end Levels

/-- `vt->without` returns and keeps to the shifts of the path. -/
theorem Placed.without {n : Node} (hn : Placed path n) (hash : BitVec 32) (key : Value) :
    Stays path (nodeWithout n hash key) ∧ ∀ s ∈ withoutShifts n hash key, s ≤ 30 := by
  induction hn with
  | leaf k v _ =>
      rw [nodeWithout, withoutShifts]
      refine ⟨⟨_, rfl, fun n' hn => ?_⟩, by simp⟩
      split at hn <;> cases hn
  | collision kvs on =>
      rw [nodeWithout, withoutShifts, findIndexShifts_leaves]
      exact ⟨collisionNodeWithout_placed on hash key, by simp⟩
  | @idx path s b nodes nh hdepth hs hd hne hch ih =>
      subst hdepth
      rw [nodeWithout, shiftDefined_of_lt (by omega), Outcome.ok_bind, withoutShifts]
      dsimp only
      by_cases hbit : b &&& bitpos hash (5 * path.length) ≠ 0#32
      · obtain ⟨c, hc⟩ := hd.exists_childAt ((and_bitpos ..).mp hbit)
        obtain ⟨⟨w, hw, hplaced⟩, hshifts⟩ := ih _ c hc
        rw [if_pos hbit, if_pos hbit, nodeWithoutAt_eq, withoutShiftsAt_eq,
          getElem?_of_bit hbit, hc, Outcome.ofOption_some, Outcome.ok_bind, hw, Outcome.ok_bind]
        exact ⟨idxNodeWithout_placed ⟨hs, hd, hch⟩ hne ((and_bitpos ..).mp hbit) hplaced,
          shifts_le_cons hs hshifts⟩
      · rw [if_neg hbit, if_neg hbit]
        exact ⟨⟨.same, rfl, fun _ hn => by cases hn⟩, shifts_le_cons hs (by simp)⟩
  | @full path s nodes nh hdepth hs hd hch ih =>
      subst hdepth
      have hm := mask_lt hash (5 * path.length)
      obtain ⟨c, hc⟩ := hd.exists_childAt (i := mask hash (5 * path.length))
        (by rw [BitVec.getLsbD_allOnes]; simpa using hm)
      obtain ⟨⟨w, hw, hplaced⟩, hshifts⟩ := ih _ c hc
      rw [nodeWithout, shiftDefined_of_lt (by omega), Outcome.ok_bind, withoutShifts,
        nodeWithoutAt_eq, withoutShiftsAt_eq, ← childAt_allOnes nodes hm, hc,
        Outcome.ofOption_some, Outcome.ok_bind, hw, Outcome.ok_bind]
      exact ⟨fullNodeWithout_placed ⟨hs, hd, hch⟩ hplaced, shifts_le_cons hs hshifts⟩

/-! ## Setting -/

/-- `vt->set` on `n` returns a node that may lie where `n` does. -/
def Grows (path : List Nat) (n : Node) (res : Outcome (SetTo × Bool)) : Prop :=
  ∃ r a, res = .ok (r, a) ∧ Placed path (r.get n)

section Steps

variable {b : BitVec 32} {nodes : List Node} {set : SetFn}

theorem idxNodeSet_placed (nh : BitVec 32) (hl : Level path b nodes) (hne : nodes ≠ [])
    (hon : OnPath path hash)
    (hset : ∀ c, childAt b nodes (mask hash (5 * path.length)) = some c →
      Grows (path ++ [mask hash (5 * path.length)]) c (set c (5 * path.length + 5))) :
    Grows path (.idx b (5 * path.length) nh nodes)
      (idxNodeSet set hash key val b nodes (5 * path.length)) := by
  have hs : 5 * path.length < 32 := by have := hl.shift; omega
  cases hbit : b.getLsbD (mask hash (5 * path.length)) with
  | true =>
      obtain ⟨c, hc⟩ := hl.dense.exists_childAt hbit
      obtain ⟨r, a, hrun, hplaced⟩ := hset c hc
      cases r with
      | same => exact ⟨.same, a, idxNodeSet_same hs hbit hc hrun, hl.toIdx hne nh⟩
      | other c' =>
          have hne' : nodes.set (rank b (mask hash (5 * path.length))) c' ≠ [] := by
            simpa using hne
          obtain ⟨nh', hnew⟩ := createIdxNode_ok hne' b (5 * path.length)
          exact ⟨_, a, idxNodeSet_other hs hbit hc hrun hnew, (hl.put hbit hplaced).toIdx hne' nh'⟩
  | false =>
      have hl' := hl.add hon key val hbit
      have hlen := length_le_of_dense hl'.dense
      rw [idxNodeSet_add hs hbit (by omega), createIdxNode2, BitVec.neg_one_eq_allOnes]
      by_cases hfull : b ||| BitVec.twoPow 32 (mask hash (5 * path.length)) = BitVec.allOnes 32
      · obtain ⟨nh', hnew⟩ := createFullNode_ok (List.append_ne_nil_of_right_ne_nil _
          (List.cons_ne_nil (.leaf hash key val) _)) (5 * path.length)
        rw [if_pos hfull, hnew]
        rw [hfull] at hl'
        exact ⟨_, true, rfl, hl'.toFull nh'⟩
      · obtain ⟨nh', hnew⟩ := createIdxNode_ok (List.append_ne_nil_of_right_ne_nil _
          (List.cons_ne_nil (.leaf hash key val) _))
          (b ||| BitVec.twoPow 32 (mask hash (5 * path.length))) (5 * path.length)
        rw [if_neg hfull, hnew]
        exact ⟨_, true, rfl, hl'.toIdx (by simp) nh'⟩

theorem fullNodeSet_placed (nh : BitVec 32) (hl : Level path (BitVec.allOnes 32) nodes)
    (hset : ∀ c, childAt (BitVec.allOnes 32) nodes (mask hash (5 * path.length)) = some c →
      Grows (path ++ [mask hash (5 * path.length)]) c (set c (5 * path.length + 5))) :
    Grows path (.full (5 * path.length) nh nodes)
      (fullNodeSet set hash nodes (5 * path.length)) := by
  have hs : 5 * path.length < 32 := by have := hl.shift; omega
  have hm := mask_lt hash (5 * path.length)
  have hbit : (BitVec.allOnes 32).getLsbD (mask hash (5 * path.length)) = true := by
    rw [BitVec.getLsbD_allOnes]
    simpa using hm
  obtain ⟨c, hc⟩ := hl.dense.exists_childAt hbit
  obtain ⟨r, a, hrun, hplaced⟩ := hset c hc
  cases r with
  | same => exact ⟨.same, a, fullNodeSet_same hs hc hrun, hl.toFull nh⟩
  | other c' =>
      have hl' := hl.put hbit hplaced
      rw [rank_allOnes (Nat.le_of_lt hm)] at hl'
      obtain ⟨nh', hnew⟩ := createFullNode_ok (ne_nil_of_branchFind_bit hl'.dense hbit)
        (5 * path.length)
      exact ⟨_, a, fullNodeSet_other hs hc hrun hnew, hl'.toFull nh'⟩

/-- The one-child index node `create_idx_node3` starts from. -/
theorem level_single {branch : Node} (hs : 5 * path.length ≤ 30)
    (hbr : Placed (path ++ [mask (getHash branch) (5 * path.length)]) branch) :
    Level path (bitpos (getHash branch) (5 * path.length)) [branch] := by
  obtain ⟨hd, hch⟩ := childAt_single (getHash branch) (5 * path.length) branch
  refine ⟨hs, hd, fun i c hc => ?_⟩
  rw [hch] at hc
  split at hc
  · rename_i hi
    rw [hi, ← Option.some.inj hc]
    exact hbr
  · cases hc

end Steps

/-- `vt->set` returns, leaves a node that may lie where `n` does, and keeps to
the shifts of the path. The induction is on the recursion depth: a level takes
one call, and two where a leaf or a bucket is split off on the way. -/
theorem Placed.set : ∀ (depth : Nat) {path : List Nat} {n : Node}, Placed path n →
    OnPath path hash → path.length ≤ 7 → 2 * (7 - path.length) + 1 ≤ depth →
    Grows path n (nodeSet depth hash key val n (5 * path.length))
      ∧ ∀ s ∈ setShifts depth hash key n (5 * path.length), s ≤ 30 := by
  intro depth
  induction depth using Nat.strongRecOn with
  | ind depth ih =>
  intro path n hn hon h7 hdepth
  obtain ⟨d, rfl⟩ : ∃ d, depth = d + 1 := ⟨depth - 1, by omega⟩
  -- one level down, at the child the key's own fragment leads to
  have below : ∀ (e : Nat) {b : BitVec 32} {nodes : List Node}, e < d + 1 →
      2 * (6 - path.length) + 1 ≤ e → Level path b nodes →
      ∀ c, childAt b nodes (mask hash (5 * path.length)) = some c →
        Grows (path ++ [mask hash (5 * path.length)]) c
            (nodeSet e hash key val c (5 * path.length + 5))
          ∧ ∀ s ∈ setShifts e hash key c (5 * path.length + 5), s ≤ 30 := by
    intro e b nodes he hroom hl c hc
    have hs := hl.shift
    have hlen : (path ++ [mask hash (5 * path.length)]).length = path.length + 1 := by simp
    have := ih e he (hl.children _ c hc) (onPath_concat.mpr ⟨hon, rfl⟩) (by omega) (by omega)
    rwa [hlen] at this
  -- an index node, with or without a child for the key
  have atIdx : ∀ (e : Nat) (nh : BitVec 32) {b : BitVec 32} {nodes : List Node}, e < d + 1 →
      2 * (6 - path.length) + 1 ≤ e → Level path b nodes → nodes ≠ [] →
      Grows path (.idx b (5 * path.length) nh nodes)
          (idxNodeSet (nodeSet e hash key val) hash key val b nodes (5 * path.length))
        ∧ ∀ s ∈ setShifts (e + 1) hash key (.idx b (5 * path.length) nh nodes)
            (5 * path.length), s ≤ 30 := by
    intro e nh b nodes he hroom hl hne
    refine ⟨idxNodeSet_placed nh hl hne hon fun c hc => (below e he hroom hl c hc).1, ?_⟩
    rw [setShifts]
    refine shifts_le_cons hl.shift ?_
    by_cases hbit : b &&& bitpos hash (5 * path.length) ≠ 0#32
    · obtain ⟨c, hc⟩ := hl.dense.exists_childAt ((and_bitpos ..).mp hbit)
      rw [if_pos hbit]
      dsimp only
      rw [getElem?_of_bit hbit, hc]
      exact (below e he hroom hl c hc).2
    · rw [if_neg hbit]
      simp
  -- a leaf or a bucket of another hash
  have split : ∀ branch : Node, n = branch → hash ≠ getHash branch →
      OnPath path (getHash branch) →
      (∀ i, OnPath (path ++ [i]) (getHash branch) → Placed (path ++ [i]) branch) →
      Grows path branch
          (createIdxNode3 (nodeSet d hash key val) (5 * path.length) branch)
        ∧ ∀ s ∈ 5 * path.length :: setShifts d hash key
            (.idx (bitpos (getHash branch) (5 * path.length)) (5 * path.length) (getHash branch)
              [branch]) (5 * path.length), s ≤ 30 := by
    intro branch hnb hne hbon hbr
    have hs := (hon.agree hbon).shift_le hne (Nat.mul_mod_right 5 _)
    obtain ⟨e, rfl⟩ : ∃ e, d = e + 1 := ⟨d - 1, by omega⟩
    have hl := level_single hs (hbr _ (onPath_concat.mpr ⟨hbon, rfl⟩))
    obtain ⟨⟨r, a, hrun, hplaced⟩, hshifts⟩ := atIdx e (getHash branch) (by omega)
      (by omega) hl (List.cons_ne_nil _ _)
    refine ⟨⟨.other (r.get _), a, ?_, hplaced⟩, shifts_le_cons hs hshifts⟩
    rw [createIdxNode3, shiftDefined_of_lt (by omega), Outcome.ok_bind, createIdxNode]
    simp only [List.getElem?_cons_zero, Outcome.ofOption_some, Outcome.ok_bind, Outcome.pure_eq,
      nodeSet, hrun]
  cases hn with
  | @leaf _ lh lk lv on =>
      rw [nodeSet, setShifts]
      dsimp only
      rw [leafNodeSet]
      by_cases hh : hash = lh
      · subst hh
        rw [if_pos rfl, if_pos rfl]
        refine ⟨?_, by simp⟩
        split_ifs
        · exact ⟨_, _, rfl, .leaf lk lv on⟩
        · exact ⟨_, _, rfl, .leaf key val on⟩
        · exact ⟨_, _, rfl, .collision [(lk, lv), (key, val)] on⟩
      · rw [if_neg hh, if_neg hh]
        exact split _ rfl hh on fun i hi => .leaf lk lv hi
  | @collision _ nh kvs on =>
      rw [nodeSet, setShifts]
      dsimp only
      by_cases hh : hash = nh
      · subst hh
        rw [if_pos rfl, findIndexShifts_leaves, collisionNodeSet_bucket]
        exact ⟨⟨_, _, rfl, .collision _ on⟩, by simp⟩
      · rw [if_neg hh, collisionNodeSet, if_neg hh]
        exact split _ rfl hh on fun i hi => .collision kvs hi
  | @idx _ s b nodes nh hlevel hs hd hne hch =>
      subst hlevel
      exact atIdx d _ (Nat.lt_succ_self d) (by omega) ⟨hs, hd, hch⟩ hne
  | @full _ s nodes nh hlevel hs hd hch =>
      subst hlevel
      have hl : Level path (BitVec.allOnes 32) nodes := ⟨hs, hd, hch⟩
      have hm := mask_lt hash (5 * path.length)
      have hbelow := fun {c} => below d (Nat.lt_succ_self d) (by omega) hl c
      obtain ⟨c, hc⟩ := hd.exists_childAt (i := mask hash (5 * path.length))
        (by rw [BitVec.getLsbD_allOnes]; simpa using hm)
      refine ⟨fullNodeSet_placed nh hl fun c hc => (hbelow hc).1, ?_⟩
      rw [setShifts]
      refine shifts_le_cons hs ?_
      dsimp only
      rw [← childAt_allOnes nodes hm, hc]
      exact (hbelow hc).2

/-! ## Runs -/

/-- A map that is `map_create_empty` or whose root may lie at the root. -/
def RootPlaced (n : Node) : Prop := n = .empty ∨ Placed [] n

theorem rootPlaced_set {n : Node} (hn : RootPlaced n) (hash : BitVec 32) (key val : Value) :
    (∃ r a, nodeSet setDepth hash key val n 0 = .ok (r, a) ∧ RootPlaced (r.get n))
      ∧ ∀ s ∈ setShifts setDepth hash key n 0, s ≤ 30 := by
  rcases hn with rfl | hn
  · exact ⟨⟨_, _, rfl, Or.inr (.leaf key val (onPath_nil hash))⟩, by simp [setDepth, setShifts]⟩
  · obtain ⟨⟨r, a, hrun, hplaced⟩, hshifts⟩ := @Placed.set hash key val setDepth [] n hn
      (onPath_nil hash) (by simp) (by simp [setDepth])
    exact ⟨⟨r, a, hrun, Or.inr hplaced⟩, hshifts⟩

theorem rootPlaced_without {n : Node} (hn : RootPlaced n) (hash : BitVec 32) (key : Value) :
    Stays [] (nodeWithout n hash key) ∧ ∀ s ∈ withoutShifts n hash key, s ≤ 30 := by
  rcases hn with rfl | hn
  · refine ⟨⟨.same, by rw [nodeWithout]; rfl, fun _ hw => by cases hw⟩, by simp [withoutShifts]⟩
  · exact hn.without hash key

theorem rootPlaced_find {n : Node} (hn : RootPlaced n) (hash : BitVec 32) (key : Value) :
    (∃ r, nodeFind n hash key = .ok r) ∧ ∀ s ∈ findShifts n hash key, s ≤ 30 := by
  rcases hn with rfl | hn
  · exact ⟨⟨none, by rw [nodeFind]; rfl⟩, by simp [findShifts]⟩
  · exact hn.find hash key

/-- One insertion or removal leaves the root of a map. -/
theorem rootPlaced_step {m m' : HMap} (hm : RootPlaced m.root) {op : MapOp}
    (hrun : op.run m = .ok m') : RootPlaced m'.root := by
  cases op with
  | insert key hash val =>
      obtain ⟨⟨r, a, hset, hplaced⟩, -⟩ := rootPlaced_set hm hash key val
      rw [MapOp.run, mapInsert, mapInsert?, hset, Outcome.ok_bind] at hrun
      cases r with
      | same =>
          obtain rfl := Outcome.ok.inj hrun
          exact hm
      | other root =>
          obtain ⟨o, ho, rfl⟩ := Outcome.map_eq_ok.mp hrun
          dsimp only at ho
          split at ho
          all_goals
            obtain ⟨cnt, -, hcnt⟩ := Outcome.bind_eq_ok.mp ho
            obtain rfl := Outcome.ok.inj hcnt
            exact hplaced
  | remove key hash =>
      obtain ⟨⟨w, hwithout, hplaced⟩, -⟩ := rootPlaced_without hm hash key
      rw [MapOp.run, mapRemove, mapRemove?, hwithout, Outcome.ok_bind] at hrun
      cases w with
      | same =>
          obtain rfl := Outcome.ok.inj hrun
          exact hm
      | null =>
          obtain rfl := Outcome.ok.inj hrun
          exact Or.inl rfl
      | other root =>
          obtain rfl := Outcome.ok.inj hrun
          exact Or.inr (hplaced root rfl)

theorem rootPlaced_run : ∀ (ops : List MapOp) {m m' : HMap}, RootPlaced m.root →
    ops.foldlM MapOp.run m = .ok m' → RootPlaced m'.root
  | [], _, _, hm, hrun => by
      obtain rfl := Outcome.ok.inj hrun
      exact hm
  | op :: ops, m, m', hm, hrun => by
      rw [List.foldlM_cons] at hrun
      obtain ⟨m1, hstep, hrest⟩ := Outcome.bind_eq_ok.mp hrun
      exact rootPlaced_run ops (rootPlaced_step hm hstep) hrest

/-- The nodes of a map are as deep as the width of a hash allows: the three
operations return, with `MASK` and `BITPOS` on shifts of 30 at most; the
hashes in a node are those of its path; and its shift is its depth. -/
structure WithinHash (root : Node) : Prop where
  set : ∀ hash key val, (∃ r, nodeSet setDepth hash key val root 0 = .ok r)
    ∧ ∀ s ∈ setShifts setDepth hash key root 0, s ≤ 30
  without : ∀ hash key, (∃ w, nodeWithout root hash key = .ok w)
    ∧ ∀ s ∈ withoutShifts root hash key, s ≤ 30
  find : ∀ hash key, (∃ v, nodeFind root hash key = .ok v)
    ∧ ∀ s ∈ findShifts root hash key, s ≤ 30
  onPath : ∀ path c h, Under root path c → HasHash h c → OnPath path h
  agree : ∀ path c h h', Under root path c → HasHash h c → HasHash h' c →
    AgreeBelow (5 * path.length) h h'
  shift : ∀ path c s, Under root path c → c.shift = some s → s = 5 * path.length

theorem onPath_of_under {n c : Node} {p : List Nat} (hn : RootPlaced n) (hu : Under n p c) :
    (HasHash h c → OnPath p h) ∧ ∀ s, c.shift = some s → s = 5 * p.length := by
  rcases hn with rfl | hn
  · cases hu
    refine ⟨fun hh => ?_, fun s hs => ?_⟩
    · cases hh
    · cases hs
  · have hc := Placed.under hu hn
    exact ⟨hc.onPath, fun s hs => hc.shift_eq hs⟩

/-- **Depth is bounded by the hash width.** In every map that insertions and
removals make of the empty one, whatever the keys and their hashes. -/
theorem trie_depth_bounded (ops : List MapOp) (m : HMap) (hm : runOps ops = .ok m) :
    WithinHash m.root := by
  have hroot : RootPlaced m.root := rootPlaced_run ops (Or.inl rfl) hm
  refine ⟨fun hash key val => ?_, fun hash key => ?_, fun hash key => rootPlaced_find hroot _ _,
    fun path c h hu hh => (onPath_of_under hroot hu).1 hh,
    fun path c h h' hu hh hh' =>
      ((onPath_of_under hroot hu).1 hh).agree ((onPath_of_under hroot hu).1 hh'),
    fun path c s hu hs => (onPath_of_under (h := 0#32) hroot hu).2 s hs⟩
  · obtain ⟨⟨r, a, hset, -⟩, hshifts⟩ := rootPlaced_set hroot hash key val
    exact ⟨⟨_, hset⟩, hshifts⟩
  · obtain ⟨⟨w, hwithout, -⟩, hshifts⟩ := rootPlaced_without hroot hash key
    exact ⟨⟨w, hwithout⟩, hshifts⟩

/-- Two hashes that differ in their sign bit alone part at shift 30. -/
theorem trie_depth_bounded_sign :
    ∃ m, runOps [.insert ⟨.number, 1#64⟩ 0#32 ⟨.nil, 0#64⟩,
        .insert ⟨.number, 2#64⟩ 0x80000000#32 ⟨.nil, 0#64⟩] = .ok m ∧ WithinHash m.root := by
  obtain ⟨m, hm⟩ : ∃ m, runOps [.insert ⟨.number, 1#64⟩ 0#32 ⟨.nil, 0#64⟩,
      .insert ⟨.number, 2#64⟩ 0x80000000#32 ⟨.nil, 0#64⟩] = .ok m := ⟨_, rfl⟩
  exact ⟨m, hm, trie_depth_bounded _ m hm⟩

end Saurus
