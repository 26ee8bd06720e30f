import Saurus.Map.Refine

/-!
# The value of a new key

`map_refines_finmap` tells values up to `value_eq`, which the two zeros are
equal under. The value of a key that was not there before is the one that was
set, bit for bit: what holds of every leaf of a tree, its hash and key
included, holds of every leaf after a `set` if it holds of the new one.
-/

namespace Saurus

open Basis Outcome Keyed

section Leaves

variable (R : BitVec 32 → Value → Value → Prop)

mutual

/-- Every leaf has the property. -/
def Node.Leaves : Node → Prop
  | .empty => True
  | .leaf hash key val => R hash key val
  | .collision _ leaves => Node.LeavesIn leaves
  | .idx _ _ _ nodes => Node.LeavesIn nodes
  | .full _ _ nodes => Node.LeavesIn nodes

def Node.LeavesIn : List Node → Prop
  | [] => True
  | n :: nodes => n.Leaves ∧ Node.LeavesIn nodes

end

end Leaves

variable {R : BitVec 32 → Value → Value → Prop}

theorem node_leavesIn_iff {nodes : List Node} :
    Node.LeavesIn R nodes ↔ ∀ n ∈ nodes, n.Leaves R := by
  induction nodes with
  | nil => simp [Node.LeavesIn]
  | cons n nodes ih => simp [Node.LeavesIn, ih]

theorem Node.LeavesIn.set {nodes : List Node} (h : Node.LeavesIn R nodes) (i : Nat) {n : Node}
    (hn : n.Leaves R) : Node.LeavesIn R (nodes.set i n) := by
  rw [node_leavesIn_iff] at h ⊢
  intro x hx
  rcases List.mem_or_eq_of_mem_set hx with hx | rfl
  · exact h x hx
  · exact hn

/-! ## Finding -/

/-- What is found is in a leaf of the key that is asked for. -/
def Node.Found (R : BitVec 32 → Value → Value → Prop) (hash : BitVec 32) (key : Value)
    (r : Option Value) : Prop :=
  ∀ v, r = some v → ∃ lk, valueEq key lk = true ∧ R hash lk v

mutual

theorem nodeFind_leaves : ∀ (n : Node) (hash : BitVec 32) (key : Value), n.Leaves R →
    Ensures (nodeFind n hash key) (Node.Found R hash key)
  | .empty, _, _, _ => by
      rw [nodeFind]
      exact ensures_ok nofun
  | .leaf lh lk lv, hash, key, h => by
      rw [nodeFind]
      rw [Node.Leaves] at h
      refine ensures_ok ?_
      split
      · rename_i hmatch
        rintro _ ⟨⟩
        exact ⟨lk, hmatch.2, hmatch.1 ▸ h⟩
      · exact nofun
  | .collision nh leaves, hash, key, h => by
      rw [nodeFind]
      rw [Node.Leaves] at h
      refine .bind fun i hi => ?_
      cases i with
      | none => exact ensures_ok nofun
      | some i =>
          obtain ⟨n, hn, v, hv, hfound⟩ := findIndex_leaves leaves hash key h i hi
          dsimp only
          rw [hn]
          cases n with
          | leaf lh lk lv =>
              rw [nodeFind] at hv
              obtain hv := Outcome.ok.inj hv
              split at hv
              · cases hv
                exact ensures_ok hfound
              · cases hv
          | _ => exact ensures_fault
  | .idx bitmap shift nh nodes, hash, key, h => by
      rw [nodeFind]
      rw [Node.Leaves] at h
      refine .bind fun _ _ => ?_
      dsimp only
      split
      · exact nodeFindAt_leaves nodes _ hash key h
      · exact ensures_ok nofun
  | .full shift nh nodes, hash, key, h => by
      rw [nodeFind]
      rw [Node.Leaves] at h
      exact .bind fun _ _ => nodeFindAt_leaves nodes _ hash key h

theorem findIndex_leaves : ∀ (leaves : List Node) (hash : BitVec 32) (key : Value),
    Node.LeavesIn R leaves → ∀ i, collisionNodeFindIndex leaves hash key = .ok (some i) →
      ∃ n, leaves[i]? = some n ∧ ∃ v, nodeFind n hash key = .ok (some v)
        ∧ Node.Found R hash key (some v)
  | [], _, _, _, _, hi => nomatch hi
  | n :: rest, hash, key, h, i, hi => by
      rw [collisionNodeFindIndex] at hi
      rw [Node.LeavesIn] at h
      obtain ⟨r, hr, hi⟩ := bind_eq_ok.mp hi
      cases r with
      | some v =>
          cases hi
          exact ⟨n, rfl, v, hr, nodeFind_leaves n hash key h.1 _ hr⟩
      | none =>
          obtain ⟨j, hj, hi⟩ := bind_eq_ok.mp hi
          cases j with
          | none => cases hi
          | some j =>
              cases hi
              exact findIndex_leaves rest hash key h.2 j hj

theorem nodeFindAt_leaves : ∀ (nodes : List Node) (i : Nat) (hash : BitVec 32) (key : Value),
    Node.LeavesIn R nodes → Ensures (nodeFindAt nodes i hash key) (Node.Found R hash key)
  | [], _, _, _, _ => by
      rw [nodeFindAt]
      exact ensures_fault
  | n :: _, 0, hash, key, h => by
      rw [nodeFindAt]
      rw [Node.LeavesIn] at h
      exact nodeFind_leaves n hash key h.1
  | _ :: rest, i + 1, hash, key, h => by
      rw [nodeFindAt]
      rw [Node.LeavesIn] at h
      exact nodeFindAt_leaves rest i hash key h.2

end

/-! ## Setting -/

theorem createIdxNode_leaves {nodes : List Node} (h : Node.LeavesIn R nodes) (bitmap : BitVec 32)
    (shift : Nat) : Ensures (createIdxNode bitmap nodes shift) (Node.Leaves R) := by
  refine .bind fun _ _ => ensures_ok ?_
  rw [Node.Leaves]
  exact h

theorem createFullNode_leaves {nodes : List Node} (h : Node.LeavesIn R nodes) (shift : Nat) :
    Ensures (createFullNode nodes shift) (Node.Leaves R) := by
  refine .bind fun _ _ => ensures_ok ?_
  rw [Node.Leaves]
  exact h

theorem createIdxNode2_leaves {nodes : List Node} (h : Node.LeavesIn R nodes)
    (bitmap : BitVec 32) (shift : Nat) :
    Ensures (createIdxNode2 bitmap nodes shift) (Node.Leaves R) := by
  unfold createIdxNode2
  split
  · exact createFullNode_leaves h shift
  · exact createIdxNode_leaves h bitmap shift

/-- A `set` that keeps the property of all leaves. -/
def SetFn.KeepsLeaves (R : BitVec 32 → Value → Value → Prop) (set : SetFn) : Prop :=
  ∀ n shift, n.Leaves R → Ensures (set n shift) fun r => (r.1.get n).Leaves R

section Set

variable {set : SetFn} (hset : set.KeepsLeaves R) {hash : BitVec 32} {key val : Value}
  (hval : Node.Leaves R (.leaf hash key val)) {nodes : List Node} {shift : Nat}

include hset

theorem fullNodeSet_leaves (s : Nat) (nh : BitVec 32) (h : Node.LeavesIn R nodes) :
    Ensures (fullNodeSet set hash nodes shift) fun r =>
      (r.1.get (.full s nh nodes)).Leaves R := by
  refine .bind fun _ _ => .bind fun c hc => .bind fun r hr => ?_
  have hmem := List.mem_of_getElem? (ofOption_eq_ok.mp hc)
  have hcall := hset c _ (node_leavesIn_iff.mp h c hmem) r hr
  obtain ⟨ans, added⟩ := r
  cases ans with
  | same =>
      refine ensures_ok ?_
      rw [SetTo.get, Node.Leaves]
      exact h
  | other c' =>
      exact .bind fun n hn => ensures_ok (createFullNode_leaves (h.set _ hcall) shift n hn)

/-- A branch is pushed down, and the key set below. -/
theorem createIdxNode3_leaves {branch n₀ : Node} (h : branch.Leaves R) :
    Ensures (createIdxNode3 set shift branch) fun r => (r.1.get n₀).Leaves R := by
  refine .bind fun _ _ => .bind fun n hn => .bind fun r hr => ensures_ok ?_
  refine hset n shift (createIdxNode_leaves ?_ _ shift n hn) r hr
  exact node_leavesIn_iff.mpr fun x hx => List.mem_singleton.mp hx ▸ h

include hval

theorem idxNodeSet_leaves {bitmap : BitVec 32} (s : Nat) (nh : BitVec 32)
    (h : Node.LeavesIn R nodes) :
    Ensures (idxNodeSet set hash key val bitmap nodes shift) fun r =>
      (r.1.get (.idx bitmap s nh nodes)).Leaves R := by
  refine .bind fun _ _ => ?_
  dsimp only
  split
  · refine .bind fun c hc => .bind fun r hr => ?_
    have hmem := List.mem_of_getElem? (ofOption_eq_ok.mp hc)
    have hcall := hset c _ (node_leavesIn_iff.mp h c hmem) r hr
    obtain ⟨ans, added⟩ := r
    cases ans with
    | same =>
        refine ensures_ok ?_
        rw [SetTo.get, Node.Leaves]
        exact h
    | other c' =>
        exact .bind fun n hn => ensures_ok (createIdxNode_leaves (h.set _ hcall) bitmap shift n hn)
  · refine .bind fun n hn => ensures_ok (createIdxNode2_leaves ?_ _ shift n hn)
    rw [node_leavesIn_iff] at h ⊢
    intro x hx
    rcases List.mem_append.mp (List.mem_of_mem_take hx) with hx | hx
    · exact h x (List.mem_of_mem_take hx)
    · rcases List.mem_cons.mp hx with rfl | hx
      · exact hval
      · exact h x (List.mem_of_mem_drop hx)

theorem leafNodeSet_leaves {lh : BitVec 32} {lk lv : Value}
    (h : Node.Leaves R (.leaf lh lk lv)) :
    Ensures (leafNodeSet set hash key val lh lk lv shift) fun r =>
      (r.1.get (.leaf lh lk lv)).Leaves R := by
  unfold leafNodeSet
  split
  · split
    · split
      · exact ensures_ok h
      · exact ensures_ok hval
    · refine ensures_ok ?_
      rw [SetTo.get, Node.Leaves, node_leavesIn_iff]
      intro x hx
      rcases List.mem_cons.mp hx with rfl | hx
      · exact h
      · exact List.mem_singleton.mp hx ▸ hval
  · exact createIdxNode3_leaves hset h

theorem collisionNodeSet_leaves {nhash : BitVec 32} {leaves : List Node}
    (h : Node.LeavesIn R leaves) :
    Ensures (collisionNodeSet set hash key val nhash leaves shift) fun r =>
      (r.1.get (.collision nhash leaves)).Leaves R := by
  unfold collisionNodeSet
  split
  · refine .bind fun i _ => ?_
    cases i with
    | some i =>
        refine ensures_ok ?_
        rw [SetTo.get, Node.Leaves]
        exact h.set i hval
    | none =>
        refine ensures_ok ?_
        rw [SetTo.get, Node.Leaves, node_leavesIn_iff]
        rw [node_leavesIn_iff] at h
        intro x hx
        rcases List.mem_append.mp (List.mem_of_mem_take hx) with hx | hx
        · exact h x hx
        · exact List.mem_singleton.mp hx ▸ hval
  · refine createIdxNode3_leaves hset ?_
    rw [Node.Leaves]
    exact h

end Set

theorem nodeSet_leaves {hash : BitVec 32} {key val : Value}
    (hval : Node.Leaves R (.leaf hash key val)) :
    ∀ depth, SetFn.KeepsLeaves R (nodeSet depth hash key val)
  | 0 => fun n shift _ => ensures_fault
  | depth + 1 => fun n shift h => by
      have hset : SetFn.KeepsLeaves R (nodeSet depth hash key val) := nodeSet_leaves hval depth
      cases n with
      | empty => exact ensures_ok hval
      | leaf lh lk lv => exact leafNodeSet_leaves hset hval h
      | collision nh leaves =>
          rw [Node.Leaves] at h
          exact collisionNodeSet_leaves hset hval h
      | idx bitmap s nh nodes =>
          rw [Node.Leaves] at h
          exact idxNodeSet_leaves hset hval s nh h
      | full s nh nodes =>
          rw [Node.Leaves] at h
          exact fullNodeSet_leaves hset s nh h

/-! ## New keys -/

mutual

theorem Node.Leaves.imp {R' : BitVec 32 → Value → Value → Prop}
    (hR : ∀ hash key val, R hash key val → R' hash key val) :
    ∀ {n : Node}, n.Leaves R → n.Leaves R'
  | .empty, _ => by
      rw [Node.Leaves]
      trivial
  | .leaf _ _ _, h => by
      rw [Node.Leaves] at h ⊢
      exact hR _ _ _ h
  | .collision _ _, h => by
      rw [Node.Leaves] at h ⊢
      exact node_leavesIn_imp hR h
  | .idx _ _ _ _, h => by
      rw [Node.Leaves] at h ⊢
      exact node_leavesIn_imp hR h
  | .full _ _ _, h => by
      rw [Node.Leaves] at h ⊢
      exact node_leavesIn_imp hR h

theorem node_leavesIn_imp {R' : BitVec 32 → Value → Value → Prop}
    (hR : ∀ hash key val, R hash key val → R' hash key val) :
    ∀ {nodes : List Node}, Node.LeavesIn R nodes → Node.LeavesIn R' nodes
  | [], _ => by
      rw [Node.LeavesIn]
      trivial
  | _ :: _, h => by
      rw [Node.LeavesIn] at h ⊢
      exact ⟨h.1.imp hR, node_leavesIn_imp hR h.2⟩

end

/-- The tree has the key. -/
def Node.Has (n : Node) (hash : BitVec 32) (key : Value) : Prop :=
  ∃ v, nodeFind n hash key = .ok (some v)

/-- The children of an inner node are found from it. -/
theorem Branch.leaves {s : Nat} {b : BitVec 32} {nodes : List Node} (hb : Branch s b nodes)
    {n : Node} (hfind : ∀ h k, nodeFind n h k = branchFind b nodes (mask h s) h k)
    (hchild : ∀ c ∈ nodes, c.Leaves fun hash key _ => c.Has hash key) :
    Node.LeavesIn (fun hash key _ => n.Has hash key) nodes := by
  refine node_leavesIn_iff.mpr fun c hc => (hchild c hc).imp fun hash key _ hhas => ?_
  obtain ⟨v, hv⟩ := hhas
  obtain ⟨i, hi⟩ := hb.dense.exists_slot hc
  refine ⟨v, ?_⟩
  rw [hfind, hb.path i c hi _ _ _ hv, branchFind_of_childAt hi, hv]

/-- Every leaf of a tree is found. -/
theorem Shaped.leaves_found {s : Nat} {n : Node} (h : Shaped s n) :
    n.Leaves fun hash key _ => n.Has hash key := by
  induction h with
  | leaf h k v =>
      rw [Node.Leaves]
      exact ⟨v, by rw [nodeFind_leaf, if_pos ⟨rfl, valueEq_refl k⟩]⟩
  | @collision s h kvs two len distinct =>
      rw [Node.Leaves, node_leavesIn_iff]
      intro c hc
      obtain ⟨p, hp, rfl⟩ := List.mem_map.mp hc
      rw [leafOf, Node.Leaves]
      unfold Node.Has
      rw [nodeFind_collision, if_pos rfl]
      cases hl : lookup valueEq kvs p.1 with
      | some v => exact ⟨v, rfl⟩
      | none =>
          have := lookup_eq_none_iff.mp hl p hp
          rw [valueEq_refl] at this
          cases this
  | @idx s b nodes nh hs hd hne hnf hch hpath ih =>
      rw [Node.Leaves]
      refine Branch.leaves ⟨hs, hd, hch, hpath⟩ (fun h k => nodeFind_idx (by omega) hd ..)
        fun c hc => ?_
      obtain ⟨i, hi⟩ := hd.exists_slot hc
      exact ih i c hi
  | @full s nodes nh hs hd hch hpath ih =>
      rw [Node.Leaves]
      refine Branch.leaves ⟨hs, hd, hch, hpath⟩ (fun h k => nodeFind_full (by omega) hd ..)
        fun c hc => ?_
      obtain ⟨i, hi⟩ := hd.exists_slot hc
      exact ih i c hi

/-- The tree of a map after an insertion. -/
theorem mapInsert?_root {m : HMap} {key val : Value} {hash : BitVec 32} {r : Option HMap}
    (h : mapInsert? m key hash val = .ok r) :
    ∃ ans added, nodeSet setDepth hash key val m.root 0 = .ok (ans, added)
      ∧ (r.getD m).root = ans.get m.root := by
  obtain ⟨⟨ans, added⟩, hset, h⟩ := bind_eq_ok.mp h
  refine ⟨ans, added, hset, ?_⟩
  cases ans with
  | same =>
      cases h
      rfl
  | other root =>
      dsimp only at h
      split at h
      · obtain ⟨cnt, -, h⟩ := bind_eq_ok.mp h
        cases h
        rfl
      · cases h
        rfl

/-- The other keys of a map have the values they had. -/
theorem mapInsert?_others {m : HMap} {f : KeyMap} (hr : Represents m f) {hash : BitVec 32}
    {key val : Value} (hbucket : bucketCard (f.insert (mapKey hash key) val) hash ≤ 255)
    {r : Option HMap} (h : mapInsert? m key hash val = .ok r) {hash' : BitVec 32} {key' : Value}
    (hne : mapKey hash' key' ≠ mapKey hash key) :
    mapGet (r.getD m) key' hash' = mapGet m key' hash' := by
  obtain ⟨ans, added, hset, hroot⟩ := mapInsert?_root h
  obtain ⟨ans', added', hset', -, ⟨w, -, hbound⟩, -⟩ :=
    rootSet_ok hr.root val (room_of_bucketCard hr hbucket)
  rw [hset] at hset'
  cases hset'
  rw [mapGet, hroot, hbound, if_neg fun hkey => hne (mapKey_eq.mpr hkey), mapGet]

/-- A new key has the value it is given. -/
theorem mapInsert?_fresh {m : HMap} {f : KeyMap} (hr : Represents m f) {hash : BitVec 32}
    {key val : Value} (hnew : mapKey hash key ∉ f)
    (hbucket : bucketCard (f.insert (mapKey hash key) val) hash ≤ 255)
    {r : Option HMap} (h : mapInsert? m key hash val = .ok r) :
    mapGet (r.getD m) key hash = .ok val := by
  obtain ⟨ans, added, hset, hroot⟩ := mapInsert?_root h
  obtain ⟨ans', added', hset', -, ⟨w, -, hbound⟩, -⟩ :=
    rootSet_ok hr.root val (room_of_bucketCard hr hbucket)
  rw [hset] at hset'
  cases hset'
  have hw : nodeFind (ans.get m.root) hash key = .ok (some w) := by
    rw [hbound, if_pos ⟨rfl, valueEq_refl key⟩]
  have hold : m.root.Leaves fun h k v => h = hash → valueEq key k = true → v = val := by
    rcases hr.root with hempty | hshaped
    · rw [hempty, Node.Leaves]
      trivial
    · refine hshaped.leaves_found.imp fun h k v hhas hh hk => ?_
      obtain ⟨u, hu⟩ := hhas
      have hkey : mapKey h k = mapKey hash key :=
        mapKey_eq.mpr ⟨hh, by rw [valueEq_comm]; exact hk⟩
      rw [hr.find_none.mpr (hkey ▸ hnew)] at hu
      cases hu
  have hall := nodeSet_leaves (R := fun h k v => h = hash → valueEq key k = true → v = val)
    (by rw [Node.Leaves]; exact fun _ _ => rfl) setDepth m.root 0 hold _ hset
  obtain ⟨lk, hlk, heq⟩ := nodeFind_leaves _ hash key hall _ hw w rfl
  rw [mapGet, hroot, hw, heq rfl hlk]
  rfl

end Saurus
