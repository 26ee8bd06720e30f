import Saurus.World

/-!
# The values in a world

A property of values holds of a world when it holds of every value that an
object of it can give back: the elements of vectors, the values of maps,
what closures have captured, cells and references. The operations of the
interpreter on objects keep such a property as long as the values put in
have it.

Keys of maps are only ever compared, and the table of strings holds
addresses of strings only; neither is looked at.
-/

namespace Saurus

open Basis Outcome

/-! ## The property on each kind of object -/

section All

variable (P : Value → Prop)

/-- Every value below the slots. -/
def VectorNode.All (arr : VectorNode) : Prop := ∀ x ∈ arr, ∀ v ∈ x.toList, P v

structure Vec.All (v : Vec) : Prop where
  root : VectorNode.All P v.root
  tail : VectorNode.All P v.tail

mutual

/-- Every value of a leaf. -/
def Node.All : Node → Prop
  | .empty => True
  | .leaf _ _ val => P val
  | .collision _ leaves => Node.AllIn leaves
  | .idx _ _ _ nodes => Node.AllIn nodes
  | .full _ _ nodes => Node.AllIn nodes

def Node.AllIn : List Node → Prop
  | [] => True
  | n :: nodes => n.All ∧ Node.AllIn nodes

end

structure FunctionObj.All (f : FunctionObj) : Prop where
  constants : ∀ v ∈ f.constants, P v
  upvalues : ∀ v ∈ f.upvalues, P v

def Obj.All : Obj → Prop
  | .function f => f.All P
  | .vector v => v.All P
  | .map m => m.root.All P
  | .loc v => P v
  | .cell first rest => P first ∧ P rest
  | .string _ _ => True
  | .iterator _ _ => True

def World.All (w : World) : Prop := ∀ o ∈ w.objects, o.All P

end All

variable {P : Value → Prop}

/-! ## Vectors -/

theorem vectorNode_all_append {arr : VectorNode} {x : Slot} (h : VectorNode.All P arr)
    (hx : ∀ v ∈ x.toList, P v) : VectorNode.All P (arr ++ [x]) := by
  intro y hy
  rcases List.mem_append.mp hy with hy | hy
  · exact h y hy
  · obtain rfl := List.mem_singleton.mp hy
    exact hx

theorem VectorNode.All.sub {arr arr' : VectorNode} (h : VectorNode.All P arr)
    (hsub : ∀ x ∈ arr', x ∈ arr) : VectorNode.All P arr' := fun x hx => h x (hsub x hx)

theorem VectorNode.All.set {arr : VectorNode} (h : VectorNode.All P arr) (i : Nat) {x : Slot}
    (hx : ∀ v ∈ x.toList, P v) : VectorNode.All P (arr.set i x) := by
  intro y hy
  rcases List.mem_or_eq_of_mem_set hy with hy | rfl
  · exact h y hy
  · exact hx

theorem vectorNode_all_node {arr : VectorNode} (h : VectorNode.All P arr) :
    ∀ v ∈ (Radix.Tree.node arr).toList, P v := by
  intro v hv
  rw [Radix.Tree.toList_node, List.mem_flatMap] at hv
  obtain ⟨x, hx, hv⟩ := hv
  exact h x hx v hv

theorem vectorNode_all_leaf {v : Value} (h : P v) : ∀ u ∈ (Radix.Tree.leaf v).toList, P u := by
  intro u hu
  rw [Radix.Tree.toList_leaf, List.mem_singleton] at hu
  exact hu ▸ h

theorem vectorNode_all_nil : VectorNode.All P [] := fun _ hx => absurd hx List.not_mem_nil

theorem slotValue_all {x : Slot} (h : ∀ v ∈ x.toList, P v) : Ensures (slotValue x) P := by
  cases x with
  | leaf v => exact ensures_ok (h v (by simp))
  | node data => exact ensures_fault

theorem slotNode_all {x : Slot} (h : ∀ v ∈ x.toList, P v) :
    Ensures (slotNode x) (VectorNode.All P) := by
  cases x with
  | leaf v => exact ensures_fault
  | node data =>
      refine ensures_ok fun y hy v hv => h v ?_
      rw [Radix.Tree.toList_node]
      exact List.mem_flatMap.mpr ⟨y, hy, hv⟩

theorem dataAt_mem {arr : VectorNode} {i : Nat} {x : Slot} (h : dataAt arr i = .ok x) : x ∈ arr :=
  List.mem_of_getElem? (ofOption_eq_ok.mp h)

theorem dataLast_mem {arr : VectorNode} {x : Slot} (h : dataLast arr = .ok x) : x ∈ arr :=
  List.mem_of_getLast? (ofOption_eq_ok.mp h)

theorem descend_all : ∀ (level : Nat) {arr : VectorNode} (i : Nat), VectorNode.All P arr →
    Ensures (descend level arr i) (VectorNode.All P)
  | 0, _, _, h => ensures_ok h
  | level + 1, _, i, h => .bind fun x hx => .bind fun child hc =>
      descend_all level i (slotNode_all (h x (dataAt_mem hx)) child hc)

theorem vectorIndex_all {v : Vec} (h : v.All P) (i : Int) : Ensures (vectorIndex v i) P := by
  unfold vectorIndex
  split
  · split
    · exact .bind fun x hx => slotValue_all (h.tail x (dataAt_mem hx))
    · exact .bind fun arr harr => .bind fun x hx =>
        slotValue_all (descend_all _ _ h.root arr harr x (dataAt_mem hx))
  · exact ensures_raise

/-- What `push_tail` hands back: two lists of slots, the second in an option. -/
def ExpansionAll (P : Value → Prop) (r : VectorNode × Option VectorNode) : Prop :=
  VectorNode.All P r.1 ∧ ∀ e, r.2 = some e → VectorNode.All P e

theorem doExpansion_all {arr newChild : VectorNode} (h : VectorNode.All P arr)
    (hnew : VectorNode.All P newChild) : ExpansionAll P (doExpansion arr newChild) := by
  have hnode := vectorNode_all_node hnew
  unfold doExpansion
  split
  · refine ⟨h, ?_⟩
    rintro _ ⟨⟩
    exact vectorNode_all_append vectorNode_all_nil hnode
  · exact ⟨(vectorNode_all_append h hnode).sub fun x hx => List.mem_of_mem_take hx, nofun⟩

theorem pushTail_all {tailNode : VectorNode} (htail : VectorNode.All P tailNode) :
    ∀ (level : Nat) {arr : VectorNode}, VectorNode.All P arr →
      Ensures (pushTail level arr tailNode) (ExpansionAll P)
  | 0, _, h => ensures_ok (doExpansion_all h htail)
  | level + 1, arr, h => by
      refine .bind fun x hx => .bind fun child hc => .bind fun r hr => ?_
      have hchild := slotNode_all (h x (dataLast_mem hx)) child hc
      obtain ⟨hnew, hexp⟩ := pushTail_all htail level hchild r hr
      obtain ⟨newChild, expansion⟩ := r
      cases expansion with
      | none => exact ensures_ok ⟨h.set _ (vectorNode_all_node hnew), nofun⟩
      | some e => exact ensures_ok (doExpansion_all h (hexp e rfl))

theorem vectorPush_all {vec : Vec} (h : vec.All P) {val : Value} (hval : P val) :
    Ensures (vectorPush vec val) (Vec.All P) := by
  have hleaf := vectorNode_all_leaf hval
  refine .bind fun cnt _ => ?_
  dsimp only
  split
  · exact ensures_ok ⟨h.root,
      (vectorNode_all_append h.tail hleaf).sub fun x hx => List.mem_of_mem_take hx⟩
  · refine .bind fun r hr => ?_
    obtain ⟨hnew, hexp⟩ := pushTail_all h.tail _ h.root r hr
    obtain ⟨newRoot, expansion⟩ := r
    have htail := vectorNode_all_append vectorNode_all_nil hleaf
    cases expansion with
    | none => exact ensures_ok ⟨hnew, htail⟩
    | some e =>
        refine ensures_ok ⟨?_, htail⟩
        exact vectorNode_all_append (vectorNode_all_append vectorNode_all_nil
          (vectorNode_all_node hnew)) (vectorNode_all_node (hexp e rfl))

theorem vectorCreateEmpty_all : vectorCreateEmpty.All P :=
  ⟨vectorNode_all_nil, vectorNode_all_nil⟩

/-! ## Maps -/

theorem node_allIn_iff {nodes : List Node} : Node.AllIn P nodes ↔ ∀ n ∈ nodes, n.All P := by
  induction nodes with
  | nil => simp [Node.AllIn]
  | cons n nodes ih => simp [Node.AllIn, ih]

mutual

theorem nodeFind_all : ∀ (n : Node) (hash : BitVec 32) (key : Value), n.All P →
    Ensures (nodeFind n hash key) fun r => ∀ v, r = some v → P v
  | .empty, _, _, _ => by
      rw [nodeFind]
      exact ensures_ok nofun
  | .leaf lh lk lv, hash, key, h => by
      rw [nodeFind]
      refine ensures_ok ?_
      split
      · rintro _ ⟨⟩
        rw [Node.All] at h
        exact h
      · exact nofun
  | .collision nh leaves, hash, key, h => by
      rw [nodeFind]
      rw [Node.All, node_allIn_iff] at h
      refine .bind fun i _ => ?_
      cases i with
      | none => exact ensures_ok nofun
      | some i =>
          dsimp only
          split
          · rename_i lh lk lv hleaf
            have hall := h _ (List.mem_of_getElem? hleaf)
            rw [Node.All] at hall
            refine ensures_ok ?_
            rintro _ ⟨⟩
            exact hall
          · exact ensures_fault
  | .idx bitmap shift nh nodes, hash, key, h => by
      rw [nodeFind]
      rw [Node.All] at h
      refine .bind fun _ _ => ?_
      dsimp only
      split
      · exact nodeFindAt_all nodes _ hash key h
      · exact ensures_ok nofun
  | .full shift nh nodes, hash, key, h => by
      rw [nodeFind]
      rw [Node.All] at h
      exact .bind fun _ _ => nodeFindAt_all nodes _ hash key h

theorem nodeFindAt_all : ∀ (nodes : List Node) (i : Nat) (hash : BitVec 32) (key : Value),
    Node.AllIn P nodes → Ensures (nodeFindAt nodes i hash key) fun r => ∀ v, r = some v → P v
  | [], _, _, _, _ => by
      rw [nodeFindAt]
      exact ensures_fault
  | n :: _, 0, hash, key, h => by
      rw [nodeFindAt]
      rw [Node.AllIn] at h
      exact nodeFind_all n hash key h.1
  | _ :: rest, i + 1, hash, key, h => by
      rw [nodeFindAt]
      rw [Node.AllIn] at h
      exact nodeFindAt_all rest i hash key h.2

end

/-- What a map answers, the `SU_INV` of a key it does not have apart. -/
theorem mapGet_all {m : HMap} (h : m.root.All P) (key : Value) (hash : BitVec 32) :
    Ensures (mapGet m key hash) fun v => v.type = .inv ∨ P v := by
  refine .bind fun r hr => ?_
  cases r with
  | none => exact ensures_ok (Or.inl rfl)
  | some v => exact ensures_ok (Or.inr (nodeFind_all m.root hash key h _ hr v rfl))

theorem Node.AllIn.set {nodes : List Node} (h : Node.AllIn P nodes) (i : Nat) {n : Node}
    (hn : n.All P) : Node.AllIn P (nodes.set i n) := by
  rw [node_allIn_iff] at h ⊢
  intro x hx
  rcases List.mem_or_eq_of_mem_set hx with hx | rfl
  · exact h x hx
  · exact hn

/-- An inner node made of children that have it. -/
theorem createIdxNode_all {nodes : List Node} (h : Node.AllIn P nodes) (bitmap : BitVec 32)
    (shift : Nat) : Ensures (createIdxNode bitmap nodes shift) (Node.All P) := by
  refine .bind fun _ _ => ensures_ok ?_
  rw [Node.All]
  exact h

theorem createFullNode_all {nodes : List Node} (h : Node.AllIn P nodes) (shift : Nat) :
    Ensures (createFullNode nodes shift) (Node.All P) := by
  refine .bind fun _ _ => ensures_ok ?_
  rw [Node.All]
  exact h

theorem createIdxNode2_all {nodes : List Node} (h : Node.AllIn P nodes) (bitmap : BitVec 32)
    (shift : Nat) : Ensures (createIdxNode2 bitmap nodes shift) (Node.All P) := by
  unfold createIdxNode2
  split
  · exact createFullNode_all h shift
  · exact createIdxNode_all h bitmap shift

/-- A `set` that keeps the property, the value set having it. -/
def SetFn.Keeps (P : Value → Prop) (set : SetFn) : Prop :=
  ∀ n shift, n.All P → Ensures (set n shift) fun r => (r.1.get n).All P

section Set

variable {set : SetFn} (hset : set.Keeps P) {hash : BitVec 32} {key val : Value} (hval : P val)
  {nodes : List Node} {shift : Nat}

include hset

theorem fullNodeSet_all (s : Nat) (nh : BitVec 32) (h : Node.AllIn P nodes) :
    Ensures (fullNodeSet set hash nodes shift) fun r =>
      (r.1.get (.full s nh nodes)).All P := by
  refine .bind fun _ _ => .bind fun c hc => .bind fun r hr => ?_
  have hcall := hset c _ (node_allIn_iff.mp h c (List.mem_of_getElem? (ofOption_eq_ok.mp hc))) r hr
  obtain ⟨ans, added⟩ := r
  cases ans with
  | same =>
      refine ensures_ok ?_
      rw [SetTo.get, Node.All]
      exact h
  | other c' => exact .bind fun n hn => ensures_ok (createFullNode_all (h.set _ hcall) shift n hn)

include hval

theorem idxNodeSet_all {bitmap : BitVec 32} (s : Nat) (nh : BitVec 32) (h : Node.AllIn P nodes) :
    Ensures (idxNodeSet set hash key val bitmap nodes shift) fun r =>
      (r.1.get (.idx bitmap s nh nodes)).All P := by
  refine .bind fun _ _ => ?_
  dsimp only
  split
  · refine .bind fun c hc => .bind fun r hr => ?_
    have hcall := hset c _
      (node_allIn_iff.mp h c (List.mem_of_getElem? (ofOption_eq_ok.mp hc))) r hr
    obtain ⟨ans, added⟩ := r
    cases ans with
    | same =>
        refine ensures_ok ?_
        rw [SetTo.get, Node.All]
        exact h
    | other c' =>
        exact .bind fun n hn => ensures_ok (createIdxNode_all (h.set _ hcall) bitmap shift n hn)
  · refine .bind fun n hn => ensures_ok (createIdxNode2_all ?_ _ shift n hn)
    rw [node_allIn_iff] at h ⊢
    intro x hx
    rcases List.mem_append.mp (List.mem_of_mem_take hx) with hx | hx
    · exact h x (List.mem_of_mem_take hx)
    · rcases List.mem_cons.mp hx with rfl | hx
      · rw [Node.All]
        exact hval
      · exact h x (List.mem_of_mem_drop hx)

omit hval in
theorem createIdxNode3_all {branch n₀ : Node} (h : branch.All P) :
    Ensures (createIdxNode3 set shift branch) fun r => (r.1.get n₀).All P := by
  refine .bind fun _ _ => .bind fun n hn => .bind fun r hr => ensures_ok ?_
  refine hset n shift (createIdxNode_all ?_ _ shift n hn) r hr
  exact node_allIn_iff.mpr fun x hx => List.mem_singleton.mp hx ▸ h

theorem leafNodeSet_all {lh : BitVec 32} {lk lv : Value} (h : P lv) :
    Ensures (leafNodeSet set hash key val lh lk lv shift) fun r =>
      (r.1.get (.leaf lh lk lv)).All P := by
  have hold : Node.All P (.leaf lh lk lv) := by
    rw [Node.All]
    exact h
  have hnew : Node.All P (.leaf hash key val) := by
    rw [Node.All]
    exact hval
  unfold leafNodeSet
  split
  · split
    · split
      · exact ensures_ok hold
      · exact ensures_ok hnew
    · refine ensures_ok ?_
      rw [SetTo.get, Node.All, node_allIn_iff]
      intro x hx
      rcases List.mem_cons.mp hx with rfl | hx
      · exact hold
      · exact List.mem_singleton.mp hx ▸ hnew
  · exact createIdxNode3_all hset hold

theorem collisionNodeSet_all {nhash : BitVec 32} {leaves : List Node} (h : Node.AllIn P leaves) :
    Ensures (collisionNodeSet set hash key val nhash leaves shift) fun r =>
      (r.1.get (.collision nhash leaves)).All P := by
  have hnew : Node.All P (.leaf hash key val) := by
    rw [Node.All]
    exact hval
  unfold collisionNodeSet
  split
  · refine .bind fun i _ => ?_
    cases i with
    | some i =>
        refine ensures_ok ?_
        rw [SetTo.get, Node.All]
        exact h.set i hnew
    | none =>
        refine ensures_ok ?_
        rw [SetTo.get, Node.All, node_allIn_iff]
        rw [node_allIn_iff] at h
        intro x hx
        rcases List.mem_append.mp (List.mem_of_mem_take hx) with hx | hx
        · exact h x hx
        · exact List.mem_singleton.mp hx ▸ hnew
  · refine createIdxNode3_all hset ?_
    rw [Node.All]
    exact h

end Set

/-- The recursion of `vt->set`, by the bound on its depth. -/
theorem nodeSet_all {hash : BitVec 32} {key val : Value} (hval : P val) :
    ∀ depth, SetFn.Keeps P (nodeSet depth hash key val)
  | 0 => fun n shift _ => ensures_fault
  | depth + 1 => fun n shift h => by
      have hset : SetFn.Keeps P (nodeSet depth hash key val) := nodeSet_all hval depth
      cases n with
      | empty =>
          refine ensures_ok ?_
          rw [SetTo.get, Node.All]
          exact hval
      | leaf lh lk lv =>
          rw [Node.All] at h
          exact leafNodeSet_all hset hval h
      | collision nh leaves =>
          rw [Node.All] at h
          exact collisionNodeSet_all hset hval h
      | idx bitmap s nh nodes =>
          rw [Node.All] at h
          exact idxNodeSet_all hset hval s nh h
      | full s nh nodes =>
          rw [Node.All] at h
          exact fullNodeSet_all hset s nh h

theorem mapInsert?_all {m : HMap} (h : m.root.All P) (key : Value) (hash : BitVec 32)
    {val : Value} (hval : P val) :
    Ensures (mapInsert? m key hash val) fun r => ∀ m', r = some m' → m'.root.All P := by
  refine .bind fun r hr => ?_
  have hall := nodeSet_all hval setDepth m.root 0 h r hr
  obtain ⟨ans, added⟩ := r
  cases ans with
  | same => exact ensures_ok nofun
  | other root =>
      dsimp only
      split
      · refine .bind fun cnt _ => ensures_ok ?_
        rintro _ ⟨⟩
        exact hall
      · refine ensures_ok ?_
        rintro _ ⟨⟩
        exact hall

/-! ## Worlds -/

variable {w : World}

theorem World.All.object (h : w.All P) (a : ObjAddr) : Ensures (w.object a) (Obj.All P) := by
  unfold World.object
  split
  · exact ensures_fault
  · intro o ho
    exact h o (List.mem_of_getElem? (ofOption_eq_ok.mp ho))

theorem World.All.alloc (h : w.All P) {o : Obj} (ho : o.All P) :
    Ensures (w.alloc o) fun r => r.1.All P := by
  unfold World.alloc
  split
  · refine ensures_ok fun x hx => ?_
    rcases List.mem_append.mp hx with hx | hx
    · exact h x hx
    · exact List.mem_singleton.mp hx ▸ ho
  · exact ensures_raise

theorem stringFromDb_all (h : w.All P) (hash : BitVec 32) (str : List Byte) :
    Ensures (stringFromDb w hash str) fun r => r.1.All P := by
  refine .bind fun v _ => ?_
  split
  · exact ensures_ok h
  · refine .bind fun r hr => .bind fun strings _ => ensures_ok ?_
    exact h.alloc (o := .string hash str) trivial r hr

theorem internString_all (h : w.All P) (str : List Byte) :
    Ensures (internString w str) fun r => r.1.All P ∧ r.2.type = .string :=
  .bind fun r hr => ensures_ok ⟨stringFromDb_all h _ str r hr, rfl⟩

theorem globalsMap_all (h : w.All P) : Ensures (globalsMap w) fun m => m.root.All P := by
  refine .bind fun o ho => ?_
  have hall := h.object _ o ho
  cases o with
  | map m => exact ensures_ok hall
  | _ => exact ensures_fault

theorem insertGlobal_all (h : w.All P) (key : Value) (hash : BitVec 32) {val : Value}
    (hval : P val) : Ensures (insertGlobal w key hash val) (World.All P) := by
  refine .bind fun m hm => .bind fun m' hm' => ?_
  cases m' with
  | none => exact ensures_ok h
  | some m' =>
      have hmap := mapInsert?_all (globalsMap_all h m hm) key hash hval _ hm' m' rfl
      exact .bind fun r hr => ensures_ok (h.alloc (o := .map m') hmap r hr)

/-- The property says nothing about values that point to objects. -/
def Lax (P : Value → Prop) : Prop := ∀ v : Value, v.type ≠ .nil → v.type ≠ .boolean → P v

theorem updateGlobalRef_all (hP : Lax P) (h : w.All P) :
    Ensures (updateGlobalRef w) (World.All P) := by
  refine .bind fun r hr => .bind fun l hl => ?_
  have hw := (internString_all h _ r hr).1
  have hl := hw.alloc (o := .loc (objValue .map r.1.globals)) (hP _ nofun nofun) l hl
  exact .bind fun _ _ => insertGlobal_all hl _ _ (hP _ nofun nofun)

theorem pushAll_all (hP : Lax P) : ∀ (args : List Value) {w : World} {vec : Vec} (a : ObjAddr),
    w.All P → vec.All P → (∀ v ∈ args, P v) →
      Ensures (pushAll w a vec args) fun r => r.1.All P
  | [], _, _, _, h, _, _ => ensures_ok h
  | v :: vs, _, _, _, h, hvec, hargs => by
      refine .bind fun vec' hpush => .bind fun r hr => ?_
      have hvec' := vectorPush_all hvec (hargs v (List.mem_cons_self ..)) vec' hpush
      have hw := h.alloc (o := .vector vec') hvec' r hr
      exact pushAll_all hP vs r.2 hw hvec' fun u hu => hargs u (List.mem_cons_of_mem _ hu)

theorem collectVarg_all (hP : Lax P) (h : w.All P) {args : List Value}
    (hargs : ∀ v ∈ args, P v) :
    Ensures (collectVarg w args) fun r => r.1.All P ∧ P r.2 := by
  refine .bind fun r hr => .bind fun l hl => ensures_ok ⟨?_, hP _ nofun nofun⟩
  have hw := h.alloc (o := .vector vectorCreateEmpty) vectorCreateEmpty_all r hr
  exact pushAll_all hP args r.2 hw vectorCreateEmpty_all hargs l hl

end Saurus
