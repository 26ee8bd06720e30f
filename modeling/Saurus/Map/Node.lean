import Saurus.Value

/-!
# The hash map of the VM

A persistent hash array mapped trie with five kinds of node. Every node
operation is a function of its own here, as it is in the virtual tables of
the source; `nodeSet`, `nodeWithout` and `nodeFind` are the dispatch
`n->vt->...`.

Two things the source does with pointers are kept as data. "Nothing
changed" is a comparison of the returned pointer with the argument, so
`set` and `without` say whether they returned `n` itself. Node arrays carry
an `unsigned char` length, so `nodeCreateOnly` keeps only the slots that
length still covers.
-/

namespace Saurus

open Basis

/-- `node_t` and its four extensions. Child arrays are the first `len`
slots of the `vector_node_t` the node points to. -/
inductive Node where
  | empty
  | leaf (hash : BitVec 32) (key val : Value)
  | collision (hash : BitVec 32) (leaves : List Node)
  | idx (bitmap : BitVec 32) (shift : Nat) (hash : BitVec 32) (nodes : List Node)
  | full (shift : Nat) (hash : BitVec 32) (nodes : List Node)
deriving Repr

/-! ## Hash fragments -/

/-- `MASK(h, s)`: the shift of the `int` hash is arithmetic. -/
def mask (h : BitVec 32) (s : Nat) : Nat := (h.sshiftRight s &&& 0x1f#32).toNat

/-- `BITPOS(h, s)`; bit 31 is the sign bit of the `int`. `1 << 31` is a signed
overflow, which has no meaning in C; it is taken to wrap, as compilers make it. -/
def bitpos (h : BitVec 32) (s : Nat) : BitVec 32 := BitVec.twoPow 32 (mask h s)

def bitCount (x : BitVec 32) : Nat := x.cpop.toNat

/-- `idx_node_index`; for slot 31 `bit - 1` is a signed overflow, and is taken
to wrap as well. -/
def idxNodeIndex (bitmap bit : BitVec 32) : Nat := bitCount (bitmap &&& (bit - 1#32))

/-- A shift by 32 or more has no meaning in C. -/
def shiftDefined (s : Nat) : Outcome Unit := Outcome.require (decide (s < 32))

/-! ## Constructors -/

/-- `vt->get_hash` -/
def getHash : Node → BitVec 32
  | .empty => 0#32
  | .leaf h _ _ => h
  | .collision h _ => h
  | .idx _ _ h _ => h
  | .full _ h _ => h

def createFullNode (nodes : List Node) (shift : Nat) : Outcome Node := do
  let tmp ← Outcome.ofOption nodes[0]?
  pure (.full shift (getHash tmp) nodes)

def createIdxNode (bitmap : BitVec 32) (nodes : List Node) (shift : Nat) : Outcome Node := do
  let tmp ← Outcome.ofOption nodes[0]?
  pure (.idx bitmap shift (getHash tmp) nodes)

def createIdxNode2 (bitmap : BitVec 32) (nodes : List Node) (shift : Nat) : Outcome Node :=
  if bitmap = -1#32 then createFullNode nodes shift
  else createIdxNode bitmap nodes shift

/-! ## Finding -/

mutual

/-- `vt->find`: the value of the leaf found. -/
def nodeFind : Node → BitVec 32 → Value → Outcome (Option Value)
  | .empty, _, _ => pure none
  | .leaf lh lk lv, hash, key =>
      pure (if hash = lh ∧ valueEq key lk = true then some lv else none)
  | .collision _ leaves, hash, key => do
      match ← collisionNodeFindIndex leaves hash key with
      | none => pure none
      | some i =>
          match leaves[i]? with
          | some (.leaf _ _ lv) => pure (some lv)
          | _ => .fault
  | .idx bitmap shift _ nodes, hash, key => do
      shiftDefined shift
      let bit := bitpos hash shift
      if bitmap &&& bit ≠ 0#32 then
        nodeFindAt nodes (idxNodeIndex bitmap bit) hash key
      else pure none
  | .full shift _ nodes, hash, key => do
      shiftDefined shift
      nodeFindAt nodes (mask hash shift) hash key

/-- `collision_node_find_index` -/
def collisionNodeFindIndex : List Node → BitVec 32 → Value → Outcome (Option Nat)
  | [], _, _ => pure none
  | tmp :: rest, hash, key => do
      match ← nodeFind tmp hash key with
      | some _ => pure (some 0)
      | none =>
          let i ← collisionNodeFindIndex rest hash key
          pure (i.map (· + 1))

/-- `tmp = nodes->data[i]; tmp->vt->find(...)` -/
def nodeFindAt : List Node → Nat → BitVec 32 → Value → Outcome (Option Value)
  | [], _, _, _ => .fault
  | tmp :: _, 0, hash, key => nodeFind tmp hash key
  | _ :: rest, i + 1, hash, key => nodeFindAt rest i hash key

end

/-! ## Setting -/

/-- The node a `set` returns, as its caller compares it with `n`. -/
inductive SetTo where
  | same
  | other (n : Node)
deriving Repr

def SetTo.get (n : Node) : SetTo → Node
  | .same => n
  | .other n' => n'

/-- A `set` with `hash`, `key` and `val` fixed: the returned node, and
whether `*added_leaf` was written. -/
abbrev SetFn := Node → Nat → Outcome (SetTo × Bool)

def fullNodeSet (set : SetFn) (hash : BitVec 32) (nodes : List Node) (shift : Nat) :
    Outcome (SetTo × Bool) := do
  shiftDefined shift
  let idx := mask hash shift
  let tmp ← Outcome.ofOption nodes[idx]?
  match ← set tmp (shift + 5) with
  | (.same, added) => pure (.same, added)
  | (.other tmp', added) =>
      let n ← createFullNode (nodes.set idx tmp') shift
      pure (.other n, added)

def idxNodeSet (set : SetFn) (hash : BitVec 32) (key val : Value)
    (bitmap : BitVec 32) (nodes : List Node) (shift : Nat) :
    Outcome (SetTo × Bool) := do
  shiftDefined shift
  let bit := bitpos hash shift
  let idx := idxNodeIndex bitmap bit
  if bitmap &&& bit ≠ 0#32 then
    let tmp ← Outcome.ofOption nodes[idx]?
    match ← set tmp (shift + 5) with
    | (.same, added) => pure (.same, added)
    | (.other tmp', added) =>
        let n ← createIdxNode bitmap (nodes.set idx tmp') shift
        pure (.other n, added)
  else
    let newNodes := nodeCreateOnly
      (nodes.take idx ++ .leaf hash key val :: nodes.drop idx)
    let n ← createIdxNode2 (bitmap ||| bit) newNodes shift
    pure (.other n, true)

/-- `create_idx_node3`: an index node over `branch` alone, then `set` on it.
The result is never the caller's node, which is `branch`. -/
def createIdxNode3 (set : SetFn) (shift : Nat) (branch : Node) :
    Outcome (SetTo × Bool) := do
  shiftDefined shift
  let n ← createIdxNode (bitpos (getHash branch) shift) [branch] shift
  let (r, added) ← set n shift
  pure (.other (r.get n), added)

def collisionNodeSet (set : SetFn) (hash : BitVec 32) (key val : Value)
    (nhash : BitVec 32) (leaves : List Node) (shift : Nat) :
    Outcome (SetTo × Bool) := do
  if hash = nhash then
    match ← collisionNodeFindIndex leaves hash key with
    | some idx =>
        -- The source first asks `value_eq(&leaves->data[idx], val)`: the slot
        -- holds a node, whose tag no value carries, so the answer is no.
        pure (.other (.collision hash (leaves.set idx (.leaf hash key val))), false)
    | none =>
        let newLeaves := nodeCreateOnly (leaves ++ [.leaf hash key val])
        pure (.other (.collision hash newLeaves), true)
  else createIdxNode3 set shift (.collision nhash leaves)

def leafNodeSet (set : SetFn) (hash : BitVec 32) (key val : Value)
    (lh : BitVec 32) (lk lv : Value) (shift : Nat) : Outcome (SetTo × Bool) :=
  if hash = lh then
    if valueEq key lk = true then
      if valueEq val lv = true then pure (.same, false)
      else pure (.other (.leaf hash key val), false)
    else
      pure (.other (.collision hash [.leaf lh lk lv, .leaf hash key val]), true)
  else createIdxNode3 set shift (.leaf lh lk lv)

/-- `vt->set`. The bound is on the depth of the C recursion; running into
it is a fault, and no map ever does (`mapInsert_ok`). -/
def nodeSet : Nat → BitVec 32 → Value → Value → SetFn
  | 0, _, _, _, _, _ => .fault
  | depth + 1, hash, key, val, n, shift =>
      let set := nodeSet depth hash key val
      match n with
      | .empty => pure (.other (.leaf hash key val), true)
      | .leaf lh lk lv => leafNodeSet set hash key val lh lk lv shift
      | .collision nhash leaves => collisionNodeSet set hash key val nhash leaves shift
      | .idx bitmap _ _ nodes => idxNodeSet set hash key val bitmap nodes shift
      | .full _ _ nodes => fullNodeSet set hash nodes shift

/-! ## Removing -/

/-- The node a `without` returns: `n` itself, `NULL`, or another one. -/
inductive WithoutTo where
  | same
  | null
  | other (n : Node)
deriving Repr

def collisionNodeWithout (leaves : List Node) (hash : BitVec 32) (key : Value) :
    Outcome WithoutTo := do
  match ← collisionNodeFindIndex leaves hash key with
  | none => pure .same
  | some idx =>
      if leaves.length = 2 then
        let n ← Outcome.ofOption (if idx = 0 then leaves[1]? else leaves[0]?)
        pure (.other n)
      else
        let newLeaves := nodeCreateOnly (leaves.take idx ++ leaves.drop (idx + 1))
        pure (.other (.collision hash newLeaves))

/-- What `full_node_without` makes of the answer of its child. -/
def fullNodeWithout (nodes : List Node) (shift : Nat) (hash : BitVec 32)
    (child : WithoutTo) : Outcome WithoutTo := do
  let idx := mask hash shift
  match child with
  | .same => pure .same
  | .null =>
      let newNodes := nodeCreateOnly (nodes.take idx ++ nodes.drop (idx + 1))
      let n ← createIdxNode (~~~ bitpos hash shift) newNodes shift
      pure (.other n)
  | .other tmp =>
      let n ← createFullNode (nodes.set idx tmp) shift
      pure (.other n)

/-- What `idx_node_without` makes of the answer of its child. -/
def idxNodeWithout (bitmap : BitVec 32) (nodes : List Node) (shift : Nat)
    (hash : BitVec 32) (child : WithoutTo) : Outcome WithoutTo := do
  let bit := bitpos hash shift
  let idx := idxNodeIndex bitmap bit
  match child with
  | .same => pure .same
  | .null =>
      if bitmap = bit then pure .null
      else
        let newNodes := nodeCreateOnly (nodes.take idx ++ nodes.drop (idx + 1))
        let n ← createIdxNode (bitmap &&& ~~~ bit) newNodes shift
        pure (.other n)
  | .other tmp =>
      let n ← createIdxNode bitmap (nodes.set idx tmp) shift
      pure (.other n)

mutual

/-- `vt->without` -/
def nodeWithout : Node → BitVec 32 → Value → Outcome WithoutTo
  | .empty, _, _ => pure .same
  | .leaf lh lk _, hash, key =>
      pure (if hash = lh ∧ valueEq key lk = true then .null else .same)
  | .collision _ leaves, hash, key => collisionNodeWithout leaves hash key
  | .idx bitmap shift _ nodes, hash, key => do
      shiftDefined shift
      let bit := bitpos hash shift
      if bitmap &&& bit ≠ 0#32 then
        let child ← nodeWithoutAt nodes (idxNodeIndex bitmap bit) hash key
        idxNodeWithout bitmap nodes shift hash child
      else pure .same
  | .full shift _ nodes, hash, key => do
      shiftDefined shift
      let child ← nodeWithoutAt nodes (mask hash shift) hash key
      fullNodeWithout nodes shift hash child

/-- `tmp = nodes->data[i]; tmp->vt->without(...)` -/
def nodeWithoutAt : List Node → Nat → BitVec 32 → Value → Outcome WithoutTo
  | [], _, _, _ => .fault
  | tmp :: _, 0, hash, key => nodeWithout tmp hash key
  | _ :: rest, i + 1, hash, key => nodeWithoutAt rest i hash key

end

/-! ## Maps -/

/-- `map_t` -/
structure HMap where
  cnt : Int
  root : Node
deriving Repr

/-- Bound on the depth of `vt->set`: two calls a level, seven levels. -/
def setDepth : Nat := 16

def mapCreateEmpty : HMap := ⟨0, .empty⟩

/-- `map_get`; the payload of an `SU_INV` answer is never read. -/
def mapGet (m : HMap) (key : Value) (hash : BitVec 32) : Outcome Value := do
  match ← nodeFind m.root hash key with
  | none => pure ⟨.inv, 0#64⟩
  | some v => pure v

/-- `map_insert`, with `none` for "the map passed in". -/
def mapInsert? (m : HMap) (key : Value) (hash : BitVec 32) (val : Value) :
    Outcome (Option HMap) := do
  match ← nodeSet setDepth hash key val m.root 0 with
  | (.same, _) => pure none
  | (.other root, added) =>
      let cnt ← if added then cntAdd m.cnt 1 else pure m.cnt
      pure (some ⟨cnt, root⟩)

/-- `map_remove`, with `none` for "the map passed in". -/
def mapRemove? (m : HMap) (key : Value) (hash : BitVec 32) : Outcome (Option HMap) := do
  match ← nodeWithout m.root hash key with
  | .same => pure none
  | .null => pure (some mapCreateEmpty)
  | .other root => pure (some ⟨m.cnt - 1, root⟩)

def mapInsert (m : HMap) (key : Value) (hash : BitVec 32) (val : Value) : Outcome HMap :=
  (·.getD m) <$> mapInsert? m key hash val

def mapRemove (m : HMap) (key : Value) (hash : BitVec 32) : Outcome HMap :=
  (·.getD m) <$> mapRemove? m key hash

def mapLength (m : HMap) : Int := m.cnt

end Saurus
