import Saurus.Basis.RadixTree
import Saurus.Value

/-!
# The vector of the VM

A persistent vector: the last elements in a tail of at most 32, all others
in a trie of 32-way nodes indexed by five bits of the position a level.

A slot of a `vector_node_t` holds a value or a child node; which of the two
is known from the level alone, so reading one as the other is a fault, as
is every access past `len`. `shift` counts bits, as in the source; the
recursions count steps of five bits, since `shift` starts at 5 and changes
by 5 only.
-/

namespace Saurus

open Basis

/-- What `data[i]` of a `vector_node_t` holds. -/
abbrev Slot : Type := Radix.Tree Value

/-- `vector_node_t`: its slots, `len` of them. -/
abbrev VectorNode : Type := List Slot

/-- `vector_t` -/
structure Vec where
  cnt : Int
  shift : Nat
  root : VectorNode
  tail : VectorNode
deriving Repr

/-! ## Slots -/

/-- A slot read as a value. -/
def slotValue : Slot → Outcome Value
  | .leaf v => pure v
  | .node _ => .fault

/-- `slot.obj.vec_node` -/
def slotNode : Slot → Outcome VectorNode
  | .leaf _ => .fault
  | .node data => pure data

/-- `arr->data[i]` -/
def dataAt (arr : VectorNode) (i : Nat) : Outcome Slot := Outcome.ofOption arr[i]?

/-- `arr->data[arr->len - 1]` -/
def dataLast (arr : VectorNode) : Outcome Slot := Outcome.ofOption arr.getLast?

/-- `(i >> level) & 0x01f`, `level` in steps of five bits. -/
def subIdx (i level : Nat) : Nat := (i >>> (5 * level)) &&& 0x1f

/-! ## Access -/

def vectorLength (v : Vec) : Int := v.cnt

/-- `tailoff(v)` -/
def tailoff (v : Vec) : Int := v.cnt - v.tail.length

/-- The loop of `vector_index`, from `level` down to the node whose slots
are elements. -/
def descend : Nat → VectorNode → Nat → Outcome VectorNode
  | 0, arr, _ => pure arr
  | level + 1, arr, i => do
      let child ← slotNode (← dataAt arr (subIdx i (level + 1)))
      descend level child i

def vectorIndex (v : Vec) (i : Int) : Outcome Value :=
  if 0 ≤ i ∧ i < v.cnt then
    if tailoff v ≤ i then do slotValue (← dataAt v.tail (subIdx i.toNat 0))
    else do
      let arr ← descend (v.shift / 5) v.root i.toNat
      slotValue (← dataAt arr (subIdx i.toNat 0))
  else .raise s!"Index is out of bounds: {i}"

/-! ## Push -/

def vectorCreateEmpty : Vec := ⟨0, 5, [], []⟩

/-- The end of `push_tail`: hang `newChild` into `arr`, or into a node of
its own when `arr` has no free slot. -/
def doExpansion (arr newChild : VectorNode) : VectorNode × Option VectorNode :=
  if arr.length = 32 then (arr, some [.node newChild])
  else (nodeCreateOnly (arr ++ [.node newChild]), none)

/-- `push_tail`: the node returned and `*expansion`. -/
def pushTail : Nat → VectorNode → VectorNode → Outcome (VectorNode × Option VectorNode)
  | 0, arr, tailNode => pure (doExpansion arr tailNode)
  | level + 1, arr, tailNode => do
      let child ← slotNode (← dataLast arr)
      let (newChild, expansion) ← pushTail level child tailNode
      match expansion with
      | none => pure (arr.set (arr.length - 1) (.node newChild), none)
      | some newChild => pure (doExpansion arr newChild)

def vectorPush (vec : Vec) (val : Value) : Outcome Vec := do
  let cnt ← cntAdd vec.cnt 1
  if vec.tail.length < 32 then
    pure ⟨cnt, vec.shift, vec.root, nodeCreateOnly (vec.tail ++ [.leaf val])⟩
  else do
    let (newRoot, expansion) ← pushTail (vec.shift / 5 - 1) vec.root vec.tail
    match expansion with
    | some e => pure ⟨cnt, vec.shift + 5, [.node newRoot, .node e], [.leaf val]⟩
    | none => pure ⟨cnt, vec.shift, newRoot, [.leaf val]⟩

/-! ## Update -/

/-- `arr->data[i] = x` -/
def dataSet (arr : VectorNode) (i : Nat) (x : Slot) : Outcome VectorNode := do
  Outcome.require (decide (i < arr.length))
  pure (arr.set i x)

/-- `insert` -/
def vectorInsert : Nat → VectorNode → Nat → Value → Outcome VectorNode
  | 0, arr, i, val => dataSet arr (subIdx i 0) (.leaf val)
  | level + 1, arr, i, val => do
      let child ← slotNode (← dataAt arr (subIdx i (level + 1)))
      let newChild ← vectorInsert level child i val
      dataSet arr (subIdx i (level + 1)) (.node newChild)

def vectorSet (vec : Vec) (i : Int) (val : Value) : Outcome Vec :=
  if 0 ≤ i ∧ i < vec.cnt then
    if tailoff vec ≤ i then do
      let newTail ← dataSet vec.tail (subIdx i.toNat 0) (.leaf val)
      pure ⟨vec.cnt, vec.shift, vec.root, newTail⟩
    else do
      let newRoot ← vectorInsert (vec.shift / 5) vec.root i.toNat val
      pure ⟨vec.cnt, vec.shift, newRoot, vec.tail⟩
  else .raise s!"Index is out of bounds: {i}"

/-! ## Pop -/

/-- The end of `pop_tail`: `arr` without its last slot, `none` for `NULL`. -/
def contraction (arr : VectorNode) : Option VectorNode :=
  if arr.length = 1 then none else some (nodeCreateOnly arr.dropLast)

/-- `pop_tail`: the node returned and `*ptail`. -/
def popTail : Nat → VectorNode → Outcome (Option VectorNode × VectorNode)
  | 0, arr => do
      let ptail ← slotNode (← dataLast arr)
      pure (contraction arr, ptail)
  | shift + 1, arr => do
      let child ← slotNode (← dataLast arr)
      let (newChild, ptail) ← popTail shift child
      match newChild with
      | some c => pure (some (arr.set (arr.length - 1) (.node c)), ptail)
      | none => pure (contraction arr, ptail)

def vectorPop (vec : Vec) : Outcome Vec :=
  if vec.cnt = 0 then .raise "Can't pop empty vector!"
  else if vec.cnt = 1 then pure vectorCreateEmpty
  else if vec.tail.length > 1 then
    pure ⟨vec.cnt - 1, vec.shift, vec.root, nodeCreateOnly vec.tail.dropLast⟩
  else do
    let (newRoot?, ptail) ← popTail (vec.shift / 5 - 1) vec.root
    let newRoot := newRoot?.getD []
    if vec.shift > 5 ∧ newRoot.length = 1 then do
      let child ← slotNode (← dataAt newRoot 0)
      pure ⟨vec.cnt - 1, vec.shift - 5, child, ptail⟩
    else pure ⟨vec.cnt - 1, vec.shift, newRoot, ptail⟩

end Saurus
