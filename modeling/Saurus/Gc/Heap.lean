import Saurus.Murmur
import Saurus.Value

/-!
# The heap as the collector sees it

Every collected object sits on the `gc_root` list with a flag and the
fields `scan` may follow; other contents of an object (bytes of a string,
counts, shifts, hashes) are of no concern to the collector and left out.
Addresses are numbers and `NULL` is 0.

Following a pointer to an address that is not on the list reads freed
memory, or memory that was never an object: a fault, like a write past the
end of the mark stack.
-/

namespace Saurus

open Basis

abbrev Addr : Type := Nat

/-- `obj->flags` -/
inductive GcFlag where
  | trans | white | gray | black
deriving Repr, DecidableEq

/-- A slot of a `vector_node_t`: a value, or a pointer to a node of a vector
or map under one of the internal tags. -/
inductive DataSlot where
  | value (v : Value)
  | node (ptr : Addr)
deriving Repr, DecidableEq

/-- The type of an object and the fields `scan` follows. A nested prototype
is part of its parent's memory and not an object of its own; its
`gc.type` is `SU_INV`, and a closure over it has `prot = none`. -/
inductive GcBody where
  | string
  | loc (v : Value)
  | vector (root tail : Addr)
  | vectorNode (data : List DataSlot)
  | function (prot : Option Addr) (constants upvalues : List Value)
  | prototype
  | map (root : Addr)
  | mapEmpty
  | mapLeaf (key val : Value)
  | mapCollision (leaves : Addr)
  | mapIdx (nodes : Addr)
  | mapFull (nodes : Addr)
  | cellSeq (first rest : Value)
  | itSeq (obj : Addr)
  | nativeData
deriving Repr, DecidableEq

/-- An object on the `gc_root` list. -/
structure GcObject where
  addr : Addr
  flag : GcFlag
  body : GcBody
deriving Repr, DecidableEq

/-- The part of `su_state` the collector works on. `stack` is
`stack[0..stack_top)`, the head of `objects` is `gc_root`, and the head of
`gray` is the top of the mark stack. -/
structure GcState where
  stack : List Value
  globals : Value
  strings : Value
  objects : List GcObject
  numObjects : Nat
  gray : List Addr
deriving Repr, DecidableEq

/-- `GC_GRAY_SIZE` -/
def graySize : Nat := 512

/-- `ALIVE_OBJECTS` -/
def aliveObjects : Nat := 100000

/-! ## Pointers of an object -/

/-- `get_gc_object` on a value; `none` is `NULL`. -/
def getGcObject (v : Value) : Option Addr :=
  match v.type with
  | .inv | .nil | .boolean | .number | .nativefunc | .nativeptr => none
  | _ => if v.obj = 0#64 then none else some v.obj.toNat

/-- `get_gc_object` on a slot of a node. -/
def getGcSlot : DataSlot → Option Addr
  | .value v => getGcObject v
  | .node ptr => if ptr = 0 then none else some ptr

/-- The objects `scan` adds for an object, in its order. -/
def children : GcBody → List Addr
  | .string | .prototype | .mapEmpty | .nativeData => []
  | .loc v => (getGcObject v).toList
  | .vector root tail => [root, tail]
  | .vectorNode data => data.filterMap getGcSlot
  | .function prot constants upvalues =>
      prot.toList ++ constants.filterMap getGcObject ++ upvalues.filterMap getGcObject
  | .map root => [root]
  | .mapLeaf key val => (getGcObject key).toList ++ (getGcObject val).toList
  | .mapCollision leaves => [leaves]
  | .mapIdx nodes => [nodes]
  | .mapFull nodes => [nodes]
  | .cellSeq first rest => (getGcObject first).toList ++ (getGcObject rest).toList
  | .itSeq obj => [obj]

/-! ## The object list -/

namespace GcState

/-- The object at an address. -/
def lookup (s : GcState) (a : Addr) : Option GcObject := s.objects.find? (·.addr == a)

/-- `obj->flags = f` -/
def setFlag (s : GcState) (a : Addr) (f : GcFlag) : GcState :=
  { s with objects := s.objects.map fun o => if o.addr = a then { o with flag := f } else o }

/-- The objects `begin` adds, in its order. -/
def roots (s : GcState) : List Addr :=
  s.stack.filterMap getGcObject
    ++ if s.globals.type = .nil then [] else [s.globals.obj.toNat, s.strings.obj.toNat]

/-- The objects the object at `a` points to. -/
def next (s : GcState) (a : Addr) : List Addr :=
  match s.lookup a with
  | none => []
  | some o => children o.body

end GcState

/-! ## The collector -/

/-- `add_to_gray` -/
def addToGray (s : GcState) (a : Addr) : Outcome GcState :=
  match s.lookup a with
  | none => .fault
  | some obj =>
      if obj.flag ≠ .white then pure s
      else do
        Outcome.require (decide (s.gray.length < graySize))
        pure { s.setFlag a .gray with gray := a :: s.gray }

def addAllToGray (s : GcState) (as : List Addr) : Outcome GcState := as.foldlM addToGray s

/-- `begin` -/
def gcBegin (s : GcState) : Outcome GcState := addAllToGray { s with gray := [] } s.roots

/-- One round of the loop of `scan`, for the object `a` taken off the mark
stack. -/
def scanObject (s : GcState) (a : Addr) : Outcome GcState :=
  match s.lookup a with
  | none => .fault
  | some obj =>
      if obj.flag = .black then pure s
      else addAllToGray (s.setFlag a .black) (children obj.body)

/-- The loop of `scan`, cut off after `fuel` rounds. -/
def scanLoop : Nat → GcState → Outcome GcState
  | 0, s => pure s
  | fuel + 1, s =>
      match s.gray with
      | [] => pure s
      | a :: rest => do scanLoop fuel (← scanObject { s with gray := rest } a)

/-- Rounds that are left at most: an object is added once, when it is white. -/
def scanBound (s : GcState) : Nat :=
  s.gray.length + s.objects.countP (·.flag = .white)

/-- `scan` -/
def scan (s : GcState) : Outcome GcState := scanLoop (scanBound s) s

/-- `end`: frees the white objects and makes the others white. -/
def gcEnd (s : GcState) : GcState :=
  { s with
    objects := (s.objects.filter (·.flag ≠ .white)).map fun o => { o with flag := .white }
    numObjects := s.numObjects - s.objects.countP (·.flag = .white) }

def gcTrace (s : GcState) : Outcome GcState :=
  if s.numObjects > aliveObjects then do
    let s ← if s.gray = [] then gcBegin s else pure s
    let s ← scan s
    pure (if s.gray = [] then gcEnd s else s)
  else pure s

/-- `su_gc`. Its first loop runs `gc_trace` until the mark stack is empty;
`gc_trace` either empties it at once or never changes it, and then the loop
does not end. -/
def suGc (s : GcState) : Outcome GcState := do
  let s ← if s.gray = [] then pure s
    else if s.numObjects > aliveObjects then gcTrace s
    else .fault
  let s ← gcBegin s
  let s ← scan s
  pure (gcEnd s)

end Saurus
