import Saurus.Basis.Slice
import Saurus.World

/-!
# The state of the interpreter

The stack, the frames and the registers of `vm_loop`. Arrays are total
functions with their bounds checked where they are read or written, so the
slots above `stack_top` keep what was left in them.

A frame keeps the `function_t` it points to by value: nothing writes to a
function once `lambda` has made it. `s->prot` is always `func->prot` while
the loop runs and has no field of its own; `s->narg` is the length of the
window a native is given.
-/

namespace Saurus

open Basis

def maxCalls : Nat := 128

/-- What a native leaves: the world, the value at `STK(-1)` when it returns
non-zero, and the slots from its function's on. -/
structure Reply where
  world : World
  ret : Option Value
  left : Nat → Value

/-- Everything outside the repository's C code: arithmetic on doubles, what
unwritten payloads hold, and the native functions by their pointers. A native
works on its function's slot and its arguments. -/
structure Host where
  add : BitVec 64 → BitVec 64 → BitVec 64
  sub : BitVec 64 → BitVec 64 → BitVec 64
  mul : BitVec 64 → BitVec 64 → BitVec 64
  div : BitVec 64 → BitVec 64 → BitVec 64
  pow : BitVec 64 → BitVec 64 → BitVec 64
  neg : BitVec 64 → BitVec 64
  lt : BitVec 64 → BitVec 64 → Bool
  le : BitVec 64 → BitVec 64 → Bool
  toInt : BitVec 64 → Outcome Int
  ofInt : Int → BitVec 64
  junk : Nat → BitVec 64
  native : BitVec 64 → World → List Value → Outcome Reply

/-- A host where doubles are as small integers and natives do nothing. -/
def idleHost : Host where
  add := (· + ·)
  sub := (· - ·)
  mul := (· * ·)
  div := fun x _ => x
  pow := fun x _ => x
  neg := (- ·)
  lt := BitVec.slt
  le := BitVec.sle
  toInt := fun x => .ok (x.setWidth 32).toInt
  ofInt := BitVec.ofInt 64
  junk := fun _ => 0#64
  native := fun _ w _ => .ok ⟨w, none, fun _ => ⟨.nil, 0#64⟩⟩

/-- `frame_t` -/
structure Frame where
  func : FunctionObj
  stackTop : Nat
  retAddr : Nat

/-- `su_state`, with the local `func` of `vm_loop`. -/
structure Vm where
  world : World
  stack : Nat → Value
  stackTop : Nat
  frames : Nat → Frame
  frameTop : Nat
  func : FunctionObj
  pc : Nat

namespace Vm

/-- `STK(-n)` -/
def stk (s : Vm) (n : Nat) : Outcome Value := do
  Outcome.require (decide (n ≤ s.stackTop))
  pure (s.stack (s.stackTop - n))

/-- `s->stack[i]` -/
def slot (s : Vm) (i : Nat) : Outcome Value := do
  Outcome.require (decide (i < stackSize))
  pure (s.stack i)

/-- `FRAME()` -/
def frame (s : Vm) : Outcome Frame := do
  Outcome.require (decide (0 < s.frameTop))
  pure (s.frames (s.frameTop - 1))

/-- The `n` slots from `i` on. -/
def window (s : Vm) (i n : Nat) : List Value := slice s.stack i n

/-- `push_value` of what a pointer leads to, read once there is room. -/
def pushFrom (s : Vm) (v : Outcome Value) : Outcome Vm := do
  Outcome.check (decide (s.stackTop < stackSize)) "Stack overflow!"
  let v ← v
  pure { s with stack := Function.update s.stack s.stackTop v, stackTop := s.stackTop + 1 }

/-- `push_value` -/
def pushValue (s : Vm) (v : Value) : Outcome Vm := s.pushFrom (.ok v)

/-- `su_pop` -/
def pop (s : Vm) (n : Nat) : Outcome Vm := do
  Outcome.require (decide (n ≤ s.stackTop))
  pure { s with stackTop := s.stackTop - n }

/-- An instruction that replaces `STK(-2)` and `STK(-1)` by one value. -/
def binary (s : Vm) (f : Value → Value → Outcome Value) : Outcome Vm := do
  let x ← s.stk 2
  let y ← s.stk 1
  let v ← f x y
  pure { s with
    stack := Function.update s.stack (s.stackTop - 2) v, stackTop := s.stackTop - 1 }

/-- An instruction that replaces `STK(-1)`. -/
def unary (s : Vm) (f : Value → Outcome Value) : Outcome Vm := do
  let x ← s.stk 1
  let v ← f x
  pure { s with stack := Function.update s.stack (s.stackTop - 1) v }

/-- `s->pc++` -/
def next (s : Vm) : Vm := { s with pc := s.pc + 1 }

/-- `s->pc = a - 1`, then `s->pc++`. -/
def jump (s : Vm) (a : Nat) : Vm := { s with pc := a }

end Vm

end Saurus
