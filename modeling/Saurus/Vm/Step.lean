import Saurus.Basis.Machine
import Saurus.Vm.State

/-!
# The interpreter loop

One definition for every kind of instruction and `exec` to choose among
them. `step` is one turn of the loop of `vm_loop`, from the instruction to the
final `s->pc++`, and `SuCall` is the entry from C.

A turn of `vm_loop` begins with `if (s->interupt) gc_trace(s)`. That is no part
of `step`, so the runs of `loop` are those in which no collection happens:
`gc_trace` returns at once while there are no more than `ALIVE_OBJECTS`
objects, and a collection that is made can free what is still used.
`vmLoop` has the collections, and `suCall_uncollected` says where they make no
difference.

The `memcpy` of `OP_TCALL` may be given ranges that overlap; it is read as
copying the old contents.
-/

namespace Saurus

open Basis

/-! ## Values in instructions -/

/-- `type_name` -/
def typeName : ValType → Outcome String
  | .nil => pure "nil"
  | .boolean => pure "boolean"
  | .string => pure "string"
  | .number => pure "number"
  | .function => pure "function"
  | .nativefunc => pure "native-function"
  | .nativeptr => pure "native-pointer"
  | .nativedata => pure "native-data"
  | .vector => pure "vector"
  | .map => pure "map"
  | .loc => pure "reference"
  | .seq | .cellSeq | .itSeq => pure "sequence"
  | .inv => .fault

/-- `su_check_type(s, idx, SU_NUMBER)` -/
def checkNumber (v : Value) : Outcome Unit :=
  if v.type = .number then pure ()
  else do
    let name ← typeName v.type
    .raise ("Bad argument: Expected number, but got " ++ name ++ ".")

/-- `v.obj.b`, an `int`. -/
def objB (v : Value) : Bool := v.obj.setWidth 32 != 0#32

/-- `v.obj.b = b` together with `v.type = SU_BOOLEAN`. -/
def asBoolean (v : Value) (b : Bool) : Value := ⟨.boolean, setObjB v.obj b⟩

@[simp] theorem objB_setObjB (obj : BitVec 64) (b : Bool) : objB ⟨.boolean, setObjB obj b⟩ = b := by
  have hlow : (setObjB obj b).setWidth 32 = if b then 1#32 else 0#32 := by
    rw [setObjB, BitVec.setWidth_or, BitVec.setWidth_and,
      show (0xffffffff00000000#64).setWidth 32 = 0#32 by decide, BitVec.and_zero, BitVec.zero_or]
    cases b <;> rfl
  rw [objB, hlow]
  cases b <;> rfl

/-- `v.type != SU_NIL && (v.type != SU_BOOLEAN || v.obj.b)` -/
def truthy (v : Value) : Bool := v.type ≠ .nil && (v.type ≠ .boolean || objB v)

/-- `ARITH_OP`, and the same for `pow`. -/
def arithOp (f : BitVec 64 → BitVec 64 → BitVec 64) (x y : Value) : Outcome Value := do
  checkNumber x
  checkNumber y
  pure ⟨x.type, f x.obj y.obj⟩

/-- `OP_MOD`, `%` on `int`. -/
def modOp (h : Host) (x y : Value) : Outcome Value := do
  checkNumber x
  checkNumber y
  let m ← h.toInt x.obj
  let n ← h.toInt y.obj
  Outcome.require (decide (n ≠ 0 ∧ ¬ (m = -2 ^ 31 ∧ n = -1)))
  pure ⟨x.type, h.ofInt (Int.tmod m n)⟩

/-- `OP_UNM` -/
def unmOp (h : Host) (x : Value) : Outcome Value := do
  checkNumber x
  pure ⟨x.type, h.neg x.obj⟩

/-- `LOG_OP` -/
def logOp (f : BitVec 64 → BitVec 64 → Bool) (x y : Value) : Outcome Value := do
  checkNumber x
  checkNumber y
  pure (asBoolean x (f x.obj y.obj))

/-- `OP_EQ`: unlike `value_eq` it does not compare the payloads of numbers. -/
def eqOp (x y : Value) : Outcome Value :=
  pure (asBoolean x
    (if x.type ≠ y.type then false
      else if x.type = .number then numEq x.obj y.obj
      else x.obj == y.obj))

/-- `OP_NOT`, which is true of every value that is neither boolean nor nil. -/
def notOp (x : Value) : Outcome Value :=
  pure (asBoolean x (if x.type = .boolean then !objB x else x.type ≠ .nil))

def andOp (x y : Value) : Outcome Value := pure (asBoolean x (truthy x && truthy y))

/-- The test of `OP_OR`, with `||` where `OP_AND` has `&&`. -/
def orTest (v : Value) : Bool := v.type ≠ .nil || (v.type ≠ .boolean || objB v)

def orOp (x y : Value) : Outcome Value := pure (asBoolean x (orTest x || orTest y))

/-! ## Globals -/

/-- The characters of a constant up to its NUL. -/
def bytesText (str : List Byte) : String :=
  String.ofList ((str.takeWhile (· ≠ 0#8)).map fun c => Char.ofNat c.toNat)

/-- `global_error` -/
def globalError {α : Type} (w : World) (msg : String) (constant : Value) : Outcome α := do
  match ← w.object constant.addr with
  | .string _ str => .raise (msg ++ ": " ++ bytesText str)
  | _ => .fault

/-- The key an instruction names, with its hash. -/
def globalKey (w : World) (func : FunctionObj) (a : Nat) : Outcome (Value × BitVec 32) := do
  let key ← Outcome.ofOption func.constants[a]?
  Outcome.check (decide (key.type = .string)) "Global key must be a string!"
  pure (key, ← hashValue w key)

/-- What `OP_GETGLOBAL` pushes. -/
def getGlobal (w : World) (func : FunctionObj) (a : Nat) : Outcome Value := do
  let (key, hash) ← globalKey w func a
  let v ← mapGet (← globalsMap w) key hash
  if v.type = .inv then globalError w "Can't access global variable" key
  else pure v

/-- What `OP_SETGLOBAL` does with the value at `STK(-1)`. -/
def setGlobal (w : World) (func : FunctionObj) (a : Nat) (v : Outcome Value) :
    Outcome World := do
  let (key, hash) ← globalKey w func a
  let old ← mapGet (← globalsMap w) key hash
  if old.type ≠ .inv then globalError w "Redefinition of global variable" key
  else updateGlobalRef (← insertGlobal w key hash (← v))

/-! ## Calls -/

/-- The `function_t` a value points to. -/
def functionAt (w : World) (v : Value) : Outcome FunctionObj := do
  match ← w.object v.addr with
  | .function f => pure f
  | _ => .fault

/-- Calling a vector on the values `args`. -/
def callVector (h : Host) (w : World) (f : Value) (args : List Value) : Outcome Value :=
  match args with
  | [] => .raise "Expected at least one argument!"
  | [i] => do
      checkNumber i
      match ← w.object f.addr with
      | .vector vec => vectorIndex vec (← h.toInt i.obj)
      | _ => .fault
  | _ => .raise "Not implemented!"

/-- Calling a map on the values `args`. -/
def callMap (w : World) (f : Value) (args : List Value) : Outcome Value :=
  match args with
  | [] => .raise "Expected at least one argument!"
  | [key] => do
      match ← w.object f.addr with
      | .map m => do
          let v ← mapGet m key (← hashValue w key)
          Outcome.check (decide (v.type ≠ .inv)) "No value with that key!"
          pure v
      | _ => .fault
  | _ => .raise "Not implemented!"

/-- What the callee's arguments become: collected in a vector, or counted. -/
def enterArgs (w : World) (fn : FunctionObj) (args : List Value) :
    Outcome (World × List Value) :=
  if fn.narg < 0 then do
    let (w, vec) ← collectVarg w args
    pure (w, [vec])
  else do
    Outcome.check (decide (fn.narg = args.length))
      ("Bad number of arguments to function! Expected " ++ toString fn.narg ++ ", but got "
        ++ toString args.length ++ ".")
    pure (w, args)

theorem enterArgs_length {fn : FunctionObj} {w w' : World} {args args' : List Value}
    (h : enterArgs w fn args = .ok (w', args')) :
    args'.length = if fn.narg < 0 then 1 else args.length := by
  unfold enterArgs at h
  split
  · rename_i hneg
    rw [if_pos hneg] at h
    obtain ⟨x, -, h⟩ := Outcome.bind_eq_ok.mp h
    cases h
    rfl
  · rename_i hneg
    rw [if_neg hneg] at h
    obtain ⟨_, -, h⟩ := Outcome.bind_eq_ok.mp h
    cases h
    rfl

namespace Vm

/-- `OP_CALL` on a function, `f` in the slot `tmp`. -/
def callClosure (s : Vm) (tmp a ret : Nat) (f : Value) : Outcome Vm := do
  Outcome.require (decide (s.frameTop < maxCalls))
  let fn ← functionAt s.world f
  let (w, args) ← enterArgs s.world fn (s.window (tmp + 1) a)
  Outcome.check (decide (0 ≤ fn.narg ∨ tmp + 1 < stackSize)) "Stack overflow!"
  Outcome.require (decide (tmp + 1 + args.length + fn.upvalues.length ≤ stackSize))
  pure { s with
    world := w
    stack := overwrite s.stack (tmp + 1) (args ++ fn.upvalues)
    stackTop := tmp + 1 + args.length + fn.upvalues.length
    frames := Function.update s.frames s.frameTop ⟨s.func, tmp, ret⟩
    frameTop := s.frameTop + 1
    func := fn
    pc := 0 }

/-- `OP_CALL` on a native: only the type of its slot is written when it
returns zero. -/
def callNative (h : Host) (s : Vm) (tmp a ret : Nat) (f : Value) : Outcome Vm := do
  let r ← h.native f.obj s.world (s.window tmp (a + 1))
  let v := r.ret.getD ⟨.nil, (r.left 0).obj⟩
  pure { s with
    world := r.world
    stack := fun i => if i < tmp then s.stack i else if i = tmp then v else r.left (i - tmp)
    stackTop := tmp + 1
    pc := ret }

/-- `OP_CALL` on a collection: the function and its argument give way to `v`. -/
def callData (s : Vm) (tmp ret : Nat) (v : Value) : Vm :=
  { s with stack := Function.update s.stack tmp v, stackTop := tmp + 1, pc := ret }

/-- `OP_CALL` with `a` arguments; control comes back to `ret` of `s.func`. -/
def call (h : Host) (s : Vm) (a ret : Nat) : Outcome Vm := do
  Outcome.require (decide (a + 1 ≤ s.stackTop))
  let tmp := s.stackTop - (a + 1)
  let f := s.stack tmp
  match f.type with
  | .function => s.callClosure tmp a ret f
  | .nativefunc => callNative h s tmp a ret f
  | .vector => do pure (s.callData tmp ret (← callVector h s.world f (s.window (tmp + 1) a)))
  | .map => do pure (s.callData tmp ret (← callMap s.world f (s.window (tmp + 1) a)))
  | t => do
      let name ← typeName t
      .raise ("Expected function to call, got '" ++ name ++ "'.")

/-- The state after `OP_TCALL` has moved a callee and its `a` arguments over
the current frame. -/
def dropFrame (s : Vm) (frame : Frame) (a : Nat) : Vm :=
  { s with
    stack := overwrite s.stack frame.stackTop (s.window (s.stackTop - (a + 1)) (a + 1))
    stackTop := frame.stackTop + (a + 1)
    frameTop := s.frameTop - 1
    func := frame.func }

/-- `OP_TCALL`: the call is made from the frame below, in place of the
current one. -/
def tcall (h : Host) (s : Vm) (a : Nat) : Outcome Vm := do
  let frame ← s.frame
  Outcome.require (decide (a + 1 ≤ s.stackTop ∧ frame.stackTop + (a + 1) ≤ stackSize))
  call h (s.dropFrame frame a) a frame.retAddr

/-- `OP_RETURN` -/
def ret (s : Vm) : Outcome Vm := do
  let frame ← s.frame
  let v ← s.stk 1
  Outcome.require (decide (frame.stackTop < stackSize))
  pure { s with
    stack := Function.update s.stack frame.stackTop v
    stackTop := frame.stackTop + 1
    frameTop := s.frameTop - 1
    func := frame.func
    pc := frame.retAddr }

/-! ## Closures -/

/-- The captured value: level `lv` counts frames from the top. -/
def capture (s : Vm) (u : Upvalue) : Outcome Value := do
  Outcome.require (decide (u.lv.toNat ≤ s.frameTop ∧ s.frameTop - u.lv.toNat < maxCalls))
  s.slot ((s.frames (s.frameTop - u.lv.toNat)).stackTop + u.idx.toNat + 1)

end Vm

/-- The loop of `lambda` over the upvalues. -/
def captureAll (capture : Upvalue → Outcome Value) : List Upvalue → Outcome (List Value)
  | [] => pure []
  | u :: us => do
      let v ← capture u
      let vs ← captureAll capture us
      pure (v :: vs)

/-- `lambda` -/
def lambda (junk : Nat → BitVec 64) (w : World) (prot : Proto) (narg : Int)
    (capture : Upvalue → Outcome Value) : Outcome (World × Value) := do
  let (w, constants) ← createValues junk w prot.constants
  let upvalues ← captureAll capture prot.upvalues
  let (w, func) ← w.alloc (.function ⟨narg, prot, constants, upvalues⟩)
  pure (w, objValue .function func)

namespace Vm

/-- `OP_LAMBDA` -/
def makeLambda (h : Host) (s : Vm) (a : Nat) (b : Int) : Outcome Vm := do
  let prot ← Outcome.ofOption s.func.prot.prot[a]?
  let (w, f) ← lambda h.junk s.world prot b s.capture
  { s with world := w }.pushValue f

/-! ## Instructions -/

/-- `OP_COPY`, which asserts that there is room. -/
def copy (s : Vm) (a : Nat) : Outcome Vm := do
  Outcome.require (decide (s.stackTop < stackSize))
  let frame ← s.frame
  s.pushFrom (s.slot (frame.stackTop + a))

/-- `OP_LOAD` -/
def load (s : Vm) (a : Nat) : Outcome Vm := do
  let frame ← s.frame
  s.pushFrom (s.slot (frame.stackTop + 1 + a))

/-- `OP_TEST` -/
def test (s : Vm) (a : Nat) : Outcome Vm := do
  let v ← s.stk 1
  let s ← s.pop 1
  pure (if truthy v then s.jump a else s.next)

/-- The `case` of an instruction. -/
def exec (h : Host) (s : Vm) (op : Op) (a : Nat) (b : Int) : Outcome Vm :=
  match op with
  | .push => next <$> s.pushFrom (Outcome.ofOption s.func.constants[a]?)
  | .pop => next <$> s.pop a
  | .copy => next <$> s.copy a
  | .add => next <$> s.binary (arithOp h.add)
  | .sub => next <$> s.binary (arithOp h.sub)
  | .mul => next <$> s.binary (arithOp h.mul)
  | .div => next <$> s.binary (arithOp h.div)
  | .mod => next <$> s.binary (modOp h)
  | .pow => next <$> s.binary (arithOp h.pow)
  | .unm => next <$> s.unary (unmOp h)
  | .eq => next <$> s.binary eqOp
  | .less => next <$> s.binary (logOp h.lt)
  | .lequal => next <$> s.binary (logOp h.le)
  | .not => next <$> s.unary notOp
  | .and => next <$> s.binary andOp
  | .or => next <$> s.binary orOp
  | .test => s.test a
  | .jmp => pure (s.jump a)
  | .return => s.ret
  | .call => call h s a (s.pc + 1)
  | .tcall => tcall h s a
  | .lambda => next <$> s.makeLambda h a b
  | .getglobal => do next <$> s.pushValue (← getGlobal s.world s.func a)
  | .setglobal => do
      let w ← setGlobal s.world s.func a (s.stk 1)
      pure { s with world := w }.next
  | .load => next <$> s.load a

/-- The instruction at `s->pc`, decoded. -/
def fetch (s : Vm) : Outcome (Op × Nat × Int) := do
  let inst ← Outcome.ofOption s.func.prot.inst[s.pc]?
  let op ← Outcome.ofOption (Op.ofCode inst.id.toNat)
  pure (op, inst.a.toNat, inst.b.toInt)

/-- One turn of the loop, without the collection it may begin with. -/
def step (h : Host) (s : Vm) : Outcome Vm := do
  let (op, a, b) ← s.fetch
  s.exec h op a b

/-- The condition of the loop fails. -/
def Halted (s : Vm) : Prop := s.func.prot.inst.length ≤ s.pc

instance (s : Vm) : Decidable s.Halted := inferInstanceAs (Decidable (_ ≤ _))

/-- `vm_loop` while no collection happens. -/
def loop (h : Host) : Machine Vm := ⟨step h, Halted⟩

instance (h : Host) (s : Vm) : Decidable ((loop h).halted s) :=
  inferInstanceAs (Decidable s.Halted)

/-! ## Calls from C -/

/-- `su_call` up to `vm_loop`, on a function. -/
def suEnter (s : Vm) (narg : Nat) : Outcome Vm := do
  Outcome.require (decide (narg + 1 ≤ s.stackTop ∧ s.frameTop < maxCalls))
  let top := s.stackTop - narg - 1
  let f := s.stack top
  Outcome.require (decide (f.type = .function))
  let fn ← functionAt s.world f
  Outcome.check (decide (fn.narg < 0 ∨ fn.narg = narg)) "Bad number of argument to function!"
  pure { s with
    frames := Function.update s.frames s.frameTop ⟨fn, top, 0xffff⟩
    frameTop := s.frameTop + 1
    func := fn
    pc := 0 }

/-- `su_call` after `vm_loop`, for `nret = 1`. -/
def suLeave (s s' : Vm) : Vm := { s' with func := s.func, pc := s.pc }

/-- `su_call(s, narg, 1)` ends with `o`. -/
def SuCall (h : Host) (s : Vm) (narg : Nat) (o : Outcome Vm) : Prop :=
  ∃ o', (loop h).RunsFrom (s.suEnter narg) o' ∧ o = s.suLeave <$> o'

/-- `vm_loop`, where `trace` is the test of `s->interupt` with the `gc_trace`
it leads to. -/
def vmLoop (trace : Vm → Outcome Vm) (h : Host) : Machine Vm := (loop h).before trace

/-- No turn of the run from `s` begins with a collection that does anything. -/
def Uncollected (trace : Vm → Outcome Vm) (h : Host) (s : Vm) : Prop :=
  ∀ s', (loop h).Steps s s' → trace s' = .ok s'

/-- Without collections a call from C is one of the whole `vm_loop`. -/
theorem suCall_uncollected {trace : Vm → Outcome Vm} {h : Host} {s : Vm} {narg : Nat}
    (hno : ∀ s', s.suEnter narg = .ok s' → Uncollected trace h s') (o : Outcome Vm) :
    (∃ o', (vmLoop trace h).RunsFrom (s.suEnter narg) o' ∧ o = s.suLeave <$> o')
      ↔ SuCall h s narg o :=
  exists_congr fun _ => and_congr_left' (Machine.runsFrom_before_iff hno)

/-- The loop up to where the calls made above level `k` are back. -/
def callLoop (h : Host) (k : Nat) : Machine Vm := ⟨step h, fun s => s.Halted ∨ s.frameTop ≤ k⟩

instance (h : Host) (k : Nat) (s : Vm) : Decidable ((callLoop h k).halted s) :=
  inferInstanceAs (Decidable (s.Halted ∨ s.frameTop ≤ k))

/-- The `OP_CALL` at `s->pc`, with all that it leads to, ends with `o`. -/
def OpCall (h : Host) (s : Vm) (o : Outcome Vm) : Prop :=
  (callLoop h s.frameTop).RunsFrom (step h s) o

end Vm

end Saurus
