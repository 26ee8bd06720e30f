import Saurus.Vm.Step

/-!
# Activations

The machine the interpreter implements: a list of activations, the running
one first, each with a stack of its own. There is no common array, nothing
is overwritten and nothing runs out; an instruction that takes more values
than its activation has gets stuck.

What an instruction reads by position, in its own frame or in a frame
further down, is given from outside as a `View`, so that the machine makes
sense on top of any stack. `Vm.Refine` shows that the interpreter is this
machine as long as it has room.
-/

namespace Saurus

open Basis

/-- A function that runs or waits, with the slots of its frame, the top one
first and the slot of the function itself last. -/
structure Act where
  func : FunctionObj
  pc : Nat
  slots : List Value

/-- What the machine reads by position: slots of the running frame, counted
from its function's, and captured values. -/
structure View where
  slot : Nat → Outcome Value
  capture : Upvalue → Outcome Value

/-- `run` has the running activation and those that wait for it; `done` the
value the last of them returned. -/
inductive Conf where
  | run (world : World) (act : Act) (rest : List Act)
  | done (world : World) (v : Value)

/-! ## Instructions within an activation -/

/-- How many values an instruction takes from the stack and how many it puts
there; for a call, what is there once it is back. -/
def Op.effect (a : Nat) : Op → Nat × Nat
  | .push | .copy | .load | .getglobal | .lambda => (0, 1)
  | .pop => (a, 0)
  | .add | .sub | .mul | .div | .mod | .pow | .eq | .less | .lequal | .and | .or => (2, 1)
  | .unm | .not | .setglobal | .return => (1, 1)
  | .test => (1, 0)
  | .jmp => (0, 0)
  | .call | .tcall => (a + 1, 1)

/-- What an instruction does with the values it takes: the values it puts,
and where it goes. -/
def localOp (h : Host) (view : View) (w : World) (func : FunctionObj) (pc : Nat)
    (op : Op) (a : Nat) (b : Int) (args : List Value) : Outcome (World × List Value × Nat) :=
  let put : Outcome Value → Outcome (World × List Value × Nat) :=
    fun v => do pure (w, [← v], pc + 1)
  match op, args with
  | .push, _ => put (Outcome.ofOption func.constants[a]?)
  | .pop, _ => pure (w, [], pc + 1)
  | .copy, _ => put (view.slot a)
  | .load, _ => put (view.slot (a + 1))
  | .getglobal, _ => put (getGlobal w func a)
  | .lambda, _ => do
      let prot ← Outcome.ofOption func.prot.prot[a]?
      let (w, f) ← lambda h.junk w prot b view.capture
      pure (w, [f], pc + 1)
  | .add, [y, x] => put (arithOp h.add x y)
  | .sub, [y, x] => put (arithOp h.sub x y)
  | .mul, [y, x] => put (arithOp h.mul x y)
  | .div, [y, x] => put (arithOp h.div x y)
  | .mod, [y, x] => put (modOp h x y)
  | .pow, [y, x] => put (arithOp h.pow x y)
  | .eq, [y, x] => put (eqOp x y)
  | .less, [y, x] => put (logOp h.lt x y)
  | .lequal, [y, x] => put (logOp h.le x y)
  | .and, [y, x] => put (andOp x y)
  | .or, [y, x] => put (orOp x y)
  | .unm, [x] => put (unmOp h x)
  | .not, [x] => put (notOp x)
  | .test, [x] => pure (w, [], if truthy x then a else pc + 1)
  | .jmp, _ => pure (w, [], a)
  | .setglobal, [x] => do
      let w ← setGlobal w func a (.ok x)
      pure (w, [x], pc + 1)
  | _, _ => .fault

/-! ## Calls -/

/-- A value goes back to the activation that waits for it. -/
def giveBack (w : World) (v : Value) : List Act → Conf
  | [] => .done w v
  | act :: rest => .run w { act with slots := v :: act.slots } rest

/-- A call of `f` with `callers` to come back to. -/
def enterCall (h : Host) (w : World) (f : Value) (args : List Value) (callers : List Act) :
    Outcome Conf :=
  match f.type with
  | .function => do
      let fn ← functionAt w f
      let (w, args) ← enterArgs w fn args
      pure (.run w ⟨fn, 0, fn.upvalues.reverse ++ args.reverse ++ [f]⟩ callers)
  | .nativefunc => do
      let r ← h.native f.obj w (f :: args)
      pure (giveBack r.world (r.ret.getD ⟨.nil, (r.left 0).obj⟩) callers)
  | .vector => do pure (giveBack w (← callVector h w f args) callers)
  | .map => do pure (giveBack w (← callMap w f args) callers)
  | t => do
      let name ← typeName t
      .raise ("Expected function to call, got '" ++ name ++ "'.")

/-! ## Steps -/

namespace Act

/-- The instruction at `pc`, decoded. -/
def fetch (act : Act) : Outcome (Op × Nat × Int) := do
  let inst ← Outcome.ofOption act.func.prot.inst[act.pc]?
  let op ← Outcome.ofOption (Op.ofCode inst.id.toNat)
  pure (op, inst.a.toNat, inst.b.toInt)

/-- The activation as it waits for a call with `a` arguments. -/
def waiting (act : Act) (a : Nat) : Act :=
  { act with pc := act.pc + 1, slots := act.slots.drop (a + 1) }

end Act

/-- One instruction of the running activation. -/
def execAct (h : Host) (view : View) (w : World) (act : Act) (rest : List Act)
    (op : Op) (a : Nat) (b : Int) : Outcome Conf :=
  match op with
  | .return =>
      match act.slots with
      | v :: _ => pure (giveBack w v rest)
      | [] => .fault
  | .call =>
      match act.slots.drop a with
      | f :: _ => enterCall h w f (act.slots.take a).reverse (act.waiting a :: rest)
      | [] => .fault
  | .tcall =>
      match act.slots.drop a with
      | f :: _ => enterCall h w f (act.slots.take a).reverse rest
      | [] => .fault
  | _ => do
      let n := (op.effect a).1
      let (w, vs, pc) ← localOp h view w act.func act.pc op a b (act.slots.take n)
      pure (.run w { act with pc := pc, slots := vs ++ act.slots.drop n } rest)

/-- One step of the structured machine. -/
def stepAct (h : Host) (view : View) (w : World) (act : Act) (rest : List Act) :
    Outcome Conf := do
  let (op, a, b) ← act.fetch
  execAct h view w act rest op a b

/-! What the instructions that leave an activation do when they complete. -/

section Leave

variable {h : Host} {view : View} {w : World} {act : Act} {rest : List Act} {a : Nat} {b : Int}
  {c : Conf}

theorem execAct_return (hc : execAct h view w act rest .return a b = .ok c) :
    ∃ v, c = giveBack w v rest := by
  simp only [execAct] at hc
  split at hc
  · exact ⟨_, (Outcome.ok.inj hc).symm⟩
  · cases hc

theorem execAct_call (hc : execAct h view w act rest .call a b = .ok c) :
    ∃ f args, enterCall h w f args (act.waiting a :: rest) = .ok c := by
  simp only [execAct] at hc
  split at hc
  · exact ⟨_, _, hc⟩
  · cases hc

theorem execAct_tcall (hc : execAct h view w act rest .tcall a b = .ok c) :
    ∃ f args, enterCall h w f args rest = .ok c := by
  simp only [execAct] at hc
  split at hc
  · exact ⟨_, _, hc⟩
  · cases hc

end Leave

end Saurus
