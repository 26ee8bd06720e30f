import Saurus.Murmur

/-!
# Function trees, as written and as read

`Func` is the table the generator hands to the compiler: operands are
Lua numbers of any size. `Proto` is `prototype_t`, what the VM reads back,
with the widths of the C fields. Counts (`num_inst` and the like) are the
lengths of the lists.
-/

namespace Saurus

/-- The instruction set, in the order of its opcodes. -/
inductive Op where
  | push | pop | copy
  | add | sub | mul | div | mod | pow | unm
  | eq | less | lequal
  | not | and | or
  | test | jmp
  | return | call | tcall | lambda
  | getglobal | setglobal | load
deriving Repr, DecidableEq

/-- `instruction_set` -/
def instructionSet : List Op :=
  [.push, .pop, .copy, .add, .sub, .mul, .div, .mod, .pow, .unm, .eq, .less, .lequal,
    .not, .and, .or, .test, .jmp, .return, .call, .tcall, .lambda, .getglobal, .setglobal, .load]

/-- `instruction_matrix[v]` -/
def Op.code (op : Op) : Nat := instructionSet.idxOf op

/-- The `case` of the interpreter an opcode selects. -/
def Op.ofCode (code : Nat) : Option Op := instructionSet[code]?

@[simp] theorem Op.ofCode_code (op : Op) : Op.ofCode op.code = some op := by cases op <;> rfl

theorem Op.code_lt (op : Op) : op.code < 256 := by cases op <;> decide

/-! ## What the generator produces -/

/-- One entry of `func.instructions`; an operand that is not given is 0. -/
structure Instr where
  op : Op
  a : Nat := 0
  b : Int := 0
deriving Repr, DecidableEq

/-- One entry of `func.const`, a Lua string, number or boolean. -/
inductive Const where
  | string (s : List Byte)
  | number (n : BitVec 64)
  | boolean (b : Bool)
deriving Repr, DecidableEq

/-- A function as the generator leaves it, `up` holding level and index of
each captured variable. -/
inductive Func where
  | mk (instructions : List Instr) (const : List Const) (up : List (Nat × Nat))
      (prot : List Func) (name : Option (List Byte)) (linenr : List Nat)
deriving Repr

namespace Func

def instructions : Func → List Instr | mk i _ _ _ _ _ => i
def const : Func → List Const | mk _ c _ _ _ _ => c
def up : Func → List (Nat × Nat) | mk _ _ u _ _ _ => u
def prot : Func → List Func | mk _ _ _ p _ _ => p
def name : Func → Option (List Byte) | mk _ _ _ _ n _ => n
def linenr : Func → List Nat | mk _ _ _ _ _ l => l

end Func

/-! ## What the VM reads -/

/-- `instruction_t` -/
structure Instruction where
  id : Byte
  a : Byte
  b : BitVec 16
deriving Repr, DecidableEq

/-- `const_t` -/
inductive ProtoConst where
  | nil | false | true
  | number (num : BitVec 64)
  | string (str : List Byte)
deriving Repr, DecidableEq

/-- `upvalue_t` -/
structure Upvalue where
  lv : BitVec 16
  idx : BitVec 16
deriving Repr, DecidableEq

/-- `prototype_t` -/
inductive Proto where
  | mk (inst : List Instruction) (constants : List ProtoConst) (upvalues : List Upvalue)
      (prot : List Proto) (name : List Byte) (lineinf : List (BitVec 32))
deriving Repr

namespace Proto

def inst : Proto → List Instruction | mk i _ _ _ _ _ => i
def constants : Proto → List ProtoConst | mk _ c _ _ _ _ => c
def upvalues : Proto → List Upvalue | mk _ _ u _ _ _ => u
def prot : Proto → List Proto | mk _ _ _ p _ _ => p
def name : Proto → List Byte | mk _ _ _ _ n _ => n
def lineinf : Proto → List (BitVec 32) | mk _ _ _ _ _ l => l

end Proto

/-! ## Trees node by node -/

/-- The function at a path: `func.prot[i]`, and so on from there. -/
def Func.at? (f : Func) : List Nat → Option Func
  | [] => some f
  | i :: path => match f.prot[i]? with
    | some p => p.at? path
    | none => none

/-- The prototype at a path: `prot->prot[i]`, and so on from there. -/
def Proto.at? (p : Proto) : List Nat → Option Proto
  | [] => some p
  | i :: path => match p.prot[i]? with
    | some q => q.at? path
    | none => none

mutual

/-- `P` holds of every function of the tree. -/
def Func.All (P : Func → Prop) : Func → Prop
  | .mk i c u prot n l => P (.mk i c u prot n l) ∧ Func.AllList P prot

def Func.AllList (P : Func → Prop) : List Func → Prop
  | [] => True
  | f :: fs => f.All P ∧ Func.AllList P fs

end

mutual

/-- The trees have one shape, and `P` relates them node by node. -/
def Func.Rel (P : Func → Proto → Prop) : Func → Proto → Prop
  | .mk i c u prot n l, p => P (.mk i c u prot n l) p ∧ Func.RelList P prot p.prot

def Func.RelList (P : Func → Proto → Prop) : List Func → List Proto → Prop
  | [], [] => True
  | f :: fs, p :: ps => f.Rel P p ∧ Func.RelList P fs ps
  | _, _ => False

end

mutual

/-- Levels of nesting, a function without prototypes having one. -/
def Func.depth : Func → Nat
  | .mk _ _ _ prot _ _ => Func.depthList prot + 1

def Func.depthList : List Func → Nat
  | [] => 0
  | f :: fs => max f.depth (Func.depthList fs)

end

theorem Func.RelList.length {P : Func → Proto → Prop} : ∀ {fs : List Func} {ps : List Proto},
    Func.RelList P fs ps → ps.length = fs.length
  | [], [], _ => rfl
  | _ :: fs, _ :: ps, h => by
      rw [List.length_cons, List.length_cons, Func.RelList.length h.2]

end Saurus
