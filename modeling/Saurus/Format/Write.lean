import Saurus.Basis.Codec
import Saurus.Basis.Outcome
import Saurus.Format.Tree

/-!
# Writing a function tree

`compile_func` and the encoders of `writebin.c`. An encoder casts its Lua
number to the C type of the field, so what does not fit is cut off. Only
`encode_string` can go wrong: its buffer size is an `unsigned`, and a
string too long for it is copied past the end of the buffer.
-/

namespace Saurus

open Basis Basis.Codec

def encodeUint8 (n : Nat) : List Byte := leBytes 1 n
def encodeUint16 (n : Nat) : List Byte := leBytes 2 n
def encodeUint32 (n : Nat) : List Byte := leBytes 4 n

/-- `(short)n` -/
def encodeInt16 (n : Int) : List Byte := leBytes 2 (BitVec.ofInt 16 n).toNat

/-- The eight bytes of a double. -/
def encodeNumber (n : BitVec 64) : List Byte := leBytes 8 n.toNat

/-- The characters `strlen` counts. -/
def cString (s : List Byte) : List Byte := s.takeWhile (· ≠ 0#8)

def encodeString : Option (List Byte) → Outcome (List Byte)
  | none => pure (encodeUint32 0)
  | some s => do
      let str := cString s
      let len := str.length + 1
      Outcome.require (decide (len + 4 < 2 ^ 32))
      pure (encodeUint32 len ++ str ++ [0#8])

def compileInst (v : Instr) : List Byte :=
  encodeUint8 v.op.code ++ encodeUint8 v.a ++ encodeInt16 v.b

/-- The string `"nil"`, which stands for the constant nil. -/
def nilName : List Byte := [0x6e#8, 0x69#8, 0x6c#8]

def compileConst : Const → Outcome (List Byte)
  | .string v =>
      if v = nilName then pure (encodeUint8 0)
      else do pure (encodeUint8 4 ++ (← encodeString (some v)))
  | .number v => pure (encodeUint8 3 ++ encodeNumber v)
  | .boolean v => pure (encodeUint8 (if v then 2 else 1))

def compileConsts : List Const → Outcome (List Byte)
  | [] => pure []
  | v :: vs => do pure ((← compileConst v) ++ (← compileConsts vs))

def compileUp (v : Nat × Nat) : List Byte := encodeUint16 v.1 ++ encodeUint16 v.2

mutual

def compileFunc : Func → Outcome (List Byte)
  | .mk instructions const up prot name linenr => do
      let constants ← compileConsts const
      let prots ← compileFuncs prot
      let nameBytes ← encodeString name
      pure (encodeUint32 instructions.length ++ (instructions.flatMap compileInst
        ++ (encodeUint32 const.length ++ (constants
        ++ (encodeUint32 up.length ++ (up.flatMap compileUp
        ++ (encodeUint32 prot.length ++ (prots
        ++ (nameBytes
        ++ (encodeUint32 linenr.length ++ linenr.flatMap encodeUint32))))))))))

/-- The loop over `func.prot`. -/
def compileFuncs : List Func → Outcome (List Byte)
  | [] => pure []
  | v :: vs => do pure ((← compileFunc v) ++ (← compileFuncs vs))

end

/-! ## Chunks -/

/-- `writebin.header`: signature, version 0.0 and no flags. -/
def header : List Byte := [0x1b#8, 0x73#8, 0x75#8, 0x63#8, 0#8, 0#8, 0#8, 0#8]

/-- `func.name = name` -/
def Func.named (name : List Byte) : Func → Func
  | .mk i c u p _ l => .mk i c u p (some name) l

/-- `compile`, where no name is `"?"`. -/
def compile (func : Func) (name : Option (List Byte)) : Outcome (List Byte) := do
  pure (header ++ (← compileFunc (func.named (name.getD [0x3f#8]))))

end Saurus
