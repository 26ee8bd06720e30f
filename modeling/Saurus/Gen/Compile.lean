import Saurus.Format.Operands
import Saurus.Gen.Forms

/-!
# Operands from the generator to the VM

The generator counts constants, slots, prototypes, arguments and positions
with numbers of any size and nothing between it and the VM checks them. An
operand that does not fit its field is cut, in a program that was accepted.
-/

namespace Saurus

open Basis Basis.Codec

/-- **Operands survive where they fit.** Of a program that the generator and
the compiler accept, the VM reads the instructions with the operands that
were generated, from tables of the sizes they were generated for, if and
only if every operand fits its field and every table its count. -/
theorem operands_survive_iff {optTail inMacroWorld : Bool}
    {expand : List MacroCall → MacroCall → Except String (Sexp × List (Atom × Sexp))}
    {depth : Nat} {e : Sexp} {st st' : GenState} {func : Func}
    (_hgen : genSexp (sourceEnv optTail inMacroWorld expand) depth e st = .ok (func, st'))
    {name : Option (List Byte)} {bytes : List Byte} (hcompile : compile func name = .ok bytes)
    {levels : Nat} (hlevels : func.depth ≤ levels) {buffer : ReaderBuffer} {rest : List Byte}
    (hbuffer : Holds buffer (bytes ++ rest)) :
    (∃ p buffer', readChunk levels buffer = .ok (p, buffer') ∧ func.Rel SameOperands p)
      ↔ func.All OperandsFit :=
  chunk_operands_iff hcompile hlevels hbuffer

/-- No macro can be expanded. -/
def noMacros (_ : List MacroCall) (_ : MacroCall) : Except String (Sexp × List (Atom × Sexp)) :=
  .error "Could not generate macro!"

/-- Nothing generated yet. -/
def genStart : GenState := ⟨{}, [], []⟩

/-- What the generator makes of a program without macros. -/
def generate (e : Sexp) : Option Func :=
  (genSexp (sourceEnv true false noMacros) 8 e genStart).toOption.map Prod.fst

theorem genSexp_of_generate {e : Sexp} {func : Func} (h : generate e = some func) :
    ∃ st', genSexp (sourceEnv true false noMacros) 8 e genStart = .ok (func, st') := by
  unfold generate at h
  cases hgen : genSexp (sourceEnv true false noMacros) 8 e genStart with
  | error msg => rw [hgen] at h; cases h
  | ok x =>
      rw [hgen] at h
      obtain rfl : x.1 = func := Option.some.inj h
      exact ⟨x.2, rfl⟩

/-- The program `(f 0 0 ... 0)` with `n` arguments. -/
def callMany (n : Nat) : Sexp :=
  .sexp (.symbol (atom ['f']) 1 :: List.replicate n (.number 0#64 1)) 1

/-- What the VM reads of what the compiler writes. -/
def decoded (func : Func) : Option Proto := do
  let bytes ← (compile func none).toOption
  (readChunk 1 ⟨bytes, []⟩).toOption.map Prod.fst

theorem decoded_some {func : Func} {p : Proto} (h : decoded func = some p) :
    ∃ bytes buffer', compile func none = .ok bytes
      ∧ readChunk 1 ⟨bytes, []⟩ = .ok (p, buffer') := by
  obtain ⟨bytes, hbytes, h⟩ := Option.bind_eq_some_iff.mp h
  cases hread : readChunk 1 ⟨bytes, []⟩ with
  | error e => rw [hread] at h; cases h
  | ok x =>
      rw [hread] at h
      obtain rfl : x.1 = p := Option.some.inj h
      exact ⟨bytes, x.2, Outcome.toOption_eq_some.mp hbytes, hread⟩

theorem operands_survive_iff_one :
    ∃ func st' bytes, genSexp (sourceEnv true false noMacros) 8 (callMany 1) genStart
        = .ok (func, st') ∧ compile func none = .ok bytes
      ∧ ((∃ p buffer', readChunk 1 ⟨bytes, []⟩ = .ok (p, buffer') ∧ func.Rel SameOperands p)
        ↔ func.All OperandsFit) := by
  have hrun : ((generate (callMany 1)).bind fun f => (decoded f).map fun _ => f.depth)
      = some 1 := by decide +kernel
  obtain ⟨func, hfunc, hrun⟩ := Option.bind_eq_some_iff.mp hrun
  obtain ⟨p, hp, hdepth⟩ := Option.map_eq_some_iff.mp hrun
  obtain ⟨st', hgen⟩ := genSexp_of_generate hfunc
  obtain ⟨bytes, -, hcompile, -⟩ := decoded_some hp
  have hbuf : Holds ⟨bytes, []⟩ (bytes ++ []) := by simp [Holds]
  refine ⟨func, st', bytes, hgen, hcompile, ?_⟩
  exact operands_survive_iff hgen hcompile (Nat.le_of_eq hdepth) hbuf

/-- A call with 256 arguments is accepted and decoded as one with none. -/
theorem call256_truncated :
    ∃ func st' bytes p buffer', genSexp (sourceEnv true false noMacros) 8 (callMany 256) genStart
        = .ok (func, st') ∧ compile func none = .ok bytes
      ∧ readChunk 1 ⟨bytes, []⟩ = .ok (p, buffer')
      ∧ func.instructions[257]? = some ⟨.call, 256, 0⟩
      ∧ p.inst[257]? = some ⟨BitVec.ofNat 8 Op.call.code, 0#8, 0#16⟩ := by
  have hrun : ((generate (callMany 256)).bind fun f => (decoded f).map fun p =>
      (f.instructions[257]?, p.inst[257]?))
      = some (some ⟨.call, 256, 0⟩, some ⟨BitVec.ofNat 8 Op.call.code, 0#8, 0#16⟩) := by
    decide +kernel
  obtain ⟨func, hfunc, hrun⟩ := Option.bind_eq_some_iff.mp hrun
  obtain ⟨p, hp, hrun⟩ := Option.map_eq_some_iff.mp hrun
  obtain ⟨st', hgen⟩ := genSexp_of_generate hfunc
  obtain ⟨bytes, buffer', hcompile, hread⟩ := decoded_some hp
  obtain ⟨hput, hgot⟩ := Prod.mk.inj hrun
  exact ⟨func, st', bytes, p, buffer', hgen, hcompile, hread, hput, hgot⟩

end Saurus
