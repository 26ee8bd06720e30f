import Saurus.Basis.Fuel
import Saurus.Gen.Syntax
import Saurus.Seq

/-!
# Printing

`print` calls `print_rec` on each argument. What that renders is the value at
its index only if the value on top of the stack is no sequence, or is the
value at the index: the test for a sequence looks at `STK(-1)`. The loop over
a sequence leaves its rests on the stack until it is done, so a sequence needs
as many slots as it has elements (`Printed.need`). And `print_rec` writes to
`stdout`, where `print` itself writes to the stream that `output` may have
set.
-/

namespace Saurus

open Basis Outcome

/-! ## What is written -/

/-- A `FILE *` -/
inductive File where
  | stdout
  | opened (n : Nat)
deriving DecidableEq

/-- One call of `fprintf` or `fputs`. -/
abbrev Write : Type := File × List Byte

/-- The conversions `%i`, `%f` and `%p`. -/
structure Printf where
  int : Int → List Byte
  double : BitVec 64 → List Byte
  pointer : BitVec 64 → List Byte

/-- What is on a stream after the writes. -/
def textOn (fp : File) (ws : List Write) : List Byte :=
  (ws.filter (·.1 = fp)).flatMap (·.2)

/-- The characters of a string up to its NUL. -/
def cstring (str : List Byte) : List Byte := str.takeWhile (· ≠ 0#8)

/-- `sprintf(s->scratch_pad, "<name %p>", ptr)` -/
def tagged (c : Printf) (name : List Char) (v : Value) : List Byte :=
  atom ('<' :: name ++ [' ']) ++ c.pointer v.obj ++ atom ['>']

/-- `su_stringify`. The text is returned as it is: a string of 512 bytes or more
is written past the end of `scratch_pad` by the code, which is left out here. -/
def stringify (c : Printf) (h : Host) (w : World) (v : Value) : Outcome (List Byte) :=
  match v.type with
  | .nil => pure (atom ['n', 'i', 'l'])
  | .boolean =>
      pure (if objB v then atom ['t', 'r', 'u', 'e'] else atom ['f', 'a', 'l', 's', 'e'])
  | .number => do
      let tmp ← h.toInt v.obj
      pure (if numEq v.obj (h.ofInt tmp) then c.int tmp else c.double v.obj)
  | .string => do
      match ← w.object v.addr with
      | .string _ str => pure (cstring str)
      | _ => .fault
  | .function => pure (tagged c ['f', 'u', 'n', 'c', 't', 'i', 'o', 'n'] v)
  | .nativefunc =>
      pure (tagged c
        ['n', 'a', 't', 'i', 'v', 'e', '-', 'f', 'u', 'n', 'c', 't', 'i', 'o', 'n'] v)
  | .nativeptr =>
      pure (tagged c ['n', 'a', 't', 'i', 'v', 'e', '-', 'p', 'o', 'i', 'n', 't', 'e', 'r'] v)
  | .nativedata => pure (tagged c ['n', 'a', 't', 'i', 'v', 'e', '-', 'd', 'a', 't', 'a'] v)
  | .vector => pure (tagged c ['v', 'e', 'c', 't', 'o', 'r'] v)
  | .map => pure (tagged c ['h', 'a', 's', 'h', 'm', 'a', 'p'] v)
  | .loc => pure (tagged c ['r', 'e', 'f', 'e', 'r', 'e', 'n', 'c', 'e'] v)
  | .inv => .raise "Invalid type!"
  | .itSeq | .cellSeq => pure (tagged c ['s', 'e', 'q', 'u', 'e', 'n', 'c', 'e'] v)
  | .seq => .fault

def out (text : List Char) : Write := (.stdout, atom text)

/-- `if (i > 0) fprintf(fp, " ")` -/
def separator (i : Nat) : List Write := if 0 < i then [out [' ']] else []

mutual

/-- `print_rec(s, -k)` within `fuel` nested calls and turns. -/
def printRec (c : Printf) (h : Host) : Nat → Vm → Nat → Outcome (Vm × List Write)
  | 0, _, _ => .fault
  | fuel + 1, s, k => do
      let type ← s.suType k
      let top ← s.suType 1
      if top = .seq then do
        let (s, i, ws) ← printSeq c h fuel s 0
        let s ← s.pop i
        pure (s, out ['('] :: ws ++ [out [')']])
      else
        match type with
        | .vector => do
            let tmp ← s.suVectorLength k
            let (s, ws) ← printVector c h fuel s k tmp 0
            pure (s, out ['['] :: ws ++ [out [']']])
        | .map => pure (s, [out ['{'], out ['}']])
        | .string => do
            match ← s.world.object (← s.stk k).addr with
            | .string _ str => pure (s, [(.stdout, cstring str)])
            | _ => .fault
        | _ => do
            let str ← stringify c h s.world (← s.stk k)
            pure (s, [(.stdout, str)])
termination_by structural fuel => fuel

/-- The loop over a sequence, from its turn `i` on; the number it ends with is
that of the values it leaves. -/
def printSeq (c : Printf) (h : Host) : Nat → Vm → Nat → Outcome (Vm × Nat × List Write)
  | 0, _, _ => .fault
  | fuel + 1, s, i => do
      let type ← s.suType 1
      if type = .nil then pure (s, i, [])
      else do
        let s ← s.suFirst 1
        let (s, ws) ← printRec c h fuel s 1
        let s ← s.pop 1
        let s ← s.suRest h 1
        let (s, n, rest) ← printSeq c h fuel s (i + 1)
        pure (s, n, separator i ++ ws ++ rest)
termination_by structural fuel => fuel

/-- The loop over the vector at `STK(-k)`, from its turn `i` on. -/
def printVector (c : Printf) (h : Host) :
    Nat → Vm → Nat → Int → Nat → Outcome (Vm × List Write)
  | 0, _, _, _, _ => .fault
  | fuel + 1, s, k, tmp, i =>
      if i < tmp then do
        let s ← s.pushValue ⟨.number, h.ofInt i⟩
        let s ← s.suVectorIndex h (k + 1)
        let (s, ws) ← printRec c h fuel s 1
        let s ← s.pop 1
        let (s, rest) ← printVector c h fuel s k tmp (i + 1)
        pure (s, separator i ++ ws ++ rest)
      else pure (s, [])
termination_by structural fuel => fuel

end

/-- The loop of `print`, and what each of its turns writes; `fp` is
`su_stdout(s)`. -/
def printLoop (c : Printf) (h : Host) (fp : File) (fuel : Nat) :
    Vm → Nat → Outcome (Vm × List (List Write))
  | s, 0 => pure (s, [])
  | s, narg + 1 => do
      let (s, ws) ← printRec c h fuel s (narg + 1)
      let (s, turns) ← printLoop c h fp fuel s narg
      pure (s, (ws ++ [(fp, atom ['\t'])]) :: turns)

/-- `print`, with the number it returns. -/
def libPrint (c : Printf) (h : Host) (fp : File) (fuel : Nat) (s : Vm) (narg : Nat) :
    Outcome (Vm × List (List Write) × Nat) := do
  let (s, turns) ← printLoop c h fp fuel s narg
  pure (s, turns ++ [[(fp, atom ['\n'])]], 0)

/-! ## Renderings -/

/-- What a value is to a reader of the output. -/
inductive Printed where
  | scalar (text : List Byte)
  | vector (ts : List Printed)
  | seq (ts : List Printed)

namespace Printed

def IsSeq : Printed → Prop
  | seq _ => True
  | _ => False

instance : DecidablePred IsSeq
  | seq _ => .isTrue trivial
  | scalar _ => .isFalse not_false
  | vector _ => .isFalse not_false

mutual

def render : Printed → List Byte
  | scalar text => text
  | vector ts => atom ['['] ++ renderAll 0 ts ++ atom [']']
  | seq ts => atom ['('] ++ renderAll 0 ts ++ atom [')']

/-- The elements from number `i` on. -/
def renderAll : Nat → List Printed → List Byte
  | _, [] => []
  | i, t :: ts => (if 0 < i then atom [' '] else []) ++ t.render ++ renderAll (i + 1) ts

end

mutual

/-- The slots that printing takes above the stack. -/
def need : Printed → Nat
  | scalar _ => 0
  | vector ts => needVector ts
  | seq ts => needSeq ts

/-- An element of a vector is printed where the one before it was. -/
def needVector : List Printed → Nat
  | [] => 0
  | t :: ts => max (t.need + 1) (needVector ts)

/-- An element of a sequence is printed above the rests so far. -/
def needSeq : List Printed → Nat
  | [] => 0
  | t :: ts => max t.need (needSeq ts) + 1

end

mutual

/-- The objects that printing may make: new iterators. -/
def size : Printed → Nat
  | scalar _ => 0
  | vector ts => sizeAll ts
  | seq ts => sizeAll ts

def sizeAll : List Printed → Nat
  | [] => 0
  | t :: ts => t.size + sizeAll ts + 1

end

end Printed

end Saurus
