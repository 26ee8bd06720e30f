import Saurus.Format.Tree
import Saurus.Value

/-!
# What the generator works on

The syntax tree, the table of special forms, the scopes in which a symbol
is looked up, and `func`, the table a function is collected in. The lables
of a function are entered before its body is generated and stay as they
are, so they live in the scope and not in `func`.
-/

namespace Saurus

/-- A Lua string. -/
abbrev Atom : Type := List Byte

def atom (s : List Char) : Atom := s.map fun c => BitVec.ofNat 8 c.toNat

def Atom.text (a : Atom) : String := String.ofList (a.map fun c => Char.ofNat c.toNat)

/-- A node of the syntax tree: `NUMBER`, `SYMBOL` or `SEXP`. -/
inductive Sexp where
  | number (atom : BitVec 64) (line : Nat)
  | symbol (atom : Atom) (line : Nat)
  | sexp (data : List Sexp) (line : Nat)
deriving Repr

namespace Sexp

def line : Sexp → Nat
  | number _ line | symbol _ line | sexp _ line => line

/-- The atom of a node of type `SYMBOL`. -/
def symbol? : Sexp → Option Atom
  | symbol atom _ => some atom
  | _ => none

end Sexp

/-! ## Lines -/

mutual

/-- The lines of a syntax tree. -/
def Sexp.lines : Sexp → List Nat
  | .number _ line => [line]
  | .symbol _ line => [line]
  | .sexp data line => line :: Sexp.linesAll data

def Sexp.linesAll : List Sexp → List Nat
  | [] => []
  | e :: es => e.lines ++ Sexp.linesAll es

end

/-- All lines of the tree satisfy `L`. -/
def Sexp.Within (L : Nat → Prop) (e : Sexp) : Prop := ∀ n ∈ e.lines, L n

section Within

variable {L : Nat → Prop} {l : Nat} {data : List Sexp} {e : Sexp}

theorem mem_linesAll {n : Nat} : n ∈ Sexp.linesAll data ↔ ∃ e ∈ data, n ∈ e.lines := by
  induction data with
  | nil => simp [Sexp.linesAll]
  | cons e es ih => simp [Sexp.linesAll, ih]

theorem within_sexp : (Sexp.sexp data l).Within L ↔ L l ∧ ∀ e ∈ data, e.Within L := by
  unfold Sexp.Within
  rw [Sexp.lines, List.forall_mem_cons]
  refine and_congr_right fun _ => ⟨fun h e he n hn => h n (mem_linesAll.mpr ⟨e, he, hn⟩), ?_⟩
  intro h n hn
  obtain ⟨e, he, hn⟩ := mem_linesAll.mp hn
  exact h e he n hn

theorem within_symbol {s : Atom} : (Sexp.symbol s l).Within L ↔ L l := by
  simp [Sexp.Within, Sexp.lines]

theorem within_number {n : BitVec 64} : (Sexp.number n l).Within L ↔ L l := by
  simp [Sexp.Within, Sexp.lines]

theorem Sexp.Within.line (h : e.Within L) : L e.line := by
  cases e with
  | number n line => exact within_number.mp h
  | symbol s line => exact within_symbol.mp h
  | sexp data line => exact (within_sexp.mp h).1

end Within

/-! ## Special forms -/

inductive Special where
  | if | lambda | define | undef | macroDef | recur | do | quote | let
  | logical (op : Op)
  | greater (op : Op)
  | arith (op : Op)
deriving Repr, DecidableEq

/-- The table `specials`, in the order in which it is filled. -/
def specials : List (Atom × Special) :=
  [(atom ['i', 'f'], .if),
    (atom ['l', 'a', 'm', 'b', 'd', 'a'], .lambda),
    (atom ['d', 'e', 'f', 'i', 'n', 'e'], .define),
    (atom ['u', 'n', 'd', 'e', 'f'], .undef),
    (atom ['m', 'a', 'c', 'r', 'o'], .macroDef),
    (atom ['r', 'e', 'c'], .recur),
    (atom ['d', 'o'], .do),
    (atom ['q', 'u', 'o', 't', 'e'], .quote),
    (atom ['l', 'e', 't'], .let),
    (atom ['r', 'e', 'q'], .logical .eq),
    (atom ['<'], .logical .less),
    (atom ['>'], .greater .less),
    (atom ['<', '='], .logical .lequal),
    (atom ['>', '='], .greater .lequal),
    (atom ['n', 'o', 't'], .logical .not),
    (atom ['a', 'n', 'd'], .logical .and),
    (atom ['o', 'r'], .logical .or),
    (atom ['+'], .arith .add),
    (atom ['-'], .arith .sub),
    (atom ['*'], .arith .mul),
    (atom ['/'], .arith .div),
    (atom ['%'], .arith .mod),
    (atom ['^'], .arith .pow)]

/-- `specials[name]` -/
def specialNamed (name : Atom) : Option Special := specials.lookup name

/-! ## Scopes -/

/-- What a nested function sees of an enclosing one. -/
structure Scope where
  lables : List Atom
  topfunc : Bool
deriving Repr, DecidableEq

/-- A function being generated: its own scope and `func.parent`, nearest
first. -/
structure Ctx where
  own : Scope
  parents : List Scope
deriving Repr, DecidableEq

/-- `find_lable`, which searches from the end. -/
def findLable : List Atom → Atom → Option Nat
  | [], _ => none
  | l :: ls, lable =>
      match findLable ls lable with
      | some i => some (i + 1)
      | none => if l = lable then some 0 else none

/-- `find_up`, from the scopes `lv` levels up: level and index. -/
def findUp : Nat → List Scope → Atom → Option (Nat × Nat)
  | _, [], _ => none
  | lv, scope :: scopes, lable =>
      match findLable scope.lables lable with
      | some idx => some (lv, idx)
      | none => findUp (lv + 1) scopes lable

/-! ## The function table -/

/-- `func` while it is filled. -/
structure FuncTable where
  instructions : List Instr := []
  linenr : List Nat := []
  const : List Const := []
  prot : List Func := []
  up : List (Nat × Nat) := []
deriving Repr

namespace FuncTable

/-- `func.instructions[instidx] = inst; func.linenr[instidx] = line` -/
def emit (f : FuncTable) (inst : Instr) (line : Nat) : FuncTable :=
  { f with instructions := f.instructions ++ [inst], linenr := f.linenr ++ [line] }

/-- `func.instructions[idx][2] = a` -/
def setA (f : FuncTable) (idx a : Nat) : FuncTable :=
  { f with instructions := f.instructions.modify idx fun inst => { inst with a := a } }

/-- The finished function, with no name of its own. -/
def toFunc (f : FuncTable) : Func := .mk f.instructions f.const f.up f.prot none f.linenr

end FuncTable

/-- `==` on the strings, numbers and booleans of a constant table. -/
def constEq : Const → Const → Bool
  | .string s, .string t => s == t
  | .number m, .number n => numEq m n
  | .boolean b, .boolean c => b == c
  | _, _ => false

end Saurus
