import Saurus.Gen.Forms
import Saurus.Vm.Step

/-!
# What programs mean

A definitional interpreter of the syntax tree, to compare the code that is
generated with. Scopes are lexical, arguments are evaluated from left to
right, a function keeps the scopes around it, and globals are defined once;
it knows no stack, no frames and no world of objects.

A fault gives no meaning: where the bound on nested evaluations is used up,
where the generator has no code for a form, and for `true`, `false`, `not`
and `or`, which are generated as something else. The last form of a `do` is
generated as a tail call wherever the `do` stands, so a `do` has a meaning
only where the value is the function's, or where no tail calls are made. The
number `-0` has none, since it may be taken for `0`.

Arithmetic and the natives are parameters, as in `Host`.
-/

namespace Saurus

open Basis

/-! ## Values -/

/-- A value of a program. A closure keeps the scopes around it, nearest
first; `program` is the function that was loaded, which only `rec` outside
any lambda has a use for; `other` is whatever natives pass around and
programs cannot look into. -/
inductive SVal where
  | nil
  | boolean (b : Bool)
  | number (n : BitVec 64)
  | string (s : Atom)
  | cell (first rest : SVal)
  | vector (vs : List SVal)
  | native (p : BitVec 64)
  | closure (lables : List Atom) (numArgs : Int) (body : List Sexp)
      (outer : List (List (Atom × SVal)))
  | program
  | other (v : Value)

/-- The lables of a function and what they stand for. -/
abbrev Bindings : Type := List (Atom × SVal)

/-- The globals that were defined, the last one first. -/
abbrev Globals : Type := List (Atom × SVal)

/-- Where an expression is evaluated: the function that runs, its own
bindings, and the scopes around it. -/
structure Env where
  self : SVal
  own : Bindings
  outer : List Bindings

/-- What the meaning of a program depends on besides the program. -/
structure Dialect where
  host : Host
  native : BitVec 64 → List SVal → Outcome SVal
  optTail : Bool

abbrev EvalM (α : Type) : Type := StateT Globals Outcome α

/-- A function of the interpreter that evaluates expressions: `tail` and
`quoted` are those of `gen`. -/
abbrev Eval : Type := Env → Sexp → Bool → Bool → EvalM SVal

def say {α : Type} (x : Outcome α) : EvalM α := StateT.lift x

def unsaid {α : Type} : EvalM α := say .fault

namespace SVal

def type : SVal → ValType
  | nil => .nil
  | boolean _ => .boolean
  | number _ => .number
  | string _ => .string
  | cell _ _ => .cellSeq
  | vector _ => .vector
  | native _ => .nativefunc
  | closure .. => .function
  | program => .function
  | other v => v.type

/-- Everything but nil and false is true. -/
def truthy : SVal → Bool
  | nil => false
  | boolean b => b
  | other v => Saurus.truthy v
  | _ => true

/-- The number in an operand. -/
def toNumber : SVal → Outcome (BitVec 64)
  | number n => .ok n
  | other _ => .fault
  | x => do
      let name ← typeName x.type
      .raise ("Bad argument: Expected number, but got " ++ name ++ ".")

/-- Numbers and strings are compared by what they are, and values of
different types are different. -/
def eq : SVal → SVal → Outcome SVal
  | number m, number n => .ok (.boolean (numEq m n))
  | string s, string t => .ok (.boolean (s == t))
  | other _, _ => .fault
  | _, other _ => .fault
  | x, y => if x.type = y.type then .fault else .ok (.boolean false)

/-- What a constant symbol stands for, or a quoted one. -/
def ofSymbol (sym : Atom) : SVal := if sym = nilAtom then .nil else .string sym

end SVal

/-! ## Operators -/

namespace Dialect

def arith (f : BitVec 64 → BitVec 64 → BitVec 64) (x y : SVal) : Outcome SVal := do
  let m ← x.toNumber
  let n ← y.toNumber
  .ok (.number (f m n))

def compare (f : BitVec 64 → BitVec 64 → Bool) (x y : SVal) : Outcome SVal := do
  let m ← x.toNumber
  let n ← y.toNumber
  .ok (.boolean (f m n))

/-- The remainder of the integer parts. -/
def remainder (h : Host) (x y : SVal) : Outcome SVal := do
  let m ← x.toNumber
  let n ← y.toNumber
  let i ← h.toInt m
  let j ← h.toInt n
  Outcome.require (decide (j ≠ 0 ∧ ¬ (i = -2 ^ 31 ∧ j = -1)))
  .ok (.number (h.ofInt (Int.tmod i j)))

/-- An operator on two values. -/
def binary (d : Dialect) (op : Op) (x y : SVal) : Outcome SVal :=
  match op with
  | .add => arith d.host.add x y
  | .sub => arith d.host.sub x y
  | .mul => arith d.host.mul x y
  | .div => arith d.host.div x y
  | .pow => arith d.host.pow x y
  | .mod => remainder d.host x y
  | .less => compare d.host.lt x y
  | .lequal => compare d.host.le x y
  | .eq => x.eq y
  | .and => .ok (.boolean (x.truthy && y.truthy))
  | _ => .fault

def negate (d : Dialect) (x : SVal) : Outcome SVal := do
  let n ← x.toNumber
  .ok (.number (d.host.neg n))

end Dialect

/-! ## Scopes -/

/-- The scopes of functions around a form, as the generator sees them: the
outermost function is that of the whole program. -/
def scopesOf : List Bindings → List Scope
  | [] => []
  | scope :: scopes => ⟨scope.map Prod.fst, scopes.isEmpty⟩ :: scopesOf scopes

def globalAtom : Atom := atom ['_', 'G']

namespace Env

def ctx (ρ : Env) : Ctx := ⟨⟨ρ.own.map Prod.fst, ρ.outer.isEmpty⟩, scopesOf ρ.outer⟩

/-- The nearest binding; in a scope the last one. -/
def find? (ρ : Env) (sym : Atom) : Option SVal :=
  match ρ.own.reverse.lookup sym with
  | some x => some x
  | none => ρ.outer.findSome? fun scope => scope.reverse.lookup sym

/-- The value of a symbol. `_G` changes with every definition, and is given
no meaning. -/
def fetch (ρ : Env) (sym : Atom) : EvalM SVal := fun γ =>
  match ρ.find? sym with
  | some x => .ok (x, γ)
  | none =>
      if sym = globalAtom then .fault
      else match γ.lookup sym with
        | some x => .ok (x, γ)
        | none => .raise ("Can't access global variable: " ++ sym.text)

end Env

/-- A global is defined once; `nil` is no name. -/
def defineGlobal (name : Atom) (x : SVal) : EvalM SVal := fun γ =>
  if name = globalAtom ∨ name = nilAtom then .fault
  else if (γ.lookup name).isSome then .raise ("Redefinition of global variable: " ++ name.text)
  else .ok (x, (name, x) :: γ)

/-- In the function of `ρ` a call in tail position is a tail call: everywhere
but in the functions the program itself defines. -/
def Dialect.tailCalls (d : Dialect) (ρ : Env) : Bool := d.optTail && ρ.outer.length != 1

/-! ## Forms -/

section Forms

variable (d : Dialect) (ev : Eval) (ρ : Env)

def evalAll (quoted : Bool) : List Sexp → EvalM (List SVal)
  | [] => pure []
  | e :: es => do
      let x ← ev ρ e false quoted
      let xs ← evalAll quoted es
      pure (x :: xs)

def evalBody : List Sexp → EvalM SVal
  | [] => unsaid
  | [e] => ev ρ e true false
  | e :: es => do
      let _ ← ev ρ e false false
      evalBody es

/-- A function called on values. -/
def apply (f : SVal) (args : List SVal) : EvalM SVal :=
  match f with
  | .closure lables numArgs body outer =>
      if numArgs < 0 then
        match lables with
        | [lable] => evalBody ev ⟨f, [(lable, .vector args)], outer⟩ body
        | _ => unsaid
      else if numArgs = args.length then evalBody ev ⟨f, lables.zip args, outer⟩ body
      else say (.raise ("Bad number of arguments to function! Expected " ++ toString numArgs
        ++ ", but got " ++ toString args.length ++ "."))
  | .native p => say (d.native p args)
  | .vector vs =>
      match args with
      | [] => say (.raise "Expected at least one argument!")
      | [i] => say (do
          let n ← i.toNumber
          let k ← d.host.toInt n
          if 0 ≤ k ∧ k < vs.length then Outcome.ofOption vs[k.toNat]?
          else .raise s!"Index is out of bounds: {k}")
      | _ => say (.raise "Not implemented!")
  | .program => unsaid
  | .other _ => unsaid
  | x => say (do
      let name ← typeName x.type
      .raise ("Expected function to call, got '" ++ name ++ "'."))

def evalCall (data : List Sexp) : EvalM SVal := do
  match ← evalAll ev ρ false data with
  | [] => unsaid
  | f :: args => apply d ev f args

def evalRec (data : List Sexp) : EvalM SVal := do
  let args ← evalAll ev ρ false data.tail
  apply d ev ρ.self args

def evalDo (data : List Sexp) (tail : Bool) : EvalM SVal :=
  if tail || !d.tailCalls ρ then evalBody ev ρ (if data.tail.isEmpty then data else data.tail)
  else unsaid

/-- A list under `quote` is made by whatever `list` is there. -/
def evalList (e : Sexp) (tail : Bool) : EvalM SVal :=
  match e with
  | .sexp [] _ => unsaid
  | .sexp (x :: xs) _ =>
      if x.symbol? = some (atom ['u', 'n', 'q', 'u', 'o', 't', 'e']) then
        match xs with
        | [] => unsaid
        | e :: _ => ev ρ e tail false
      else do
        let f ← ρ.fetch (atom ['l', 'i', 's', 't'])
        let args ← evalAll ev ρ true (x :: xs)
        apply d ev f args
  | e => ev ρ e tail true

def evalQuote (data : List Sexp) (tail : Bool) : EvalM SVal :=
  match data[1]? with
  | none => unsaid
  | some e => evalList d ev ρ e tail

def evalIf (data : List Sexp) (tail : Bool) : EvalM SVal :=
  match data[1]?, data[2]? with
  | some c, some t => do
      let x ← ev ρ c false false
      if x.truthy then ev ρ t tail false
      else ev ρ (data[3]?.getD (.symbol nilAtom t.line)) tail false
  | _, _ => unsaid

/-- The parameters of a function, and how many arguments it takes; a single
symbol takes them all. -/
def lambdaParams : Sexp → Option (List Atom × Int)
  | .sexp data _ => (data.mapM Sexp.symbol?).map fun lables => (lables, data.length)
  | .symbol lable _ => some ([lable], -1)
  | .number .. => none

def evalLambda (data : List Sexp) : EvalM SVal :=
  match data with
  | _ :: args :: e :: es =>
      match lambdaParams args with
      | some (lables, numArgs) => pure (.closure lables numArgs (e :: es) (ρ.own :: ρ.outer))
      | none => unsaid
  | _ => unsaid

/-- The keys and the values of a `let`. -/
def letBindings : List Sexp → List Sexp × List Sexp
  | k :: v :: rest => (k :: (letBindings rest).1, v :: (letBindings rest).2)
  | _ => ([], [])

/-- A function of the keys is called on the values. -/
def evalLet (data : List Sexp) : EvalM SVal :=
  match data with
  | _ :: .sexp args line :: e :: es => do
      let f ← evalLambda ρ (.symbol (atom ['l', 'a', 'm', 'b', 'd', 'a']) line
        :: .sexp (letBindings args).1 line :: e :: es)
      let values ← evalAll ev ρ false (letBindings args).2
      apply d ev f values
  | _ => unsaid

def evalDefine (data : List Sexp) : EvalM SVal :=
  match data with
  | [_, .symbol name _, value] => do
      let x ← ev ρ value false false
      defineGlobal name x
  | _ => unsaid

/-- Two operands, or a call of the operator's function on more. -/
def evalOperator (op : Op) (data operands : List Sexp) : EvalM SVal :=
  if data.length < 3 then unsaid
  else if 3 < data.length then evalCall d ev ρ data
  else do
    match ← evalAll ev ρ false operands with
    | [x, y] => say (d.binary op x y)
    | _ => unsaid

def evalArith (op : Op) (data : List Sexp) : EvalM SVal :=
  match op, data with
  | .sub, [_, e] => do
      let x ← ev ρ e false false
      say (d.negate x)
  | _, _ => evalOperator d ev ρ op data data.tail

def evalSpecial (spe : Special) (data : List Sexp) (tail : Bool) : EvalM SVal :=
  match spe with
  | .if => evalIf ev ρ data tail
  | .lambda => evalLambda ρ data
  | .define => evalDefine ev ρ data
  | .undef => unsaid
  | .macroDef => unsaid
  | .recur => evalRec d ev ρ data
  | .do => evalDo d ev ρ data tail
  | .quote => evalQuote d ev ρ data tail
  | .let => evalLet d ev ρ data
  | .logical op => evalOperator d ev ρ op data data.tail
  | .greater op => evalOperator d ev ρ op data data.tail.reverse
  | .arith op => evalArith d ev ρ op data

/-- The double `-0`. -/
def negativeZero : BitVec 64 := 0x8000000000000000#64

/-- The special form a list begins with. -/
def specialOf : List Sexp → Option Special
  | .symbol name _ :: _ => specialNamed name
  | _ => none

/-- One expression, `ev` being used for the parts. -/
def evalNode (e : Sexp) (tail quoted : Bool) : EvalM SVal :=
  match e with
  | .number n _ => if n = negativeZero then unsaid else pure (.number n)
  | .symbol sym _ =>
      if quoted || sym = nilAtom then pure (SVal.ofSymbol sym)
      else if isConstant sym then unsaid
      else ρ.fetch sym
  | .sexp data line =>
      if quoted then evalList d ev ρ (.sexp data line) tail
      else match specialOf data with
        | some spe => evalSpecial d ev ρ spe data tail
        | none => evalCall d ev ρ data

end Forms

/-- Evaluation within `fuel` nested expressions. -/
def Dialect.eval (d : Dialect) : Nat → Eval
  | 0 => fun _ _ _ _ => unsaid
  | fuel + 1 => evalNode d (d.eval fuel)

end Saurus
