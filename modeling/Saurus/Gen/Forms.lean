import Saurus.Gen.Syntax

/-!
# The code generator

`gen` and the function of every special form. Each takes the recursive
`gen` as its argument, so that what it adds can be stated on its own; `gen`
itself recurses on a bound that stands for the depth of the Lua stack.

Expanding a macro compiles it and runs it on a VM of its own; its result is
a parameter, a function of the expansions before it and of the call. The
table of special forms is a parameter too, by the number of functions around
the form, and the source uses one table for all of them (`sourceEnv`).
-/

namespace Saurus

/-- A macro call about to be expanded. -/
structure MacroCall where
  macros : List (Atom × Sexp)
  name : Atom
  args : List Sexp
  line : Nat

/-- What the generator is run with. -/
structure GenEnv where
  optTail : Bool
  inMacroWorld : Bool
  special : Nat → Atom → Option Special
  expand : List MacroCall → MacroCall → Except String (Sexp × List (Atom × Sexp))

/-- The state of a run: `func`, the `macros`, and the expansions made. -/
structure GenState where
  func : FuncTable
  macros : List (Atom × Sexp)
  expanded : List MacroCall

abbrev GenM (α : Type) : Type := StateT GenState (Except String) α

/-- `gen(func, sexp, tail, quoted)` -/
abbrev Gen : Type := Ctx → Sexp → Bool → Bool → GenM Unit

/-- `gen_error` -/
def genError {α : Type} (msg : String) (line : Nat) : GenM α :=
  throw (msg ++ " Line: " ++ toString line)

/-- An error of Lua itself: `assert`, or indexing nil. -/
def luaError {α : Type} (msg : String) : GenM α := throw msg

def getFunc : GenM FuncTable := do return (← get).func

def setFunc (f : FuncTable) : GenM Unit := modify fun st => { st with func := f }

/-! ## Instructions -/

/-- An instruction at a line that is given. -/
def emit (inst : Instr) (line : Nat) : GenM Unit := do setFunc ((← getFunc).emit inst line)

/-- `gen_inst`: without a line, that of the instruction before. -/
def genInst (inst : Instr) (line : Option Nat) : GenM Unit := do
  let func ← getFunc
  emit inst (line.getD (func.linenr.getLast?.getD 1))

/-- `call_or_tail` -/
def callOrTail (env : GenEnv) (ctx : Ctx) (tail : Bool) (line : Option Nat) (narg : Nat) :
    GenM Unit :=
  let real := tail && env.optTail && !(ctx.parents.head?.any Scope.topfunc)
  genInst { op := if real then .tcall else .call, a := narg } line

/-- `push_const`: the index of a constant, new ones at the end. -/
def pushConst (const : Const) : GenM Nat := do
  let func ← getFunc
  match func.const.findIdx? fun v => constEq v const with
  | some constid => pure constid
  | none => do
      setFunc { func with const := func.const ++ [const] }
      pure func.const.length

/-- `gen_const` -/
def genConst (const : Const) (line : Nat) : GenM Unit := do
  let constid ← pushConst const
  genInst { op := .push, a := constid } (some line)

/-- `gen_fetch` -/
def genFetch (ctx : Ctx) (sym : Atom) (line : Nat) : GenM Unit :=
  match findLable ctx.own.lables sym with
  | some id => emit { op := .load, a := id } line
  | none =>
      match findUp 1 ctx.parents sym with
      | some (lv, id) => do
          let func ← getFunc
          setFunc { func with up := func.up ++ [(lv, id)] }
          emit { op := .load, a := ctx.own.lables.length + func.up.length } line
      | none => do
          let constid ← pushConst (.string sym)
          emit { op := .getglobal, a := constid } line

/-! ## Calls and sequences -/

/-- The loop over arguments. -/
def genAll (gen : Gen) (ctx : Ctx) (quoted : Bool) : List Sexp → GenM Unit
  | [] => pure ()
  | e :: es => do
      gen ctx e false quoted
      genAll gen ctx quoted es

/-- `gen_funccall` -/
def genFunccall (env : GenEnv) (gen : Gen) (ctx : Ctx) (data : List Sexp) (line : Nat)
    (tail : Bool) : GenM Unit := do
  if data.isEmpty then luaError "assertion failed!"
  genAll gen ctx false data
  callOrTail env ctx tail (some line) (data.length - 1)

/-- `gen_rec` -/
def genRec (env : GenEnv) (gen : Gen) (ctx : Ctx) (data : List Sexp) (line : Nat) (tail : Bool) :
    GenM Unit := do
  genInst { op := .copy } (some line)
  genAll gen ctx false data.tail
  callOrTail env ctx tail (some line) (data.length - 1)

/-- Forms in sequence, all values but the last one popped; the last form is
generated as a tail whatever the sequence stands in. -/
def genBody (gen : Gen) (ctx : Ctx) : List Sexp → GenM Unit
  | [] => pure ()
  | [e] => gen ctx e true false
  | e :: es => do
      gen ctx e false false
      genInst { op := .pop, a := 1 } none
      genBody gen ctx es

/-- `gen_do`: the last element is the head itself when there is no other. -/
def genDo (gen : Gen) (ctx : Ctx) (data : List Sexp) : GenM Unit :=
  genBody gen ctx (if data.tail.isEmpty then data else data.tail)

/-! ## Quoting -/

/-- `gen_list` -/
def genList (env : GenEnv) (gen : Gen) (ctx : Ctx) (e : Sexp) (tail : Bool) : GenM Unit :=
  match e with
  | .sexp [] _ => luaError "assertion failed!"
  | .sexp (d :: ds) line =>
      if d.symbol? = some (atom ['u', 'n', 'q', 'u', 'o', 't', 'e']) then
        match ds with
        | [] => luaError "attempt to index a nil value"
        | e :: _ => gen ctx e tail false
      else do
        genFetch ctx (atom ['l', 'i', 's', 't']) line
        genAll gen ctx true (d :: ds)
        callOrTail env ctx tail (some line) (ds.length + 1)
  | e => gen ctx e tail true

/-- `gen_quote` -/
def genQuote (env : GenEnv) (gen : Gen) (ctx : Ctx) (data : List Sexp) (tail : Bool) :
    GenM Unit :=
  match data[1]? with
  | none => luaError "attempt to index a nil value"
  | some e => genList env gen ctx e tail

/-! ## Conditionals -/

/-- `#func.instructions` -/
def here : GenM Nat := do return (← getFunc).instructions.length

/-- `func.instructions[idx][2] = #func.instructions` -/
def setTarget (idx : Nat) : GenM Unit := do
  let func ← getFunc
  setFunc (func.setA idx func.instructions.length)

/-- The name of nil. -/
def nilAtom : Atom := atom ['n', 'i', 'l']

/-- `gen_if` -/
def genIf (gen : Gen) (ctx : Ctx) (data : List Sexp) (line : Nat) (tail : Bool) : GenM Unit :=
  match data[1]?, data[2]? with
  | some c, some t => do
      gen ctx c false false
      let condidx ← here
      emit { op := .test } c.line
      gen ctx (data[3]?.getD (.symbol nilAtom t.line)) tail false
      let jmpidx ← here
      emit { op := .jmp } ((data[3]?.getD t).line)
      setTarget condidx
      gen ctx t tail false
      setTarget jmpidx
  | _, _ => genError "Expected at least 2 arguments to 'if' statement!" line

/-! ## Functions -/

/-- The parameters: the labels, and `num_args`. -/
def lambdaArgs : Sexp → GenM (List Atom × Int)
  | .sexp data _ => do
      let lables ← data.mapM fun arg =>
        match arg.symbol? with
        | some lable => pure lable
        | none => genError "Invalid lambda!" arg.line
      pure (lables, data.length)
  | .symbol lable _ => pure ([lable], -1)
  | .number .. => luaError "attempt to index a nil value"

/-- `gen_lambda` -/
def genLambda (gen : Gen) (ctx : Ctx) (data : List Sexp) (line : Nat) : GenM Unit := do
  if data.length < 2 then genError "Expected at least one arguments to lambda!" line
  match data.drop 1 with
  | args :: e :: es => do
      let (lables, numArgs) ← lambdaArgs args
      let func ← getFunc
      setFunc {}
      genBody gen ⟨⟨lables, false⟩, ctx.own :: ctx.parents⟩ (e :: es)
      genInst { op := .return } none
      let newFunc ← getFunc
      setFunc { func with prot := func.prot ++ [newFunc.toFunc] }
      genInst { op := .lambda, a := func.prot.length, b := numArgs } (some line)
  | _ => genError "Not implemented!" line

/-- The loop over the bindings of `let`: keys and values. -/
def letPairs (line : Nat) : List Sexp → GenM (List Sexp × List Sexp)
  | k :: v :: rest => do
      if k.symbol?.isNone then genError "Expected key to be symbol." line
      let (keys, values) ← letPairs line rest
      pure (k :: keys, v :: values)
  | _ => pure ([], [])

/-- `gen_let` -/
def genLet (env : GenEnv) (gen : Gen) (ctx : Ctx) (data : List Sexp) (line : Nat) (tail : Bool) :
    GenM Unit := do
  if data.length < 3 then genError "Expected at least two arguments to let." line
  match (data[1]? : Option Sexp) with
  | some (Sexp.sexp args _) => do
      if args.length % 2 ≠ 0 then genError "Expected key value pairs." line
      let (keys, values) ← letPairs line args
      genLambda gen ctx (.symbol (atom ['l', 'a', 'm', 'b', 'd', 'a']) line
        :: .sexp keys line :: data.drop 2) line
      genAll gen ctx false values
      callOrTail env ctx tail (some line) values.length
  | _ => genError "Expected s-expression." line

/-- `gen_define` -/
def genDefine (gen : Gen) (ctx : Ctx) (data : List Sexp) (line : Nat) : GenM Unit :=
  match data with
  | [_, sym, value] =>
      match sym.symbol? with
      | none => genError "Expected symbol!" sym.line
      | some name => do
          gen ctx value false false
          let constid ← pushConst (.string name)
          genInst { op := .setglobal, a := constid } (some sym.line)
  | _ => genError "Expected 2 arguments to define!" line

/-! ## Operators -/

/-- Two operands in the order given, or a call of the operator's function. -/
def genOperator (env : GenEnv) (gen : Gen) (ctx : Ctx) (op : Op) (data operands : List Sexp)
    (line : Nat) (tail : Bool) (err : String) : GenM Unit :=
  if data.length < 3 then genError err line
  else if 3 < data.length then genFunccall env gen ctx data line tail
  else do
    genAll gen ctx false operands
    genInst { op := op } (some line)

def logicalError : String := "Expected at least 2 arguments in logical operation!"

/-- `gen_arith` -/
def genArith (env : GenEnv) (gen : Gen) (ctx : Ctx) (op : Op) (data : List Sexp) (line : Nat)
    (tail : Bool) : GenM Unit :=
  match op, data with
  | .sub, [_, e] => do
      gen ctx e false false
      genInst { op := .unm } (some line)
  | _, _ =>
      genOperator env gen ctx op data data.tail line tail
        "Expected at least 2 arguments in arithmetic operation!"

/-- `gen_logical` -/
def genLogical (env : GenEnv) (gen : Gen) (ctx : Ctx) (op : Op) (data : List Sexp) (line : Nat)
    (tail : Bool) : GenM Unit :=
  genOperator env gen ctx op data data.tail line tail logicalError

/-- `gen_greater` and `gen_greater_eq`: the operands in reverse, and `tail`
a global that nothing sets. -/
def genGreater (env : GenEnv) (gen : Gen) (ctx : Ctx) (op : Op) (data : List Sexp) (line : Nat) :
    GenM Unit :=
  genOperator env gen ctx op data data.tail.reverse line false logicalError

/-! ## Macros -/

/-- `gen_macro`: the definition is kept as the `lambda` it is turned into. -/
def genMacro (data : List Sexp) (line : Nat) : GenM Unit :=
  match data with
  | _ :: sym :: args :: e :: es =>
      match sym.symbol? with
      | none => genError "Macro definition expected symbol!" line
      | some name => do
          match args with
          | .sexp params _ =>
              match params.find? fun arg => arg.symbol?.isNone with
              | some arg => genError "Invalid macro!" arg.line
              | none => pure ()
          | .symbol .. => pure ()
          | .number .. => genError "Invalid macro!" args.line
          let st ← get
          if (st.macros.lookup name).isSome then
            genError ("Redefinition of '" ++ Atom.text name ++ "'.") line
          set { st with macros := st.macros ++ [(name, Sexp.sexp
            (Sexp.symbol (atom ['l', 'a', 'm', 'b', 'd', 'a']) sym.line :: args :: e :: es) line)] }
  | _ => genError "Expected at least 3 arguments to macro!" line

/-- `ismacro` -/
def isMacro (env : GenEnv) (macros : List (Atom × Sexp)) (data : List Sexp) : Option Atom :=
  match data with
  | .symbol name _ :: _ =>
      if !env.inMacroWorld && (macros.lookup name).isSome then some name else none
  | _ => none

/-- `gen_macro_expansion` -/
def genMacroExpansion (env : GenEnv) (name : Atom) (data : List Sexp) (line : Nat) :
    GenM Sexp := do
  let st ← get
  let call : MacroCall := ⟨st.macros, name, data.tail, line⟩
  match env.expand st.expanded call with
  | .error msg => throw msg
  | .ok (e, macros) => do
      set { st with macros := macros, expanded := st.expanded ++ [call] }
      pure e

/-! ## Expressions -/

/-- `isspecial`, in a function with `depth` functions around it. -/
def isSpecial (env : GenEnv) (depth : Nat) (data : List Sexp) : Option Special :=
  match data with
  | .symbol name _ :: _ => env.special depth name
  | _ => none

/-- `spe_func(func, sexp, tail)` -/
def genSpecial (env : GenEnv) (gen : Gen) (ctx : Ctx) (spe : Special) (data : List Sexp)
    (line : Nat) (tail : Bool) : GenM Unit :=
  match spe with
  | .if => genIf gen ctx data line tail
  | .lambda => genLambda gen ctx data line
  | .define => genDefine gen ctx data line
  | .undef => genError "Not implemented!" line
  | .macroDef => genMacro data line
  | .recur => genRec env gen ctx data line tail
  | .do => genDo gen ctx data
  | .quote => genQuote env gen ctx data tail
  | .let => genLet env gen ctx data line tail
  | .logical op => genLogical env gen ctx op data line tail
  | .greater op => genGreater env gen ctx op data line
  | .arith op => genArith env gen ctx op data line tail

/-- Symbols that stand for constants. -/
def isConstant (sym : Atom) : Bool :=
  sym == nilAtom || sym == atom ['t', 'r', 'u', 'e'] || sym == atom ['f', 'a', 'l', 's', 'e']

/-- `gen` within `depth` nested calls. -/
def gen (env : GenEnv) : Nat → Gen
  | 0, _, _, _, _ => luaError "stack overflow"
  | depth + 1, ctx, e, tail, quoted =>
      match e with
      | .number n line => genConst (.number n) line
      | .symbol sym line =>
          if quoted || isConstant sym then genConst (.string sym) line
          else genFetch ctx sym line
      | .sexp data line =>
          if quoted then genList env (gen env depth) ctx e tail
          else do
            match isMacro env (← get).macros data with
            | some name => do
                let e ← genMacroExpansion env name data line
                gen env depth ctx e tail false
            | none =>
                match isSpecial env ctx.parents.length data with
                | some spe => genSpecial env (gen env depth) ctx spe data line tail
                | none => genFunccall env (gen env depth) ctx data line tail

/-- The scope of the function around the whole program. -/
def topCtx : Ctx := ⟨⟨[], true⟩, []⟩

/-- `gen_sexp` -/
def genSexp (env : GenEnv) (depth : Nat) (e : Sexp) : GenM Func := do
  setFunc {}
  gen env depth topCtx e false false
  genInst { op := .load } none
  callOrTail env topCtx false none 1
  genInst { op := .return } none
  return (← getFunc).toFunc

/-- The generator of the source, which has one table for all depths. -/
def sourceEnv (optTail inMacroWorld : Bool)
    (expand : List MacroCall → MacroCall → Except String (Sexp × List (Atom × Sexp))) : GenEnv :=
  ⟨optTail, inMacroWorld, fun _ => specialNamed, expand⟩

end Saurus
