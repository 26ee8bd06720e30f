import Saurus.Basis.Codec
import Saurus.Gen.Forms

/-!
# The generator over its effects

`gen` of `Gen.Forms` loses its state with an error. What an error leaves
behind is a question of the effects alone: how a piece of the generator that
comes to no other form is run, what a macro definition does, and what a call
of a macro expands to. `GenOps` has these, and the generator is written once
more over any of them; over the effects of `Gen.Forms` it is the same
(`gen_pure`).

Two runs with related effects are related (`Related.gen`). That is the only
induction over the generator; what is to be known of a run is a choice of
effects and of a relation.
-/

namespace Saurus

open Basis Basis.Codec

/-- `gen(func, sexp, tail, quoted)` in `m`. -/
abbrev GenIn (m : Type → Type) : Type := Ctx → Sexp → Bool → Bool → m Unit

/-- How pieces that come to no other form are run in `m`. -/
structure GenLeaves (m : Type → Type) where
  env : GenEnv
  leaf : {α : Type} → GenM α → m α

/-- What the generator does in `m`. `expand` gives nothing for a form that is
no macro call. -/
structure GenOps (m : Type → Type) extends GenLeaves m where
  define : List Sexp → Nat → m Unit
  expand : GenIn m → List Sexp → Nat → m (Option Sexp)

namespace GenOps

variable {m : Type → Type} [Monad m] (ops : GenOps m) (gen : GenIn m) (ctx : Ctx)

/-! ## Forms -/

/-- The loop over arguments. -/
def genAll (quoted : Bool) : List Sexp → m Unit
  | [] => pure ()
  | e :: es => do
      gen ctx e false quoted
      genAll quoted es

/-- `gen_funccall` -/
def genFunccall (data : List Sexp) (line : Nat) (tail : Bool) : m Unit :=
  if data.isEmpty then ops.leaf (luaError "assertion failed!")
  else do
    genAll gen ctx false data
    ops.leaf (callOrTail ops.env ctx tail (some line) (data.length - 1))

/-- `gen_rec` -/
def genRec (data : List Sexp) (line : Nat) (tail : Bool) : m Unit := do
  ops.leaf (genInst { op := .copy } (some line))
  genAll gen ctx false data.tail
  ops.leaf (callOrTail ops.env ctx tail (some line) (data.length - 1))

/-- Forms in sequence. -/
def genBody : List Sexp → m Unit
  | [] => pure ()
  | [e] => gen ctx e true false
  | e :: es => do
      gen ctx e false false
      ops.leaf (genInst { op := .pop, a := 1 } none)
      genBody es

/-- `gen_do` -/
def genDo (data : List Sexp) : m Unit :=
  ops.genBody gen ctx (if data.tail.isEmpty then data else data.tail)

/-- `gen_list` -/
def genList (e : Sexp) (tail : Bool) : m Unit :=
  match e with
  | .sexp [] _ => ops.leaf (luaError "assertion failed!")
  | .sexp (d :: ds) line =>
      if d.symbol? = some (atom ['u', 'n', 'q', 'u', 'o', 't', 'e']) then
        match ds with
        | [] => ops.leaf (luaError "attempt to index a nil value")
        | e :: _ => gen ctx e tail false
      else do
        ops.leaf (genFetch ctx (atom ['l', 'i', 's', 't']) line)
        genAll gen ctx true (d :: ds)
        ops.leaf (callOrTail ops.env ctx tail (some line) (ds.length + 1))
  | e => gen ctx e tail true

/-- `gen_quote` -/
def genQuote (data : List Sexp) (tail : Bool) : m Unit :=
  match data[1]? with
  | none => ops.leaf (luaError "attempt to index a nil value")
  | some e => ops.genList gen ctx e tail

/-- `gen_if` -/
def genIf (data : List Sexp) (line : Nat) (tail : Bool) : m Unit :=
  match data[1]?, data[2]? with
  | some c, some t => do
      gen ctx c false false
      let condidx ← ops.leaf here
      ops.leaf (emit { op := .test } c.line)
      gen ctx (data[3]?.getD (.symbol nilAtom t.line)) tail false
      let jmpidx ← ops.leaf here
      ops.leaf (emit { op := .jmp } ((data[3]?.getD t).line))
      ops.leaf (setTarget condidx)
      gen ctx t tail false
      ops.leaf (setTarget jmpidx)
  | _, _ => ops.leaf (genError "Expected at least 2 arguments to 'if' statement!" line)

/-- `gen_lambda` -/
def genLambda (data : List Sexp) (line : Nat) : m Unit :=
  if data.length < 2 then
    ops.leaf (genError "Expected at least one arguments to lambda!" line)
  else match data.drop 1 with
    | args :: e :: es => do
        let (lables, numArgs) ← ops.leaf (lambdaArgs args)
        let func ← ops.leaf getFunc
        ops.leaf (setFunc {})
        ops.genBody gen ⟨⟨lables, false⟩, ctx.own :: ctx.parents⟩ (e :: es)
        ops.leaf (genInst { op := .return } none)
        let newFunc ← ops.leaf getFunc
        ops.leaf (setFunc { func with prot := func.prot ++ [newFunc.toFunc] })
        ops.leaf (genInst { op := .lambda, a := func.prot.length, b := numArgs } (some line))
    | _ => ops.leaf (genError "Not implemented!" line)

/-- `gen_let` -/
def genLet (data : List Sexp) (line : Nat) (tail : Bool) : m Unit :=
  if data.length < 3 then ops.leaf (genError "Expected at least two arguments to let." line)
  else match (data[1]? : Option Sexp) with
    | some (Sexp.sexp args _) =>
        if args.length % 2 ≠ 0 then ops.leaf (genError "Expected key value pairs." line)
        else do
          let (keys, values) ← ops.leaf (letPairs line args)
          ops.genLambda gen ctx (.symbol (atom ['l', 'a', 'm', 'b', 'd', 'a']) line
            :: .sexp keys line :: data.drop 2) line
          genAll gen ctx false values
          ops.leaf (callOrTail ops.env ctx tail (some line) values.length)
    | _ => ops.leaf (genError "Expected s-expression." line)

/-- `gen_define` -/
def genDefine (data : List Sexp) (line : Nat) : m Unit :=
  match data with
  | [_, sym, value] =>
      match sym.symbol? with
      | none => ops.leaf (genError "Expected symbol!" sym.line)
      | some name => do
          gen ctx value false false
          let constid ← ops.leaf (pushConst (.string name))
          ops.leaf (genInst { op := .setglobal, a := constid } (some sym.line))
  | _ => ops.leaf (genError "Expected 2 arguments to define!" line)

/-- Two operands in the order given, or a call of the operator's function. -/
def genOperator (op : Op) (data operands : List Sexp) (line : Nat) (tail : Bool) (err : String) :
    m Unit :=
  if data.length < 3 then ops.leaf (genError err line)
  else if 3 < data.length then ops.genFunccall gen ctx data line tail
  else do
    genAll gen ctx false operands
    ops.leaf (genInst { op := op } (some line))

/-- `gen_arith` -/
def genArith (op : Op) (data : List Sexp) (line : Nat) (tail : Bool) : m Unit :=
  match op, data with
  | .sub, [_, e] => do
      gen ctx e false false
      ops.leaf (genInst { op := .unm } (some line))
  | _, _ =>
      ops.genOperator gen ctx op data data.tail line tail
        "Expected at least 2 arguments in arithmetic operation!"

/-- `gen_logical` -/
def genLogical (op : Op) (data : List Sexp) (line : Nat) (tail : Bool) : m Unit :=
  ops.genOperator gen ctx op data data.tail line tail logicalError

/-- `gen_greater` and `gen_greater_eq` -/
def genGreater (op : Op) (data : List Sexp) (line : Nat) : m Unit :=
  ops.genOperator gen ctx op data data.tail.reverse line false logicalError

/-- `spe_func(func, sexp, tail)` -/
def genSpecial (spe : Special) (data : List Sexp) (line : Nat) (tail : Bool) : m Unit :=
  match spe with
  | .if => ops.genIf gen ctx data line tail
  | .lambda => ops.genLambda gen ctx data line
  | .define => ops.genDefine gen ctx data line
  | .undef => ops.leaf (genError "Not implemented!" line)
  | .macroDef => ops.define data line
  | .recur => ops.genRec gen ctx data line tail
  | .do => ops.genDo gen ctx data
  | .quote => ops.genQuote gen ctx data tail
  | .let => ops.genLet gen ctx data line tail
  | .logical op => ops.genLogical gen ctx op data line tail
  | .greater op => ops.genGreater gen ctx op data line
  | .arith op => ops.genArith gen ctx op data line tail

end GenOps

/-! ## Expressions -/

namespace GenOps

variable {m : Type → Type} [Monad m]

/-- What a call of `gen` does by itself, with `gen` for the parts. -/
def node (ops : GenOps m) (gen : GenIn m) : GenIn m := fun ctx e tail quoted =>
  match e with
  | .number n line => ops.leaf (genConst (.number n) line)
  | .symbol sym line =>
      if quoted || isConstant sym then ops.leaf (genConst (.string sym) line)
      else ops.leaf (genFetch ctx sym line)
  | .sexp data line =>
      if quoted then ops.genList gen ctx e tail
      else do
        match ← ops.expand gen data line with
        | some e => gen ctx e tail false
        | none =>
            match isSpecial ops.env ctx.parents.length data with
            | some spe => ops.genSpecial gen ctx spe data line tail
            | none => ops.genFunccall gen ctx data line tail

/-- `gen` within `depth` nested calls. -/
def gen (ops : GenOps m) : Nat → GenIn m
  | 0, _, _, _, _ => ops.leaf (luaError "stack overflow")
  | depth + 1, ctx, e, tail, quoted =>
      match e with
      | .number n line => ops.leaf (genConst (.number n) line)
      | .symbol sym line =>
          if quoted || isConstant sym then ops.leaf (genConst (.string sym) line)
          else ops.leaf (genFetch ctx sym line)
      | .sexp data line =>
          if quoted then ops.genList (gen ops depth) ctx e tail
          else do
            match ← ops.expand (gen ops depth) data line with
            | some e => gen ops depth ctx e tail false
            | none =>
                match isSpecial ops.env ctx.parents.length data with
                | some spe => ops.genSpecial (gen ops depth) ctx spe data line tail
                | none => ops.genFunccall (gen ops depth) ctx data line tail

theorem gen_succ (ops : GenOps m) (depth : Nat) :
    ops.gen (depth + 1) = ops.node (ops.gen depth) := by
  funext ctx e tail quoted
  cases e <;> rfl

end GenOps

/-- `gen_sexp`, with `gen` for the expression itself. -/
def GenLeaves.genSexp {m : Type → Type} [Monad m] (ops : GenLeaves m) (gen : GenIn m) (e : Sexp) :
    m Func := do
  ops.leaf (setFunc {})
  gen topCtx e false false
  ops.leaf (genInst { op := .load } none)
  ops.leaf (callOrTail ops.env topCtx false none 1)
  ops.leaf (genInst { op := .return } none)
  let func ← ops.leaf getFunc
  return func.toFunc

/-! ## The generator itself -/

/-- The effects of `Gen.Forms`. -/
def GenEnv.ops (env : GenEnv) : GenOps GenM where
  env := env
  leaf := id
  define := genMacro
  expand := fun _ data line => do
    match isMacro env (← get).macros data with
    | some name => some <$> genMacroExpansion env name data line
    | none => pure none

section Pure

variable (env : GenEnv) (g : Gen) (ctx : Ctx)

theorem genAll_pure (quoted : Bool) :
    ∀ es : List Sexp, GenOps.genAll g ctx quoted es = genAll g ctx quoted es
  | [] => rfl
  | e :: es => congrArg (g ctx e false quoted >>= ·) (funext fun _ => genAll_pure quoted es)

theorem genBody_pure : ∀ es : List Sexp, env.ops.genBody g ctx es = genBody g ctx es
  | [] => rfl
  | [_] => rfl
  | e :: e' :: es =>
      congrArg (g ctx e false false >>= ·) (funext fun _ =>
        congrArg (genInst { op := .pop, a := 1 } none >>= ·) (funext fun _ =>
          genBody_pure (e' :: es)))

theorem genFunccall_pure (data : List Sexp) (line : Nat) (tail : Bool) :
    env.ops.genFunccall g ctx data line tail = genFunccall env g ctx data line tail := by
  rw [GenOps.genFunccall, genFunccall, genAll_pure]
  split <;> rfl

theorem genRec_pure (data : List Sexp) (line : Nat) (tail : Bool) :
    env.ops.genRec g ctx data line tail = genRec env g ctx data line tail := by
  rw [GenOps.genRec, genRec, genAll_pure]
  rfl

theorem genList_pure (e : Sexp) (tail : Bool) :
    env.ops.genList g ctx e tail = genList env g ctx e tail := by
  match e with
  | .number .. | .symbol .. | .sexp [] _ => rfl
  | .sexp (d :: ds) line =>
      unfold GenOps.genList genList
      dsimp only
      rw [genAll_pure]
      rfl

theorem genQuote_pure (data : List Sexp) (tail : Bool) :
    env.ops.genQuote g ctx data tail = genQuote env g ctx data tail := by
  unfold GenOps.genQuote genQuote
  cases data[1]? with
  | none => rfl
  | some e => exact genList_pure env g ctx e tail

theorem genLambda_pure (data : List Sexp) (line : Nat) :
    env.ops.genLambda g ctx data line = genLambda g ctx data line := by
  unfold GenOps.genLambda genLambda
  split
  · rfl
  · simp only [genBody_pure]
    rcases data.drop 1 with _ | ⟨args, _ | ⟨e, es⟩⟩ <;> rfl

theorem genOperator_pure (op : Op) (data operands : List Sexp) (line : Nat) (tail : Bool)
    (err : String) : env.ops.genOperator g ctx op data operands line tail err
      = genOperator env g ctx op data operands line tail err := by
  rw [GenOps.genOperator, genOperator, genAll_pure, genFunccall_pure]
  rfl

theorem genArith_pure (op : Op) (data : List Sexp) (line : Nat) (tail : Bool) :
    env.ops.genArith g ctx op data line tail = genArith env g ctx op data line tail := by
  have hop := genOperator_pure env g ctx op data data.tail line tail
  cases op with
  | sub =>
      rcases data with _ | ⟨_, _ | ⟨_, _ | _⟩⟩
      · exact hop _
      · exact hop _
      · rfl
      · exact hop _
  | _ => exact hop _

theorem genLet_pure (data : List Sexp) (line : Nat) (tail : Bool) :
    env.ops.genLet g ctx data line tail = genLet env g ctx data line tail := by
  unfold GenOps.genLet genLet
  simp only [genLambda_pure, genAll_pure]
  split
  · rfl
  · rcases data[1]? with _ | ⟨_ | _ | args⟩
    · rfl
    · rfl
    · rfl
    · dsimp only
      split <;> rfl

theorem genSpecial_pure (spe : Special) (data : List Sexp) (line : Nat) (tail : Bool) :
    env.ops.genSpecial g ctx spe data line tail = genSpecial env g ctx spe data line tail := by
  cases spe with
  | «if» | define | undef | macroDef => rfl
  | lambda => exact genLambda_pure env g ctx data line
  | recur => exact genRec_pure env g ctx data line tail
  | «do» => exact genBody_pure env g ctx _
  | quote => exact genQuote_pure env g ctx data tail
  | «let» => exact genLet_pure env g ctx data line tail
  | logical op => exact genOperator_pure env g ctx ..
  | greater op => exact genOperator_pure env g ctx ..
  | arith op => exact genArith_pure env g ctx op data line tail

/-- **The same generator.** -/
theorem gen_pure : ∀ depth, env.ops.gen depth = gen env depth
  | 0 => rfl
  | depth + 1 => by
      funext ctx e tail quoted
      match e with
      | .number .. | .symbol .. => rfl
      | .sexp data line =>
          unfold GenOps.gen gen
          rw [gen_pure depth]
          dsimp only
          split
          · exact genList_pure env _ ctx _ tail
          · change (get >>= _) >>= _ = _
            rw [bind_assoc]
            refine congrArg (get >>= ·) (funext fun st => ?_)
            cases isMacro env st.macros data with
            | some name => exact bind_map_left ..
            | none =>
                dsimp only
                rw [pure_bind]
                change (match isSpecial env _ data with | some _ => _ | none => _) = _
                cases isSpecial env ctx.parents.length data with
                | some spe => exact genSpecial_pure env _ ctx spe data line tail
                | none => exact genFunccall_pure env _ ctx data line tail

end Pure

/-! ## Leaves -/

/-- A piece of the generator that leaves the macros alone. -/
def Quiet {α : Type} (c : GenM α) : Prop :=
  ∀ st a st', c st = .ok (a, st') → st'.macros = st.macros

namespace Quiet

variable {α β : Type}

theorem bind {c : GenM α} {f : α → GenM β} (hc : Quiet c) (hf : ∀ a, Quiet (f a)) :
    Quiet (c >>= f) := by
  intro st b st' h
  obtain ⟨a, st1, h1, h2⟩ := bind_ok.mp h
  exact (hf a st1 b st' h2).trans (hc st a st1 h1)

theorem pure (a : α) : Quiet (pure a : GenM α) := by
  intro st b st' h
  cases h
  rfl

theorem throw (msg : String) : Quiet (throw msg : GenM α) := fun _ _ _ h => nomatch h

theorem getFunc : Quiet getFunc := by
  intro st a st' h
  cases h
  rfl

theorem setFunc (f : FuncTable) : Quiet (setFunc f) := by
  intro st a st' h
  cases h
  rfl

theorem emit (inst : Instr) (line : Nat) : Quiet (emit inst line) :=
  getFunc.bind fun _ => setFunc _

theorem genInst (inst : Instr) (line : Option Nat) : Quiet (genInst inst line) :=
  getFunc.bind fun _ => emit _ _

theorem pushConst (const : Const) : Quiet (pushConst const) := by
  refine getFunc.bind fun func => ?_
  split
  · exact pure _
  · exact (setFunc _).bind fun _ => pure _

theorem genConst (const : Const) (line : Nat) : Quiet (genConst const line) :=
  (pushConst const).bind fun _ => genInst _ _

theorem genFetch (ctx : Ctx) (sym : Atom) (line : Nat) : Quiet (genFetch ctx sym line) := by
  unfold Saurus.genFetch
  split
  · exact emit _ _
  · split
    · exact getFunc.bind fun _ => (setFunc _).bind fun _ => emit _ _
    · exact (pushConst _).bind fun _ => emit _ _

theorem here : Quiet here := getFunc.bind fun _ => pure _

theorem setTarget (idx : Nat) : Quiet (setTarget idx) := getFunc.bind fun _ => setFunc _

theorem mapM {γ : Type} {f : γ → GenM β} (hf : ∀ c, Quiet (f c)) :
    ∀ cs : List γ, Quiet (cs.mapM f)
  | [] => by
      rw [List.mapM_nil]
      exact pure _
  | c :: cs => by
      rw [List.mapM_cons]
      exact (hf c).bind fun _ => (mapM hf cs).bind fun _ => pure _

theorem lambdaArgs (args : Sexp) : Quiet (lambdaArgs args) := by
  match args with
  | .sexp data _ =>
      refine (mapM (fun arg => ?_) data).bind fun _ => pure _
      split
      · exact pure _
      · exact throw _
  | .symbol .. => exact pure _
  | .number .. => exact throw _

theorem letPairs (line : Nat) : ∀ args : List Sexp, Quiet (letPairs line args)
  | [] => pure _
  | [_] => pure _
  | k :: v :: rest => by
      have hrest := (letPairs line rest).bind fun (x : List Sexp × List Sexp) =>
        pure (k :: x.1, v :: x.2)
      unfold Saurus.letPairs
      dsimp only
      split
      · exact (throw _).bind fun _ => hrest
      · exact hrest

end Quiet

/-! ## Related runs -/

/-- A relation between runs that goes through sequences of leaves. -/
structure RelatedLeaves {m n : Type → Type} [Monad m] [Monad n]
    (R : {α : Type} → m α → n α → Prop) (ops : GenLeaves m) (ops' : GenLeaves n) : Prop where
  env : ops'.env = ops.env
  pure : ∀ {α : Type} (a : α), R (pure a) (pure a)
  bind : ∀ {α β : Type} {x : m α} {y : n α} {f : α → m β} {f' : α → n β}, R x y →
    (∀ a, R (f a) (f' a)) → R (x >>= f) (y >>= f')
  leaf : ∀ {α : Type} {c : GenM α}, Quiet c → R (ops.leaf c) (ops'.leaf c)

/-- Two kinds of effects, and a relation between their runs that goes through
the whole generator. -/
structure Related {m n : Type → Type} [Monad m] [Monad n]
    (R : {α : Type} → m α → n α → Prop) (ops : GenOps m) (ops' : GenOps n) : Prop
    extends RelatedLeaves R ops.toGenLeaves ops'.toGenLeaves where
  define : ∀ data line, R (ops.define data line) (ops'.define data line)
  expand : ∀ {g g'}, (∀ ctx e tail quoted, R (g ctx e tail quoted) (g' ctx e tail quoted)) →
    ∀ data line, R (ops.expand g data line) (ops'.expand g' data line)

theorem RelatedLeaves.genSexp {m n : Type → Type} [Monad m] [Monad n]
    {R : {α : Type} → m α → n α → Prop} {ops : GenLeaves m} {ops' : GenLeaves n}
    (h : RelatedLeaves R ops ops') {g : GenIn m} {g' : GenIn n}
    (hg : ∀ ctx e tail quoted, R (g ctx e tail quoted) (g' ctx e tail quoted)) (e : Sexp) :
    R (ops.genSexp g e) (ops'.genSexp g' e) := by
  unfold GenLeaves.genSexp
  rw [h.env]
  exact h.bind (h.leaf (.setFunc _)) fun _ => h.bind (hg _ e false false) fun _ =>
    h.bind (h.leaf (.genInst _ _)) fun _ => h.bind (h.leaf (.genInst _ _)) fun _ =>
    h.bind (h.leaf (.genInst _ _)) fun _ => h.bind (h.leaf .getFunc) fun _ => h.pure _

namespace Related

section Forms

variable {m n : Type → Type} [Monad m] [Monad n] {R : {α : Type} → m α → n α → Prop}
  {ops : GenOps m} {ops' : GenOps n} {g : GenIn m} {g' : GenIn n}

theorem error (h : Related R ops ops') {α : Type} (msg : String) :
    R (ops.leaf (luaError msg : GenM α)) (ops'.leaf (luaError msg)) := h.leaf (.throw _)

theorem genError (h : Related R ops ops') {α : Type} (msg : String) (line : Nat) :
    R (ops.leaf (genError msg line : GenM α)) (ops'.leaf (genError msg line)) := h.leaf (.throw _)

variable (h : Related R ops ops')
  (hg : ∀ ctx e tail quoted, R (g ctx e tail quoted) (g' ctx e tail quoted))
include h hg

theorem genAll (ctx : Ctx) (quoted : Bool) :
    ∀ es, R (GenOps.genAll g ctx quoted es) (GenOps.genAll g' ctx quoted es)
  | [] => h.pure ()
  | e :: es => h.bind (hg ctx e false quoted) fun _ => genAll ctx quoted es

theorem genFunccall (ctx : Ctx) (data : List Sexp) (line : Nat) (tail : Bool) :
    R (ops.genFunccall g ctx data line tail) (ops'.genFunccall g' ctx data line tail) := by
  unfold GenOps.genFunccall
  rw [h.env]
  split
  · exact h.error _
  · exact h.bind (h.genAll hg ctx false data) fun _ => h.leaf (.genInst _ _)

theorem genRec (ctx : Ctx) (data : List Sexp) (line : Nat) (tail : Bool) :
    R (ops.genRec g ctx data line tail) (ops'.genRec g' ctx data line tail) := by
  unfold GenOps.genRec
  rw [h.env]
  exact h.bind (h.leaf (.genInst _ _)) fun _ => h.bind (h.genAll hg ctx false _) fun _ =>
    h.leaf (.genInst _ _)

theorem genBody (ctx : Ctx) : ∀ es, R (ops.genBody g ctx es) (ops'.genBody g' ctx es)
  | [] => h.pure ()
  | [e] => hg ctx e true false
  | e :: e' :: es => h.bind (hg ctx e false false) fun _ => h.bind (h.leaf (.genInst _ _)) fun _ =>
      genBody ctx (e' :: es)

theorem genDo (ctx : Ctx) (data : List Sexp) :
    R (ops.genDo g ctx data) (ops'.genDo g' ctx data) := h.genBody hg ctx _

theorem genList (ctx : Ctx) (e : Sexp) (tail : Bool) :
    R (ops.genList g ctx e tail) (ops'.genList g' ctx e tail) := by
  unfold GenOps.genList
  rw [h.env]
  split
  · exact h.error _
  · split
    · split
      · exact h.error _
      · exact hg ctx _ tail false
    · exact h.bind (h.leaf (.genFetch _ _ _)) fun _ => h.bind (h.genAll hg ctx true _) fun _ =>
        h.leaf (.genInst _ _)
  · exact hg ctx _ tail true

theorem genQuote (ctx : Ctx) (data : List Sexp) (tail : Bool) :
    R (ops.genQuote g ctx data tail) (ops'.genQuote g' ctx data tail) := by
  unfold GenOps.genQuote
  split
  · exact h.error _
  · exact h.genList hg ctx _ tail

theorem genIf (ctx : Ctx) (data : List Sexp) (line : Nat) (tail : Bool) :
    R (ops.genIf g ctx data line tail) (ops'.genIf g' ctx data line tail) := by
  unfold GenOps.genIf
  split
  · refine h.bind (hg ctx _ false false) fun _ => h.bind (h.leaf .here) fun _ =>
      h.bind (h.leaf (.emit _ _)) fun _ => h.bind (hg ctx _ tail false) fun _ =>
      h.bind (h.leaf .here) fun _ => h.bind (h.leaf (.emit _ _)) fun _ =>
      h.bind (h.leaf (.setTarget _)) fun _ => h.bind (hg ctx _ tail false) fun _ =>
      h.leaf (.setTarget _)
  · exact h.genError _ _

theorem genLambda (ctx : Ctx) (data : List Sexp) (line : Nat) :
    R (ops.genLambda g ctx data line) (ops'.genLambda g' ctx data line) := by
  unfold GenOps.genLambda
  split
  · exact h.genError _ _
  · split
    · exact h.bind (h.leaf (.lambdaArgs _)) fun _ => h.bind (h.leaf .getFunc) fun _ =>
        h.bind (h.leaf (.setFunc _)) fun _ => h.bind (h.genBody hg _ _) fun _ =>
        h.bind (h.leaf (.genInst _ _)) fun _ => h.bind (h.leaf .getFunc) fun _ =>
        h.bind (h.leaf (.setFunc _)) fun _ => h.leaf (.genInst _ _)
    · exact h.genError _ _

theorem genLet (ctx : Ctx) (data : List Sexp) (line : Nat) (tail : Bool) :
    R (ops.genLet g ctx data line tail) (ops'.genLet g' ctx data line tail) := by
  unfold GenOps.genLet
  rw [h.env]
  split
  · exact h.genError _ _
  · split
    · split
      · exact h.genError _ _
      · exact h.bind (h.leaf (.letPairs _ _)) fun _ => h.bind (h.genLambda hg ctx _ line) fun _ =>
          h.bind (h.genAll hg ctx false _) fun _ => h.leaf (.genInst _ _)
    · exact h.genError _ _

theorem genDefine (ctx : Ctx) (data : List Sexp) (line : Nat) :
    R (ops.genDefine g ctx data line) (ops'.genDefine g' ctx data line) := by
  unfold GenOps.genDefine
  split
  · split
    · exact h.genError _ _
    · exact h.bind (hg ctx _ false false) fun _ => h.bind (h.leaf (.pushConst _)) fun _ =>
        h.leaf (.genInst _ _)
  · exact h.genError _ _

theorem genOperator (ctx : Ctx) (op : Op) (data operands : List Sexp) (line : Nat) (tail : Bool)
    (err : String) : R (ops.genOperator g ctx op data operands line tail err)
      (ops'.genOperator g' ctx op data operands line tail err) := by
  unfold GenOps.genOperator
  split
  · exact h.genError _ _
  · split
    · exact h.genFunccall hg ctx data line tail
    · exact h.bind (h.genAll hg ctx false operands) fun _ => h.leaf (.genInst _ _)

theorem genArith (ctx : Ctx) (op : Op) (data : List Sexp) (line : Nat) (tail : Bool) :
    R (ops.genArith g ctx op data line tail) (ops'.genArith g' ctx op data line tail) := by
  unfold GenOps.genArith
  split
  · exact h.bind (hg ctx _ false false) fun _ => h.leaf (.genInst _ _)
  · exact h.genOperator hg ctx ..

theorem genSpecial (ctx : Ctx) (spe : Special) (data : List Sexp) (line : Nat) (tail : Bool) :
    R (ops.genSpecial g ctx spe data line tail) (ops'.genSpecial g' ctx spe data line tail) := by
  cases spe with
  | «if» => exact h.genIf hg ctx data line tail
  | lambda => exact h.genLambda hg ctx data line
  | define => exact h.genDefine hg ctx data line
  | undef => exact h.genError _ _
  | macroDef => exact h.define data line
  | recur => exact h.genRec hg ctx data line tail
  | «do» => exact h.genDo hg ctx data
  | quote => exact h.genQuote hg ctx data tail
  | «let» => exact h.genLet hg ctx data line tail
  | logical op => exact h.genOperator hg ctx ..
  | greater op => exact h.genOperator hg ctx ..
  | arith op => exact h.genArith hg ctx op data line tail

theorem node (ctx : Ctx) (e : Sexp) (tail quoted : Bool) :
    R (ops.node g ctx e tail quoted) (ops'.node g' ctx e tail quoted) := by
  match e with
  | .number n line => exact h.leaf (.genConst _ _)
  | .symbol sym line =>
      unfold GenOps.node
      dsimp only
      split
      · exact h.leaf (.genConst _ _)
      · exact h.leaf (.genFetch _ _ _)
  | .sexp data line =>
      unfold GenOps.node
      dsimp only
      split
      · exact h.genList hg ctx _ tail
      · refine h.bind (h.expand hg data line) fun x => ?_
        rw [h.env]
        cases x with
        | some e => exact hg ctx e tail false
        | none =>
            cases isSpecial ops.env ctx.parents.length data with
            | some spe => exact h.genSpecial hg ctx spe data line tail
            | none => exact h.genFunccall hg ctx data line tail

end Forms

/-- **Related effects have related runs**, by induction on the depth. -/
theorem gen {m n : Type → Type} [Monad m] [Monad n] {R : {α : Type} → m α → n α → Prop}
    {ops : GenOps m} {ops' : GenOps n} (h : Related R ops ops') :
    ∀ depth ctx e tail quoted,
      R (ops.gen depth ctx e tail quoted) (ops'.gen depth ctx e tail quoted)
  | 0, _, _, _, _ => h.error _
  | depth + 1, ctx, e, tail, quoted => by
      rw [GenOps.gen_succ, GenOps.gen_succ]
      exact h.node (gen h depth) ctx e tail quoted

end Related

end Saurus
