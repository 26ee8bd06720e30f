import Saurus.Gen.Effects
import Saurus.Lang.Simulate
import Saurus.Lang.WellMade
import Saurus.Macro.Quote

/-!
# Macros as a pass of their own

The generator expands the macro calls of a program as it comes to them. A pass
over the tree that expands them all, in the same order and with the same
macros, leaves a program without calls, and the code of that program is the
code that was generated (`genSexp_expand`). So what a program with macros means
is what the expanded one means (`Lang.Macros`).

A macro may give a symbol in the place of a function. There the symbol is a
variable, whatever it is called, and the pass writes `(do name)` for it.
-/

namespace Saurus

open Basis Basis.Codec

/-! ## The pass -/

/-- What expands the calls in a form; the flag is the `quoted` of `gen`. The
function table of the state is not used. -/
abbrev Expander : Type := Sexp → Bool → GenM Sexp

def doAtom : Atom := atom ['d', 'o']

section Pass

variable (x : Expander)

def expandAll (quoted : Bool) : List Sexp → GenM (List Sexp)
  | [] => pure []
  | e :: es => do
      let e ← x e quoted
      let es ← expandAll quoted es
      pure (e :: es)

/-- Under `quote` only what is unquoted is expanded. -/
def expandList (e : Sexp) : GenM Sexp :=
  match e with
  | .sexp (d :: ds) line =>
      if d.symbol? = some unquoteAtom then
        match ds with
        | [] => pure e
        | a :: rest => do
            let a ← x a false
            pure (.sexp (d :: a :: rest) line)
      else do
        let ds ← expandAll x true (d :: ds)
        pure (.sexp ds line)
  | .sexp [] _ => pure e
  | e => x e true

/-- The forms behind the first one. -/
def expandTail (data : List Sexp) : GenM (List Sexp) :=
  match data with
  | [] => pure []
  | h :: es => do
      let es ← expandAll x false es
      pure (h :: es)

def expandQuote (data : List Sexp) : GenM (List Sexp) :=
  match data with
  | h :: e :: es => do
      let e ← expandList x e
      pure (h :: e :: es)
  | data => pure data

/-- The alternative comes before the branch that is taken. -/
def expandIf (data : List Sexp) : GenM (List Sexp) :=
  match data with
  | h :: c :: t :: f :: es => do
      let c ← x c false
      let f ← x f false
      let t ← x t false
      pure (h :: c :: t :: f :: es)
  | [h, c, t] => do
      let c ← x c false
      let t ← x t false
      pure [h, c, t]
  | data => pure data

def expandLambda (data : List Sexp) : GenM (List Sexp) :=
  match data with
  | h :: args :: es => do
      let es ← expandAll x false es
      pure (h :: args :: es)
  | data => pure data

/-- Other values for the keys of a `let`. -/
def rebind : List Sexp → List Sexp → List Sexp
  | k :: _ :: rest, v :: vs => k :: v :: rebind rest vs
  | args, _ => args

/-- The body comes before the values. -/
def expandLet (data : List Sexp) : GenM (List Sexp) :=
  match data with
  | h :: .sexp args line :: es => do
      let es ← expandAll x false es
      let values ← expandAll x false (letBindings args).2
      pure (h :: .sexp (rebind args values) line :: es)
  | data => pure data

def expandDefine (data : List Sexp) : GenM (List Sexp) :=
  match data with
  | [h, sym, value] => do
      let value ← x value false
      pure [h, sym, value]
  | data => pure data

/-- Two operands in reverse. -/
def expandGreater (data : List Sexp) : GenM (List Sexp) :=
  match data with
  | [h, a, b] => do
      let b ← x b false
      let a ← x a false
      pure [h, a, b]
  | data => expandTail x data

def expandSpecial (spe : Special) (data : List Sexp) (line : Nat) : GenM (List Sexp) :=
  match spe with
  | .if => expandIf x data
  | .lambda => expandLambda x data
  | .define => expandDefine x data
  | .undef => pure data
  | .macroDef => do
      genMacro data line
      pure data
  | .quote => expandQuote x data
  | .let => expandLet x data
  | .greater _ => expandGreater x data
  | .recur | .do | .logical _ | .arith _ => expandTail x data

/-- The function of a call; what a macro gives is no special form there. -/
def calledForm (e e' : Sexp) : Sexp :=
  match e, e' with
  | .sexp .., .symbol sym line => .sexp [.symbol doAtom line, .symbol sym line] line
  | _, e' => e'

def expandCall (data : List Sexp) : GenM (List Sexp) :=
  match data with
  | [] => pure []
  | e :: es => do
      let e' ← x e false
      let es ← expandAll x false es
      pure (calledForm e e' :: es)

end Pass

/-- One form, `x` being used for the parts. -/
def expandNode (env : GenEnv) (x : Expander) : Expander := fun e quoted =>
  match e with
  | .sexp data line =>
      if quoted then expandList x e
      else do
        match isMacro env (← get).macros data with
        | some name => do
            let e ← genMacroExpansion env name data line
            x e false
        | none =>
            match specialOf data with
            | some spe => do
                let data ← expandSpecial x spe data line
                pure (.sexp data line)
            | none => do
                let data ← expandCall x data
                pure (.sexp data line)
  | e => pure e

/-- Expanding within `depth` nested forms. -/
def expand (env : GenEnv) : Nat → Expander
  | 0 => fun _ _ => luaError "stack overflow"
  | depth + 1 => expandNode env (expand env depth)

/-- The generator without macro calls. -/
def GenEnv.plain (env : GenEnv) : GenEnv := { env with inMacroWorld := true, expand := noMacros }

/-! ## Pieces that have no use for macros -/

/-- A piece of the generator that only looks at the function table, and only
changes it. -/
def Local {α : Type} (c : GenM α) : Prop :=
  ∀ st a st', c st = .ok (a, st') → ∀ ms past,
    c ⟨st.func, ms, past⟩ = .ok (a, ⟨st'.func, ms, past⟩)

namespace Local

variable {α β : Type} {c : GenM α} {f : α → GenM β}

theorem bind (hc : Local c) (hf : ∀ a, Local (f a)) : Local (c >>= f) := by
  intro st b st' h ms past
  obtain ⟨a, st1, h1, h2⟩ := bind_ok.mp h
  exact bind_ok.mpr ⟨a, _, hc st a st1 h1 ms past, hf a st1 b st' h2 ms past⟩

theorem pure (a : α) : Local (pure a : GenM α) := fun _ _ _ h _ _ => by
  cases h
  rfl

theorem throw (msg : String) : Local (throw msg : GenM α) := fun _ _ _ h => by cases h

theorem getFunc : Local getFunc := fun _ _ _ h _ _ => by
  cases h
  rfl

theorem setFunc (func : FuncTable) : Local (setFunc func) := fun _ _ _ h _ _ => by
  cases h
  rfl

theorem emit (inst : Instr) (line : Nat) : Local (emit inst line) := getFunc.bind fun _ => setFunc _

theorem genInst (inst : Instr) (line : Option Nat) : Local (genInst inst line) :=
  getFunc.bind fun _ => emit _ _

theorem pushConst (const : Const) : Local (pushConst const) := by
  refine getFunc.bind fun func => ?_
  split
  · exact pure _
  · exact (setFunc _).bind fun _ => pure _

theorem genConst (const : Const) (line : Nat) : Local (genConst const line) :=
  (pushConst const).bind fun _ => genInst _ _

theorem genFetch (ctx : Ctx) (sym : Atom) (line : Nat) : Local (genFetch ctx sym line) := by
  unfold Saurus.genFetch
  split
  · exact emit _ _
  · split
    · exact getFunc.bind fun _ => (setFunc _).bind fun _ => emit _ _
    · exact (pushConst _).bind fun _ => emit _ _

theorem here : Local here := getFunc.bind fun _ => pure _

theorem setTarget (idx : Nat) : Local (setTarget idx) := getFunc.bind fun _ => setFunc _

theorem mapM {γ : Type} {f : γ → GenM β} (hf : ∀ c, Local (f c)) :
    ∀ cs : List γ, Local (cs.mapM f)
  | [] => by
      rw [List.mapM_nil]
      exact pure _
  | c :: cs => by
      rw [List.mapM_cons]
      exact (hf c).bind fun _ => (mapM hf cs).bind fun _ => pure _

theorem lambdaArgs (args : Sexp) : Local (lambdaArgs args) := by
  match args with
  | .sexp data _ =>
      refine (mapM (fun arg => ?_) data).bind fun _ => pure _
      split
      · exact pure _
      · exact throw _
  | .symbol .. => exact pure _
  | .number .. => exact throw _

/-- It leaves the macros as they are. -/
theorem macros (hc : Local c) {st st' : GenState} {a : α} (h : c st = .ok (a, st')) :
    st' = ⟨st'.func, st.macros, st.expanded⟩ := by
  have hsame := hc st a st' h st.macros st.expanded
  exact congrArg Prod.snd (Except.ok.inj (h.symm.trans hsame))

end Local

/-! ## Two runs in one -/

/-- Every name in `ms` is one in `ns`. -/
def Fewer (ms ns : List (Atom × Sexp)) : Prop :=
  ∀ name, (ms.lookup name).isSome → (ns.lookup name).isSome

/-- From `st` to `st'` the pass makes `b`. -/
def Passes {β : Type} (x : GenM β) (st : GenState) (b : β) (st' : GenState) : Prop :=
  ∀ func, x ⟨func, st.macros, st.expanded⟩ = .ok (b, ⟨func, st'.macros, st'.expanded⟩)

/-- With no more macros than there are, and none expanded, `n` makes of the
function what was made of it from `st` to `st'`. -/
def Remakes {α : Type} (n : GenM α) (st : GenState) (a : α) (st' : GenState) : Prop :=
  ∀ ms past, Fewer ms st.macros → ∃ ms', Fewer ms' st'.macros
    ∧ n ⟨st.func, ms, past⟩ = .ok (a, ⟨st'.func, ms', past⟩)

section Runs

variable {α β : Type} {st st1 st2 : GenState}

theorem Passes.pure (b : β) : Passes (pure b) st b st := fun _ => rfl

theorem Passes.bind {x : GenM α} {f : α → GenM β} {a : α} {b : β} (hx : Passes x st a st1)
    (hf : Passes (f a) st1 b st2) : Passes (x >>= f) st b st2 :=
  fun func => bind_ok.mpr ⟨a, _, hx func, hf func⟩

theorem Remakes.bind {n : GenM α} {f : α → GenM β} {a : α} {b : β} (hn : Remakes n st a st1)
    (hf : Remakes (f a) st1 b st2) : Remakes (n >>= f) st b st2 := by
  intro ms past hms
  obtain ⟨ms1, hms1, hrun⟩ := hn ms past hms
  obtain ⟨ms2, hms2, hrest⟩ := hf ms1 past hms1
  exact ⟨ms2, hms2, bind_ok.mpr ⟨a, _, hrun, hrest⟩⟩

/-- And so it is behind such a piece. -/
theorem Local.passed {c : GenM α} (hc : Local c) {a : α} {x : GenM β} {b : β}
    (h : c st1 = .ok (a, st2)) (hx : Passes x st b st1) : Passes x st b st2 := by
  rw [hc.macros h]
  exact hx

end Runs

/-- What a form is expanded to has its line; an atom stays what it is, and
under `quote` a list stays a list. -/
structure Alike (quoted : Bool) (e e' : Sexp) : Prop where
  line : e'.line = e.line
  atom : (∀ data line, e ≠ .sexp data line) → e' = e
  quoted : quoted = true → e'.symbol? = e.symbol?

theorem Alike.rfl (quoted : Bool) (e : Sexp) : Alike quoted e e :=
  ⟨Eq.refl _, fun _ => Eq.refl _, fun _ => Eq.refl _⟩

theorem Alike.sexp (quoted : Bool) {data data' : List Sexp} {line : Nat} :
    Alike quoted (.sexp data line) (.sexp data' line) :=
  ⟨Eq.refl _, fun h => absurd (Eq.refl _) (h data line), fun _ => Eq.refl _⟩

/-- Whatever `g` generates for a form, `g'` generates for what `x` makes of it. -/
structure Commutes (g g' : Gen) (x : Expander) : Prop where
  form : ∀ {ctx e tail quoted st st'}, g ctx e tail quoted st = .ok ((), st') →
    ∃ e', Alike quoted e e' ∧ Passes (x e quoted) st e' st'
      ∧ Remakes (g' ctx e' tail quoted) st () st'
  symbol : ∀ ctx sym line tail quoted, Local (g ctx (.symbol sym line) tail quoted)

/-! ## Forms -/

section Forms

variable {env : GenEnv} {g g' : Gen} {x : Expander} {ctx : Ctx} {st st' : GenState}
  {hd : Sexp} {es : List Sexp} {line : Nat} {tail : Bool} (hg : Commutes g g' x)
include hg

omit hg in
theorem Fewer.append {ms ns : List (Atom × Sexp)} (h : Fewer ms ns) (p : Atom × Sexp) :
    Fewer (ms ++ [p]) (ns ++ [p]) := by
  intro name hname
  rw [List.lookup_append, Option.isSome_or, Bool.or_eq_true] at hname ⊢
  exact hname.imp_left (h name)

end Forms

end Saurus
