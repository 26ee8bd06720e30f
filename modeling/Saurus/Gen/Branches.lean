import Mathlib.Data.List.Forall2
import Saurus.Basis.Regions
import Saurus.Gen.Compile
import Saurus.Gen.Effects
import Saurus.Gen.Sites

/-!
# Branches of generated code

Where control can go in the functions of a program. The targets of a test
and of a jump are filled in when the code they skip is there, so the code of
an `if` is right only when it is whole, and everything else is put before,
between and behind.

`traceGen` is the generator, and tells besides where the code of every
expression is: each call of `gen` becomes a region, with those of the calls it
makes. It does the same as `gen` (`shadows_traceGen`), and the regions are a
layout of the code, in the function and in those made in it (`lays_traceGen`).
-/

namespace Saurus

open Basis Basis.Codec Basis.Regions

/-- Where control goes from an instruction; a call in tail position leaves
the function, or goes on if what is called is no closure. -/
def Instr.kind (i : Instr) : Kind :=
  match i.op with
  | .test => .test i.a
  | .jmp => .jump i.a
  | .return => .ends
  | .tcall => .leave
  | _ => .plain

/-- An expression, with the number of functions around it. -/
structure Place where
  level : Nat
  e : Sexp

/-- The code of an expression. -/
abbrev Part : Type := Region Place

/-- An `if` with its condition, and what it chooses from: `f` is nil where
there is nothing else. -/
def IfForm (env : GenEnv) (r c f t : Place) : Prop :=
  ∃ data line, r.e = .sexp data line ∧ isSpecial env r.level data = some .if
    ∧ data[1]? = some c.e ∧ data[2]? = some t.e
    ∧ f.e = data[3]?.getD (.symbol nilAtom t.e.line)

/-! ## The generator with its regions -/

/-- A run that collects regions. -/
abbrev TraceM (α : Type) : Type := StateT (List Part) GenM α

def traceOps (env : GenEnv) : GenOps TraceM where
  env := env
  leaf := StateT.lift
  define := fun data line => StateT.lift (genMacro data line)
  expand := fun _ data line => StateT.lift (env.ops.expand (gen env 0) data line)

/-- The region of `e`, from what `x` generates. Those in the function of `e`
are its parts, those further in are of the function it makes. -/
def record (ctx : Ctx) (e : Sexp) (x : TraceM Unit) : TraceM Unit := do
  let level := ctx.parents.length
  let before ← get
  set ([] : List Part)
  let lo ← StateT.lift here
  x
  let hi ← StateT.lift here
  let new ← get
  set (before ++ [Region.mk ⟨level, e⟩ lo hi (new.filter fun r => r.label.level != level)
    (new.filter fun r => r.label.level == level)])

/-- `gen` within `depth` nested calls. -/
def traceGen (env : GenEnv) : Nat → GenIn TraceM
  | 0 => fun _ _ _ _ => (traceOps env).leaf (luaError "stack overflow")
  | depth + 1 => fun ctx e tail quoted =>
      record ctx e ((traceOps env).node (traceGen env depth) ctx e tail quoted)

/-- `gen_sexp` -/
def traceSexp (env : GenEnv) (depth : Nat) (e : Sexp) : TraceM Func :=
  (traceOps env).genSexp (traceGen env depth) e

/-! ### The same runs -/

/-- `x` is `y`, but for the regions. -/
def Shadows {α : Type} (x : TraceM α) (y : GenM α) : Prop := ∀ rs, Prod.fst <$> x rs = y

namespace Shadows

variable {α β : Type}

theorem pure (a : α) : Shadows (pure a) (pure a) := fun _ => map_pure _ _

theorem bind {x : TraceM α} {y : GenM α} {f : α → TraceM β} {f' : α → GenM β} (h : Shadows x y)
    (hf : ∀ a, Shadows (f a) (f' a)) : Shadows (x >>= f) (y >>= f') := by
  intro rs
  change Prod.fst <$> (x rs >>= fun p => f p.1 p.2) = _
  rw [map_bind, ← h rs, bind_map_left]
  exact bind_congr fun p => hf p.1 p.2

theorem lift (c : GenM α) : Shadows (StateT.lift c) c := by
  intro rs
  change Prod.fst <$> (c >>= fun a => Pure.pure (a, rs)) = _
  rw [map_bind]
  simp only [map_pure, bind_pure]

theorem record (ctx : Ctx) (e : Sexp) {x : TraceM Unit} {y : GenM Unit} (h : Shadows x y) :
    Shadows (record ctx e x) y := by
  intro rs
  have hstep : Shadows (do
      let lo ← (StateT.lift here : TraceM Nat)
      x
      let hi ← StateT.lift here
      let new ← get
      set (rs ++ [Region.mk ⟨ctx.parents.length, e⟩ lo hi
        (new.filter fun r => r.label.level != ctx.parents.length)
        (new.filter fun r => r.label.level == ctx.parents.length)]))
      (do
        let _ ← here
        y
        let _ ← here
        Pure.pure ()) := by
    refine (lift here).bind fun lo => h.bind fun _ => (lift here).bind fun hi => ?_
    intro new
    rfl
  refine (hstep []).trans (funext fun st => ?_)
  -- asking for the position changes nothing
  change (y st >>= fun p => Except.ok ((), p.2)) = y st
  cases y st <;> rfl

end Shadows

theorem related_trace (env : GenEnv) : Related Shadows (traceOps env) env.ops where
  env := rfl
  pure := Shadows.pure
  bind := Shadows.bind
  leaf := fun _ => Shadows.lift _
  define := fun _ _ => Shadows.lift _
  expand := fun _ _ _ => Shadows.lift _

theorem shadows_traceGen (env : GenEnv) : ∀ depth ctx e tail quoted,
    Shadows (traceGen env depth ctx e tail quoted) (gen env depth ctx e tail quoted)
  | 0, _, _, _, _ => .lift _
  | depth + 1, ctx, e, tail, quoted => by
      rw [← gen_pure, GenOps.gen_succ]
      refine .record ctx e ((related_trace env).node ?_ ctx e tail quoted)
      rw [gen_pure]
      exact shadows_traceGen env depth

/-- Every run of the generator is one that tells its regions. -/
theorem traced {env : GenEnv} {depth : Nat} {e : Sexp} {st st' : GenState} {F : Func}
    (h : genSexp env depth e st = .ok (F, st')) :
    ∃ regions, traceSexp env depth e [] st = .ok ((F, regions), st') := by
  have hsame : Shadows (traceSexp env depth e) (genSexp env depth e) :=
    (related_trace env).toRelatedLeaves.genSexp (shadows_traceGen env depth) e
  have hrun : (Prod.fst <$> traceSexp env depth e []) st = .ok (F, st') := by
    rw [hsame []]
    exact h
  rw [← bind_pure_comp] at hrun
  obtain ⟨⟨F', regions⟩, st1, htrace, hrest⟩ := bind_ok.mp hrun
  cases hrest
  exact ⟨regions, htrace⟩

/-! ## Layouts -/

section Layouts

variable {env : GenEnv}

/-- Regions of a function that its code goes by, and the functions in it. -/
def Func.GoesBy (env : GenEnv) (F : Func) (rs : List Part) : Prop :=
  ∀ path G, F.at? path = some G →
    ∃ rs', Region.at? rs path = some rs' ∧ Whole Instr.kind (IfForm env) G.instructions rs'

theorem Func.GoesBy.mk {F : Func} {rs : List Part}
    (hwhole : Whole Instr.kind (IfForm env) F.instructions rs)
    (hprot : List.Forall₂ (Func.GoesBy env) F.prot (Region.bodiesOf rs)) : F.GoesBy env rs := by
  intro path G hat
  cases path with
  | nil =>
      cases hat
      exact ⟨rs, rfl, hwhole⟩
  | cons i path =>
      rw [Func.at?] at hat
      cases hi : F.prot[i]? with
      | none =>
          rw [hi] at hat
          cases hat
      | some p =>
          rw [hi] at hat
          obtain ⟨hlt, hp⟩ := List.getElem?_eq_some_iff.mp hi
          have hlt' : i < (Region.bodiesOf rs).length := hprot.length_eq ▸ hlt
          have hgoes := hprot.get hlt hlt'
          rw [List.get_eq_getElem, List.get_eq_getElem, hp] at hgoes
          rw [Region.at?, List.getElem?_eq_getElem hlt']
          exact hgoes path G hat

/-- What was put into a function table has the layout `parts`, with a function
in front of those it makes if there is a `body`. -/
structure Adds (env : GenEnv) (level : Nat) (f f' : FuncTable) (body parts : List Part) :
    Prop where
  code : f.instructions <+: f'.instructions
  laid : Laid Instr.kind (IfForm env) f'.instructions f.instructions.length f'.instructions.length
    parts
  prot : ∃ ps, f'.prot = f.prot ++ ps ∧ List.Forall₂ (Func.GoesBy env) ps
    ((if body.isEmpty then [] else [body]) ++ Region.bodiesOf parts)
  inner : ∀ r ∈ body, r.label.level ≠ level
  outer : ∀ r ∈ parts, r.label.level = level

namespace Adds

variable {level : Nat} {f f1 f' : FuncTable} {body parts parts' : List Part}

theorem of_eq (hcode : f'.instructions = f.instructions) (hprot : f'.prot = f.prot) :
    Adds env level f f' [] [] where
  code := hcode ▸ List.prefix_rfl
  laid := hcode ▸ .nil _
  prot := ⟨[], by rw [hprot, List.append_nil], .nil⟩
  inner := fun _ hr => absurd hr List.not_mem_nil
  outer := fun _ hr => absurd hr List.not_mem_nil

theorem of_append {i : Instr} (hcode : f'.instructions = f.instructions ++ [i])
    (hi : i.kind.Straight) (hprot : f'.prot = f.prot) : Adds env level f f' [] [] where
  code := hcode ▸ List.prefix_append ..
  laid := by
    have hat : f'.instructions[f.instructions.length]? = some i :=
      hcode ▸ List.getElem?_concat_length
    have hlength : f'.instructions.length = f.instructions.length + 1 := by
      rw [hcode, List.length_append, List.length_singleton]
    rw [hlength]
    exact .inst hat hi (.nil _)
  prot := ⟨[], by rw [hprot, List.append_nil], .nil⟩
  inner := fun _ hr => absurd hr List.not_mem_nil
  outer := fun _ hr => absurd hr List.not_mem_nil

theorem trans (h : Adds env level f f1 body parts) (h' : Adds env level f1 f' [] parts') :
    Adds env level f f' body (parts ++ parts') where
  code := h.code.trans h'.code
  laid := (h.laid.congr fun _ _ hpc => getElem?_prefix_eq h'.code hpc).append h'.laid
  prot := by
    obtain ⟨ps, hps, hgoes⟩ := h.prot
    obtain ⟨ps', hps', hgoes'⟩ := h'.prot
    refine ⟨ps ++ ps', by rw [hps', hps, List.append_assoc], ?_⟩
    rw [Region.bodiesOf_append, ← List.append_assoc]
    exact List.rel_append hgoes hgoes'
  inner := h.inner
  outer := fun r hr => (List.mem_append.mp hr).elim (h.outer r) (h'.outer r)

/-- The region of an expression, all of whose code was added. -/
theorem region (h : Adds env level f f' body parts) (e : Sexp) :
    Adds env level f f' []
      [.mk ⟨level, e⟩ f.instructions.length f'.instructions.length body parts] where
  code := h.code
  laid := Laid.one (r := .mk (Place.mk level e) _ _ body parts) h.laid
  prot := by
    obtain ⟨ps, hps, hgoes⟩ := h.prot
    exact ⟨ps, hps, (List.append_nil (_ ++ _)).symm ▸ hgoes⟩
  inner := fun _ hr => absurd hr List.not_mem_nil
  outer := fun r hr => by
    rw [List.mem_singleton.mp hr]
    rfl

theorem closure {p : Func} (hp : p.GoesBy env body) (hbody : body ≠ [])
    (hinner : ∀ r ∈ body, r.label.level ≠ level) (numArgs : Int) (line : Nat) :
    Adds env level f (f.closure p numArgs line) body [] where
  code := List.prefix_append ..
  laid := by
    have hadds : Adds env level f (f.emit ⟨.lambda, f.prot.length, numArgs⟩ line) [] [] :=
      .of_append rfl (Or.inl rfl) rfl
    exact hadds.laid
  prot := by
    refine ⟨[p], rfl, ?_⟩
    rw [if_neg (by rwa [List.isEmpty_iff])]
    exact .cons hp .nil
  inner := hinner
  outer := fun _ hr => absurd hr List.not_mem_nil

end Adds

/-- A piece that calls nothing: instructions that do not branch. -/
def Puts {α : Type} (env : GenEnv) (level : Nat) (c : GenM α) : Prop :=
  ∀ st a st', c st = .ok (a, st') → Adds env level st.func st'.func [] []

/-- An instruction that goes on behind itself, or calls in tail position. -/
def Op.IsStraight (op : Op) : Prop := op ≠ .test ∧ op ≠ .jmp ∧ op ≠ .return

instance : DecidablePred Op.IsStraight := fun _ => inferInstanceAs (Decidable (_ ∧ _ ∧ _))

theorem Op.IsStraight.kind {op : Op} (h : op.IsStraight) (a : Nat) (b : Int) :
    (Instr.kind ⟨op, a, b⟩).Straight := by
  obtain ⟨htest, hjmp, hreturn⟩ := h
  cases op with
  | test => exact absurd rfl htest
  | jmp => exact absurd rfl hjmp
  | «return» => exact absurd rfl hreturn
  | tcall => exact Or.inr rfl
  | _ => exact Or.inl rfl

namespace Puts

variable {α β : Type} {level : Nat}

theorem bind {c : GenM α} {f : α → GenM β} (hc : Puts env level c)
    (hf : ∀ a, Puts env level (f a)) : Puts env level (c >>= f) := by
  intro st b st' h
  obtain ⟨a, st1, h1, h2⟩ := bind_ok.mp h
  exact (hc st a st1 h1).trans (hf a st1 b st' h2)

theorem throw {msg : String} : Puts env level (throw msg : GenM α) := fun _ _ _ h => nomatch h

theorem emit {op : Op} (hop : op.IsStraight) (a : Nat) (b : Int) (line : Nat) :
    Puts env level (emit ⟨op, a, b⟩ line) := by
  intro st u st' h
  cases h
  exact .of_append rfl (hop.kind a b) rfl

theorem genInst {op : Op} (hop : op.IsStraight) (a : Nat) (b : Int) (line : Option Nat) :
    Puts env level (genInst ⟨op, a, b⟩ line) := by
  intro st u st' h
  cases h
  exact .of_append rfl (hop.kind a b) rfl

theorem callOrTail (ctx : Ctx) (tail : Bool) (line : Option Nat) (narg : Nat) :
    Puts env level (callOrTail env ctx tail line narg) := by
  refine genInst ?_ narg 0 line
  split <;> decide

theorem pushConst (const : Const) : Puts env level (pushConst const) := by
  intro st a st' h
  rcases pushConst_ok h with ⟨-, rfl⟩ | ⟨-, -, rfl⟩
  · exact .of_eq rfl rfl
  · exact .of_eq rfl rfl

theorem genConst (const : Const) (line : Nat) : Puts env level (genConst const line) :=
  (pushConst const).bind fun _ => genInst (by decide) _ _ _

theorem genFetch (ctx : Ctx) (sym : Atom) (line : Nat) :
    Puts env level (genFetch ctx sym line) := by
  unfold Saurus.genFetch
  split
  · exact emit (by decide) _ _ _
  · split
    · intro st a st' h
      cases h
      exact .of_append rfl (Op.IsStraight.kind (by decide) _ _) rfl
    · exact (pushConst _).bind fun _ => emit (by decide) _ _ _

theorem genMacro (data : List Sexp) (line : Nat) : Puts env level (genMacro data line) := by
  intro st a st' h
  obtain ⟨p, rfl⟩ := genMacro_ok h
  exact .of_eq rfl rfl

end Puts

/-- Regions are added to those there are, a layout of what is generated. -/
def Lays {α : Type} (env : GenEnv) (level : Nat) (x : TraceM α) : Prop :=
  ∀ rs st a rs' st', x rs st = .ok ((a, rs'), st') →
    ∃ new, rs' = rs ++ new ∧ Adds env level st.func st'.func [] new

theorem traced_bind {α β : Type} {x : TraceM α} {f : α → TraceM β} {rs rs'' : List Part}
    {st st'' : GenState} {b : β} : (x >>= f) rs st = .ok ((b, rs''), st'') ↔
      ∃ a rs' st', x rs st = .ok ((a, rs'), st') ∧ f a rs' st' = .ok ((b, rs''), st'') := by
  refine (bind_ok (r := x rs) (f := fun p => f p.1 p.2)).trans ?_
  exact ⟨fun ⟨p, st', h, h'⟩ => ⟨p.1, p.2, st', h, h'⟩,
    fun ⟨a, rs', st', h, h'⟩ => ⟨(a, rs'), st', h, h'⟩⟩

theorem traced_lift {α : Type} {c : GenM α} {rs rs' : List Part} {st st' : GenState} {a : α} :
    (StateT.lift c : TraceM α) rs st = .ok ((a, rs'), st') ↔ rs' = rs ∧ c st = .ok (a, st') := by
  refine (bind_ok (r := c) (f := fun a => Pure.pure (a, rs))).trans ⟨?_, ?_⟩
  · rintro ⟨a', st1, h, hrest⟩
    cases hrest
    exact ⟨rfl, h⟩
  · rintro ⟨rfl, h⟩
    exact ⟨a, st', h, rfl⟩

/-- What makes no regions is run first. -/
theorem traced_leaf {α β : Type} {c : GenM α} {f : α → TraceM β} {rs rs'' : List Part}
    {st st'' : GenState} {b : β} :
    ((traceOps env).leaf c >>= f) rs st = .ok ((b, rs''), st'') ↔
      ∃ a st', c st = .ok (a, st') ∧ f a rs st' = .ok ((b, rs''), st'') := by
  refine traced_bind.trans ⟨?_, fun ⟨a, st', h, h'⟩ => ⟨a, rs, st', traced_lift.mpr ⟨rfl, h⟩, h'⟩⟩
  rintro ⟨a, rs', st', h, h'⟩
  obtain ⟨rfl, hc⟩ := traced_lift.mp h
  exact ⟨a, st', hc, h'⟩

namespace Lays

variable {α β : Type} {level : Nat}

theorem bind {x : TraceM α} {f : α → TraceM β} (hx : Lays env level x)
    (hf : ∀ a, Lays env level (f a)) : Lays env level (x >>= f) := by
  intro rs st b rs'' st'' h
  obtain ⟨a, rs', st', h, h'⟩ := traced_bind.mp h
  obtain ⟨new, rfl, hadds⟩ := hx rs st a rs' st' h
  obtain ⟨new', rfl, hadds'⟩ := hf a _ st' b rs'' st'' h'
  exact ⟨new ++ new', List.append_assoc .., hadds.trans hadds'⟩

theorem pure (a : α) : Lays env level (pure a : TraceM α) := by
  intro rs st a rs' st' h
  cases h
  exact ⟨[], (List.append_nil _).symm, .of_eq rfl rfl⟩

theorem leaf {c : GenM α} (h : Puts env level c) : Lays env level ((traceOps env).leaf c) := by
  intro rs st a rs' st' hrun
  obtain ⟨rfl, hc⟩ := traced_lift.mp hrun
  exact ⟨[], (List.append_nil _).symm, h st a st' hc⟩

theorem error (msg : String) : Lays env level ((traceOps env).leaf (luaError msg : GenM α)) :=
  leaf .throw

theorem genError (msg : String) (line : Nat) :
    Lays env level ((traceOps env).leaf (genError msg line : GenM α)) :=
  leaf .throw

end Lays

/-- The call of `e` is one region. -/
def Tells (env : GenEnv) (ctx : Ctx) (e : Sexp) (x : TraceM Unit) : Prop :=
  ∀ rs st u rs' st', x rs st = .ok ((u, rs'), st') → ∃ r : Part, rs' = rs ++ [r]
    ∧ r.label = ⟨ctx.parents.length, e⟩ ∧ r.lo = st.pos ∧ r.hi = st'.pos
    ∧ Adds env ctx.parents.length st.func st'.func [] [r]

theorem Tells.lays {ctx : Ctx} {e : Sexp} {x : TraceM Unit} (h : Tells env ctx e x) :
    Lays env ctx.parents.length x := by
  intro rs st u rs' st' hrun
  obtain ⟨r, hrs', -, -, -, hadds⟩ := h rs st u rs' st' hrun
  exact ⟨[r], hrs', hadds⟩

/-- What a call of `e` does by itself comes to one region. -/
def Makes (env : GenEnv) (ctx : Ctx) (e : Sexp) (x : TraceM Unit) : Prop :=
  ∀ st u new st', x [] st = .ok ((u, new), st') → ∃ body parts : List Part, new = body ++ parts
    ∧ (∀ r ∈ body, r.label.level ≠ ctx.parents.length)
    ∧ (∀ r ∈ parts, r.label.level = ctx.parents.length)
    ∧ Adds env ctx.parents.length st.func st'.func []
      [.mk ⟨ctx.parents.length, e⟩ st.pos st'.pos body parts]

namespace Makes

variable {ctx : Ctx} {e : Sexp} {x : TraceM Unit}

theorem of_adds (h : ∀ st u new st', x [] st = .ok ((u, new), st') →
      ∃ body parts, new = body ++ parts ∧ Adds env ctx.parents.length st.func st'.func body parts) :
    Makes env ctx e x := by
  intro st u new st' hrun
  obtain ⟨body, parts, hnew, hadds⟩ := h st u new st' hrun
  exact ⟨body, parts, hnew, hadds.inner, hadds.outer, hadds.region e⟩

theorem of_lays (h : Lays env ctx.parents.length x) : Makes env ctx e x :=
  .of_adds fun st u new st' hrun => by
    obtain ⟨parts, hnew, hadds⟩ := h [] st u new st' hrun
    exact ⟨[], parts, hnew, hadds⟩

/-- Something is asked first that leaves the function alone. -/
theorem asked {α : Type} {c : GenM α} {f : α → TraceM Unit}
    (hc : ∀ st a st', c st = .ok (a, st') → st'.func = st.func) (hf : ∀ a, Makes env ctx e (f a)) :
    Makes env ctx e ((traceOps env).leaf c >>= f) := by
  intro st u new st' hrun
  obtain ⟨a, st1, hask, hrun⟩ := traced_leaf.mp hrun
  have hfunc := hc st a st1 hask
  have hmakes := hf a st1 u new st' hrun
  rwa [GenState.pos, GenState.code, hfunc] at hmakes

theorem tells (h : Makes env ctx e x) : Tells env ctx e (record ctx e x) := by
  intro rs st u rs' st' hrun
  obtain ⟨_, _, _, hget, hrun⟩ := traced_bind.mp hrun
  cases hget
  obtain ⟨_, _, _, hset, hrun⟩ := traced_bind.mp hrun
  cases hset
  obtain ⟨lo, _, _, hlo, hrun⟩ := traced_bind.mp hrun
  obtain ⟨rfl, hlo⟩ := traced_lift.mp hlo
  cases hlo
  obtain ⟨_, new, st1, hx, hrun⟩ := traced_bind.mp hrun
  cases hrun
  obtain ⟨body, parts, rfl, hbody, hparts, hadds⟩ := h st _ new st' hx
  have houter : ((body ++ parts).filter fun r => r.label.level == ctx.parents.length) = parts := by
    rw [List.filter_append, List.filter_eq_nil_iff.mpr fun r hr => by simpa using hbody r hr,
      List.filter_eq_self.mpr fun r hr => by simpa using hparts r hr, List.nil_append]
  have hinner : ((body ++ parts).filter fun r => r.label.level != ctx.parents.length) = body := by
    rw [List.filter_append, List.filter_eq_self.mpr fun r hr => by simpa using hbody r hr,
      List.filter_eq_nil_iff.mpr fun r hr => by simpa using hparts r hr, List.append_nil]
  refine ⟨_, rfl, rfl, rfl, rfl, ?_⟩
  rw [houter, hinner]
  exact hadds

end Makes

/-! ## Forms -/

section Forms

variable {g : GenIn TraceM} (hg : ∀ ctx e tail quoted, Tells env ctx e (g ctx e tail quoted))
  {ctx : Ctx}
include hg

theorem lays_genAll (quoted : Bool) :
    ∀ es, Lays env ctx.parents.length (GenOps.genAll g ctx quoted es)
  | [] => .pure ()
  | e :: es => (hg ctx e false quoted).lays.bind fun _ => lays_genAll quoted es

theorem lays_genFunccall (data : List Sexp) (line : Nat) (tail : Bool) :
    Lays env ctx.parents.length ((traceOps env).genFunccall g ctx data line tail) := by
  unfold GenOps.genFunccall
  split
  · exact .error _
  · exact (lays_genAll hg false data).bind fun _ => .leaf (.callOrTail _ _ _ _)

theorem lays_genRec (data : List Sexp) (line : Nat) (tail : Bool) :
    Lays env ctx.parents.length ((traceOps env).genRec g ctx data line tail) :=
  (Lays.leaf (.genInst (by decide) _ _ _)).bind fun _ => (lays_genAll hg false _).bind fun _ =>
    .leaf (.callOrTail _ _ _ _)

theorem lays_genBody :
    ∀ es, Lays env ctx.parents.length ((traceOps env).genBody g ctx es)
  | [] => .pure ()
  | [e] => (hg ctx e true false).lays
  | e :: e' :: es => (hg ctx e false false).lays.bind fun _ =>
      (Lays.leaf (.genInst (by decide) _ _ _)).bind fun _ => lays_genBody (e' :: es)

theorem lays_genList (e : Sexp) (tail : Bool) :
    Lays env ctx.parents.length ((traceOps env).genList g ctx e tail) := by
  unfold GenOps.genList
  split
  · exact .error _
  · split
    · split
      · exact .error _
      · exact (hg ctx _ tail false).lays
    · exact (Lays.leaf (.genFetch _ _ _)).bind fun _ => (lays_genAll hg true _).bind fun _ =>
        .leaf (.callOrTail _ _ _ _)
  · exact (hg ctx _ tail true).lays

theorem lays_genQuote (data : List Sexp) (tail : Bool) :
    Lays env ctx.parents.length ((traceOps env).genQuote g ctx data tail) := by
  unfold GenOps.genQuote
  split
  · exact .error _
  · exact lays_genList hg _ tail

theorem lays_genDefine (data : List Sexp) (line : Nat) :
    Lays env ctx.parents.length ((traceOps env).genDefine g ctx data line) := by
  unfold GenOps.genDefine
  split
  · split
    · exact .genError _ _
    · exact (hg ctx _ false false).lays.bind fun _ => (Lays.leaf (.pushConst _)).bind fun _ =>
        .leaf (.genInst (by decide) _ _ _)
  · exact .genError _ _

theorem lays_genOperator {op : Op} (hop : op.IsStraight) (data operands : List Sexp) (line : Nat)
    (tail : Bool) (err : String) : Lays env ctx.parents.length
      ((traceOps env).genOperator g ctx op data operands line tail err) := by
  unfold GenOps.genOperator
  split
  · exact .genError _ _
  · split
    · exact lays_genFunccall hg data line tail
    · exact (lays_genAll hg false operands).bind fun _ => .leaf (.genInst hop _ _ _)

theorem lays_genArith {op : Op} (hop : op.IsStraight) (data : List Sexp) (line : Nat)
    (tail : Bool) :
    Lays env ctx.parents.length ((traceOps env).genArith g ctx op data line tail) := by
  unfold GenOps.genArith
  split
  · exact (hg ctx _ false false).lays.bind fun _ => .leaf (.genInst (by decide) _ _ _)
  · exact lays_genOperator hg hop data data.tail line tail _

/-! ### Branches -/

theorem makes_genIf {data : List Sexp} {line : Nat}
    (hif : isSpecial env ctx.parents.length data = some .if) (tail : Bool) :
    Makes env ctx (.sexp data line) ((traceOps env).genIf g ctx data line tail) := by
  unfold GenOps.genIf
  split
  case h_2 => exact .of_lays (.genError _ _)
  case h_1 c t hc ht =>
    intro st u new st' h
    obtain ⟨_, _, st1, hcond, h⟩ := traced_bind.mp h
    obtain ⟨condidx, _, hhere, h⟩ := traced_leaf.mp h
    cases hhere
    obtain ⟨_, st2, htest, h⟩ := traced_leaf.mp h
    obtain ⟨_, _, st3, helse, h⟩ := traced_bind.mp h
    obtain ⟨jmpidx, _, hhere, h⟩ := traced_leaf.mp h
    cases hhere
    obtain ⟨_, st4, hjmp, h⟩ := traced_leaf.mp h
    obtain ⟨_, st5, hset, h⟩ := traced_leaf.mp h
    obtain ⟨_, _, st6, hthen, h⟩ := traced_bind.mp h
    obtain ⟨rfl, hset'⟩ := traced_lift.mp h
    obtain ⟨rc, rfl, hlabelc, hloc, hhic, haddsc⟩ := hg ctx c false false _ _ _ _ _ hcond
    obtain ⟨rf, rfl, hlabelf, hlof, hhif, haddsf⟩ := hg ctx _ tail false _ _ _ _ _ helse
    obtain ⟨rt, rfl, hlabelt, hlot, hhit, haddst⟩ := hg ctx t tail false _ _ _ _ _ hthen
    obtain ⟨hb, hpos2, hpos5, hpos7⟩ :=
      branched_steps htest haddsf.code hjmp hset haddst.code hset'
    have hbranch : IsBranch Instr.kind (IfForm env) st'.code
        (.mk ⟨ctx.parents.length, .sexp data line⟩ st.pos st'.pos [] [rc, rf, rt]) rc rf rt := {
      parts := rfl
      cond := ⟨data, line, rfl, hif, by rw [hlabelc]; exact hc, by rw [hlabelt]; exact ht,
        by rw [hlabelf, hlabelt]⟩
      lo := hloc.symm
      test := ⟨_, by rw [hhic]; exact hb.test, by rw [hlot, hpos5]; rfl⟩
      first := by rw [hlof, hpos2, hhic]
      jump := ⟨_, by rw [hhif]; exact hb.jmp, by rw [hhit]; rfl⟩
      second := by rw [hlot, hpos5, hhif]
      hi := by rw [hhit]; exact hpos7 }
    have hlaidc : Laid Instr.kind (IfForm env) st'.code rc.lo rc.hi [rc] := by
      rw [hloc, hhic]
      exact haddsc.laid.congr fun pc _ hpc => hb.below pc hpc
    have hlaidf : Laid Instr.kind (IfForm env) st'.code rf.lo rf.hi [rf] := by
      rw [hlof, hhif]
      refine haddsf.laid.congr fun pc hlo hhi => hb.first pc ?_ hhi
      exact Nat.lt_of_lt_of_le (Nat.lt_of_lt_of_eq (Nat.lt_succ_self _) hpos2.symm) hlo
    have hlaidt : Laid Instr.kind (IfForm env) st'.code rt.lo rt.hi [rt] := by
      rw [hlot, hhit]
      refine haddst.laid.congr fun pc hlo _ => hb.second pc ?_
      exact Nat.lt_of_lt_of_le (Nat.lt_of_lt_of_eq (Nat.lt_succ_self _) hpos5.symm) hlo
    refine ⟨[], [rc, rf, rt], rfl, fun _ hr => absurd hr List.not_mem_nil, ?_, ?_⟩
    · intro r hr
      rcases List.mem_cons.mp hr with rfl | hr
      · rw [hlabelc]
      · rcases List.mem_cons.mp hr with rfl | hr
        · rw [hlabelf]
        · rw [List.mem_singleton.mp hr, hlabelt]
    · -- what is made in the three parts is all that is made
      have hprot2 : st2.func.prot = st1.func.prot := by cases htest; rfl
      have hprot4 : st4.func.prot = st3.func.prot := by cases hjmp; rfl
      have hprot5 : st5.func.prot = st4.func.prot := by cases hset; rfl
      have hprot7 : st'.func.prot = st6.func.prot := by cases hset'; rfl
      obtain ⟨psc, hpsc, hgoesc⟩ := haddsc.prot
      obtain ⟨psf, hpsf, hgoesf⟩ := haddsf.prot
      obtain ⟨pst, hpst, hgoest⟩ := haddst.prot
      refine ⟨hb.before haddsc.code, ?_, ⟨psc ++ (psf ++ pst), ?_, ?_⟩,
        fun _ hr => absurd hr List.not_mem_nil, fun r hr => ?_⟩
      · exact .branch hbranch hlaidc hlaidf hlaidt (.nil _)
      · rw [hprot7, hpst, hprot5, hprot4, hpsf, hprot2, hpsc]
        simp only [List.append_assoc]
      · have hgoes := List.rel_append hgoesc (List.rel_append hgoesf hgoest)
        have hbodies : Region.bodiesOf [(Region.mk ⟨ctx.parents.length, .sexp data line⟩ st.pos
            st'.pos [] [rc, rf, rt] : Part)]
            = Region.bodiesOf [rc] ++ (Region.bodiesOf [rf] ++ Region.bodiesOf [rt]) := by
          simp [Region.bodiesOf, Region.bodies]
        rw [hbodies]
        exact hgoes
      · rw [List.mem_singleton.mp hr]
        rfl

/-! ### Functions -/

/-- A sequence that is not empty has a region. -/
theorem genBody_regions {es : List Sexp} (hes : es ≠ []) {rs rs' : List Part}
    {st st' : GenState} {u : Unit}
    (h : (traceOps env).genBody g ctx es rs st = .ok ((u, rs'), st')) :
    ∃ r new, rs' = rs ++ r :: new := by
  match es with
  | [] => exact absurd rfl hes
  | [e] =>
      obtain ⟨r, hrs', -⟩ := hg ctx e true false _ _ _ _ _ h
      exact ⟨r, [], hrs'⟩
  | e :: e' :: es =>
      obtain ⟨_, rs1, st1, hfirst, hrest⟩ := traced_bind.mp h
      obtain ⟨_, st2, -, hrest⟩ := traced_leaf.mp hrest
      obtain ⟨r, rfl, -⟩ := hg ctx e false false _ _ _ _ _ hfirst
      obtain ⟨new, rfl, -⟩ := lays_genBody hg (e' :: es) _ _ _ _ _ hrest
      exact ⟨r, new, by simp⟩

omit hg in
theorem function_goesBy {body : GenState} {new : List Part} {level : Nat}
    (h : Adds env level {} body.func [] new) : body.function.GoesBy env new := by
  obtain ⟨ps, hps, hgoes⟩ := h.prot
  refine .mk ⟨body.pos, ?_, ?_, { op := .return }, ?_, rfl⟩ ?_
  · exact h.laid.congr fun pc _ hpc => List.getElem?_append_left hpc
  · exact List.length_append
  · exact List.getElem?_concat_length
  · have hprot : body.function.prot = ps := hps
    rw [hprot]
    exact hgoes

/-- The regions of the body are those of the new function. -/
theorem adds_genLambda {data : List Sexp} {line : Nat} {rs rs' : List Part} {st st' : GenState}
    {u : Unit} (h : (traceOps env).genLambda g ctx data line rs st = .ok ((u, rs'), st')) :
    ∃ body, rs' = rs ++ body ∧ Adds env ctx.parents.length st.func st'.func body [] := by
  rcases data with _ | ⟨d, _ | ⟨args, _ | ⟨e, es⟩⟩⟩
  case nil => cases h
  case cons.nil => cases h
  case cons.cons.nil => cases h
  case cons.cons.cons =>
    unfold GenOps.genLambda at h
    rw [if_neg (by simp)] at h
    obtain ⟨⟨lables, numArgs⟩, st1, hargs, hrest⟩ := traced_leaf.mp h
    cases lambdaArgs_state hargs
    obtain ⟨func, _, hfunc, hrest⟩ := traced_leaf.mp hrest
    cases hfunc
    obtain ⟨_, _, hempty, hrest⟩ := traced_leaf.mp hrest
    cases hempty
    obtain ⟨_, rs1, body, hbody, hrest⟩ := traced_bind.mp hrest
    obtain ⟨r, new, rfl⟩ := genBody_regions hg (List.cons_ne_nil e es) hbody
    obtain ⟨new', hnew, hadds⟩ := lays_genBody hg (e :: es) _ _ _ _ _ hbody
    obtain rfl : r :: new = new' := List.append_cancel_left hnew
    cases hrest
    refine ⟨r :: new, rfl, ?_⟩
    exact .closure (function_goesBy hadds) (List.cons_ne_nil r new)
      (fun s hs => hadds.outer s hs ▸ Nat.succ_ne_self _) numArgs line

theorem makes_genLet (data : List Sexp) (e : Sexp) (line : Nat) (tail : Bool) :
    Makes env ctx e ((traceOps env).genLet g ctx data line tail) := by
  unfold GenOps.genLet
  split
  · exact .of_lays (.genError _ _)
  · split
    · rename_i args _ _
      split
      · exact .of_lays (.genError _ _)
      · refine .asked (fun _ _ _ h => by rw [letPairs_state h]) fun r => .of_adds ?_
        intro st u new st' h
        obtain ⟨_, rs1, st1, hlambda, h⟩ := traced_bind.mp h
        obtain ⟨body, hrs1, hadds⟩ := adds_genLambda hg hlambda
        have hrest : Lays env ctx.parents.length (GenOps.genAll g ctx false r.2 >>= fun _ =>
            (traceOps env).leaf (callOrTail env ctx tail (some line) r.2.length)) :=
          (lays_genAll hg false r.2).bind fun _ => .leaf (.callOrTail _ _ _ _)
        obtain ⟨parts, hnew, hadds'⟩ := hrest _ _ _ _ _ h
        exact ⟨body, parts, by rw [hnew, hrs1, List.nil_append], hadds.trans hadds'⟩
    · exact .of_lays (.genError _ _)

end Forms

/-! ## Expressions -/

/-- A form whose operator, if it has one, goes on behind itself. -/
def Special.IsStraight : Special → Prop
  | .logical op | .greater op | .arith op => op.IsStraight
  | _ => True

instance : DecidablePred Special.IsStraight
  | .logical op | .greater op | .arith op => inferInstanceAs (Decidable op.IsStraight)
  | .if | .lambda | .define | .undef | .macroDef | .recur | .do | .quote | .let => .isTrue trivial

theorem specials_straight : ∀ entry ∈ specials, entry.2.IsStraight := by decide

/-- No special form is an operator that branches. -/
def GenEnv.IsStraight (env : GenEnv) : Prop :=
  ∀ depth name spe, env.special depth name = some spe → spe.IsStraight

theorem sourceEnv_straight (optTail inMacroWorld : Bool)
    (expand : List MacroCall → MacroCall → Except String (Sexp × List (Atom × Sexp))) :
    (sourceEnv optTail inMacroWorld expand).IsStraight := by
  intro depth name spe h
  obtain ⟨l, r, hl, -⟩ := List.lookup_eq_some_iff.mp h
  exact specials_straight (name, spe) (hl ▸ by simp)

theorem GenEnv.IsStraight.isSpecial (henv : env.IsStraight) {depth : Nat} {data : List Sexp}
    {spe : Special} (h : isSpecial env depth data = some spe) : spe.IsStraight := by
  rcases data with _ | ⟨_ | _ | _, _⟩
  · cases h
  · cases h
  · exact henv depth _ spe h
  · cases h

theorem expand_func {g : Gen} {data : List Sexp} {line : Nat} {st st' : GenState}
    {a : Option Sexp} (h : env.ops.expand g data line st = .ok (a, st')) : st'.func = st.func := by
  obtain ⟨_, _, hget, h⟩ := bind_ok.mp h
  cases hget
  cases hname : isMacro env st.macros data with
  | none =>
      rw [hname] at h
      cases h
      rfl
  | some name =>
      rw [hname] at h
      dsimp only at h
      rw [← bind_pure_comp] at h
      obtain ⟨e, st1, hexpand, h⟩ := bind_ok.mp h
      cases h
      exact genMacroExpansion_func hexpand

section Expressions

variable {g : GenIn TraceM} (hg : ∀ ctx e tail quoted, Tells env ctx e (g ctx e tail quoted))
  {ctx : Ctx}
include hg

theorem makes_genSpecial {spe : Special} (hspe : spe.IsStraight) {data : List Sexp} {line : Nat}
    (hdata : isSpecial env ctx.parents.length data = some spe) (tail : Bool) :
    Makes env ctx (.sexp data line) ((traceOps env).genSpecial g ctx spe data line tail) := by
  cases spe with
  | «if» => exact makes_genIf hg hdata tail
  | lambda =>
      refine .of_adds fun st u new st' h => ?_
      obtain ⟨body, hnew, hadds⟩ := adds_genLambda hg h
      exact ⟨body, [], by rw [hnew, List.nil_append, List.append_nil], hadds⟩
  | define => exact .of_lays (lays_genDefine hg data line)
  | undef => exact .of_lays (.genError _ _)
  | macroDef => exact .of_lays (.leaf (.genMacro data line))
  | recur => exact .of_lays (lays_genRec hg data line tail)
  | «do» => exact .of_lays (lays_genBody hg _)
  | quote => exact .of_lays (lays_genQuote hg data tail)
  | «let» => exact makes_genLet hg data _ line tail
  | logical op => exact .of_lays (lays_genOperator hg hspe data data.tail line tail _)
  | greater op => exact .of_lays (lays_genOperator hg hspe data data.tail.reverse line false _)
  | arith op => exact .of_lays (lays_genArith hg hspe data line tail)

/-- One call of `gen`. -/
theorem makes_node (henv : env.IsStraight) (e : Sexp) (tail quoted : Bool) :
    Makes env ctx e ((traceOps env).node g ctx e tail quoted) := by
  match e with
  | .number n line => exact .of_lays (.leaf (.genConst _ _))
  | .symbol sym line =>
      unfold GenOps.node
      dsimp only
      split
      · exact .of_lays (.leaf (.genConst _ _))
      · exact .of_lays (.leaf (.genFetch _ _ _))
  | .sexp data line =>
      unfold GenOps.node
      dsimp only
      split
      · exact .of_lays (lays_genList hg _ tail)
      · refine .asked (fun _ _ _ h => expand_func h) fun x => ?_
        cases x with
        | some e => exact .of_lays (hg ctx e tail false).lays
        | none =>
            dsimp only
            split
            · rename_i spe hspe
              exact makes_genSpecial hg (henv.isSpecial hspe) hspe tail
            · exact .of_lays (lays_genFunccall hg data line tail)

omit hg in
/-- **Every call of `gen` is one region of what it generates**, by induction
on the depth of the recursion. -/
theorem lays_traceGen (henv : env.IsStraight) : ∀ depth ctx e tail quoted,
    Tells env ctx e (traceGen env depth ctx e tail quoted)
  | 0, _, _, _, _ => fun _ _ _ _ _ h => nomatch h
  | depth + 1, _, e, tail, quoted =>
      (makes_node (lays_traceGen henv depth) henv e tail quoted).tells

end Expressions

/-- The function of a program goes by the regions of its run. -/
theorem goesBy_traceSexp (henv : env.IsStraight) {depth : Nat} {e : Sexp} {st st' : GenState}
    {F : Func} {regions : List Part} (h : traceSexp env depth e [] st = .ok ((F, regions), st')) :
    F.GoesBy env regions := by
  obtain ⟨_, _, hempty, h⟩ := traced_leaf.mp h
  cases hempty
  obtain ⟨_, rs1, st1, hgen, h⟩ := traced_bind.mp h
  obtain ⟨new, hnew, hadds⟩ := (lays_traceGen henv depth topCtx e false false).lays _ _ _ _ _ hgen
  obtain ⟨_, st2, hload, h⟩ := traced_leaf.mp h
  obtain ⟨_, st3, hcall, h⟩ := traced_leaf.mp h
  have hadds2 := hadds.trans (Puts.genInst (by decide) 0 0 none st1 _ st2 hload)
  have hadds3 := hadds2.trans (Puts.callOrTail topCtx false none 1 st2 _ st3 hcall)
  rw [List.append_nil, List.append_nil, ← List.nil_append new, ← hnew] at hadds3
  cases h
  exact function_goesBy hadds3

end Layouts

/-- **Generated control flow is structured.** A run of the generator tells the
regions of all expressions, and in every function that it makes a test goes
forward to the branch that is chosen and a jump behind it, nothing goes into a
region from outside but to where it begins, and every path ends inside. -/
theorem control_flow_structured {optTail inMacroWorld : Bool}
    {expand : List MacroCall → MacroCall → Except String (Sexp × List (Atom × Sexp))}
    {depth : Nat} {e : Sexp} {st st' : GenState} {F : Func}
    (h : genSexp (sourceEnv optTail inMacroWorld expand) depth e st = .ok (F, st')) :
    ∃ regions,
      traceSexp (sourceEnv optTail inMacroWorld expand) depth e [] st = .ok ((F, regions), st')
      ∧ ∀ path G, F.at? path = some G → ∃ rs, Region.at? regions path = some rs
        ∧ Structured Instr.kind (IfForm (sourceEnv optTail inMacroWorld expand)) G.instructions
          rs := by
  obtain ⟨regions, htrace⟩ := traced h
  refine ⟨regions, htrace, fun path G hat => ?_⟩
  obtain ⟨rs, hrs, hwhole⟩ := goesBy_traceSexp (sourceEnv_straight _ _ _) htrace path G hat
  exact ⟨rs, hrs, hwhole.structured⟩

/-- `(if a (lambda x (if x b)) c)` -/
def nestedIf : Sexp :=
  .sexp [.symbol (atom ['i', 'f']) 1, .symbol (atom ['a']) 1,
    .sexp [.symbol (atom ['l', 'a', 'm', 'b', 'd', 'a']) 1, .symbol (atom ['x']) 1,
      .sexp [.symbol (atom ['i', 'f']) 1, .symbol (atom ['x']) 1, .symbol (atom ['b']) 1] 1] 1,
    .symbol (atom ['c']) 1] 1

theorem control_flow_structured_nested :
    ∃ F st' regions, genSexp (sourceEnv true false noMacros) 8 nestedIf genStart = .ok (F, st')
      ∧ traceSexp (sourceEnv true false noMacros) 8 nestedIf [] genStart = .ok ((F, regions), st')
      ∧ ∀ path G, F.at? path = some G → ∃ rs, Region.at? regions path = some rs
        ∧ Structured Instr.kind (IfForm (sourceEnv true false noMacros)) G.instructions rs := by
  have hrun : (generate nestedIf).isSome = true := by decide +kernel
  obtain ⟨F, hF⟩ := Option.isSome_iff_exists.mp hrun
  obtain ⟨st', hgen⟩ := genSexp_of_generate hF
  obtain ⟨regions, htrace, hall⟩ := control_flow_structured hgen
  exact ⟨F, st', regions, hgen, htrace, hall⟩

end Saurus
