import Saurus.Lang.Emit
import Saurus.Macro.Rebuild

/-!
# Generated code is well made

The interpreter checks no operand. That it need not is due to the generator:
in every function of a program the constants, prototypes, slots and targets
that the instructions name are there, what a closure captures is a variable
of the functions it stands in, and each instruction has a line, which is one
of the source (`genSexp_wellMade`).

Code is well made at every point of the generator's work; each form keeps it
so (`Making`), and the targets of a conditional are the only operands that
are changed once they are there.
-/

namespace Saurus

open Basis Basis.Codec

/-! ## Code -/

/-- The operands name what is there. -/
def Instr.InRange (slots consts prots len : Nat) (i : Instr) : Prop :=
  match i.op with
  | .push | .getglobal | .setglobal => i.a < consts
  | .load => i.a < slots
  | .lambda => i.a < prots
  | .test | .jmp => i.a ≤ len
  | _ => True

theorem Instr.InRange.mono {slots consts prots len slots' consts' prots' len' : Nat} {i : Instr}
    (h : i.InRange slots consts prots len) (hs : slots ≤ slots') (hc : consts ≤ consts')
    (hp : prots ≤ prots') (hl : len ≤ len') : i.InRange slots' consts' prots' len' := by
  obtain ⟨op, a, b⟩ := i
  cases op with
  | push | getglobal | setglobal => exact Nat.lt_of_lt_of_le h hc
  | load => exact Nat.lt_of_lt_of_le h hs
  | lambda => exact Nat.lt_of_lt_of_le h hp
  | test | jmp => exact Nat.le_trans h hl
  | _ => trivial

/-- Instructions whose operands, if any, are only counts. -/
def Op.Nameless (op : Op) : Prop :=
  op ∉ [Op.push, .load, .lambda, .getglobal, .setglobal, .test, .jmp]

instance (op : Op) : Decidable op.Nameless := inferInstanceAs (Decidable (_ ∉ _))

theorem Op.Nameless.inRange {slots consts prots len : Nat} {i : Instr} (h : i.op.Nameless) :
    i.InRange slots consts prots len := by
  unfold Instr.InRange
  cases hop : i.op with
  | push | load | lambda | getglobal | setglobal | test | jmp =>
      rw [hop] at h
      exact absurd h (by decide)
  | _ => trivial

theorem Op.Nameless.ne_lambda {op : Op} (h : op.Nameless) : op ≠ .lambda := by
  rintro rfl
  exact absurd h (by decide)

/-- How many variables a function has that is made with `b` arguments. -/
def arity (b : Int) : Nat := if b < 0 then 1 else b.toNat

/-- A function in functions with so many variables, its own first. -/
inductive Func.WellMade (L : Nat → Prop) : List Nat → Func → Prop where
  | mk {width : Nat} {outer : List Nat} {F : Func} (code : List Instr) :
      F.instructions = code ++ [{ op := .return }] →
      (∀ i ∈ code, i.InRange (width + F.up.length) F.const.length F.prot.length code.length) →
      (∀ u ∈ F.up, 1 ≤ u.1 ∧ ∃ n, outer[u.1 - 1]? = some n ∧ u.2 < n) →
      (∀ i ∈ code, i.op = .lambda → ∀ p, F.prot[i.a]? = some p →
        p.WellMade L (arity i.b :: width :: outer)) →
      F.linenr.length = F.instructions.length →
      (∀ n ∈ F.linenr, L n) →
      F.WellMade L (width :: outer)

/-- It stays so in functions with more variables. -/
theorem Func.WellMade.mono {L : Nat → Prop} {widths widths' : List Nat} {F : Func}
    (h : F.WellMade L widths) (hle : List.Forall₂ (· ≤ ·) widths widths') :
    F.WellMade L widths' := by
  induction h generalizing widths' with
  | @mk width outer F code hcode hinst hup _ hcount hlines ih =>
      obtain ⟨width', outer', hwidth, houter, rfl⟩ := List.forall₂_cons_left_iff.mp hle
      refine .mk code hcode (fun i hi => ?_) (fun u hu => ?_) (fun i hi hlam p hp => ?_) hcount
        hlines
      · exact (hinst i hi).mono (Nat.add_le_add_right hwidth _) (Nat.le_refl _) (Nat.le_refl _)
          (Nat.le_refl _)
      · obtain ⟨hpos, n, hn, hlt⟩ := hup u hu
        obtain ⟨hlen, hget⟩ := List.forall₂_iff_get.mp houter
        obtain ⟨hk, rfl⟩ := List.getElem?_eq_some_iff.mp hn
        exact ⟨hpos, _, List.getElem?_eq_getElem (hlen ▸ hk),
          Nat.lt_of_lt_of_le hlt (hget _ hk (hlen ▸ hk))⟩
      · exact ih i hi hlam p hp (.cons (Nat.le_refl _) hle)

theorem Func.WellMade.imp {L L' : Nat → Prop} (hL : ∀ n, L n → L' n) {widths : List Nat}
    {F : Func} (h : F.WellMade L widths) : F.WellMade L' widths := by
  induction h with
  | mk code hcode hinst hup _ hcount hlines ih =>
      exact .mk code hcode hinst hup ih hcount fun n hn => hL n (hlines n hn)

theorem Func.WellMade.named {L : Nat → Prop} {widths : List Nat} {F : Func}
    (h : F.WellMade L widths) (name : List Byte) : (F.named name).WellMade L widths := by
  cases F
  obtain ⟨code, hcode, hinst, hup, hclosures, hcount, hlines⟩ := h
  exact .mk code hcode hinst hup hclosures hcount hlines

/-- The numbers of variables around a form. -/
def Ctx.widths (ctx : Ctx) : List Nat :=
  ctx.own.lables.length :: ctx.parents.map fun scope => scope.lables.length

/-- The same of a function that is being generated. -/
structure FuncTable.WellMade (L : Nat → Prop) (ctx : Ctx) (f : FuncTable) : Prop where
  inst : ∀ i ∈ f.instructions,
    i.InRange (ctx.own.lables.length + f.up.length) f.const.length f.prot.length
      f.instructions.length
  sees : ∀ u ∈ f.up, ctx.Sees u
  closures : ∀ i ∈ f.instructions, i.op = .lambda → ∀ p, f.prot[i.a]? = some p →
    p.WellMade L (arity i.b :: ctx.widths)
  count : f.linenr.length = f.instructions.length
  lines : ∀ n ∈ f.linenr, L n

/-- What `m` is given well made it leaves well made. -/
def Making {α : Type} (L : Nat → Prop) (ctx : Ctx) (m : GenM α) : Prop :=
  ∀ st a st', m st = .ok (a, st') → st.func.WellMade L ctx → st'.func.WellMade L ctx

namespace FuncTable.WellMade

variable {L : Nat → Prop} {ctx : Ctx} {f : FuncTable} {line : Nat}

theorem empty : ({} : FuncTable).WellMade L ctx :=
  ⟨fun _ h => absurd h List.not_mem_nil, fun _ h => absurd h List.not_mem_nil,
    fun _ h => absurd h List.not_mem_nil, rfl, fun _ h => absurd h List.not_mem_nil⟩

theorem emit (h : f.WellMade L ctx) {i : Instr} (hline : L line)
    (hi : i.InRange (ctx.own.lables.length + f.up.length) f.const.length f.prot.length
      (f.instructions.length + 1)) (hop : i.op ≠ .lambda) :
    (f.emit i line).WellMade L ctx := by
  have hlen : (f.instructions ++ [i]).length = f.instructions.length + 1 := List.length_append
  refine ⟨fun j hj => ?_, h.sees, fun j hj hlam => ?_, ?_, fun n hn => ?_⟩
  · change j.InRange _ _ _ (f.instructions ++ [i]).length
    rw [hlen]
    rcases List.mem_append.mp hj with hj | hj
    · exact (h.inst j hj).mono (Nat.le_refl _) (Nat.le_refl _) (Nat.le_refl _) (Nat.le_succ _)
    · rwa [List.mem_singleton.mp hj]
  · rcases List.mem_append.mp hj with hj | hj
    · exact h.closures j hj hlam
    · exact absurd (List.mem_singleton.mp hj ▸ hlam) hop
  · change (f.linenr ++ [line]).length = (f.instructions ++ [i]).length
    rw [hlen, List.length_append, h.count]
    rfl
  · rcases List.mem_append.mp hn with hn | hn
    · exact h.lines n hn
    · rwa [List.mem_singleton.mp hn]

/-- Tables may grow. -/
theorem const (h : f.WellMade L ctx) (cs : List Const) :
    ({ f with const := f.const ++ cs } : FuncTable).WellMade L ctx :=
  ⟨fun i hi => (h.inst i hi).mono (Nat.le_refl _)
    (by rw [List.length_append]; exact Nat.le_add_right _ _) (Nat.le_refl _) (Nat.le_refl _),
    h.sees, h.closures, h.count, h.lines⟩

theorem up (h : f.WellMade L ctx) {u : Nat × Nat} (hu : ctx.Sees u) :
    ({ f with up := f.up ++ [u] } : FuncTable).WellMade L ctx := by
  refine ⟨fun i hi => (h.inst i hi).mono ?_ (Nat.le_refl _) (Nat.le_refl _) (Nat.le_refl _),
    fun v hv => ?_, h.closures, h.count, h.lines⟩
  · rw [List.length_append]
    omega
  · rcases List.mem_append.mp hv with hv | hv
    · exact h.sees v hv
    · rwa [List.mem_singleton.mp hv]

theorem closure (h : f.WellMade L ctx) (hline : L line) {p : Func} {numArgs : Int}
    (hp : p.WellMade L (arity numArgs :: ctx.widths)) :
    (f.closure p numArgs line).WellMade L ctx := by
  have hlen : ∀ i : Instr, (f.instructions ++ [i]).length = f.instructions.length + 1 :=
    fun _ => List.length_append
  have hprot : (f.prot ++ [p]).length = f.prot.length + 1 := List.length_append
  refine ⟨fun j hj => ?_, h.sees, fun j hj hlam q hq => ?_, ?_, fun n hn => ?_⟩
  · change j.InRange _ _ (f.prot ++ [p]).length (f.instructions ++ [_]).length
    rw [hlen, hprot]
    rcases List.mem_append.mp hj with hj | hj
    · exact (h.inst j hj).mono (Nat.le_refl _) (Nat.le_refl _) (Nat.le_succ _) (Nat.le_succ _)
    · rw [List.mem_singleton.mp hj]
      exact Nat.lt_succ_self _
  · rcases List.mem_append.mp hj with hj | hj
    · have hlt : j.a < f.prot.length := by
        have hin := h.inst j hj
        unfold Instr.InRange at hin
        rwa [hlam] at hin
      refine h.closures j hj hlam q ?_
      rwa [← List.getElem?_append_left hlt]
    · rw [List.mem_singleton.mp hj] at hq ⊢
      have hself : (f.prot ++ [p])[f.prot.length]? = some p := List.getElem?_concat_length
      obtain rfl := Option.some.inj (hself.symm.trans hq)
      exact hp
  · change (f.linenr ++ [line]).length = (f.instructions ++ [_]).length
    rw [hlen, List.length_append, h.count]
    rfl
  · rcases List.mem_append.mp hn with hn | hn
    · exact h.lines n hn
    · rwa [List.mem_singleton.mp hn]

/-- A target may be filled in, up to where the code has come. -/
theorem setA (h : f.WellMade L ctx) {idx a : Nat}
    (hop : ∀ i, f.instructions[idx]? = some i → i.op = .test ∨ i.op = .jmp)
    (ha : a ≤ f.instructions.length) : (f.setA idx a).WellMade L ctx := by
  have hmem : ∀ j ∈ (f.setA idx a).instructions, j ∈ f.instructions
      ∨ (j.op = .test ∨ j.op = .jmp) ∧ j.a = a := by
    intro j hj
    obtain ⟨k, hk⟩ := List.mem_iff_getElem?.mp hj
    have hmod : (f.instructions.modify idx fun inst => { inst with a := a })[k]? = some j := hk
    rw [List.getElem?_modify] at hmod
    obtain ⟨i, hi, hij⟩ := Option.map_eq_some_iff.mp hmod
    by_cases heq : idx = k
    · subst heq
      rw [if_pos rfl] at hij
      subst hij
      exact Or.inr ⟨hop i hi, rfl⟩
    · rw [if_neg heq] at hij
      exact Or.inl (hij ▸ List.mem_of_getElem? hi)
  have hlen : (f.setA idx a).instructions.length = f.instructions.length := List.length_modify ..
  refine ⟨fun j hj => ?_, h.sees, fun j hj hlam => ?_, hlen ▸ h.count, h.lines⟩
  · rw [hlen]
    rcases hmem j hj with hj | ⟨hj, haj⟩
    · exact h.inst j hj
    · unfold Instr.InRange
      rcases hj with hj | hj <;> rw [hj, haj] <;> exact ha
  · rcases hmem j hj with hj | ⟨hj, -⟩
    · exact h.closures j hj hlam
    · rcases hj with hj | hj <;> rw [hj] at hlam <;> cases hlam

/-- Code for a function with more variables. -/
theorem widen (h : f.WellMade L ctx) {own : Scope}
    (hle : ctx.own.lables.length ≤ own.lables.length) : f.WellMade L ⟨own, ctx.parents⟩ := by
  refine ⟨fun i hi => ?_, h.sees, fun i hi hlam p hp => ?_, h.count, h.lines⟩
  · exact (h.inst i hi).mono (Nat.add_le_add_right hle _) (Nat.le_refl _) (Nat.le_refl _)
      (Nat.le_refl _)
  · exact (h.closures i hi hlam p hp).mono
      (.cons (Nat.le_refl _) (.cons hle (List.forall₂_refl _)))

/-- The line of the instruction before, for one that is given none. -/
theorem lastLine (h : f.WellMade L ctx) (hone : L 1) : L (f.linenr.getLast?.getD 1) := by
  cases hlast : f.linenr.getLast? with
  | none => exact hone
  | some n => exact h.lines n (List.mem_of_getLast? hlast)

/-- A function that is done. -/
theorem toFunc (h : f.WellMade L ctx) (hline : L line) :
    (f.emit { op := .return } line).toFunc.WellMade L ctx.widths := by
  refine .mk f.instructions rfl h.inst (fun u hu => ?_) h.closures ?_ fun n hn => ?_
  · obtain ⟨hpos, scope, hscope, hlt⟩ := h.sees u hu
    exact ⟨hpos, _, by rw [List.getElem?_map, hscope]; rfl, hlt⟩
  · change (f.linenr ++ [line]).length = (f.instructions ++ [_]).length
    rw [List.length_append, List.length_append, h.count]
    rfl
  · rcases List.mem_append.mp hn with hn | hn
    · exact h.lines n hn
    · rwa [List.mem_singleton.mp hn]

end FuncTable.WellMade

/-! ## The generator -/

namespace Making

variable {α β : Type} {L : Nat → Prop} {ctx : Ctx} {m : GenM α} {f : α → GenM β}

theorem bind (hm : Making L ctx m) (hf : ∀ a, Making L ctx (f a)) : Making L ctx (m >>= f) := by
  intro st b st' h hst
  obtain ⟨a, st1, h1, h2⟩ := bind_ok.mp h
  exact hf a st1 b st' h2 (hm st a st1 h1 hst)

theorem of_func (h : ∀ st a st', m st = .ok (a, st') → st'.func = st.func) : Making L ctx m :=
  fun st a st' hm hst => h st a st' hm ▸ hst

theorem pure (a : α) : Making L ctx (pure a : GenM α) := .of_func fun _ _ _ h => by
  cases h
  rfl

theorem throw {msg : String} : Making L ctx (throw msg : GenM α) := fun _ _ _ h => nomatch h

/-- A piece behind a check. -/
theorem guarded {p : Prop} [Decidable p] {msg : String} {line : Nat} {f : Unit → GenM β}
    (h : Making L ctx (f ())) : Making L ctx (if p then genError msg line >>= f else f ()) := by
  split
  · exact fun _ _ _ h => nomatch h
  · exact h

end Making

/-- The instruction of a form names nothing. -/
def Special.Nameless : Special → Prop
  | .logical op | .greater op | .arith op => op.Nameless
  | _ => True

def GenEnv.Nameless (env : GenEnv) : Prop :=
  ∀ depth name spe, env.special depth name = some spe → spe.Nameless

/-- Expansions are what `gen_macro_expansion` makes of values. -/
def GenEnv.Rebuilds (env : GenEnv) : Prop :=
  ∀ past call e macros, env.expand past call = .ok (e, macros) →
    ∃ x, macroResult call.name call.line x = .ok e

mutual

/-- What is rebuilt has the line of the call. -/
theorem recreateAst_line {name : Atom} {line : Nat} : ∀ {x : LuaValue} {e : Sexp},
    recreateAst name line x = .ok e → e.Within fun n => n = line
  | .nilSubstitute, _, h | .number _, _, h | .string _, _, h | .boolean _, _, h => by
      cases h
      simp [Sexp.Within, Sexp.lines]
  | .table first rest, _, h => by
      rw [recreateAst] at h
      cases hx : recreateAst name line first with
      | error msg =>
          rw [hx] at h
          cases h
      | ok x =>
          cases hvec : listToVec name line rest with
          | error msg =>
              rw [hx, hvec] at h
              cases h
          | ok vec =>
              rw [hx, hvec] at h
              cases h
              refine within_sexp.mpr ⟨rfl, fun e he => ?_⟩
              rcases List.mem_cons.mp (List.mem_reverse.mp he) with rfl | he
              · exact recreateAst_line hx
              · exact listToVec_line hvec e he

theorem listToVec_line {name : Atom} {line : Nat} : ∀ {x : LuaValue} {es : List Sexp},
    listToVec name line x = .ok es → ∀ e ∈ es, e.Within fun n => n = line
  | .nilSubstitute, _, h, e, he => by
      cases h
      cases he
  | .number _, _, h, _, _ | .string _, _, h, _, _ | .boolean _, _, h, _, _ => by cases h
  | .table first rest, _, h, e, he => by
      rw [listToVec] at h
      cases hx : recreateAst name line first with
      | error msg =>
          rw [hx] at h
          cases h
      | ok x =>
          cases hvec : listToVec name line rest with
          | error msg =>
              rw [hx, hvec] at h
              cases h
          | ok vec =>
              rw [hx, hvec] at h
              cases h
              rcases List.mem_cons.mp he with rfl | he
              · exact recreateAst_line hx
              · exact listToVec_line hvec e he

end

theorem macroResult_line {name : Atom} {line : Nat} {x : Option LuaValue} {e : Sexp}
    (h : macroResult name line x = .ok e) : e.Within fun n => n = line := by
  unfold macroResult at h
  split at h
  · cases h
  · cases h
  · exact recreateAst_line h

section Forms

variable {L : Nat → Prop} {env : GenEnv} {g : Gen} {ctx : Ctx} {st st' : GenState} {line : Nat}

theorem pushConst_wellMade {c : Const} {k : Nat} (h : pushConst c st = .ok (k, st'))
    (hst : st.func.WellMade L ctx) :
    st'.func.WellMade L ctx ∧ k < st'.func.const.length := by
  rcases pushConst_ok h with ⟨hfound, rfl⟩ | ⟨-, rfl, rfl⟩
  · exact ⟨hst, (List.findIdx?_eq_some_iff_getElem.mp hfound).1⟩
  · exact ⟨hst.const [c], by simp⟩

section Leaves

variable (hone : L 1)
include hone

/-- Instructions that name nothing. -/
theorem making_genInst {i : Instr} {at? : Option Nat} (hop : i.op.Nameless)
    (hat : ∀ n, at? = some n → L n) : Making L ctx (genInst i at?) := fun _ _ _ h hst => by
  cases h
  refine hst.emit ?_ hop.inRange hop.ne_lambda
  cases at? with
  | none => exact hst.lastLine hone
  | some n => exact hat n rfl

theorem making_callOrTail (tail : Bool) {at? : Option Nat} (hat : ∀ n, at? = some n → L n)
    (narg : Nat) : Making L ctx (callOrTail env ctx tail at? narg) := by
  unfold callOrTail
  refine making_genInst hone ?_ hat
  dsimp only
  split_ifs <;> decide

omit hone in
/-- Instructions that name a constant. -/
theorem making_named {op : Op} (hop : op = .push ∨ op = .getglobal ∨ op = .setglobal)
    (c : Const) (hline : L line) :
    Making L ctx (pushConst c >>= fun k => genInst { op := op, a := k } (some line)) := by
  intro st _ st' h hst
  obtain ⟨k, st1, hk, hinst⟩ := bind_ok.mp h
  obtain ⟨h1, hlt⟩ := pushConst_wellMade hk hst
  cases hinst
  refine h1.emit hline ?_ ?_
  · rcases hop with rfl | rfl | rfl <;> exact hlt
  · rcases hop with rfl | rfl | rfl <;> exact nofun

omit hone in
theorem making_genFetch (sym : Atom) (hline : L line) : Making L ctx (genFetch ctx sym line) := by
  unfold genFetch
  cases hown : findLable ctx.own.lables sym with
  | some id =>
      intro st _ st' h hst
      cases h
      exact hst.emit hline (Nat.lt_of_lt_of_le (findLable_lt hown) (Nat.le_add_right _ _)) nofun
  | none =>
      cases hup : findUp 1 ctx.parents sym with
      | some up =>
          obtain ⟨lv, idx⟩ := up
          intro st _ st' h hst
          obtain ⟨func, _, hfunc, h⟩ := bind_ok.mp h
          cases hfunc
          cases h
          refine (hst.up (u := (lv, idx)) (findUp_sees hup)).emit hline ?_ nofun
          change _ < ctx.own.lables.length + (st.func.up ++ [(lv, idx)]).length
          rw [List.length_append]
          exact Nat.lt_succ_self _
      | none =>
          intro st _ st' h hst
          obtain ⟨k, st1, hk, hinst⟩ := bind_ok.mp h
          obtain ⟨h1, hlt⟩ := pushConst_wellMade hk hst
          cases hinst
          exact h1.emit hline hlt nofun

omit hone in
theorem isSpecial_nameless (henv : env.Nameless) {depth : Nat} {data : List Sexp} {spe : Special}
    (h : isSpecial env depth data = some spe) : spe.Nameless := by
  unfold isSpecial at h
  split at h
  · exact henv _ _ _ h
  · cases h

omit hone in
theorem genMacroExpansion_line (hexp : env.Rebuilds) {name : Atom} {data : List Sexp} {e : Sexp}
    (h : genMacroExpansion env name data line st = .ok (e, st')) :
    e.Within fun n => n = line := by
  obtain ⟨_, _, hget, h⟩ := bind_ok.mp h
  cases hget
  generalize hr : env.expand _ _ = r at h
  cases r with
  | error msg => cases h
  | ok r =>
      cases h
      obtain ⟨x, hx⟩ := hexp _ _ _ _ hr
      exact macroResult_line hx

/-! ### Forms -/

/-- What is generated for forms with such lines. -/
def MakesWell (L : Nat → Prop) (g : Gen) : Prop :=
  ∀ ctx e tail quoted, e.Within L → Making L ctx (g ctx e tail quoted)

variable (hg : MakesWell L g)
include hg

omit hone in
theorem making_genAll (quoted : Bool) : ∀ {es : List Sexp}, (∀ e ∈ es, e.Within L) →
    Making L ctx (genAll g ctx quoted es)
  | [], _ => .pure ()
  | e :: _, h => (hg ctx e false quoted (h e List.mem_cons_self)).bind fun _ =>
      making_genAll quoted fun e' he' => h e' (List.mem_cons_of_mem _ he')

theorem making_genFunccall (tail : Bool) {data : List Sexp} (hline : L line)
    (h : ∀ e ∈ data, e.Within L) : Making L ctx (genFunccall env g ctx data line tail) := by
  cases data with
  | nil => exact .throw
  | cons d ds =>
      exact (making_genAll hg false h).bind fun _ =>
        making_callOrTail hone tail (fun n hn => Option.some.inj hn ▸ hline) _

theorem making_genBody : ∀ {es : List Sexp}, (∀ e ∈ es, e.Within L) →
    Making L ctx (genBody g ctx es)
  | [], _ => .pure ()
  | [e], h => hg ctx e true false (h e List.mem_cons_self)
  | e :: _ :: _, h =>
      (hg ctx e false false (h e List.mem_cons_self)).bind fun _ =>
        (making_genInst hone (by decide) fun _ hn => by cases hn).bind fun _ =>
          making_genBody fun x hx => h x (List.mem_cons_of_mem _ hx)

theorem making_genList {e : Sexp} (tail : Bool) (h : e.Within L) :
    Making L ctx (genList env g ctx e tail) := by
  unfold genList
  split
  · exact .throw
  · obtain ⟨hline, hdata⟩ := within_sexp.mp h
    split
    · split
      · exact .throw
      · exact hg ctx _ tail false (hdata _ (List.mem_cons_of_mem _ List.mem_cons_self))
    · exact (making_genFetch _ hline).bind fun _ => (making_genAll hg true hdata).bind fun _ =>
        making_callOrTail hone tail (fun n hn => Option.some.inj hn ▸ hline) _
  · exact hg ctx _ tail true h

omit hone in
theorem making_genDefine {data : List Sexp} (h : ∀ e ∈ data, e.Within L) :
    Making L ctx (genDefine g ctx data line) := by
  unfold genDefine
  split
  · split
    · exact .throw
    · have hsym := (h _ (List.mem_cons_of_mem _ List.mem_cons_self)).line
      refine (hg ctx _ false false (h _ ?_)).bind fun _ =>
        making_named (Or.inr (Or.inr rfl)) _ hsym
      exact List.mem_cons_of_mem _ (List.mem_cons_of_mem _ List.mem_cons_self)
  · exact .throw

theorem making_genOperator {op : Op} (hop : op.Nameless) {data operands : List Sexp}
    (hline : L line) (tail : Bool) (err : String) (h : ∀ e ∈ data, e.Within L)
    (hoperands : ∀ e ∈ operands, e ∈ data) :
    Making L ctx (genOperator env g ctx op data operands line tail err) := by
  unfold genOperator
  split
  · exact .throw
  · split
    · exact making_genFunccall hone hg tail hline h
    · exact (making_genAll hg false fun e he => h e (hoperands e he)).bind fun _ =>
        making_genInst hone hop fun n hn => Option.some.inj hn ▸ hline

omit hone hg in
theorem at_prefix {α : Type} {xs ys : List α} (h : xs <+: ys) {k : Nat} {x : α}
    (hx : xs[k]? = some x) : ys[k]? = some x :=
  (getElem?_prefix_eq h (List.getElem?_eq_some_iff.mp hx).1).trans hx

omit hone hg in
theorem emitted_at {i : Instr} {u : Unit} (h : emit i line st = .ok (u, st')) :
    st'.code[st.pos]? = some i := by
  rw [emit_code h]
  exact List.getElem?_concat_length

omit hone in
/-- **Conditionals**: the code of the branches is behind the instructions
whose targets are filled in. -/
theorem making_genIf (hon : ∀ e tail quoted, Onward ctx (g ctx e tail quoted))
    {data : List Sexp} (tail : Bool) (h : ∀ e ∈ data, e.Within L) :
    Making L ctx (genIf g ctx data line tail) := by
  unfold genIf
  split
  case h_2 => exact .throw
  case h_1 c t hc ht =>
    have hwc := h c (List.mem_of_getElem? hc)
    have hwt := h t (List.mem_of_getElem? ht)
    have hwf : (data[3]?.getD (Sexp.symbol nilAtom t.line)).Within L := by
      cases hf : data[3]? with
      | none => exact within_symbol.mpr hwt.line
      | some f => exact h f (List.mem_of_getElem? hf)
    have hwj : L (data[3]?.getD t).line := by
      cases hf : data[3]? with
      | none => exact hwt.line
      | some f => exact (h f (List.mem_of_getElem? hf)).line
    intro st _ st7 hm hst
    obtain ⟨_, st1, hcond, hm⟩ := bind_ok.mp hm
    obtain ⟨condidx, _, hhere, hm⟩ := bind_ok.mp hm
    cases hhere
    obtain ⟨_, st2, htest, hm⟩ := bind_ok.mp hm
    obtain ⟨_, st3, helse, hm⟩ := bind_ok.mp hm
    obtain ⟨jmpidx, _, hhere, hm⟩ := bind_ok.mp hm
    cases hhere
    obtain ⟨_, st4, hjmp, hm⟩ := bind_ok.mp hm
    obtain ⟨_, st5, hset, hm⟩ := bind_ok.mp hm
    obtain ⟨_, st6, hthen, hset'⟩ := bind_ok.mp hm
    have h1 := hg ctx c false false hwc st _ st1 hcond hst
    have h2 : st2.func.WellMade L ctx := by
      cases htest
      exact h1.emit hwc.line (Nat.zero_le _) (by simp)
    have hpre3 := (hon _ tail false st2 _ st3 helse).code
    have h3 := hg ctx _ tail false hwf st2 _ st3 helse h2
    have h4 : st4.func.WellMade L ctx := by
      cases hjmp
      exact h3.emit hwj (Nat.zero_le _) (by simp)
    -- the target of the test
    have htest2 := emitted_at htest
    have htest3 := at_prefix hpre3 htest2
    have htest4 := at_prefix (emit_code hjmp ▸ List.prefix_append ..) htest3
    have h5 : st5.func.WellMade L ctx := by
      cases hset
      refine h4.setA (fun i hi => Or.inl ?_) (Nat.le_refl _)
      rw [← Option.some.inj (htest4.symm.trans hi)]
    -- and that of the jump
    have hlt : st1.pos < st3.pos := (List.getElem?_eq_some_iff.mp htest3).1
    have hjmp5 : st5.code[st3.pos]? = some { op := .jmp } := by
      rw [setTarget_code hset]
      exact (List.getElem?_modify_ne _ _ (Nat.ne_of_lt hlt)).trans (emitted_at hjmp)
    have hpre6 := (hon _ tail false st5 _ st6 hthen).code
    have h6 := hg ctx t tail false hwt st5 _ st6 hthen h5
    have hjmp6 := at_prefix hpre6 hjmp5
    cases hset'
    refine h6.setA (fun i hi => Or.inr ?_) (Nat.le_refl _)
    rw [← Option.some.inj (hjmp6.symm.trans hi)]

omit hone hg in
theorem arity_of_params {args : Sexp} {lables : List Atom} {numArgs : Int}
    (h : lambdaParams args = some (lables, numArgs)) : arity numArgs = lables.length := by
  have := lambdaParams_counts h
  unfold arity
  split at this
  · rw [if_pos ‹_›, this]
  · rw [if_neg ‹_›]
    omega

theorem making_genLambda {data : List Sexp} (hline : L line) (h : ∀ e ∈ data, e.Within L) :
    Making L ctx (genLambda g ctx data line) := by
  intro st _ st' hm hst
  obtain ⟨hd, args, e, es, lables, numArgs, body, rfl, hparams, hbody, rfl⟩ := genLambda_parts hm
  have hforms : ∀ x ∈ e :: es, x.Within L := fun x hx =>
    h x (List.mem_cons_of_mem _ (List.mem_cons_of_mem _ hx))
  have hmade := making_genBody hone hg hforms _ _ _ hbody .empty
  refine hst.closure hline ?_
  rw [arity_of_params hparams]
  exact hmade.toFunc (hmade.lastLine hone)

omit hone hg in
theorem letPairs_mem : ∀ {args : List Sexp} {st st' : GenState}
    {r : List Sexp × List Sexp}, letPairs line args st = .ok (r, st') →
      (∀ e ∈ r.1, e ∈ args) ∧ ∀ e ∈ r.2, e ∈ args
  | [], _, _, _, h | [_], _, _, _, h => by
      cases h
      exact ⟨fun _ h => absurd h List.not_mem_nil, fun _ h => absurd h List.not_mem_nil⟩
  | k :: v :: args, _, _, r, h => by
      unfold letPairs at h
      split at h
      · cases h
      · obtain ⟨rs, st1, hrest, h⟩ := bind_ok.mp h
        obtain ⟨hkeys, hvalues⟩ := letPairs_mem hrest
        cases h
        have hsub : ∀ e ∈ args, e ∈ k :: v :: args := fun e he =>
          List.mem_cons_of_mem _ (List.mem_cons_of_mem _ he)
        refine ⟨fun e he => ?_, fun e he => ?_⟩
        · exact (List.mem_cons.mp he).elim (fun heq => heq ▸ List.mem_cons_self) fun he =>
            hsub e (hkeys e he)
        · exact (List.mem_cons.mp he).elim
            (fun heq => heq ▸ List.mem_cons_of_mem _ List.mem_cons_self) fun he =>
              hsub e (hvalues e he)

theorem making_genLet {data : List Sexp} (tail : Bool) (hline : L line)
    (h : ∀ e ∈ data, e.Within L) : Making L ctx (genLet env g ctx data line tail) := by
  unfold genLet
  refine .guarded ?_
  split
  case h_2 => exact .throw
  case h_1 args _ hargs =>
    refine .guarded ?_
    intro st _ st' hlet hst
    obtain ⟨r, st1, hpairs, hm⟩ := bind_ok.mp hlet
    obtain rfl := letPairs_state hpairs
    obtain ⟨hkeys, hvalues⟩ := letPairs_mem hpairs
    have hwithin := (within_sexp.mp (h _ (List.mem_of_getElem? hargs))).2
    have hcall : Making L ctx (genAll g ctx false r.2 >>= fun _ =>
        callOrTail env ctx tail (some line) r.2.length) :=
      (making_genAll hg false fun e he => hwithin e (hvalues e he)).bind fun _ =>
        making_callOrTail hone tail (fun n hn => Option.some.inj hn ▸ hline) _
    refine (making_genLambda hone hg hline fun e he => ?_).bind (fun _ => hcall) st1 _ st' hm hst
    rcases List.mem_cons.mp he with rfl | he
    · exact within_symbol.mpr hline
    rcases List.mem_cons.mp he with rfl | he
    · exact within_sexp.mpr ⟨hline, fun e he => hwithin e (hkeys e he)⟩
    · exact h e (List.mem_of_mem_drop he)

theorem making_genSpecial (hon : ∀ e tail quoted, Onward ctx (g ctx e tail quoted))
    {spe : Special} (hspe : spe.Nameless) {data : List Sexp} (tail : Bool) (hline : L line)
    (h : ∀ e ∈ data, e.Within L) : Making L ctx (genSpecial env g ctx spe data line tail) := by
  have htail : ∀ e ∈ data.tail, e ∈ data := fun _ => List.mem_of_mem_tail
  cases spe with
  | «if» => exact making_genIf hg hon tail h
  | lambda => exact making_genLambda hone hg hline h
  | define => exact making_genDefine hg h
  | undef => exact .throw
  | macroDef =>
      exact .of_func fun _ _ _ h => by
        obtain ⟨p, rfl⟩ := genMacro_ok h
        rfl
  | recur =>
      exact (making_genInst hone (by decide) fun n hn => Option.some.inj hn ▸ hline).bind fun _ =>
        (making_genAll hg false fun e he => h e (htail e he)).bind fun _ =>
          making_callOrTail hone tail (fun n hn => Option.some.inj hn ▸ hline) _
  | «do» =>
      refine making_genBody hone hg fun e he => h e ?_
      split at he
      · exact he
      · exact htail e he
  | quote =>
      change Making L ctx (genQuote env g ctx data tail)
      unfold genQuote
      split
      · exact .throw
      · exact making_genList hone hg tail (h _ (List.mem_of_getElem? ‹_›))
  | «let» => exact making_genLet hone hg tail hline h
  | logical op => exact making_genOperator hone hg hspe hline tail _ h htail
  | greater op =>
      exact making_genOperator hone hg hspe hline false _ h fun e he =>
        htail e (List.mem_reverse.mp he)
  | arith op =>
      change Making L ctx (genArith env g ctx op data line tail)
      unfold genArith
      split
      · refine (hg ctx _ false false (h _ (List.mem_cons_of_mem _ List.mem_cons_self))).bind
          fun _ => making_genInst hone (by decide) fun n hn => Option.some.inj hn ▸ hline
      · exact making_genOperator hone hg hspe hline tail _ h htail

theorem making_genNode (hon : ∀ e tail quoted, Onward ctx (g ctx e tail quoted))
    (hspe : env.Nameless) (hexp : env.Rebuilds) {e : Sexp} (tail quoted : Bool) (h : e.Within L) :
    Making L ctx (genNode env g ctx e tail quoted) := by
  cases e with
  | number n line =>
      exact making_named (Or.inl rfl) _ (within_number.mp h)
  | symbol sym line =>
      dsimp only [genNode]
      split
      · exact making_named (Or.inl rfl) _ (within_symbol.mp h)
      · exact making_genFetch sym (within_symbol.mp h)
  | sexp data line =>
      obtain ⟨hline, hdata⟩ := within_sexp.mp h
      dsimp only [genNode]
      split
      · exact making_genList hone hg tail h
      · refine .bind (.of_func fun _ _ _ h => by cases h; rfl) fun _ => ?_
        split
        · rename_i name _
          intro st _ st' hm hst
          obtain ⟨e', st1, hexpand, hm⟩ := bind_ok.mp hm
          refine hg ctx e' tail false ?_ st1 _ st' hm (genMacroExpansion_func hexpand ▸ hst)
          exact fun n hn => genMacroExpansion_line hexp hexpand n hn ▸ hline
        · split
          · exact making_genSpecial hone hg hon (isSpecial_nameless hspe ‹_›) tail hline hdata
          · exact making_genFunccall hone hg tail hline hdata

omit hone hg in
theorem making_gen (hone : L 1) (hspe : env.Nameless) (hexp : env.Rebuilds) :
    ∀ depth, MakesWell L (gen env depth)
  | 0, _, _, _, _, _ => .throw
  | depth + 1, ctx, e, tail, quoted, h => by
      rw [gen_succ]
      exact making_genNode hone (making_gen hone hspe hexp depth) (onward_gen env depth ctx) hspe
        hexp tail quoted h

end Leaves

end Forms

/-! ## Programs -/

section Program

variable {env : GenEnv} {depth : Nat} {e : Sexp} {F : Func} {st st' : GenState}

/-- The lines an error may be reported at. -/
def Sexp.HasLine (e : Sexp) (n : Nat) : Prop := n = 1 ∨ n ∈ e.lines

instance : DecidablePred Special.Nameless
  | .logical op | .greater op | .arith op => inferInstanceAs (Decidable op.Nameless)
  | .if | .lambda | .define | .undef | .macroDef | .recur | .do | .quote | .let => .isTrue trivial

/-- The table of the source has no form that names anything. -/
theorem specials_nameless : ∀ entry ∈ specials, entry.2.Nameless := by decide

theorem nameless_of_source (henv : ∀ depth, env.special depth = specialNamed) : env.Nameless := by
  intro depth name spe h
  rw [henv] at h
  obtain ⟨l, r, hl, -⟩ := List.lookup_eq_some_iff.mp h
  exact specials_nameless (name, spe) (hl ▸ by simp)

/-- The scope of a whole program, as if its argument had a name. -/
def calledScope : Scope := ⟨[nilAtom], true⟩

/-- **Programs** are well made; they are called with one argument. -/
theorem genSexp_wellMade (henv : ∀ depth, env.special depth = specialNamed) (hexp : env.Rebuilds)
    (h : genSexp env depth e st = .ok (F, st')) : F.WellMade e.HasLine [1] := by
  obtain ⟨_, st0, hset, h⟩ := bind_ok.mp h
  cases hset
  obtain ⟨_, st1, hgen, h⟩ := bind_ok.mp h
  obtain ⟨_, st2, hload, h⟩ := bind_ok.mp h
  obtain ⟨_, st3, hcall, h⟩ := bind_ok.mp h
  have hone : e.HasLine 1 := Or.inl rfl
  have h1 := making_gen hone (nameless_of_source henv) hexp depth topCtx e false false
    (fun n hn => Or.inr hn) _ _ _ hgen .empty
  -- the instructions behind the form
  have hcalled : st1.func.WellMade e.HasLine ⟨calledScope, []⟩ := h1.widen (Nat.zero_le _)
  have h2 : st2.func.WellMade e.HasLine ⟨calledScope, []⟩ := by
    cases hload
    refine hcalled.emit (hcalled.lastLine hone) ?_ (by simp)
    exact Nat.lt_of_lt_of_le Nat.one_pos (Nat.le_add_right _ _)
  have h3 : st3.func.WellMade e.HasLine ⟨calledScope, []⟩ := by
    cases hcall
    exact h2.emit (h2.lastLine hone) trivial (by simp)
  cases h
  exact h3.toFunc (h3.lastLine hone)

end Program

end Saurus
