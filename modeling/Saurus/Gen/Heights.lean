import Saurus.Basis.Codec
import Saurus.Basis.StackCode
import Saurus.Gen.Forms
import Saurus.Vm.Acts

/-!
# Heights of generated code

What the generator emits for an expression is a block that adds one value.
There are two exceptions: a macro definition emits nothing, and `not` with
two operands emits an instruction that uses only one of them; `GenEnv.strict`
is the generator without the two. `Emits m t p` is the specification of a
piece of the generator: it turns a block that ends with `t` values for it
into one that ends with `p`.
-/

namespace Saurus

open Basis Basis.StackCode Basis.Codec

/-- Where control may go from an instruction. -/
def Instr.next (pc : Nat) (i : Instr) : List Nat :=
  match i.op with
  | .test => [pc + 1, i.a]
  | .jmp => [i.a]
  | _ => [pc + 1]

/-- Generated instructions as stack code. -/
def instrShape : Shape Instr where
  takes := fun i => (i.op.effect i.a).1
  puts := fun i => (i.op.effect i.a).2
  next := Instr.next
  stays := fun i => i.op ≠ .return

/-- Generated code from `lo` to `hi` that adds `m` values. -/
abbrev CodeBlock (code : List Instr) (lo hi m : Nat) : Prop := Block instrShape code lo hi m

/-- An instruction that takes `t` values, puts `p` and goes on behind itself. -/
structure Instr.Plain (i : Instr) (t p : Nat) : Prop where
  takes : instrShape.takes i = t
  puts : instrShape.puts i = p
  stays : i.op ≠ .return
  next : ∀ pc, instrShape.next pc i = [pc + 1]

namespace GenState

/-- The code of the function being generated. -/
def code (st : GenState) : List Instr := st.func.instructions

/-- `#func.instructions` -/
def pos (st : GenState) : Nat := st.code.length

end GenState

/-- A piece of the generator only adds code, and as a whole it takes `t`
values and puts `p`. -/
def Emits {α : Type} (m : GenM α) (t p : Nat) : Prop :=
  ∀ st a st', m st = .ok (a, st') → st.code <+: st'.code
    ∧ ∀ lo k, CodeBlock st.code lo st.pos (k + t) → CodeBlock st'.code lo st'.pos (k + p)

namespace Emits

variable {α β : Type} {m : GenM α} {f : α → GenM β} {t p q : Nat}

/-- One piece after another. -/
theorem bind (hm : Emits m t p) (hf : ∀ a, Emits (f a) p q) : Emits (m >>= f) t q := by
  intro st b st' h
  obtain ⟨a, st1, h1, h2⟩ := bind_ok.mp h
  obtain ⟨hpre1, hblock1⟩ := hm st a st1 h1
  obtain ⟨hpre2, hblock2⟩ := hf a st1 b st' h2
  exact ⟨hpre1.trans hpre2, fun lo k hlo => hblock2 lo k (hblock1 lo k hlo)⟩

/-- Values further down stay. -/
theorem frame (hm : Emits m t p) (j : Nat) : Emits m (j + t) (j + p) := by
  intro st a st' h
  obtain ⟨hpre, hblock⟩ := hm st a st' h
  refine ⟨hpre, fun lo k hlo => ?_⟩
  have := hblock lo (k + j) (by rwa [Nat.add_assoc])
  rwa [Nat.add_assoc] at this

/-- A piece that leaves the code alone. -/
theorem of_code (h : ∀ st a st', m st = .ok (a, st') → st'.code = st.code) : Emits m t t := by
  intro st a st' hm
  have hcode := h st a st' hm
  refine ⟨hcode ▸ List.prefix_rfl, fun lo k hlo => ?_⟩
  rwa [GenState.pos, hcode]

theorem pure (a : α) : Emits (pure a : GenM α) t t :=
  of_code fun st b st' h => by
    cases h
    rfl

theorem throw {msg : String} : Emits (throw msg : GenM α) t p := fun _ _ _ h => nomatch h

/-- A piece behind a check. -/
theorem guarded {c : Prop} [Decidable c] {msg : String} {line : Nat} {f : Unit → GenM α}
    (h : ¬ c → Emits (f ()) t p) :
    Emits (if c then genError msg line >>= f else f ()) t p := by
  split
  · exact fun _ _ _ h => nomatch h
  · exact h ‹_›

/-- A piece that appends one instruction. -/
theorem of_append (h : ∀ st a st', m st = .ok (a, st') →
      ∃ i, st'.code = st.code ++ [i] ∧ i.Plain t p) : Emits m t p := by
  intro st a st' hm
  obtain ⟨i, hc, hi⟩ := h st a st' hm
  refine ⟨by rw [hc]; exact List.prefix_append .., fun lo k hlo => ?_⟩
  have hpos : st'.pos = st.pos + 1 := by rw [GenState.pos, hc, List.length_append]; rfl
  rw [hc, hpos]
  have hat : (st.code ++ [i])[st.pos]? = some i := List.getElem?_concat_length
  have hblock := (hlo.append (Nat.le_refl _) [i]).snoc hat hi.stays
    (hi.takes ▸ Nat.le_add_left ..) fun t ht => by rwa [hi.next, List.mem_singleton] at ht
  rwa [hi.takes, hi.puts, Nat.add_sub_cancel] at hblock

/-- What is generated for `m` from any state on is a block of its own. -/
theorem block (hm : Emits m 0 p) {st st' : GenState} {a : α} (h : m st = .ok (a, st')) :
    CodeBlock st'.code st.pos st'.pos p := by
  have := (hm st a st' h).2 st.pos 0 (Block.nil ..)
  rwa [Nat.zero_add] at this

end Emits

/-! ## Instructions and constants -/

theorem emit_code {i : Instr} {line : Nat} {st st' : GenState} {u : Unit}
    (h : emit i line st = .ok (u, st')) : st'.code = st.code ++ [i] := by
  cases h
  rfl

theorem emits_emit {i : Instr} {t p : Nat} (hi : i.Plain t p) (line : Nat) :
    Emits (emit i line) t p :=
  .of_append fun _ _ _ h => ⟨i, emit_code h, hi⟩

theorem emits_genInst {i : Instr} {t p : Nat} (hi : i.Plain t p) (line : Option Nat) :
    Emits (genInst i line) t p :=
  .of_append fun _ _ _ h => ⟨i, emit_code h, hi⟩

theorem plain_push (a : Nat) : Instr.Plain { op := .push, a := a } 0 1 :=
  ⟨rfl, rfl, nofun, fun _ => rfl⟩

theorem plain_load (a : Nat) : Instr.Plain { op := .load, a := a } 0 1 :=
  ⟨rfl, rfl, nofun, fun _ => rfl⟩

theorem plain_copy : Instr.Plain { op := .copy } 0 1 := ⟨rfl, rfl, nofun, fun _ => rfl⟩

theorem plain_getglobal (a : Nat) : Instr.Plain { op := .getglobal, a := a } 0 1 :=
  ⟨rfl, rfl, nofun, fun _ => rfl⟩

theorem plain_setglobal (a : Nat) : Instr.Plain { op := .setglobal, a := a } 1 1 :=
  ⟨rfl, rfl, nofun, fun _ => rfl⟩

theorem plain_lambda (a : Nat) (b : Int) : Instr.Plain { op := .lambda, a := a, b := b } 0 1 :=
  ⟨rfl, rfl, nofun, fun _ => rfl⟩

theorem plain_pop (a : Nat) : Instr.Plain { op := .pop, a := a } a 0 :=
  ⟨rfl, rfl, nofun, fun _ => rfl⟩

theorem plain_unm : Instr.Plain { op := .unm } 1 1 := ⟨rfl, rfl, nofun, fun _ => rfl⟩

theorem plain_call (tail : Bool) (a : Nat) :
    Instr.Plain { op := if tail then .tcall else .call, a := a } (a + 1) 1 := by
  cases tail <;> exact ⟨rfl, rfl, nofun, fun _ => rfl⟩

theorem pushConst_code {const : Const} {st st' : GenState} {a : Nat}
    (h : pushConst const st = .ok (a, st')) : st'.code = st.code := by
  obtain ⟨func, st1, h1, h⟩ := bind_ok.mp h
  cases h1
  generalize List.findIdx? _ _ = found at h
  cases found with
  | some constid =>
      cases h
      rfl
  | none =>
      cases h
      rfl

theorem emits_genConst (const : Const) (line : Nat) : Emits (genConst const line) 0 1 :=
  .bind (.of_code fun _ _ _ h => pushConst_code h) fun _ => emits_genInst (plain_push _) _

theorem emits_genFetch (ctx : Ctx) (sym : Atom) (line : Nat) :
    Emits (genFetch ctx sym line) 0 1 := by
  unfold genFetch
  cases findLable ctx.own.lables sym with
  | some id => exact emits_emit (plain_load id) line
  | none =>
      cases findUp 1 ctx.parents sym with
      | some up =>
          exact .of_append fun _ _ _ h => ⟨_, by cases h; rfl, plain_load _⟩
      | none =>
          exact .bind (.of_code fun _ _ _ h => pushConst_code h) fun _ =>
            emits_emit (plain_getglobal _) line

theorem emits_callOrTail (env : GenEnv) (ctx : Ctx) (tail : Bool) (line : Option Nat)
    (narg : Nat) : Emits (callOrTail env ctx tail line narg) (narg + 1) 1 :=
  emits_genInst (plain_call _ narg) line

/-- Instructions that take two values and put one. -/
def Op.IsBinary (op : Op) : Prop := op.effect 0 = (2, 1)

/-! ## Forms

`g` is the generator for the parts of a form; all of them are generated in
the same function. -/

section Forms

variable {env : GenEnv} {g : Gen} {ctx : Ctx}

/-- The generator puts one value for every expression in `ctx`. -/
def PutsOne (g : Gen) (ctx : Ctx) : Prop := ∀ e tail quoted, Emits (g ctx e tail quoted) 0 1

variable (hg : PutsOne g ctx)
include hg

theorem emits_genAll (quoted : Bool) : ∀ es : List Sexp,
    Emits (genAll g ctx quoted es) 0 es.length
  | [] => .pure ()
  | e :: es => by
      have hrest := (emits_genAll quoted es).frame 1
      rw [Nat.add_comm 1 es.length] at hrest
      exact .bind (hg e false quoted) fun _ => hrest

theorem emits_genFunccall (data : List Sexp) (line : Nat) (tail : Bool) :
    Emits (genFunccall env g ctx data line tail) 0 1 := by
  unfold genFunccall
  cases data with
  | nil => exact .throw
  | cons d ds =>
      exact .bind (emits_genAll hg false (d :: ds)) fun _ =>
        emits_callOrTail env ctx tail (some line) ds.length

theorem emits_genRec (d : Sexp) (ds : List Sexp) (line : Nat) (tail : Bool) :
    Emits (genRec env g ctx (d :: ds) line tail) 0 1 := by
  have hargs := (emits_genAll hg false ds).frame 1
  rw [Nat.add_comm 1 ds.length] at hargs
  exact .bind (emits_genInst plain_copy _) fun _ => .bind hargs fun _ =>
    emits_callOrTail env ctx tail (some line) ds.length

theorem emits_genBody : ∀ {es : List Sexp}, es ≠ [] → Emits (genBody g ctx es) 0 1
  | [], h => absurd rfl h
  | [e], _ => hg e true false
  | e :: e' :: es, _ =>
      .bind (hg e false false) fun _ =>
        .bind (emits_genInst (plain_pop 1) none) fun _ =>
          emits_genBody (List.cons_ne_nil e' es)

theorem emits_genDo (d : Sexp) (ds : List Sexp) : Emits (genDo g ctx (d :: ds)) 0 1 := by
  refine emits_genBody hg ?_
  cases ds <;> simp

theorem emits_genList (e : Sexp) (tail : Bool) : Emits (genList env g ctx e tail) 0 1 := by
  unfold genList
  split
  · exact .throw
  · rename_i d ds line
    split
    · split
      · exact .throw
      · exact hg _ tail false
    · have hargs := (emits_genAll hg true (d :: ds)).frame 1
      rw [Nat.add_comm 1 (d :: ds).length] at hargs
      exact .bind (emits_genFetch _ _ _) fun _ => .bind hargs fun _ =>
        emits_callOrTail env ctx tail (some line) (ds.length + 1)
  · exact hg _ tail true

theorem emits_genQuote (data : List Sexp) (tail : Bool) :
    Emits (genQuote env g ctx data tail) 0 1 := by
  unfold genQuote
  split
  · exact .throw
  · exact emits_genList hg _ tail

theorem emits_genDefine (data : List Sexp) (line : Nat) :
    Emits (genDefine g ctx data line) 0 1 := by
  unfold genDefine
  split
  · split
    · exact .throw
    · exact .bind (hg _ false false) fun _ =>
        .bind (.of_code fun _ _ _ h => pushConst_code h) fun _ =>
          emits_genInst (plain_setglobal _) _
  · exact .throw

omit hg in
theorem plain_binary {op : Op} (h : op.IsBinary) : Instr.Plain { op := op } 2 1 := by
  have hstays : op ≠ .return ∧ ∀ pc, instrShape.next pc { op := op } = [pc + 1] := by
    unfold Op.IsBinary at h
    cases op <;> first | exact ⟨by decide, fun _ => rfl⟩ | simp [Op.effect] at h
  exact ⟨congrArg Prod.fst h, congrArg Prod.snd h, hstays.1, hstays.2⟩

theorem emits_genOperator {op : Op} (hop : op.IsBinary) {data operands : List Sexp}
    (hlen : operands.length = data.length - 1) (line : Nat) (tail : Bool) (err : String) :
    Emits (genOperator env g ctx op data operands line tail err) 0 1 := by
  unfold genOperator
  split
  · exact .throw
  · split
    · exact emits_genFunccall hg data line tail
    · have hargs := emits_genAll hg false operands
      rw [show operands.length = 2 by omega] at hargs
      exact .bind hargs fun _ => emits_genInst (plain_binary hop) _

theorem emits_genArith {op : Op} (hop : op.IsBinary) (data : List Sexp) (line : Nat)
    (tail : Bool) : Emits (genArith env g ctx op data line tail) 0 1 := by
  unfold genArith
  split
  · exact .bind (hg _ false false) fun _ => emits_genInst plain_unm _
  · exact emits_genOperator hg hop (List.length_tail ..) line tail _

/-! ### Branches

The target of a jump is filled in when the code up to it is there, so parts
of the code change after they were generated, but none of their blocks. -/

omit hg in
theorem setTarget_code {idx : Nat} {st st' : GenState} {u : Unit}
    (h : setTarget idx st = .ok (u, st')) :
    st'.code = st.code.modify idx fun inst => { inst with a := st.pos } := by
  cases h
  rfl

/-- The code `c1` followed by a test, the code for one branch, a jump and the
code for the other branch, both targets filled in. -/
structure Branched (c1 c3 c6 c7 : List Instr) : Prop where
  below : ∀ pc < c1.length, c7[pc]? = c1[pc]?
  test : c7[c1.length]? = some { op := .test, a := c3.length + 1 }
  first : ∀ pc, c1.length < pc → pc < c3.length → c7[pc]? = c3[pc]?
  jmp : c7[c3.length]? = some { op := .jmp, a := c6.length }
  second : ∀ pc, c3.length < pc → c7[pc]? = c6[pc]?

omit hg in
theorem getElem?_prefix_eq {α : Type} {l l' : List α} (h : l <+: l') {pc : Nat}
    (hpc : pc < l.length) : l'[pc]? = l[pc]? := by
  obtain ⟨r, rfl⟩ := h
  exact List.getElem?_append_left hpc

omit hg in
theorem branched {c1 c3 c5 c6 : List Instr} (hpre3 : c1 ++ [{ op := .test }] <+: c3)
    (hc5 : c5 = List.modify (c3 ++ [{ op := .jmp }]) c1.length
      fun i => { i with a := c3.length + 1 })
    (hpre6 : c5 <+: c6) :
    Branched c1 c3 c6 (c6.modify c3.length fun i => { i with a := c6.length }) := by
  have hlen3 : c1.length < c3.length := by
    have := hpre3.length_le
    simp only [List.length_append, List.length_singleton] at this
    omega
  have hlen5 : c5.length = c3.length + 1 := by simp [hc5]
  have h1 : ∀ pc, pc ≠ c1.length → pc < c3.length → c6[pc]? = c3[pc]? := by
    intro pc hne hpc
    rw [getElem?_prefix_eq hpre6 (by omega), hc5, List.getElem?_modify_ne _ _ hne.symm,
      List.getElem?_append_left hpc]
  refine ⟨fun pc hpc => ?_, ?_, fun pc hlo hhi => ?_, ?_, fun pc hlo => ?_⟩
  · rw [List.getElem?_modify_ne _ _ (by omega), h1 pc (by omega) (by omega),
      getElem?_prefix_eq hpre3 (by simp; omega), List.getElem?_append_left hpc]
  · rw [List.getElem?_modify_ne _ _ (by omega), getElem?_prefix_eq hpre6 (by omega), hc5,
      List.getElem?_modify_eq, List.getElem?_append_left hlen3, getElem?_prefix_eq hpre3 (by simp),
      List.getElem?_concat_length]
    rfl
  · rw [List.getElem?_modify_ne _ _ (by omega), h1 pc (by omega) hhi]
  · rw [List.getElem?_modify_eq, getElem?_prefix_eq hpre6 (by omega), hc5,
      List.getElem?_modify_ne _ _ (by omega), List.getElem?_concat_length]
    rfl
  · exact List.getElem?_modify_ne _ _ (by omega)

omit hg in
/-- A branch as `genIf` makes it, what is generated in between only adding code. -/
theorem branched_steps {st1 st2 st3 st4 st5 st6 st7 : GenState} {line line' : Nat} {u : Unit}
    (htest : emit { op := .test } line st1 = .ok (u, st2)) (hpre3 : st2.code <+: st3.code)
    (hjmp : emit { op := .jmp } line' st3 = .ok (u, st4))
    (hset : setTarget st1.pos st4 = .ok (u, st5)) (hpre6 : st5.code <+: st6.code)
    (hset' : setTarget st3.pos st6 = .ok (u, st7)) :
    Branched st1.code st3.code st6.code st7.code
      ∧ st2.pos = st1.pos + 1 ∧ st5.pos = st3.pos + 1 ∧ st7.pos = st6.pos := by
  have hcode2 := emit_code htest
  have hcode4 := emit_code hjmp
  have hcode5 := setTarget_code hset
  have hcode7 := setTarget_code hset'
  refine ⟨?_, by simp [GenState.pos, hcode2], by simp [GenState.pos, hcode5, hcode4],
    by simp [GenState.pos, hcode7]⟩
  rw [hcode7]
  refine branched (hcode2 ▸ hpre3) ?_ hpre6
  have hpos4 : st4.pos = st3.code.length + 1 := by simp [GenState.pos, hcode4]
  rw [hcode5, hcode4, hpos4]
  rfl

omit hg in
/-- The code before a branch stays. -/
theorem Branched.before {c c1 c3 c6 c7 : List Instr} (hb : Branched c1 c3 c6 c7)
    (hpre : c <+: c1) : c <+: c7 := by
  refine List.prefix_iff_getElem?.mpr fun pc hpc => ?_
  rw [hb.below pc (Nat.lt_of_lt_of_le hpc hpre.length_le), getElem?_prefix_eq hpre hpc,
    List.getElem?_eq_getElem hpc]

theorem emits_genIf (data : List Sexp) (line : Nat) (tail : Bool) :
    Emits (genIf g ctx data line tail) 0 1 := by
  unfold genIf
  split
  case h_2 => exact .throw
  case h_1 c t _ _ =>
    intro st _ st' h
    obtain ⟨_, st1, hcond, h⟩ := bind_ok.mp h
    obtain ⟨condidx, _, hhere, h⟩ := bind_ok.mp h
    cases hhere
    obtain ⟨_, st2, htest, h⟩ := bind_ok.mp h
    obtain ⟨_, st3, helse, h⟩ := bind_ok.mp h
    obtain ⟨jmpidx, _, hhere, h⟩ := bind_ok.mp h
    cases hhere
    obtain ⟨_, st4, hjmp, h⟩ := bind_ok.mp h
    obtain ⟨_, st5, hset, h⟩ := bind_ok.mp h
    obtain ⟨_, st6, hthen, hset'⟩ := bind_ok.mp h
    obtain ⟨hpre1, hblock1⟩ := hg c false false st _ st1 hcond
    have hblock3 := (hg _ tail false).block helse
    have hpre3 := (hg _ tail false st2 _ st3 helse).1
    have hblock6 := (hg _ tail false).block hthen
    have hpre6 := (hg _ tail false st5 _ st6 hthen).1
    obtain ⟨hb, hpos2, hpos5, hpos7⟩ := branched_steps htest hpre3 hjmp hset hpre6 hset'
    refine ⟨hb.before hpre1, fun lo k hlo => ?_⟩
    rw [hpos2] at hblock3
    rw [hpos5] at hblock6
    rw [hpos7]
    exact Block.branch ((hblock1 lo k hlo).congr fun pc _ hpc => hb.below pc hpc)
      hb.test nofun rfl rfl (fun t ht => by simpa [instrShape, Instr.next, GenState.pos] using ht)
      (hblock3.congr fun pc hlo hhi => hb.first pc hlo hhi) hb.jmp nofun rfl rfl
      (fun t ht => by simpa [instrShape, Instr.next, GenState.pos] using ht)
      (hblock6.congr fun pc hlo _ => hb.second pc hlo)

/-! ### Functions -/

omit hg in
theorem mapM_state {α β : Type} {f : α → GenM β}
    (hf : ∀ a st b st', f a st = .ok (b, st') → st' = st) :
    ∀ {l : List α} {st : GenState} {bs : List β} {st' : GenState},
      l.mapM f st = .ok (bs, st') → st' = st
  | [], _, _, _, h => by
      cases h
      rfl
  | a :: l, st, bs, st', h => by
      rw [List.mapM_cons] at h
      obtain ⟨b, st1, hb, h⟩ := bind_ok.mp h
      obtain ⟨bs, st2, hbs, h⟩ := bind_ok.mp h
      cases h
      exact (mapM_state hf hbs).trans (hf a st b st1 hb)

omit hg in
theorem lambdaArgs_state {args : Sexp} {st st' : GenState} {r : List Atom × Int}
    (h : lambdaArgs args st = .ok (r, st')) : st' = st := by
  cases args with
  | number n line => cases h
  | symbol lable line =>
      cases h
      rfl
  | sexp data line =>
      obtain ⟨lables, st1, hlables, h⟩ := bind_ok.mp h
      cases h
      refine mapM_state (fun arg st b st' h => ?_) hlables
      cases harg : arg.symbol? with
      | none =>
          rw [harg] at h
          cases h
      | some lable =>
          rw [harg] at h
          cases h
          rfl

/-- The function `genLambda` leaves in the prototypes: `body` is the state
its body was generated to, from nothing. -/
def GenState.function (body : GenState) : Func :=
  (body.func.emit { op := .return } (body.func.linenr.getLast?.getD 1)).toFunc

/-- A new prototype and the instruction that makes a closure of it. -/
def FuncTable.closure (f : FuncTable) (p : Func) (numArgs : Int) (line : Nat) : FuncTable :=
  FuncTable.emit { f with prot := f.prot ++ [p] }
    { op := .lambda, a := f.prot.length, b := numArgs } line

omit hg in
theorem genLambda_ok {data : List Sexp} {line : Nat} {st st' : GenState}
    (h : genLambda g ctx data line st = .ok ((), st')) :
    ∃ lables numArgs es body, es ≠ []
      ∧ genBody g ⟨⟨lables, false⟩, ctx.own :: ctx.parents⟩ es { st with func := {} }
        = .ok ((), body)
      ∧ st' = { body with func := st.func.closure body.function numArgs line } := by
  rcases data with _ | ⟨d, _ | ⟨args, _ | ⟨e, es⟩⟩⟩
  case nil => cases h
  case cons.nil => cases h
  case cons.cons.nil => cases h
  case cons.cons.cons =>
    unfold genLambda at h
    rw [if_neg (by simp)] at h
    obtain ⟨⟨lables, numArgs⟩, st1, hargs, hrest⟩ := bind_ok.mp h
    obtain rfl := lambdaArgs_state hargs
    obtain ⟨func, _, hfunc, hrest⟩ := bind_ok.mp hrest
    cases hfunc
    obtain ⟨_, _, hempty, hrest⟩ := bind_ok.mp hrest
    cases hempty
    obtain ⟨_, body, hbody, hrest⟩ := bind_ok.mp hrest
    refine ⟨lables, numArgs, e :: es, body, List.cons_ne_nil e es, hbody, ?_⟩
    cases hrest
    rfl

omit hg in
theorem emits_genLambda (data : List Sexp) (line : Nat) :
    Emits (genLambda g ctx data line) 0 1 :=
  .of_append fun _ _ _ h => by
    obtain ⟨_, _, _, _, _, _, rfl⟩ := genLambda_ok h
    exact ⟨_, rfl, plain_lambda ..⟩

omit hg in
theorem letPairs_state {line : Nat} : ∀ {args : List Sexp} {st st' : GenState}
    {r : List Sexp × List Sexp}, letPairs line args st = .ok (r, st') → st' = st
  | [], _, _, _, h => by
      cases h
      rfl
  | [_], _, _, _, h => by
      cases h
      rfl
  | k :: v :: args, st, st', r, h => by
      unfold letPairs at h
      split at h
      · cases h
      · obtain ⟨_, st1, hrest, h⟩ := bind_ok.mp h
        cases h
        exact letPairs_state hrest

theorem emits_genLet (data : List Sexp) (line : Nat) (tail : Bool) :
    Emits (genLet env g ctx data line tail) 0 1 := by
  unfold genLet
  refine .guarded fun _ => ?_
  split
  case h_2 => exact .throw
  case h_1 args _ =>
    refine .guarded fun _ => .bind (.of_code fun _ _ _ h => by rw [letPairs_state h]) fun r => ?_
    have hargs := (emits_genAll hg false r.2).frame 1
    rw [Nat.add_comm 1 r.2.length] at hargs
    exact .bind (emits_genLambda _ line) fun _ => .bind hargs fun _ =>
      emits_callOrTail env ctx tail (some line) r.2.length

end Forms

/-! ## Expressions -/

/-- A special form that puts one value. -/
def Special.PutsOne : Special → Prop
  | .macroDef => False
  | .logical op | .greater op | .arith op => op.IsBinary
  | _ => True

/-- The generator with the forms that do not put one value taken out of the
functions that have `depth` functions around them: no macro is defined
there, and `not` is the name of a function. -/
def GenEnv.strict (env : GenEnv) (depth : Nat) : GenEnv :=
  { env with
    special := fun n name =>
      if n = depth then
        match env.special n name with
        | some .macroDef => some .undef
        | some (.logical .not) => none
        | spe => spe
      else env.special n name }

/-- Every special form at this depth puts one value. -/
def GenEnv.PutsOne (env : GenEnv) (depth : Nat) : Prop :=
  ∀ name spe, env.special depth name = some spe → spe.PutsOne

instance : DecidablePred Special.PutsOne
  | .macroDef => .isFalse id
  | .logical op | .greater op | .arith op => inferInstanceAs (Decidable (op.effect 0 = (2, 1)))
  | .if | .lambda | .define | .undef | .recur | .do | .quote | .let => .isTrue trivial

theorem specials_cases : ∀ entry ∈ specials,
    entry.2 = .macroDef ∨ entry.2 = .logical .not ∨ entry.2.PutsOne := by decide

/-- What is left of the table of the source when the two are taken out. -/
theorem strict_putsOne {env : GenEnv} (henv : ∀ depth, env.special depth = specialNamed)
    (depth : Nat) : (env.strict depth).PutsOne depth := by
  intro name spe h
  simp only [GenEnv.strict, if_true, henv] at h
  cases hname : specialNamed name with
  | none =>
      rw [hname] at h
      cases h
  | some spe' =>
      rw [hname] at h
      obtain ⟨l, r, hl, -⟩ := List.lookup_eq_some_iff.mp hname
      rcases specials_cases (name, spe') (hl ▸ by simp) with hm | hn | hputs
      · obtain rfl : spe' = .macroDef := hm
        cases h
        trivial
      · obtain rfl : spe' = .logical .not := hn
        cases h
      · have hspe : spe = spe' := by
          split at h
          case h_1 hm =>
            cases hm
            exact False.elim hputs
          case h_2 => cases h
          case h_3 => exact (Option.some.inj h).symm
        exact hspe ▸ hputs

variable {env : GenEnv}

theorem genMacroExpansion_code {name : Atom} {data : List Sexp} {line : Nat}
    {st st' : GenState} {e : Sexp} (h : genMacroExpansion env name data line st = .ok (e, st')) :
    st'.code = st.code := by
  obtain ⟨st1, _, hget, h⟩ := bind_ok.mp h
  cases hget
  generalize env.expand _ _ = r at h
  cases r with
  | error msg => cases h
  | ok r =>
      cases h
      rfl

theorem emits_genSpecial {g : Gen} {ctx : Ctx} (hg : PutsOne g ctx) {spe : Special}
    (hspe : spe.PutsOne) (d : Sexp) (ds : List Sexp) (line : Nat) (tail : Bool) :
    Emits (genSpecial env g ctx spe (d :: ds) line tail) 0 1 := by
  cases spe with
  | macroDef => exact hspe.elim
  | undef => exact .throw
  | «if» => exact emits_genIf hg (d :: ds) line tail
  | lambda => exact emits_genLambda (d :: ds) line
  | define => exact emits_genDefine hg (d :: ds) line
  | recur => exact emits_genRec hg d ds line tail
  | «do» => exact emits_genDo hg d ds
  | quote => exact emits_genQuote hg (d :: ds) tail
  | «let» => exact emits_genLet hg (d :: ds) line tail
  | logical op => exact emits_genOperator hg hspe (List.length_tail ..) line tail _
  | greater op =>
      exact emits_genOperator hg hspe ((List.length_reverse ..).trans (List.length_tail ..)) line
        false _
  | arith op => exact emits_genArith hg hspe (d :: ds) line tail

/-- **Every expression puts one value**, by induction on the depth of the
recursion. -/
theorem emits_gen {ctx : Ctx} (henv : env.PutsOne ctx.parents.length) :
    ∀ depth, PutsOne (gen env depth) ctx
  | 0 => fun _ _ _ => .throw
  | depth + 1 => by
      have hg := emits_gen henv depth
      intro e tail quoted
      unfold gen
      cases e with
      | number n line => exact emits_genConst _ line
      | symbol sym line =>
          dsimp only
          split
          · exact emits_genConst _ line
          · exact emits_genFetch ctx sym line
      | sexp data line =>
          dsimp only
          split
          · exact emits_genList hg _ tail
          · refine .bind (.of_code fun _ _ _ h => by cases h; rfl) fun st => ?_
            split
            · exact .bind (.of_code fun _ _ _ h => genMacroExpansion_code h) fun e =>
                hg e tail false
            · split
              · rename_i spe hspe
                rcases data with _ | ⟨d, ds⟩
                · cases hspe
                · refine emits_genSpecial hg ?_ d ds line tail
                  cases d with
                  | symbol name l => exact henv name spe hspe
                  | number n l => cases hspe
                  | sexp es l => cases hspe
              · exact emits_genFunccall hg data line tail

end Saurus
