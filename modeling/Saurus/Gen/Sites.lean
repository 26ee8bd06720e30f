import Saurus.Gen.Heights

/-!
# Where the code of an expression ends up

What `gen` puts into a function stays there: constants and prototypes are
only added, and of the instructions only the targets of branches are filled
in later. So the code of every expression that is generated in the course of
a program is found again in one of its functions, with the constants it was
generated for at their indices (`Calls.landed`).

That a call of `gen` is made in the course of another is told from outside:
were it to fail, the other would not come out as it does (`Calls`).
-/

namespace Saurus

open Basis Basis.Codec

/-! ## Functions inside functions -/

/-- What filling in the target of a branch makes of an instruction. -/
def Instr.Patched (i j : Instr) : Prop :=
  j = i ∨ (i.op = .test ∨ i.op = .jmp) ∧ j.op = i.op

theorem Instr.Patched.trans {i j k : Instr} (hij : i.Patched j) (hjk : j.Patched k) :
    i.Patched k := by
  rcases hij with rfl | ⟨hop, hj⟩
  · exact hjk
  · rcases hjk with rfl | ⟨-, hk⟩
    · exact Or.inr ⟨hop, hj⟩
    · exact Or.inr ⟨hop, hk.trans hj⟩

/-- Everything in a function table is at its place in a finished function. -/
structure FuncTable.KeptIn (f : FuncTable) (F : Func) : Prop where
  const : f.const <+: F.const
  prot : f.prot <+: F.prot
  code : ∀ (pc : Nat) (i : Instr), f.instructions[pc]? = some i →
    ∃ j, F.instructions[pc]? = some j ∧ i.Patched j

namespace FuncTable

theorem KeptIn.rfl {f : FuncTable} : f.KeptIn f.toFunc :=
  ⟨List.prefix_rfl, List.prefix_rfl, fun _ i h => ⟨i, h, Or.inl (Eq.refl i)⟩⟩

theorem KeptIn.trans {f f' : FuncTable} {F : Func} (h : f.KeptIn f'.toFunc) (h' : f'.KeptIn F) :
    f.KeptIn F := by
  refine ⟨h.const.trans h'.const, h.prot.trans h'.prot, fun pc i hi => ?_⟩
  obtain ⟨j, hj, hij⟩ := h.code pc i hi
  obtain ⟨k, hk, hjk⟩ := h'.code pc j hj
  exact ⟨k, hk, hij.trans hjk⟩

/-- No constant of the table is a boolean. -/
def Plain (f : FuncTable) : Prop := ∀ v ∈ f.const, ∀ b, v ≠ .boolean b

theorem plain_empty : Plain {} := fun _ hv => absurd hv List.not_mem_nil

/-- A table some more was put into. -/
structure Grows (f f' : FuncTable) : Prop where
  kept : f.KeptIn f'.toFunc
  plain : f.Plain → f'.Plain

theorem Grows.rfl {f : FuncTable} : f.Grows f := ⟨.rfl, id⟩

theorem Grows.of_eq {f f' : FuncTable} (h : f' = f) : f.Grows f' := h ▸ .rfl

theorem Grows.trans {f f' f'' : FuncTable} (h : f.Grows f') (h' : f'.Grows f'') : f.Grows f'' :=
  ⟨h.kept.trans h'.kept, fun hp => h'.plain (h.plain hp)⟩

theorem grows_emit (f : FuncTable) (inst : Instr) (line : Nat) : f.Grows (f.emit inst line) := by
  refine ⟨⟨List.prefix_rfl, List.prefix_rfl, fun pc i hi => ⟨i, ?_, Or.inl (Eq.refl i)⟩⟩, id⟩
  exact getElem?_prefix_eq (List.prefix_append ..) (List.getElem?_eq_some_iff.mp hi).1 ▸ hi

theorem grows_const {f : FuncTable} {const : Const} (h : ∀ b, const ≠ .boolean b) :
    f.Grows { f with const := f.const ++ [const] } := by
  refine ⟨⟨List.prefix_append .., List.prefix_rfl, fun _ i hi => ⟨i, hi, Or.inl (Eq.refl i)⟩⟩,
    fun hp v hv => ?_⟩
  rcases List.mem_append.mp hv with hv | hv
  · exact hp v hv
  · exact List.mem_singleton.mp hv ▸ h

theorem grows_up (f : FuncTable) (up : List (Nat × Nat)) : f.Grows { f with up := up } :=
  ⟨⟨List.prefix_rfl, List.prefix_rfl, fun _ i hi => ⟨i, hi, Or.inl (Eq.refl i)⟩⟩, id⟩

theorem grows_setA {f : FuncTable} {idx a : Nat}
    (h : ∃ i, f.instructions[idx]? = some i ∧ (i.op = .test ∨ i.op = .jmp)) :
    f.Grows (f.setA idx a) := by
  obtain ⟨i0, h0, hop⟩ := h
  refine ⟨⟨List.prefix_rfl, List.prefix_rfl, fun pc i hi => ?_⟩, id⟩
  change ∃ j, (f.instructions.modify idx _)[pc]? = some j ∧ _
  by_cases hpc : idx = pc
  · subst hpc
    obtain rfl : i0 = i := Option.some.inj (h0.symm.trans hi)
    exact ⟨{ i0 with a := a }, by rw [List.getElem?_modify_eq, hi]; rfl, Or.inr ⟨hop, rfl⟩⟩
  · exact ⟨i, by rw [List.getElem?_modify_ne _ _ hpc]; exact hi, Or.inl (Eq.refl i)⟩

theorem grows_closure (f : FuncTable) (p : Func) (numArgs : Int) (line : Nat) :
    f.Grows (f.closure p numArgs line) := by
  have hprot : f.Grows { f with prot := f.prot ++ [p] } :=
    ⟨⟨List.prefix_rfl, List.prefix_append .., fun _ i hi => ⟨i, hi, Or.inl (Eq.refl i)⟩⟩, id⟩
  exact hprot.trans (grows_emit _ _ _)

/-- All of `f` is found in a function of `F`. -/
def Landed (f : FuncTable) (F : Func) : Prop := ∃ path G, F.at? path = some G ∧ f.KeptIn G

theorem Landed.here {f : FuncTable} {F : Func} (h : f.KeptIn F) : f.Landed F := ⟨[], F, rfl, h⟩

theorem Landed.grows {f f' : FuncTable} {F : Func} (h : f.Landed f'.toFunc) (hF : f'.KeptIn F) :
    f.Landed F := by
  obtain ⟨path, G, hat, hG⟩ := h
  cases path with
  | nil =>
      cases hat
      exact .here (hG.trans hF)
  | cons i path =>
      refine ⟨i :: path, G, ?_, hG⟩
      unfold Func.at? at hat ⊢
      cases hi : f'.toFunc.prot[i]? with
      | none =>
          rw [hi] at hat
          cases hat
      | some p =>
          rw [hi] at hat
          have hlt := (List.getElem?_eq_some_iff.mp hi).1
          rw [(getElem?_prefix_eq hF.prot hlt).trans hi]
          exact hat

theorem Landed.trans {f f' : FuncTable} {F : Func} (h : f.Landed f'.toFunc)
    (h' : f'.Landed F) : f.Landed F := by
  obtain ⟨path, G, hat, hG⟩ := h'
  obtain ⟨path', G', hat', hG'⟩ := h.grows hG
  refine ⟨path ++ path', G', ?_, hG'⟩
  clear h hG hG'
  induction path generalizing F with
  | nil =>
      cases hat
      exact hat'
  | cons i path ih =>
      rw [List.cons_append, Func.at?]
      rw [Func.at?] at hat
      cases hi : F.prot[i]? with
      | none =>
          rw [hi] at hat
          cases hat
      | some p =>
          rw [hi] at hat
          exact ih hat

/-- A finished function among the prototypes. -/
theorem Landed.nested {f : FuncTable} {p : Func} (h : f.Landed p) {F : Func}
    (hp : p ∈ F.prot) : f.Landed F := by
  obtain ⟨path, G, hat, hG⟩ := h
  obtain ⟨i, hi⟩ := List.mem_iff_getElem?.mp hp
  refine ⟨i :: path, G, ?_, hG⟩
  rw [Func.at?, hi]
  exact hat

end FuncTable

/-! ## Calls of the generator -/

/-- The arguments of a call of `gen` and the state it is made in. -/
structure GenCall where
  ctx : Ctx
  e : Sexp
  tail : Bool
  quoted : Bool
  st : GenState

def GenCall.run (c : GenCall) (g : Gen) : Except String (Unit × GenState) :=
  g c.ctx c.e c.tail c.quoted c.st

open Classical in
/-- The generator `g`, with one call of it failing. -/
noncomputable def Gen.failAt (g : Gen) (c : GenCall) : Gen := fun ctx e tail quoted st =>
  if (⟨ctx, e, tail, quoted, st⟩ : GenCall) = c then .error "" else g ctx e tail quoted st

/-- What a call of `gen` does by itself, `g` being used for the parts. -/
def genNode (env : GenEnv) (g : Gen) : Gen := fun ctx e tail quoted =>
  match e with
  | .number n line => genConst (.number n) line
  | .symbol sym line =>
      if quoted || isConstant sym then genConst (.string sym) line
      else genFetch ctx sym line
  | .sexp data line =>
      if quoted then genList env g ctx e tail
      else do
        match isMacro env (← get).macros data with
        | some name => do
            let e ← genMacroExpansion env name data line
            g ctx e tail false
        | none =>
            match isSpecial env ctx.parents.length data with
            | some spe => genSpecial env g ctx spe data line tail
            | none => genFunccall env g ctx data line tail

theorem gen_succ (env : GenEnv) (depth : Nat) :
    gen env (depth + 1) = genNode env (gen env depth) := by
  funext ctx e tail quoted
  cases e <;> rfl

/-- While the call `c` is worked on at `depth`, the call `c'` is made at
`depth'`: `c` does not come out the same if `c'` fails. -/
inductive Calls (env : GenEnv) : Nat → GenCall → Nat → GenCall → Prop where
  | refl {depth : Nat} {c : GenCall} : Calls env depth c depth c
  | step {depth depth' : Nat} {c c1 c' : GenCall} : Calls env depth c (depth' + 1) c1 →
      c1.run (genNode env ((gen env depth').failAt c')) ≠ c1.run (genNode env (gen env depth')) →
      Calls env depth c depth' c'

/-! ## Forms

`m` is a piece of the generator that uses `g`, and `m'` the same piece with
the call `c` failing. -/

/-- From `st` on, `m` only adds to the function, and it is `m'` unless it
makes the call `c`, all of whose work is then found in what it leaves. -/
def Keeps {α : Type} (g : Gen) (c : GenCall) (m m' : GenM α) (st : GenState) : Prop :=
  ∀ a st', m st = .ok (a, st') → st.func.Grows st'.func
    ∧ (m' st = .ok (a, st') ∨ ∃ st1, c.run g = .ok ((), st1)
      ∧ (st.func.Plain → c.st.func.Plain) ∧ st1.func.Landed st'.func.toFunc)

/-- `g` only adds to the function it works on. -/
def Gen.GrowsOnly (g : Gen) : Prop :=
  ∀ ctx e tail quoted st st', g ctx e tail quoted st = .ok ((), st') → st.func.Grows st'.func

namespace Keeps

variable {α β : Type} {g : Gen} {c : GenCall} {m m' : GenM α} {f f' : α → GenM β} {st : GenState}

/-- One piece after another. -/
theorem bind (hm : Keeps g c m m' st)
    (hf : ∀ a st1, m st = .ok (a, st1) → Keeps g c (f a) (f' a) st1) :
    Keeps g c (m >>= f) (m' >>= f') st := by
  intro b st' h
  obtain ⟨a, st1, h1, h2⟩ := bind_ok.mp h
  obtain ⟨hgrow1, hm⟩ := hm a st1 h1
  obtain ⟨hgrow2, hf⟩ := hf a st1 h1 b st' h2
  refine ⟨hgrow1.trans hgrow2, ?_⟩
  rcases hm with hm | ⟨st2, hrun, hplain, hland⟩
  · rcases hf with hf | ⟨st2, hrun, hplain, hland⟩
    · exact Or.inl (bind_ok.mpr ⟨a, st1, hm, hf⟩)
    · exact Or.inr ⟨st2, hrun, fun hp => hplain (hgrow1.plain hp), hland⟩
  · exact Or.inr ⟨st2, hrun, hplain, hland.grows hgrow2.kept⟩

/-- A piece that makes no calls. -/
theorem of_grows (h : ∀ a st', m st = .ok (a, st') → st.func.Grows st'.func) :
    Keeps g c m m st := fun a st' hm => ⟨h a st' hm, Or.inl hm⟩

theorem of_func (h : ∀ a st', m st = .ok (a, st') → st'.func = st.func) : Keeps g c m m st :=
  .of_grows fun a st' hm => .of_eq (h a st' hm)

theorem pure (a : α) : Keeps g c (pure a) (pure a) st :=
  .of_func fun _ _ h => by
    cases h
    rfl

theorem throw {msg : String} : Keeps g c (throw msg : GenM α) m' st := fun _ _ h => nomatch h

/-- A piece behind a check. -/
theorem guarded {p : Prop} [Decidable p] {msg : String} {line : Nat} {f f' : Unit → GenM β}
    (h : ¬ p → Keeps g c (f ()) (f' ()) st) :
    Keeps g c (if p then genError msg line >>= f else f ())
      (if p then genError msg line >>= f' else f' ()) st := by
  split
  · exact fun _ _ h => nomatch h
  · exact h ‹_›

/-- A call of `g`. -/
theorem call (hg : g.GrowsOnly) (ctx : Ctx) (e : Sexp) (tail quoted : Bool) :
    Keeps g c (g ctx e tail quoted) (g.failAt c ctx e tail quoted) st := by
  intro a st' h
  have hgrow := hg ctx e tail quoted st st' h
  refine ⟨hgrow, ?_⟩
  by_cases hc : (⟨ctx, e, tail, quoted, st⟩ : GenCall) = c
  · subst hc
    exact Or.inr ⟨st', h, id, .here .rfl⟩
  · exact Or.inl ((if_neg hc).trans h)

end Keeps

section Forms

variable {env : GenEnv} {g : Gen} {c : GenCall} {ctx : Ctx} {st : GenState}

theorem keeps_genInst (inst : Instr) (line : Option Nat) :
    Keeps g c (genInst inst line) (genInst inst line) st :=
  .of_grows fun _ _ h => by
    cases h
    exact FuncTable.grows_emit _ _ _

theorem keeps_emit (inst : Instr) (line : Nat) :
    Keeps g c (emit inst line) (emit inst line) st :=
  .of_grows fun _ _ h => by
    cases h
    exact FuncTable.grows_emit _ _ _

theorem keeps_callOrTail (tail : Bool) (line : Option Nat) (narg : Nat) :
    Keeps g c (callOrTail env ctx tail line narg) (callOrTail env ctx tail line narg) st :=
  keeps_genInst _ line

theorem pushConst_ok {const : Const} {st st' : GenState} {a : Nat}
    (h : pushConst const st = .ok (a, st')) :
    (st.func.const.findIdx? (fun v => constEq v const) = some a ∧ st' = st)
    ∨ (st.func.const.findIdx? (fun v => constEq v const) = none ∧ a = st.func.const.length
      ∧ st' = { st with func := { st.func with const := st.func.const ++ [const] } }) := by
  obtain ⟨func, _, hfunc, h⟩ := bind_ok.mp h
  cases hfunc
  cases hfound : st.func.const.findIdx? fun v => constEq v const with
  | some constid =>
      rw [hfound] at h
      cases h
      exact Or.inl ⟨rfl, rfl⟩
  | none =>
      rw [hfound] at h
      cases h
      exact Or.inr ⟨rfl, rfl, rfl⟩

theorem keeps_pushConst {const : Const} (hconst : ∀ b, const ≠ .boolean b) :
    Keeps g c (pushConst const) (pushConst const) st :=
  .of_grows fun _ _ h => by
    rcases pushConst_ok h with ⟨-, rfl⟩ | ⟨-, -, rfl⟩
    · exact .rfl
    · exact FuncTable.grows_const hconst

theorem keeps_genConst (const : Const) (hconst : ∀ b, const ≠ .boolean b) (line : Nat) :
    Keeps g c (genConst const line) (genConst const line) st :=
  .bind (keeps_pushConst hconst) fun _ _ _ => keeps_genInst _ _

theorem keeps_genFetch (sym : Atom) (line : Nat) :
    Keeps g c (genFetch ctx sym line) (genFetch ctx sym line) st := by
  unfold genFetch
  cases findLable ctx.own.lables sym with
  | some id => exact keeps_emit _ line
  | none =>
      cases findUp 1 ctx.parents sym with
      | some up =>
          exact .of_grows fun _ _ h => by
            cases h
            exact (FuncTable.grows_up _ _).trans (FuncTable.grows_emit _ _ _)
      | none => exact .bind (keeps_pushConst nofun) fun _ _ _ => keeps_emit _ line

variable (hg : g.GrowsOnly)
include hg

theorem keeps_genAll (quoted : Bool) : ∀ (es : List Sexp) {st : GenState},
    Keeps g c (genAll g ctx quoted es) (genAll (g.failAt c) ctx quoted es) st
  | [], _ => .pure ()
  | e :: es, _ => .bind (.call hg ctx e false quoted) fun _ _ _ => keeps_genAll quoted es

theorem keeps_genFunccall (data : List Sexp) (line : Nat) (tail : Bool) :
    Keeps g c (genFunccall env g ctx data line tail)
      (genFunccall env (g.failAt c) ctx data line tail) st := by
  cases data with
  | nil => exact .throw
  | cons d ds =>
      exact .bind (keeps_genAll hg false (d :: ds)) fun _ _ _ => keeps_callOrTail _ _ _

theorem keeps_genRec (data : List Sexp) (line : Nat) (tail : Bool) :
    Keeps g c (genRec env g ctx data line tail) (genRec env (g.failAt c) ctx data line tail) st :=
  .bind (keeps_genInst _ _) fun _ _ _ => .bind (keeps_genAll hg false data.tail) fun _ _ _ =>
    keeps_callOrTail _ _ _

theorem keeps_genBody : ∀ (es : List Sexp) {st : GenState},
    Keeps g c (genBody g ctx es) (genBody (g.failAt c) ctx es) st
  | [], _ => .pure ()
  | [e], _ => .call hg ctx e true false
  | e :: e' :: es, _ =>
      .bind (.call hg ctx e false false) fun _ _ _ => .bind (keeps_genInst _ _) fun _ _ _ =>
        keeps_genBody (e' :: es)

theorem keeps_genList (e : Sexp) (tail : Bool) :
    Keeps g c (genList env g ctx e tail) (genList env (g.failAt c) ctx e tail) st := by
  unfold genList
  split
  · exact .throw
  · split
    · split
      · exact .throw
      · exact .call hg ctx _ tail false
    · exact .bind (keeps_genFetch _ _) fun _ _ _ => .bind (keeps_genAll hg true _) fun _ _ _ =>
        keeps_callOrTail _ _ _
  · exact .call hg ctx _ tail true

theorem keeps_genQuote (data : List Sexp) (tail : Bool) :
    Keeps g c (genQuote env g ctx data tail) (genQuote env (g.failAt c) ctx data tail) st := by
  unfold genQuote
  split
  · exact .throw
  · exact keeps_genList hg _ tail

theorem keeps_genDefine (data : List Sexp) (line : Nat) :
    Keeps g c (genDefine g ctx data line) (genDefine (g.failAt c) ctx data line) st := by
  unfold genDefine
  split
  · split
    · exact .throw
    · exact .bind (.call hg ctx _ false false) fun _ _ _ => .bind (keeps_pushConst nofun)
        fun _ _ _ => keeps_genInst _ _
  · exact .throw

theorem keeps_genOperator (op : Op) (data operands : List Sexp) (line : Nat) (tail : Bool)
    (err : String) :
    Keeps g c (genOperator env g ctx op data operands line tail err)
      (genOperator env (g.failAt c) ctx op data operands line tail err) st := by
  unfold genOperator
  split
  · exact .throw
  · split
    · exact keeps_genFunccall hg data line tail
    · exact .bind (keeps_genAll hg false operands) fun _ _ _ => keeps_genInst _ _

theorem keeps_genArith (op : Op) (data : List Sexp) (line : Nat) (tail : Bool) :
    Keeps g c (genArith env g ctx op data line tail)
      (genArith env (g.failAt c) ctx op data line tail) st := by
  unfold genArith
  split
  · exact .bind (.call hg ctx _ false false) fun _ _ _ => keeps_genInst _ _
  · exact keeps_genOperator hg op data data.tail line tail _

/-! ### Branches -/

/-- There is a branch at `idx`. -/
def BranchAt (f : FuncTable) (idx : Nat) : Prop :=
  ∃ i, f.instructions[idx]? = some i ∧ (i.op = .test ∨ i.op = .jmp)

omit hg in
theorem BranchAt.grows {f f' : FuncTable} {idx : Nat} (h : BranchAt f idx) (hf : f.Grows f') :
    BranchAt f' idx := by
  obtain ⟨i, hi, hop⟩ := h
  obtain ⟨j, hj, rfl | ⟨-, hpatch⟩⟩ := hf.kept.code idx i hi
  · exact ⟨j, hj, hop⟩
  · exact ⟨j, hj, hpatch.symm ▸ hop⟩

omit hg in
theorem branchAt_emit {i : Instr} {line : Nat} {st' : GenState}
    (h : emit i line st = .ok ((), st')) (hi : i.op = .test ∨ i.op = .jmp) :
    BranchAt st'.func st.pos := by
  cases h
  exact ⟨i, List.getElem?_concat_length, hi⟩

omit hg in
/-- The target of a branch is filled in. -/
theorem keeps_setTarget {idx : Nat} (h : BranchAt st.func idx) :
    Keeps g c (setTarget idx) (setTarget idx) st :=
  .of_grows fun _ _ hset => by
    cases hset
    exact FuncTable.grows_setA h

theorem keeps_genIf (data : List Sexp) (line : Nat) (tail : Bool) :
    Keeps g c (genIf g ctx data line tail) (genIf (g.failAt c) ctx data line tail) st := by
  unfold genIf
  split
  case h_2 => exact .throw
  case h_1 cond t _ _ =>
    refine .bind (.call hg ctx cond false false) fun _ st1 _ => ?_
    refine .bind (.of_func fun _ _ h => by cases h; rfl) fun condidx st2 hcond => ?_
    cases hcond
    refine .bind (keeps_emit _ _) fun _ st3 htest => ?_
    refine .bind (.call hg ctx _ tail false) fun _ st4 helse => ?_
    have hbranch := (branchAt_emit htest (Or.inl rfl)).grows (hg _ _ _ _ _ _ helse)
    refine .bind (.of_func fun _ _ h => by cases h; rfl) fun jmpidx st5 hjmpidx => ?_
    cases hjmpidx
    refine .bind (keeps_emit _ _) fun _ st6 hjmp => ?_
    have hbranch' : BranchAt st6.func st1.pos := by
      cases hjmp
      exact hbranch.grows (FuncTable.grows_emit _ _ _)
    refine .bind (keeps_setTarget hbranch') fun _ st7 hset => ?_
    have hjump : BranchAt st7.func st4.pos := by
      cases hset
      exact (branchAt_emit hjmp (Or.inr rfl)).grows (FuncTable.grows_setA hbranch')
    refine .bind (.call hg ctx t tail false) fun _ st8 hthen => ?_
    exact keeps_setTarget (hjump.grows (hg _ _ _ _ _ _ hthen))

/-! ### Functions -/

/-- The body is generated into a function of its own, which becomes the last
prototype. -/
theorem keeps_genLambda (data : List Sexp) (line : Nat) :
    Keeps g c (genLambda g ctx data line) (genLambda (g.failAt c) ctx data line) st := by
  rcases data with _ | ⟨d, _ | ⟨args, _ | ⟨e, es⟩⟩⟩
  case nil => exact .throw
  case cons.nil => exact .throw
  case cons.cons.nil => exact fun _ _ h => nomatch h
  case cons.cons.cons =>
    intro _ st' h
    unfold genLambda at h ⊢
    rw [if_neg (by simp)] at h ⊢
    obtain ⟨⟨lables, numArgs⟩, st1, hargs, hrest⟩ := bind_ok.mp h
    obtain rfl := lambdaArgs_state hargs
    obtain ⟨func, _, hfunc, hrest⟩ := bind_ok.mp hrest
    cases hfunc
    obtain ⟨_, _, hempty, hrest⟩ := bind_ok.mp hrest
    cases hempty
    obtain ⟨_, body, hbody, hrest⟩ := bind_ok.mp hrest
    obtain ⟨-, hkeep⟩ := keeps_genBody (c := c) hg (e :: es) () body hbody
    have hst' : st'.func = st1.func.closure body.function numArgs line := by
      cases hrest
      rfl
    refine ⟨hst' ▸ FuncTable.grows_closure .., hkeep.imp (fun heq => ?_) ?_⟩
    · refine bind_ok.mpr ⟨(lables, numArgs), _, hargs, ?_⟩
      refine bind_ok.mpr ⟨_, _, rfl, ?_⟩
      refine bind_ok.mpr ⟨_, _, rfl, ?_⟩
      exact bind_ok.mpr ⟨_, body, heq, hrest⟩
    · rintro ⟨st2, hrun, hplain, hland⟩
      refine ⟨st2, hrun, fun _ => hplain FuncTable.plain_empty, ?_⟩
      have hfunction : st2.func.Landed body.function :=
        hland.grows (FuncTable.grows_emit body.func _ _).kept
      exact hst' ▸ hfunction.nested (List.mem_append_right _ (List.mem_singleton.mpr rfl))

theorem keeps_genLet (data : List Sexp) (line : Nat) (tail : Bool) :
    Keeps g c (genLet env g ctx data line tail) (genLet env (g.failAt c) ctx data line tail)
      st := by
  unfold genLet
  refine .guarded fun _ => ?_
  split
  case h_2 => exact .throw
  case h_1 args _ _ =>
    refine .guarded fun _ => .bind (.of_func fun _ _ h => by rw [letPairs_state h]) fun r _ _ => ?_
    exact .bind (keeps_genLambda hg _ line) fun _ _ _ =>
      .bind (keeps_genAll hg false r.2) fun _ _ _ => keeps_callOrTail _ _ _

/-! ### Macros -/

omit hg in
/-- A definition that is accepted adds its macro, and nothing else. -/
theorem genMacro_ok {data : List Sexp} {line : Nat} {st st' : GenState} {u : Unit}
    (h : genMacro data line st = .ok (u, st')) :
    ∃ p, st' = { st with macros := st.macros ++ [p] } := by
  have hset : ∀ {name : Atom} {e : Sexp}, (do
      let st ← get
      if (st.macros.lookup name).isSome then
        genError ("Redefinition of '" ++ Atom.text name ++ "'.") line
      set { st with macros := st.macros ++ [(name, e)] } : GenM Unit) st = .ok (u, st') →
      ∃ p, st' = { st with macros := st.macros ++ [p] } := by
    intro name e h
    obtain ⟨_, _, hget, h⟩ := bind_ok.mp h
    cases hget
    dsimp only at h
    split at h
    · cases h
    · cases h
      exact ⟨(name, e), rfl⟩
  rcases data with _ | ⟨d, _ | ⟨sym, _ | ⟨args, _ | ⟨e, es⟩⟩⟩⟩
  case cons.cons.cons.cons =>
    unfold genMacro at h
    dsimp only at h
    cases hsym : sym.symbol? with
    | none =>
        rw [hsym] at h
        cases h
    | some name =>
        rw [hsym] at h
        cases args with
        | number n l => cases h
        | symbol a l => exact hset h
        | sexp params l =>
            dsimp only at h
            cases hparams : params.find? fun arg => arg.symbol?.isNone with
            | some arg =>
                rw [hparams] at h
                cases h
            | none =>
                rw [hparams] at h
                exact hset h
  all_goals cases h

omit hg in
/-- A macro is no part of the function it is defined in. -/
theorem keeps_genMacro (data : List Sexp) (line : Nat) :
    Keeps g c (genMacro data line) (genMacro data line) st :=
  .of_func fun _ _ h => by
    obtain ⟨p, rfl⟩ := genMacro_ok h
    rfl

omit hg in
theorem genMacroExpansion_func {name : Atom} {data : List Sexp} {line : Nat}
    {st' : GenState} {e : Sexp} (h : genMacroExpansion env name data line st = .ok (e, st')) :
    st'.func = st.func := by
  obtain ⟨_, _, hget, h⟩ := bind_ok.mp h
  cases hget
  generalize env.expand _ _ = r at h
  cases r with
  | error msg => cases h
  | ok r =>
      cases h
      rfl

theorem keeps_genSpecial (spe : Special) (data : List Sexp) (line : Nat) (tail : Bool) :
    Keeps g c (genSpecial env g ctx spe data line tail)
      (genSpecial env (g.failAt c) ctx spe data line tail) st := by
  cases spe with
  | «if» => exact keeps_genIf hg data line tail
  | lambda => exact keeps_genLambda hg data line
  | define => exact keeps_genDefine hg data line
  | undef => exact .throw
  | macroDef => exact keeps_genMacro data line
  | recur => exact keeps_genRec hg data line tail
  | «do» => exact keeps_genBody hg _
  | quote => exact keeps_genQuote hg data tail
  | «let» => exact keeps_genLet hg data line tail
  | logical op => exact keeps_genOperator hg op data data.tail line tail _
  | greater op => exact keeps_genOperator hg op data data.tail.reverse line false _
  | arith op => exact keeps_genArith hg op data line tail

/-- One call of `gen`. -/
theorem keeps_genNode (e : Sexp) (tail quoted : Bool) :
    Keeps g c (genNode env g ctx e tail quoted) (genNode env (g.failAt c) ctx e tail quoted)
      st := by
  cases e with
  | number n line => exact keeps_genConst (.number n) nofun line
  | symbol sym line =>
      dsimp only [genNode]
      split
      · exact keeps_genConst (.string sym) nofun line
      · exact keeps_genFetch sym line
  | sexp data line =>
      dsimp only [genNode]
      split
      · exact keeps_genList hg _ tail
      · refine .bind (.of_func fun _ _ h => by cases h; rfl) fun _ _ _ => ?_
        split
        · exact .bind (.of_func fun _ _ h => genMacroExpansion_func h) fun _ _ _ =>
            .call hg ctx _ tail false
        · split
          · exact keeps_genSpecial hg _ data line tail
          · exact keeps_genFunccall hg data line tail

end Forms

/-! ## The recursion -/

theorem gen_growsOnly (env : GenEnv) : ∀ depth, (gen env depth).GrowsOnly
  | 0 => fun _ _ _ _ _ _ h => nomatch h
  | depth + 1 => fun ctx e tail quoted st st' h => by
      rw [gen_succ] at h
      exact (keeps_genNode (c := ⟨ctx, e, tail, quoted, st⟩) (gen_growsOnly env depth) e tail quoted
        () st' h).1

/-- **The code of every call is found in what is generated.** -/
theorem Calls.landed {env : GenEnv} {depth depth' : Nat} {c c' : GenCall}
    (hcalls : Calls env depth c depth' c') {st' : GenState}
    (h : c.run (gen env depth) = .ok ((), st')) :
    ∃ st1, c'.run (gen env depth') = .ok ((), st1)
      ∧ (c.st.func.Plain → c'.st.func.Plain) ∧ st1.func.Landed st'.func.toFunc := by
  induction hcalls with
  | refl => exact ⟨st', h, id, .here .rfl⟩
  | @step depth' c c1 c' _ hdep ih =>
      obtain ⟨st1, hrun, hplain, hland⟩ := ih h
      rw [GenCall.run, gen_succ] at hrun
      obtain ⟨-, heq | ⟨st2, hrun', hplain', hland'⟩⟩ :=
        keeps_genNode (c := c') (gen_growsOnly env depth') _ _ _ () st1 hrun
      · exact absurd (heq.trans hrun.symm) hdep
      · exact ⟨st2, hrun', fun hp => hplain' (hplain hp), hland'.trans hland⟩

end Saurus
