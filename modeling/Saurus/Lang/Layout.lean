import Saurus.Gen.Sites

/-!
# Where code comes to stand, to the instruction

What `gen` has put into a function by the time it returns stays as it is:
the instructions, the constants, the prototypes and the upvalues from before
are all at the beginning of what is there after (`FuncTable.Begins`). Within
`gen_if` targets are filled in, of instructions of its own only. So the code
of an expression is found in the finished function from where it begins
(`FuncTable.PlacedIn`), branches included.

Upvalues are of scopes around the function, and within their lables.
-/

namespace Saurus

open Basis Basis.Codec

/-- The upvalue is a lable of a scope around the function. -/
def Ctx.Sees (ctx : Ctx) (u : Nat × Nat) : Prop :=
  1 ≤ u.1 ∧ ∃ scope, ctx.parents[u.1 - 1]? = some scope ∧ u.2 < scope.lables.length

namespace FuncTable

/-- All of `f` is at the beginning of `f'`, a function in `ctx`. -/
structure Begins (ctx : Ctx) (f f' : FuncTable) : Prop where
  code : f.instructions <+: f'.instructions
  const : f.const <+: f'.const
  prot : f.prot <+: f'.prot
  up : f.up <+: f'.up
  sees : (∀ u ∈ f.up, ctx.Sees u) → ∀ u ∈ f'.up, ctx.Sees u

/-- From the instruction `lo` on, and in all its tables, `f` is in `F`. -/
structure PlacedIn (lo : Nat) (f : FuncTable) (F : Func) : Prop where
  code : ∀ (pc : Nat) (i : Instr), lo ≤ pc → f.instructions[pc]? = some i →
    F.instructions[pc]? = some i
  const : f.const <+: F.const
  prot : f.prot <+: F.prot
  up : f.up <+: F.up

variable {ctx : Ctx} {f f' f'' : FuncTable} {F : Func} {lo lo' : Nat}

theorem Begins.rfl : f.Begins ctx f :=
  ⟨List.prefix_rfl, List.prefix_rfl, List.prefix_rfl, List.prefix_rfl, id⟩

theorem Begins.of_eq (h : f' = f) : f.Begins ctx f' := h ▸ .rfl

theorem Begins.trans (h : f.Begins ctx f') (h' : f'.Begins ctx f'') : f.Begins ctx f'' :=
  ⟨h.code.trans h'.code, h.const.trans h'.const, h.prot.trans h'.prot, h.up.trans h'.up,
    fun hu => h'.sees (h.sees hu)⟩

theorem begins_emit (f : FuncTable) (inst : Instr) (line : Nat) :
    f.Begins ctx (f.emit inst line) :=
  ⟨List.prefix_append .., List.prefix_rfl, List.prefix_rfl, List.prefix_rfl, id⟩

theorem begins_closure (f : FuncTable) (p : Func) (numArgs : Int) (line : Nat) :
    f.Begins ctx (f.closure p numArgs line) :=
  ⟨List.prefix_append .., List.prefix_rfl, List.prefix_append .., List.prefix_rfl, id⟩

theorem PlacedIn.before (h : f'.PlacedIn lo F) (hf : f.Begins ctx f') : f.PlacedIn lo F := by
  refine ⟨fun pc i hpc hi => h.code pc i hpc ?_, hf.const.trans h.const, hf.prot.trans h.prot,
    hf.up.trans h.up⟩
  rw [getElem?_prefix_eq hf.code (List.getElem?_eq_some_iff.mp hi).1, hi]

theorem PlacedIn.mono (h : f.PlacedIn lo F) (hlo : lo ≤ lo') : f.PlacedIn lo' F :=
  ⟨fun pc i hpc => h.code pc i (Nat.le_trans hlo hpc), h.const, h.prot, h.up⟩

theorem placedIn_code (f : FuncTable) (inst : Instr) (line : Nat) :
    f.PlacedIn lo (f.emit inst line).toFunc :=
  ⟨fun _ _ _ hi => (List.getElem?_append_left (List.getElem?_eq_some_iff.mp hi).1).trans hi,
    List.prefix_rfl, List.prefix_rfl, List.prefix_rfl⟩

end FuncTable

/-! ## Generating -/

/-- Whatever it starts from, `m` only adds to the function. -/
def Onward {α : Type} (ctx : Ctx) (m : GenM α) : Prop :=
  ∀ st a st', m st = .ok (a, st') → st.func.Begins ctx st'.func

namespace Onward

variable {α β : Type} {ctx : Ctx} {m : GenM α} {f : α → GenM β}

theorem bind (hm : Onward ctx m) (hf : ∀ a, Onward ctx (f a)) : Onward ctx (m >>= f) := by
  intro st b st' h
  obtain ⟨a, st1, h1, h2⟩ := bind_ok.mp h
  exact (hm st a st1 h1).trans (hf a st1 b st' h2)

theorem of_func (h : ∀ st a st', m st = .ok (a, st') → st'.func = st.func) : Onward ctx m :=
  fun st a st' hm => .of_eq (h st a st' hm)

theorem pure (a : α) : Onward ctx (pure a : GenM α) := .of_func fun _ _ _ h => by
  cases h
  rfl

theorem throw {msg : String} : Onward ctx (throw msg : GenM α) := fun _ _ _ h => nomatch h

/-- A piece behind a check. -/
theorem guarded {p : Prop} [Decidable p] {msg : String} {line : Nat} {f : Unit → GenM β}
    (h : Onward ctx (f ())) : Onward ctx (if p then genError msg line >>= f else f ()) := by
  split
  · exact fun _ _ _ h => nomatch h
  · exact h

end Onward

section Forms

variable {env : GenEnv} {g : Gen} {ctx : Ctx}

theorem onward_emit (inst : Instr) (line : Nat) : Onward ctx (emit inst line) :=
  fun _ _ _ h => by
    cases h
    exact FuncTable.begins_emit _ _ _

theorem onward_genInst (inst : Instr) (line : Option Nat) : Onward ctx (genInst inst line) :=
  fun _ _ _ h => by
    cases h
    exact FuncTable.begins_emit _ _ _

theorem onward_callOrTail (tail : Bool) (line : Option Nat) (narg : Nat) :
    Onward ctx (callOrTail env ctx tail line narg) := onward_genInst _ line

theorem onward_pushConst (const : Const) : Onward ctx (pushConst const) := fun _ _ _ h => by
  rcases pushConst_ok h with ⟨-, rfl⟩ | ⟨-, -, rfl⟩
  · exact .rfl
  · exact ⟨List.prefix_rfl, List.prefix_append .., List.prefix_rfl, List.prefix_rfl, id⟩

theorem onward_genConst (const : Const) (line : Nat) : Onward ctx (genConst const line) :=
  (onward_pushConst const).bind fun _ => onward_genInst _ _

theorem findLable_lt : ∀ {ls : List Atom} {sym : Atom} {i : Nat}, findLable ls sym = some i →
    i < ls.length
  | [], _, _, h => nomatch h
  | l :: ls, sym, i, h => by
      rw [findLable] at h
      cases hrest : findLable ls sym with
      | some j =>
          rw [hrest] at h
          cases h
          have := findLable_lt hrest
          rw [List.length_cons]
          omega
      | none =>
          rw [hrest] at h
          dsimp only at h
          split at h
          · cases h
            exact Nat.succ_pos _
          · cases h

theorem findUp_sees : ∀ {scopes : List Scope} {k lv idx : Nat} {sym : Atom},
    findUp k scopes sym = some (lv, idx) →
      k ≤ lv ∧ ∃ scope, scopes[lv - k]? = some scope ∧ idx < scope.lables.length
  | [], _, _, _, _, h => nomatch h
  | scope :: scopes, k, lv, idx, sym, h => by
      rw [findUp] at h
      cases hown : findLable scope.lables sym with
      | some i =>
          rw [hown] at h
          cases h
          refine ⟨Nat.le_refl _, scope, ?_, findLable_lt hown⟩
          rw [Nat.sub_self]
          rfl
      | none =>
          rw [hown] at h
          obtain ⟨hle, scope', hat, hlt⟩ := findUp_sees h
          refine ⟨by omega, scope', ?_, hlt⟩
          rw [show lv - k = (lv - (k + 1)) + 1 by omega]
          exact hat

theorem onward_genFetch (sym : Atom) (line : Nat) : Onward ctx (genFetch ctx sym line) := by
  unfold genFetch
  cases findLable ctx.own.lables sym with
  | some id => exact onward_emit _ line
  | none =>
      cases hup : findUp 1 ctx.parents sym with
      | some up =>
          obtain ⟨lv, idx⟩ := up
          intro st _ st' h
          cases h
          refine ⟨List.prefix_append .., List.prefix_rfl, List.prefix_rfl, List.prefix_append ..,
            fun hu u hmem => ?_⟩
          rcases List.mem_append.mp hmem with hmem | hmem
          · exact hu u hmem
          · obtain rfl := List.mem_singleton.mp hmem
            exact findUp_sees hup
      | none => exact (onward_pushConst _).bind fun _ => onward_emit _ line

variable (hg : ∀ e tail quoted, Onward ctx (g ctx e tail quoted))
include hg

theorem onward_genAll (quoted : Bool) : ∀ es : List Sexp, Onward ctx (genAll g ctx quoted es)
  | [] => .pure ()
  | e :: es => (hg e false quoted).bind fun _ => onward_genAll quoted es

theorem onward_genFunccall (data : List Sexp) (line : Nat) (tail : Bool) :
    Onward ctx (genFunccall env g ctx data line tail) := by
  cases data with
  | nil => exact .throw
  | cons d ds => exact (onward_genAll hg false (d :: ds)).bind fun _ => onward_callOrTail _ _ _

theorem onward_genBody : ∀ es : List Sexp, Onward ctx (genBody g ctx es)
  | [] => .pure ()
  | [e] => hg e true false
  | e :: e' :: es =>
      (hg e false false).bind fun _ => (onward_genInst _ _).bind fun _ => onward_genBody (e' :: es)

theorem onward_genList (e : Sexp) (tail : Bool) : Onward ctx (genList env g ctx e tail) := by
  unfold genList
  split
  · exact .throw
  · split
    · split
      · exact .throw
      · exact hg _ tail false
    · exact (onward_genFetch _ _).bind fun _ => (onward_genAll hg true _).bind fun _ =>
        onward_callOrTail _ _ _
  · exact hg _ tail true

theorem onward_genDefine (data : List Sexp) (line : Nat) :
    Onward ctx (genDefine g ctx data line) := by
  unfold genDefine
  split
  · split
    · exact .throw
    · exact (hg _ false false).bind fun _ => (onward_pushConst _).bind fun _ => onward_genInst _ _
  · exact .throw

theorem onward_genOperator (op : Op) (data operands : List Sexp) (line : Nat) (tail : Bool)
    (err : String) : Onward ctx (genOperator env g ctx op data operands line tail err) := by
  unfold genOperator
  split
  · exact .throw
  · split
    · exact onward_genFunccall hg data line tail
    · exact (onward_genAll hg false operands).bind fun _ => onward_genInst _ _

/-! ### Branches -/

/-- The pieces of `gen_if`: `st1` is behind the condition, `st3` behind the
branch taken when it is false, and `st6` behind the other. -/
structure IfPieces (g : Gen) (ctx : Ctx) (c t f : Sexp) (tail : Bool) (st st' : GenState)
    (st1 st2 st3 st5 st6 : GenState) : Prop where
  cond : g ctx c false false st = .ok ((), st1)
  second : g ctx f tail false st2 = .ok ((), st3)
  first : g ctx t tail false st5 = .ok ((), st6)
  pos2 : st2.pos = st1.pos + 1
  pos5 : st5.pos = st3.pos + 1
  pos' : st'.pos = st6.pos
  branched : Branched st1.code st3.code st6.code st'.code
  begins2 : st1.func.Begins ctx st2.func
  same5 : st5.func.const = st3.func.const ∧ st5.func.prot = st3.func.prot
    ∧ st5.func.up = st3.func.up
  same' : st'.func.const = st6.func.const ∧ st'.func.prot = st6.func.prot
    ∧ st'.func.up = st6.func.up

theorem genIf_pieces {data : List Sexp} {line : Nat} {tail : Bool} {st st' : GenState}
    (h : genIf g ctx data line tail st = .ok ((), st')) :
    ∃ c t, data[1]? = some c ∧ data[2]? = some t
      ∧ ∃ st1 st2 st3 st5 st6, IfPieces g ctx c t (data[3]?.getD (.symbol nilAtom t.line)) tail
        st st' st1 st2 st3 st5 st6 := by
  generalize hm : genIf g ctx data line tail = m at h
  unfold genIf at hm
  split at hm <;> subst hm
  case h_2 => cases h
  case h_1 c t hc ht =>
    refine ⟨c, t, hc, ht, ?_⟩
    obtain ⟨_, st1, hcond, h⟩ := bind_ok.mp h
    obtain ⟨condidx, _, hhere, h⟩ := bind_ok.mp h
    cases hhere
    obtain ⟨_, st2, htest, h⟩ := bind_ok.mp h
    obtain ⟨_, st3, helse, h⟩ := bind_ok.mp h
    obtain ⟨jmpidx, _, hhere, h⟩ := bind_ok.mp h
    cases hhere
    obtain ⟨_, st4, hjmp, h⟩ := bind_ok.mp h
    obtain ⟨_, st5, hset, h⟩ := bind_ok.mp h
    obtain ⟨_, st6, hthen, hset'⟩ := bind_ok.mp h
    have hpre3 := (hg _ tail false st2 _ st3 helse).code
    have hpre6 := (hg _ tail false st5 _ st6 hthen).code
    obtain ⟨hb, hpos2, hpos5, hpos7⟩ := branched_steps htest hpre3 hjmp hset hpre6 hset'
    refine ⟨st1, st2, st3, st5, st6, hcond, helse, hthen, hpos2, hpos5, hpos7, hb,
      onward_emit _ _ st1 _ st2 htest, ?_, ?_⟩
    · cases hjmp
      cases hset
      exact ⟨rfl, rfl, rfl⟩
    · cases hset'
      exact ⟨rfl, rfl, rfl⟩

omit hg in
theorem IfPieces.begins5 {c t f : Sexp} {tail : Bool} {st st' st1 st2 st3 st5 st6 : GenState}
    (hp : IfPieces g ctx c t f tail st st' st1 st2 st3 st5 st6) :
    st3.func.const <+: st5.func.const ∧ st3.func.prot <+: st5.func.prot
      ∧ st3.func.up <+: st5.func.up := by
  obtain ⟨hconst, hprot, hup⟩ := hp.same5
  exact ⟨hconst ▸ List.prefix_rfl, hprot ▸ List.prefix_rfl, hup ▸ List.prefix_rfl⟩

theorem onward_genIf (data : List Sexp) (line : Nat) (tail : Bool) :
    Onward ctx (genIf g ctx data line tail) := by
  intro st _ st' h
  obtain ⟨c, t, -, -, st1, st2, st3, st5, st6, hp⟩ := genIf_pieces hg h
  have h1 := hg _ _ _ _ _ _ hp.cond
  have h3 := h1.trans (hp.begins2.trans (hg _ _ _ _ _ _ hp.second))
  have h6 := hg _ _ _ _ _ _ hp.first
  obtain ⟨hconst5, hprot5, hup5⟩ := hp.same5
  obtain ⟨hconst, hprot, hup⟩ := hp.same'
  refine ⟨hp.branched.before h1.code, ?_, ?_, ?_, fun hu => ?_⟩
  · rw [hconst]
    exact h3.const.trans (hconst5 ▸ h6.const)
  · rw [hprot]
    exact h3.prot.trans (hprot5 ▸ h6.prot)
  · rw [hup]
    exact h3.up.trans (hup5 ▸ h6.up)
  · rw [hup]
    exact h6.sees (hup5 ▸ h3.sees hu)

/-! ### Functions and the rest -/

omit hg in
theorem onward_genLambda (data : List Sexp) (line : Nat) :
    Onward ctx (genLambda g ctx data line) := fun _ _ _ h => by
  obtain ⟨_, _, _, _, _, _, rfl⟩ := genLambda_ok h
  exact FuncTable.begins_closure ..

theorem onward_genLet (data : List Sexp) (line : Nat) (tail : Bool) :
    Onward ctx (genLet env g ctx data line tail) := by
  unfold genLet
  refine .guarded ?_
  split
  case h_2 => exact .throw
  case h_1 args _ _ =>
    refine .guarded <| .bind (.of_func fun _ _ _ h => by rw [letPairs_state h]) fun r => ?_
    exact (onward_genLambda _ line).bind fun _ => (onward_genAll hg false r.2).bind fun _ =>
      onward_callOrTail _ _ _

theorem onward_genSpecial (spe : Special) (data : List Sexp) (line : Nat) (tail : Bool) :
    Onward ctx (genSpecial env g ctx spe data line tail) := by
  cases spe with
  | «if» => exact onward_genIf hg data line tail
  | lambda => exact onward_genLambda data line
  | define => exact onward_genDefine hg data line
  | undef => exact .throw
  | macroDef =>
      exact .of_func fun _ _ _ h => by
        obtain ⟨p, rfl⟩ := genMacro_ok h
        rfl
  | recur =>
      exact (onward_genInst _ _).bind fun _ => (onward_genAll hg false data.tail).bind fun _ =>
        onward_callOrTail _ _ _
  | «do» => exact onward_genBody hg _
  | quote =>
      change Onward ctx (genQuote env g ctx data tail)
      unfold genQuote
      split
      · exact .throw
      · exact onward_genList hg _ tail
  | «let» => exact onward_genLet hg data line tail
  | logical op => exact onward_genOperator hg op data data.tail line tail _
  | greater op => exact onward_genOperator hg op data data.tail.reverse line false _
  | arith op =>
      change Onward ctx (genArith env g ctx op data line tail)
      unfold genArith
      split
      · exact (hg _ false false).bind fun _ => onward_genInst _ _
      · exact onward_genOperator hg op data data.tail line tail _

theorem onward_genNode (e : Sexp) (tail quoted : Bool) :
    Onward ctx (genNode env g ctx e tail quoted) := by
  cases e with
  | number n line => exact onward_genConst (.number n) line
  | symbol sym line =>
      dsimp only [genNode]
      split
      · exact onward_genConst (.string sym) line
      · exact onward_genFetch sym line
  | sexp data line =>
      dsimp only [genNode]
      split
      · exact onward_genList hg _ tail
      · refine .bind (.of_func fun _ _ _ h => by cases h; rfl) fun _ => ?_
        split
        · exact .bind (.of_func fun _ _ _ h => genMacroExpansion_func h) fun _ => hg _ tail false
        · split
          · exact onward_genSpecial hg _ data line tail
          · exact onward_genFunccall hg data line tail

end Forms

theorem onward_gen (env : GenEnv) : ∀ depth ctx e tail quoted,
    Onward ctx (gen env depth ctx e tail quoted)
  | 0, _, _, _, _ => fun _ _ _ h => nomatch h
  | depth + 1, ctx, e, tail, quoted => by
      rw [gen_succ]
      exact onward_genNode (onward_gen env depth ctx) e tail quoted

end Saurus
