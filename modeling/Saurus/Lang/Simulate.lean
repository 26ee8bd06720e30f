import Saurus.Lang.Calls

/-!
# The generated code does what the program means

Form by form, the code that `gen` makes of an expression does what the
evaluator says of it, given that this holds of the parts; by induction on the
bound on nested evaluations it holds of every expression
(`simulates_eval`).
-/

namespace Saurus

open Basis Basis.Codec

section Forms

variable {d : Dialect} {env : GenEnv} {U : Set (List Byte)} {F : Func} {ρ : Env} {ev : Eval}
  {depth : Nat}

/-! ## Arguments -/

theorem evalAll_length (quoted : Bool) : ∀ {es : List Sexp} {vs : List SVal},
    Results (evalAll ev ρ quoted es) vs → vs.length = es.length
  | [], _, ⟨_, _, h⟩ => by
      cases h
      rfl
  | e :: es, vs, ⟨γ, γ', h⟩ => by
      obtain ⟨⟨x, γ1⟩, -, h⟩ := Outcome.bind_eq_ok.mp h
      obtain ⟨⟨xs, γ2⟩, hxs, h⟩ := Outcome.bind_eq_ok.mp h
      cases h
      rw [List.length_cons, List.length_cons, evalAll_length quoted ⟨γ1, γ', hxs⟩]

variable (hset : Setting d env U) (hev : Simulates d env U ev)

section Arguments

include hev

theorem computes_gen (e : Sexp) (quoted : Bool) :
    Computes d env U F ρ [] (gen env depth ρ.ctx e false quoted) (ev ρ e false quoted)
      fun z => [z] := (hev depth F ρ e false quoted).stays rfl

/-- **Arguments** are put one after another. -/
theorem computes_genAll (quoted : Bool) : ∀ es : List Sexp,
    Computes d env U F ρ [] (genAll (gen env depth) ρ.ctx quoted es) (evalAll ev ρ quoted es) id
  | [] => .pure rfl
  | e :: es =>
      (computes_gen hev e quoted).bind (onward_gen env depth ρ.ctx e false quoted)
        (fun _ x _ => ((computes_genAll quoted es).frame [x]).map fun _ => rfl) fun _ =>
        onward_genAll (onward_gen env depth ρ.ctx) quoted es

end Arguments

include hset hev

/-- A callee that is there, its arguments, and the call. -/
theorem finishes_applied (quoted : Bool) (f : SVal) (es : List Sexp) (tail : Bool)
    (line : Option Nat) :
    Finishes d env U F ρ tail [f]
      (genAll (gen env depth) ρ.ctx quoted es >>= fun _ =>
        callOrTail env ρ.ctx tail line es.length)
      (evalAll ev ρ quoted es >>= fun args => apply d ev f args) :=
  ((computes_genAll hev quoted es).frame [f]).finish
    (onward_genAll (onward_gen env depth ρ.ctx) quoted es)
    (fun _ args hargs => by
      rw [← evalAll_length quoted hargs]
      exact finishes_callOrTail hset hev f args tail line)
    fun _ => onward_callOrTail _ _ _

theorem finishes_genFunccall (data : List Sexp) (line : Nat) (tail : Bool) :
    Finishes d env U F ρ tail [] (genFunccall env (gen env depth) ρ.ctx data line tail)
      (evalCall d ev ρ data) := by
  cases data with
  | nil => exact fun _ _ _ _ _ _ _ h => nomatch h
  | cons e es =>
      refine (computes_genAll hev false (e :: es)).finish
        (onward_genAll (onward_gen env depth ρ.ctx) false (e :: es)) (fun _ vs hvs => ?_) fun _ =>
          onward_callOrTail _ _ _
      have hlen := evalAll_length false hvs
      match vs, hlen with
      | f :: args, hlen =>
          rw [show (e :: es).length - 1 = args.length from (Nat.succ.inj hlen).symm]
          exact finishes_callOrTail hset hev f args tail (some line)

/-! ## Lists -/

theorem finishes_genList (e : Sexp) (tail : Bool) :
    Finishes d env U F ρ tail [] (genList env (gen env depth) ρ.ctx e tail)
      (evalList d ev ρ e tail) := by
  match e with
  | .number n line => exact hev depth F ρ (.number n line) tail true
  | .symbol sym line => exact hev depth F ρ (.symbol sym line) tail true
  | .sexp [] line => exact fun _ _ _ _ _ _ _ h => nomatch h
  | .sexp (x :: xs) line =>
      dsimp only [genList, evalList]
      by_cases hun : x.symbol? = some (atom ['u', 'n', 'q', 'u', 'o', 't', 'e'])
      · rw [if_pos hun, if_pos hun]
        cases xs with
        | nil => exact fun _ _ _ _ _ _ _ h => nomatch h
        | cons e es => exact hev depth F ρ e tail false
      · rw [if_neg hun, if_neg hun]
        exact (computes_genFetch (by decide) line).finish (onward_genFetch _ _)
          (fun _ f _ => finishes_applied hset hev true f (x :: xs) tail (some line)) fun _ =>
            (onward_genAll (onward_gen env depth ρ.ctx) true (x :: xs)).bind fun _ =>
              onward_callOrTail _ _ _

theorem finishes_genQuote (data : List Sexp) (tail : Bool) :
    Finishes d env U F ρ tail [] (genQuote env (gen env depth) ρ.ctx data tail)
      (evalQuote d ev ρ data tail) := by
  unfold genQuote evalQuote
  cases data[1]? with
  | none => exact fun _ _ _ _ _ _ _ h => nomatch h
  | some e => exact finishes_genList hset hev e tail

/-! ## The function itself -/

omit hset hev in
/-- `COPY` puts the function that runs. -/
theorem computes_self (line : Option Nat) :
    Computes d env U F ρ [] (genInst { op := .copy } line) (pure ρ.self) fun z => [z] := by
  refine computes_puts fun st b st' γ s hm hplaced ha hpc => ?_
  obtain ⟨hi, hpos⟩ := genInst_placed hm hplaced
  refine ⟨hpos, Or.inr ⟨.ok ρ.self, rfl, _, fun _ => s.view.slot 0, hpc ▸ hi, by simp [Op.IsLocal],
    rfl, fun vs _ => ⟨rfl, fun _ => ?_⟩⟩⟩
  have hheight := ha.height
  rw [view_slot ha (by omega)]
  exact .ok ha.self

theorem finishes_genRec (data : List Sexp) (line : Nat) (tail : Bool) :
    Finishes d env U F ρ tail [] (genRec env (gen env depth) ρ.ctx data line tail)
      (evalRec d ev ρ data) := by
  have hall : Finishes d env U F ρ tail [] (genRec env (gen env depth) ρ.ctx data line tail)
      (pure ρ.self >>= fun f =>
        evalAll ev ρ false data.tail >>= fun args => apply d ev f args) := by
    unfold genRec
    rw [← List.length_tail]
    exact (computes_self (some line)).finish (onward_genInst _ _)
      (fun _ f _ => finishes_applied hset hev false f data.tail tail (some line)) fun _ =>
        (onward_genAll (onward_gen env depth ρ.ctx) false data.tail).bind fun _ =>
          onward_callOrTail _ _ _
  exact hall

/-! ## Branches -/

omit hset hev in
/-- A `TEST` goes to its target or on. -/
theorem follows_test {γ₀ γ : Globals} {s s' : Vm} {x : SVal} {k : Nat} {α : Type}
    {o : Outcome α} {P : α → Vm → Prop} (ha : Active env U F ρ γ₀ s)
    (hy : s.Yields env U s'.pc γ [x] s')
    (hi : F.instructions[s'.pc]? = some { op := .test, a := k })
    (hgo : ∀ s'', s.Yields env U (if x.truthy then k else s'.pc + 1) γ [] s'' →
      (Vm.loop d.host).Follows (Vm.Full d.host) o P s'') :
    (Vm.loop d.host).Follows (Vm.Full d.host) o P s' := by
  have ha' := ha.yields hy
  refine ha'.follows_local hy hi (by simp [Op.IsLocal]) rfl fun _ _ vs hvs => ?_
  obtain ⟨v, _, hv, hnil, rfl⟩ := List.forall₂_cons_left_iff.mp hvs
  obtain rfl := List.forall₂_nil_left_iff.mp hnil
  refine hgo _ ?_
  rw [← hv.truthy_eq]
  exact hy.replace [] .rfl ha'.strung ha'.globals .nil ha.room

omit hset hev in
theorem follows_jmp {γ₀ γ : Globals} {s s' : Vm} {xs : List SVal} {k : Nat} {α : Type}
    {o : Outcome α} {P : α → Vm → Prop} (ha : Active env U F ρ γ₀ s)
    (hy : s.Yields env U s'.pc γ xs s')
    (hi : F.instructions[s'.pc]? = some { op := .jmp, a := k })
    (hgo : ∀ s'', s.Yields env U k γ xs s'' →
      (Vm.loop d.host).Follows (Vm.Full d.host) o P s'') :
    (Vm.loop d.host).Follows (Vm.Full d.host) o P s' := by
  have ha' := ha.yields hy
  have hrefl := ha'.refl
  refine ha'.follows_local hrefl hi (by simp [Op.IsLocal]) rfl fun _ _ vs hvs => ?_
  obtain rfl := List.forall₂_nil_left_iff.mp hvs
  refine hgo _ ?_
  have hjump : s'.Yields env U k γ [] (s'.replace 0 (s'.world, [], k)) :=
    hrefl.replace [] .rfl ha'.strung ha'.globals .nil ha'.room
  have hthere := hy.trans hjump
  rwa [List.append_nil] at hthere

omit hset in
/-- **Conditionals** take one branch, and leave its value. -/
theorem finishes_genIf (data : List Sexp) (line : Nat) (tail : Bool) :
    Finishes d env U F ρ tail [] (genIf (gen env depth) ρ.ctx data line tail)
      (evalIf ev ρ data tail) := by
  intro st b st' γ₀ γ s s' hm hplaced ha hy
  have hon := onward_gen env depth ρ.ctx
  obtain ⟨c, t, hc, ht, st1, st2, st3, st5, st6, hp⟩ := genIf_pieces hon hm
  have heval : evalIf ev ρ data tail = (ev ρ c false false >>= fun x =>
      if x.truthy then ev ρ t tail false
      else ev ρ (data[3]?.getD (.symbol nilAtom t.line)) tail false) := by
    rw [evalIf, hc, ht]
  have h1 := hon _ _ _ _ _ _ hp.cond
  have h3 := hon _ _ _ _ _ _ hp.second
  have h6 := hon _ _ _ _ _ _ hp.first
  have hb := hp.branched
  have hpos2 := hp.pos2
  have hpos5 := hp.pos5
  have hle1 : st.pos ≤ st1.pos := h1.code.length_le
  have hle3 : st2.pos ≤ st3.pos := h3.code.length_le
  have hle6 : st5.pos ≤ st6.pos := h6.code.length_le
  -- the three parts are in the function
  obtain ⟨hconst, hprot, hup⟩ := hp.same'
  obtain ⟨hconst5, hprot5, hup5⟩ := hp.begins5
  have hplaced6 : st6.func.PlacedIn st5.pos F :=
    ⟨fun pc i hpc hi => hplaced.code pc i (by omega)
      ((hb.second pc (show st3.pos < pc by omega)).trans hi),
      hconst ▸ hplaced.const, hprot ▸ hplaced.prot, hup ▸ hplaced.up⟩
  have htables3 : st3.func.const <+: F.const ∧ st3.func.prot <+: F.prot ∧ st3.func.up <+: F.up :=
    ⟨hconst5.trans (h6.const.trans hplaced6.const), hprot5.trans (h6.prot.trans hplaced6.prot),
      hup5.trans (h6.up.trans hplaced6.up)⟩
  have hplaced3 : st3.func.PlacedIn st2.pos F := by
    refine ⟨fun pc i hpc hi => hplaced.code pc i (by omega) ?_, htables3.1, htables3.2.1,
      htables3.2.2⟩
    have hlt := (List.getElem?_eq_some_iff.mp hi).1
    exact (hb.first pc (show st1.pos < pc by omega) hlt).trans hi
  have hbegins1 := hp.begins2.trans h3
  have hplaced1 : st1.func.PlacedIn st.pos F := by
    refine ⟨fun pc i hpc hi => hplaced.code pc i hpc ?_, hbegins1.const.trans htables3.1,
      hbegins1.prot.trans htables3.2.1, hbegins1.up.trans htables3.2.2⟩
    have hlt := (List.getElem?_eq_some_iff.mp hi).1
    exact (hb.below pc hlt).trans hi
  have htest := hplaced.code st1.pos _ hle1 hb.test
  have hjmp := hplaced.code st3.pos _ (by omega) hb.jmp
  -- the condition, then one of the branches
  rw [heval]
  refine (computes_gen hev c false _ _ _ _ _ _ _ hp.cond hplaced1 ha hy).bind
    fun ⟨x, γ1⟩ s1 _ hy1 => ?_
  have hend1 := hy1.pc
  rw [← hend1] at htest hy1
  refine follows_test ha hy1 htest fun s2 hy2 => ?_
  dsimp only
  by_cases htrue : x.truthy = true
  · rw [if_pos htrue] at hy2 ⊢
    rw [show st3.code.length + 1 = st5.pos from hpos5.symm] at hy2
    rw [hp.pos']
    exact hev depth F ρ t tail false _ _ _ _ _ _ _ hp.first hplaced6 ha hy2
  · rw [if_neg htrue] at hy2 ⊢
    rw [hend1, ← hpos2] at hy2
    refine (hev depth F ρ _ tail false _ _ _ _ _ _ _ hp.second hplaced3 ha hy2).tail
      fun r s3 _ hr => ?_
    rcases hr with hy3 | hback
    · have hend3 := hy3.pc
      have hjmp' := hjmp
      rw [← hend3] at hy3 hjmp'
      refine follows_jmp ha hy3 hjmp' fun s4 hy4 => .pure (Or.inl ?_)
      rw [hp.pos']
      exact hy4
    · exact .pure (Or.inr hback)

/-! ## Bindings -/

omit hset hev in
theorem letPairs_bindings {line : Nat} : ∀ {args : List Sexp} {st st' : GenState}
    {r : List Sexp × List Sexp}, letPairs line args st = .ok (r, st') → r = letBindings args
  | [], _, _, _, h => by
      cases h
      rfl
  | [_], _, _, _, h => by
      cases h
      rfl
  | k :: v :: args, st, st', r, h => by
      unfold letPairs at h
      split at h
      · cases h
      · obtain ⟨_, st1, hrest, h⟩ := bind_ok.mp h
        cases h
        rw [letBindings, ← letPairs_bindings hrest]

theorem finishes_genLet (data : List Sexp) (line : Nat) (tail : Bool) :
    Finishes d env U F ρ tail [] (genLet env (gen env depth) ρ.ctx data line tail)
      (evalLet d ev ρ data) := by
  match data with
  | [] | [_] | [_, _] => exact fun _ _ _ _ _ _ _ h => nomatch h
  | hd :: .number .. :: e :: es => exact fun _ _ _ _ _ _ _ h => nomatch h
  | hd :: .symbol .. :: e :: es => exact fun _ _ _ _ _ _ _ h => nomatch h
  | hd :: .sexp args line' :: e :: es =>
      have hpieces := (computes_genLambda (F := F) (ρ := ρ) hset depth
        (.symbol (atom ['l', 'a', 'm', 'b', 'd', 'a']) line :: .sexp (letBindings args).1 line
          :: e :: es) line).finish (onward_genLambda _ _)
        (fun _ f _ => finishes_applied hset hev false f (letBindings args).2 tail (some line))
        fun _ => (onward_genAll (onward_gen env depth ρ.ctx) false _).bind fun _ =>
          onward_callOrTail _ _ _
      refine hpieces.of_run fun st b st' h => ?_
      unfold genLet at h
      rw [if_neg (by simp)] at h
      change (if args.length % 2 ≠ 0 then genError "Expected key value pairs." line >>= _ else _ :
        GenM Unit) st = _ at h
      split at h
      · cases h
      · obtain ⟨r, st1, hpairs, h⟩ := bind_ok.mp h
        obtain rfl := letPairs_state hpairs
        obtain rfl := letPairs_bindings hpairs
        exact h

/-! ## Definitions -/

theorem finishes_genDefine (data : List Sexp) (line : Nat) (tail : Bool) :
    Finishes d env U F ρ tail [] (genDefine (gen env depth) ρ.ctx data line)
      (evalDefine ev ρ data) := by
  match data with
  | [] | [_] | [_, _] | _ :: _ :: _ :: _ :: _ => exact fun _ _ _ _ _ _ _ h => nomatch h
  | [_, .number .., _] | [_, .sexp .., _] => exact fun _ _ _ _ _ _ _ h => nomatch h
  | [_, .symbol name line', value] =>
      refine Computes.finishes ?_ tail
      exact (computes_gen hev value false).bind (onward_gen env depth ρ.ctx value false false)
        (fun _ x _ => computes_setglobal hset name x (some line')) fun _ =>
          (onward_pushConst _).bind fun _ => onward_genInst _ _

/-! ## Operators -/

theorem finishes_genOperator (op : Op) {data operands : List Sexp}
    (hlen : operands.length = data.length - 1) (line : Nat) (tail : Bool) (err : String) :
    Finishes d env U F ρ tail []
      (genOperator env (gen env depth) ρ.ctx op data operands line tail err)
      (evalOperator d ev ρ op data operands) := by
  unfold genOperator evalOperator
  by_cases hshort : data.length < 3
  · rw [if_pos hshort]
    exact fun _ _ _ _ _ _ _ h => nomatch h
  · rw [if_neg hshort, if_neg hshort]
    by_cases hmore : 3 < data.length
    · rw [if_pos hmore, if_pos hmore]
      exact finishes_genFunccall hset hev data line tail
    · rw [if_neg hmore, if_neg hmore]
      refine Computes.finishes ?_ tail
      refine (computes_genAll hev false operands).bind
        (onward_genAll (onward_gen env depth ρ.ctx) false operands) (fun _ vs hvs => ?_) fun _ =>
          onward_genInst _ _
      have htwo : vs.length = 2 := by
        have := evalAll_length false hvs
        omega
      match vs, htwo with
      | [y, z], _ => exact computes_operator op y z (some line)

theorem finishes_genArith (op : Op) (data : List Sexp) (line : Nat) (tail : Bool) :
    Finishes d env U F ρ tail [] (genArith env (gen env depth) ρ.ctx op data line tail)
      (evalArith d ev ρ op data) := by
  by_cases hneg : op = .sub ∧ ∃ hd e, data = [hd, e]
  · obtain ⟨rfl, hd, e, rfl⟩ := hneg
    refine Computes.finishes ?_ tail
    exact (computes_gen hev e false).bind (onward_gen env depth ρ.ctx e false false)
      (fun _ y _ => computes_negate y (some line)) fun _ => onward_genInst _ _
  · have hgen : genArith env (gen env depth) ρ.ctx op data line tail
        = genOperator env (gen env depth) ρ.ctx op data data.tail line tail
          "Expected at least 2 arguments in arithmetic operation!" := by
      unfold genArith
      split
      · exact absurd ⟨rfl, _, _, rfl⟩ hneg
      · rfl
    have heval : evalArith d ev ρ op data = evalOperator d ev ρ op data data.tail := by
      unfold evalArith
      split
      · exact absurd ⟨rfl, _, _, rfl⟩ hneg
      · rfl
    rw [hgen, heval]
    exact finishes_genOperator hset hev op data.length_tail line tail _

/-! ## Sequences -/

omit hset in
/-- The last form is generated as a tail: the function may be left where the
`do` is a tail, or nowhere. -/
theorem finishes_genDo (data : List Sexp) (tail : Bool) :
    Finishes d env U F ρ tail [] (genDo (gen env depth) ρ.ctx data) (evalDo d ev ρ data tail) := by
  have hbody := finishes_genBody (F := F) (ρ := ρ) hev depth
    (if data.tail.isEmpty then data else data.tail)
  unfold genDo evalDo
  cases tail with
  | true => exact hbody
  | false =>
      cases hcalls : d.tailCalls ρ with
      | true => exact .unsaid
      | false => exact (hbody.stays (by rw [hcalls]; rfl)).finishes false

/-! ## Expressions -/

theorem finishes_genSpecial (spe : Special) (data : List Sexp) (line : Nat) (tail : Bool) :
    Finishes d env U F ρ tail [] (genSpecial env (gen env depth) ρ.ctx spe data line tail)
      (evalSpecial d ev ρ spe data tail) := by
  cases spe with
  | «if» => exact finishes_genIf hev data line tail
  | lambda => exact (computes_genLambda hset depth data line).finishes tail
  | define => exact finishes_genDefine hset hev data line tail
  | undef => exact .unsaid
  | macroDef => exact .unsaid
  | recur => exact finishes_genRec hset hev data line tail
  | «do» => exact finishes_genDo hev data tail
  | quote => exact finishes_genQuote hset hev data tail
  | «let» => exact finishes_genLet hset hev data line tail
  | logical op => exact finishes_genOperator hset hev op data.length_tail line tail logicalError
  | greater op =>
      refine ((finishes_genOperator hset hev op ?_ line false logicalError).stays rfl).finishes tail
      rw [List.length_reverse, List.length_tail]
  | arith op => exact finishes_genArith hset hev op data line tail

omit hset hev in
theorem isSpecial_named (henv : ∀ depth, env.special depth = specialNamed) (depth : Nat)
    (data : List Sexp) : isSpecial env depth data = specialOf data := by
  unfold isSpecial specialOf
  cases data with
  | nil => rfl
  | cons e es => cases e with
    | symbol name line => exact congrFun (henv _) name
    | _ => rfl

omit hev in
theorem genMacroExpansion_error {name : Atom} {data : List Sexp} {line : Nat} {st st' : GenState}
    {e : Sexp} (h : genMacroExpansion env name data line st = .ok (e, st')) : False := by
  obtain ⟨msg, hmsg⟩ := hset.noCalls.2 st.expanded ⟨st.macros, name, data.tail, line⟩
  unfold genMacroExpansion at h
  obtain ⟨_, _, hget, h⟩ := bind_ok.mp h
  cases hget
  rw [hmsg] at h
  cases h

omit hev in
/-- A list is a special form or a call. -/
theorem genNode_sexp {g : Gen} {data : List Sexp} {line : Nat} {tail : Bool} {b : Unit}
    {st st' : GenState} (h : genNode env g ρ.ctx (.sexp data line) tail false st = .ok (b, st')) :
    (∃ spe, specialOf data = some spe
        ∧ genSpecial env g ρ.ctx spe data line tail st = .ok (b, st'))
      ∨ specialOf data = none ∧ genFunccall env g ρ.ctx data line tail st = .ok (b, st') := by
  dsimp only [genNode] at h
  rw [if_neg Bool.false_ne_true] at h
  obtain ⟨_, _, hget, h⟩ := bind_ok.mp h
  cases hget
  rw [isSpecial_named hset.noCalls.1] at h
  cases hname : isMacro env st.macros data with
  | some name =>
      rw [hname] at h
      obtain ⟨_, _, hexpand, -⟩ := bind_ok.mp h
      exact (genMacroExpansion_error hset hexpand).elim
  | none =>
      rw [hname] at h
      cases hspe : specialOf data with
      | some spe =>
          rw [hspe] at h
          exact Or.inl ⟨spe, rfl, h⟩
      | none =>
          rw [hspe] at h
          exact Or.inr ⟨rfl, h⟩

/-- **One expression**, given that its parts come out right. -/
theorem simulates_evalNode : Simulates d env U (evalNode d ev) := by
  intro depth F ρ e tail quoted
  cases depth with
  | zero => exact fun _ _ _ _ _ _ _ h => nomatch h
  | succ depth =>
      rw [gen_succ]
      cases e with
      | number n line =>
          by_cases hn : n = negativeZero
          · simp only [evalNode, if_pos hn]
            exact .unsaid
          · simp only [evalNode, if_neg hn]
            exact (computes_genConst (fun h => hn (Const.number.inj h)) line).finishes tail
      | symbol sym line =>
          dsimp only [genNode, evalNode]
          by_cases hconst : (quoted || decide (sym = nilAtom)) = true
          · have hgen : (quoted || isConstant sym) = true := by
              rcases Bool.or_eq_true_iff.mp hconst with h | h
              · rw [h, Bool.true_or]
              · rw [isConstant, of_decide_eq_true h]
                simp
            rw [if_pos hconst, if_pos hgen]
            exact (computes_genConst (c := .string sym) (by simp) line).finishes tail
          · rw [if_neg hconst]
            rw [Bool.or_eq_true, not_or, decide_eq_true_eq] at hconst
            by_cases hother : isConstant sym = true
            · rw [if_pos hother]
              exact .unsaid
            · rw [if_neg hother, if_neg (by simpa using And.intro hconst.1 hother)]
              exact (computes_genFetch hconst.2 line).finishes tail
      | sexp data line =>
          dsimp only [genNode, evalNode]
          cases quoted with
          | true => exact finishes_genList hset hev (.sexp data line) tail
          | false =>
              intro st b st' γ₀ γ s s' hm hplaced ha hy
              rcases genNode_sexp hset hm with ⟨spe, hspe, hm⟩ | ⟨hspe, hm⟩
              · rw [if_neg Bool.false_ne_true, hspe]
                exact finishes_genSpecial hset hev spe data line tail _ _ _ _ _ _ _ hm hplaced ha hy
              · rw [if_neg Bool.false_ne_true, hspe]
                exact finishes_genFunccall hset hev data line tail _ _ _ _ _ _ _ hm hplaced ha hy

end Forms

/-- **Every expression**: what `gen` makes of it does what the evaluator says,
within whatever bounds the two have on nesting. -/
theorem simulates_eval {d : Dialect} {env : GenEnv} {U : Set (List Byte)}
    (hset : Setting d env U) : ∀ fuel, Simulates d env U (d.eval fuel)
  | 0 => fun _ _ _ _ _ _ => .unsaid
  | fuel + 1 => simulates_evalNode hset (simulates_eval hset fuel)

end Saurus
