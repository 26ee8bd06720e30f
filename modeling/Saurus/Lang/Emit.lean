import Saurus.Lang.Pieces

/-!
# Instructions of a function

What is generated for constants, symbols, operators and closures, an
instruction each, and for the definition of a global. Each computes what the
program means there.
-/

namespace Saurus

open Basis Basis.Codec

section Emit

variable {d : Dialect} {env : GenEnv} {U : Set (List Byte)} {F : Func} {ρ : Env} {γ : Globals}
  {xs : List SVal} {x : Outcome SVal} {s : Vm} {st st' : GenState}

/-! ## Instructions that put a value -/

/-- The next instruction puts what `x` says in the place of `xs`. -/
def PutsNext (d : Dialect) (env : GenEnv) (U : Set (List Byte)) (F : Func) (xs : List SVal)
    (x : Outcome SVal) (s : Vm) : Prop :=
  ∃ (i : Instr) (v : List Value → Outcome Value), F.instructions[s.pc]? = some i
    ∧ i.op.IsLocal ∧ i.op.effect i.a = (xs.length, 1)
    ∧ ∀ vs, RepAll env U s.world xs vs →
      localOp d.host s.view s.world s.func s.pc i.op i.a i.b vs.reverse
          = (do pure (s.world, [← v vs], s.pc + 1))
        ∧ (x ≠ .fault → Outcome.Rel (Rep env U s.world) x (v vs))

theorem computes_puts {β : Type} {m : GenM β} {y : EvalM SVal}
    (h : ∀ st b st' γ s, m st = .ok (b, st') → st'.func.PlacedIn st.pos F →
      Active env U F ρ γ s → s.pc = st.pos → st'.pos = st.pos + 1
        ∧ (y γ = .fault ∨ ∃ x, y γ = say x γ ∧ PutsNext d env U F xs x s)) :
    Computes d env U F ρ xs m y fun z => [z] := by
  intro st b st' γ₀ γ s s' hm hplaced ha hy
  have ha' := ha.yields hy
  obtain ⟨hpos, hmeaning⟩ := h st b st' γ s' hm hplaced ha' hy.pc
  rcases hmeaning with hfault | ⟨x, hx, i, v, hi, hop, heff, hv⟩
  · exact .unsaid hfault
  · rw [hx, hpos, ← hy.pc]
    have hy' := hy
    rw [← hy.pc] at hy'
    exact ha'.puts hy' hi hop heff (fun vs hvs => (hv vs hvs).1) fun vs hvs => (hv vs hvs).2

/-- The instruction that was added is in the function. -/
theorem emit_placed {i : Instr} (hcode : st'.func.instructions = st.func.instructions ++ [i])
    (hplaced : st'.func.PlacedIn st.pos F) :
    F.instructions[st.pos]? = some i ∧ st'.pos = st.pos + 1 := by
  refine ⟨hplaced.code _ _ (Nat.le_refl _) ?_, ?_⟩
  · rw [hcode]
    exact List.getElem?_concat_length
  · change st'.func.instructions.length = _
    rw [hcode, List.length_append]
    rfl

theorem genInst_placed {i : Instr} {line : Option Nat} {b : Unit}
    (h : genInst i line st = .ok (b, st')) (hplaced : st'.func.PlacedIn st.pos F) :
    F.instructions[st.pos]? = some i ∧ st'.pos = st.pos + 1 := by
  cases h
  exact emit_placed rfl hplaced

/-! ## Constants and symbols -/

/-- A constant is pushed as it was written. -/
theorem computes_genConst {c : Const} (hc : c ≠ .number negativeZero) (line : Nat) :
    Computes d env U F ρ [] (genConst c line) (pure c.meaning) fun z => [z] := by
  refine computes_puts fun st b st' γ s hm hplaced ha hpc => ?_
  obtain ⟨k, st1, hk, hinst⟩ := bind_ok.mp hm
  obtain ⟨hi, hpos⟩ : F.instructions[st1.pos]? = some { op := .push, a := k }
      ∧ st'.pos = st1.pos + 1 := by
    refine genInst_placed hinst (hplaced.mono ?_)
    exact ((onward_pushConst c : Onward ρ.ctx _) st k st1 hk).code.length_le
  have hsame : st1.pos = st.pos := by
    rcases pushConst_ok hk with ⟨-, rfl⟩ | ⟨-, -, rfl⟩ <;> rfl
  rw [hsame] at hi hpos
  have hconst := pushConst_placed hk
    (((onward_genInst _ _ : Onward ρ.ctx _) st1 b st' hinst).const.trans hplaced.const)
    ha.here.numbers hc
  obtain ⟨v, hv, hden⟩ := ha.constants k c hconst
  refine ⟨hpos, Or.inr ⟨.ok c.meaning, rfl, _, fun _ => Outcome.ofOption s.func.constants[k]?,
    hpc ▸ hi, by simp [Op.IsLocal], rfl, fun vs hvs => ⟨rfl, fun _ => ?_⟩⟩⟩
  rw [hv]
  exact .ok hden.rep

/-- What is in a slot of the running frame. -/
theorem view_slot (ha : Active env U F ρ γ s) {i : Nat} (hi : s.base + i < s.stackTop) :
    s.view.slot i = .ok (s.stack (s.base + i)) := by
  have := ha.room
  change s.slot (s.base + i) = _
  rw [Vm.slot, decide_eq_true (by omega)]
  rfl

theorem putsNext_load {k : Nat} {z : SVal} (ha : Active env U F ρ γ s)
    (hi : F.instructions[s.pc]? = some { op := .load, a := k }) (hk : s.base + 1 + k < s.stackTop)
    (hrep : Rep env U s.world z (s.stack (s.base + 1 + k))) :
    PutsNext d env U F [] (.ok z) s := by
  refine ⟨_, fun _ => s.view.slot (k + 1), hi, by simp [Op.IsLocal], rfl, fun vs _ =>
    ⟨rfl, fun _ => ?_⟩⟩
  rw [view_slot ha (by omega), show s.base + (k + 1) = s.base + 1 + k by omega]
  exact .ok hrep

/-- A name is among the constants, so that it can be looked up. -/
theorem names_of_pushConst {sym : Atom} {k : Nat} {st1 : GenState} (ha : Active env U F ρ γ s)
    (hk : pushConst (.string sym) st = .ok (k, st1)) (hplaced : st1.func.const <+: F.const)
    (hnil : sym ≠ nilAtom) (hG : sym ≠ globalAtom) : Names s.world s.func k sym := by
  have hconst := pushConst_placed hk hplaced ha.here.numbers nofun
  obtain ⟨v, hv, hden⟩ := ha.constants k _ hconst
  refine ⟨(ha.here.fits.const _ (List.mem_of_getElem? hconst)).1, hG, v, hv, ?_⟩
  change (Datum.symbolLiteral sym).Denotes s.world v at hden
  rwa [Datum.symbolLiteral, if_neg hnil] at hden

theorem Env.fetch_local {sym : Atom} {z : SVal} (h : ρ.find? sym = some z) :
    ρ.fetch sym γ = .ok (z, γ) := by
  rw [Env.fetch, h]

theorem Env.fetch_global {sym : Atom} (h : ρ.find? sym = none) (hG : sym ≠ globalAtom) :
    ρ.fetch sym γ = say (lookupGlobal γ sym) γ := by
  rw [Env.fetch, h]
  dsimp only
  rw [if_neg hG, lookupGlobal]
  cases γ.lookup sym <;> rfl

/-- **Symbols** are fetched from the slots they have, or as globals. -/
theorem computes_genFetch {sym : Atom} (hnil : sym ≠ nilAtom) (line : Nat) :
    Computes d env U F ρ [] (genFetch ρ.ctx sym line) (ρ.fetch sym) fun z => [z] := by
  refine computes_puts fun st b st' γ s hm hplaced ha hpc => ?_
  have hlook := lookup_findLable ρ.own sym
  have houter := findUp_scopesOf sym ρ.outer 1
  have hheight := ha.height
  unfold genFetch at hm
  rw [show ρ.ctx.own.lables = ρ.own.map Prod.fst from rfl,
    show ρ.ctx.parents = scopesOf ρ.outer from rfl] at hm
  cases hown : findLable (ρ.own.map Prod.fst) sym with
  | some i =>
      -- a parameter of the function itself
      have hlt := findLable_lt hown
      rw [List.length_map] at hlt
      rw [hown] at hm hlook
      rw [Option.bind_some, List.getElem?_eq_getElem hlt] at hlook
      cases hm
      obtain ⟨hi, hpos⟩ := emit_placed rfl hplaced
      have hfind : ρ.find? sym = some (ρ.own[i]).2 := by
        rw [Env.find?, hlook]
        rfl
      refine ⟨hpos, Or.inr ⟨.ok (ρ.own[i]).2, Env.fetch_local hfind, ?_⟩⟩
      exact putsNext_load ha (hpc ▸ hi) (by omega)
        (ha.own i _ (List.getElem?_eq_getElem hlt))
  | none =>
      rw [hown] at hm hlook
      dsimp only at hm
      cases hup : findUp 1 (scopesOf ρ.outer) sym with
      | some up =>
          -- an upvalue, behind the parameters
          obtain ⟨lv, idx⟩ := up
          rw [hup] at hm houter
          obtain ⟨hle, z, hz, hat⟩ := houter
          cases hm
          have hup' : F.up[st.func.up.length]? = some (lv, idx) := by
            rw [getElem?_prefix_eq hplaced.up (by simp [FuncTable.emit])]
            exact List.getElem?_concat_length
          have hlen := (List.getElem?_eq_some_iff.mp hup').1
          have hcode : st.func.instructions.length = st.pos := rfl
          have hi := hplaced.code st.pos { op := .load, a := ρ.own.length + st.func.up.length }
            (Nat.le_refl _) (by
              rw [← hcode]
              simp [FuncTable.emit])
          have hfind : ρ.find? sym = some z := by
            rw [Env.find?, hlook]
            exact hz
          refine ⟨by simp [GenState.pos, GenState.code, FuncTable.emit], Or.inr ⟨.ok z,
            Env.fetch_local hfind, ?_⟩⟩
          refine putsNext_load ha (hpc ▸ hi) (by omega) ?_
          rw [← Nat.add_assoc]
          exact ha.ups _ _ z hup' hat
      | none =>
          -- a global
          rw [hup] at hm houter
          obtain ⟨k, st1, hk, hinst⟩ := bind_ok.mp hm
          have hsame : st1.pos = st.pos := by
            rcases pushConst_ok hk with ⟨-, rfl⟩ | ⟨-, -, rfl⟩ <;> rfl
          cases hinst
          rw [← hsame] at hplaced
          obtain ⟨hi, hpos⟩ := emit_placed rfl hplaced
          rw [hsame] at hi hpos
          have hfind : ρ.find? sym = none := by
            rw [Env.find?, hlook]
            exact houter
          refine ⟨hpos, ?_⟩
          by_cases hG : sym = globalAtom
          · refine Or.inl ?_
            rw [Env.fetch, hfind, hG]
            rfl
          · refine Or.inr ⟨_, Env.fetch_global hfind hG, _, fun _ => getGlobal s.world s.func k,
              hpc ▸ hi, by simp [Op.IsLocal], rfl, fun vs _ => ⟨rfl, fun _ => ?_⟩⟩
            exact getGlobal_rel ha.strung ha.globals
              (names_of_pushConst ha hk hplaced.const hnil hG)

/-! ## Operators -/

section Operands

variable {w : World} {y z : SVal} {u v : Value}

/-- The check of an operand, and what comes after it. -/
theorem Rep.number_bind {α β : Type} {R : α → β → Prop} (h : Rep env U w z v)
    {f : BitVec 64 → Outcome α} {g : Outcome β} (hne : (z.toNumber >>= f) ≠ .fault)
    (hfg : ∀ n, z.toNumber = .ok n → v.obj = n → v.type = .number → Outcome.Rel R (f n) g) :
    Outcome.Rel R (z.toNumber >>= f) (checkNumber v >>= fun _ => g) := by
  have ht := h.type_eq
  cases h with
  | number hn hobj =>
      rw [checkNumber, if_pos hn]
      exact hfg _ rfl hobj hn
  | other => exact absurd rfl hne
  | _ =>
      rw [checkNumber, if_neg (by simp [ht, SVal.type]), ht]
      exact Outcome.Rel.bind (.bind .rfl fun a b hab => hab ▸ .raise _) fun _ _ h => h

theorem Rep.of_number {n : BitVec 64} (ht : v.type = .number) :
    Rep env U w (.number n) ⟨v.type, n⟩ := .number ht rfl

theorem Rep.of_boolean (b : Bool) : Rep env U w (.boolean b) (asBoolean v b) :=
  .boolean rfl (objB_setObjB _ b)

variable (hy : Rep env U w y u) (hz : Rep env U w z v)
include hy hz

theorem arith_rel {f : BitVec 64 → BitVec 64 → BitVec 64} (hne : Dialect.arith f y z ≠ .fault) :
    Outcome.Rel (Rep env U w) (Dialect.arith f y z) (arithOp f u v) :=
  hy.number_bind hne fun m hm hu ht => hz.number_bind
    (by rwa [Dialect.arith, hm] at hne) fun n _ hv _ => by
      rw [hu, hv]
      exact .ok (.of_number ht)

theorem compare_rel {f : BitVec 64 → BitVec 64 → Bool} (hne : Dialect.compare f y z ≠ .fault) :
    Outcome.Rel (Rep env U w) (Dialect.compare f y z) (logOp f u v) :=
  hy.number_bind hne fun m hm hu _ => hz.number_bind
    (by rwa [Dialect.compare, hm] at hne) fun n _ hv _ => by
      rw [hu, hv]
      exact .ok (.of_boolean _)

theorem remainder_rel {h : Host} (hne : Dialect.remainder h y z ≠ .fault) :
    Outcome.Rel (Rep env U w) (Dialect.remainder h y z) (modOp h u v) :=
  hy.number_bind hne fun m hm hu ht => hz.number_bind
    (by rwa [Dialect.remainder, hm] at hne) fun n _ hv _ => by
      rw [hu, hv]
      refine .bind .rfl ?_
      rintro i _ rfl
      refine .bind .rfl ?_
      rintro j _ rfl
      exact .bind .rfl fun _ _ _ => .ok (.of_number ht)

/-- Strings are compared by their addresses. -/
theorem eq_rel (hs : w.Strung U) (hne : y.eq z ≠ .fault) :
    Outcome.Rel (Rep env U w) (y.eq z) (eqOp u v) := by
  have hty := hy.type_eq
  have htz := hz.type_eq
  have hmixed : y.eq z = (if y.type = z.type then .fault else .ok (.boolean false)) →
      Outcome.Rel (Rep env U w) (y.eq z) (eqOp u v) := by
    intro heq
    rw [heq] at hne ⊢
    by_cases ht : y.type = z.type
    · rw [if_pos ht] at hne
      exact absurd rfl hne
    · rw [if_neg ht, eqOp, if_pos (by rwa [hty, htz])]
      exact .ok (.of_boolean false)
  cases hy with
  | number hu hm =>
      cases hz with
      | number hv hn =>
          rw [eqOp, if_neg (by simp [hu, hv]), if_pos hu, hm, hn]
          exact .ok (.of_boolean _)
      | other => exact absurd rfl hne
      | _ => exact hmixed rfl
  | @string t _ hash hu hobj =>
      cases hz with
      | @string t' _ hash' hv hobj' =>
          rw [eqOp, if_neg (by simp [hu, hv]), if_neg (by simp [hu])]
          have hsame : (u.obj == v.obj) = (t == t') := by
            rw [Bool.eq_iff_iff, beq_iff_eq, beq_iff_eq]
            constructor
            · intro hobjs
              rw [Value.addr, ← hobjs] at hobj'
              have := Outcome.ok.inj (hobj.symm.trans hobj')
              exact List.append_cancel_right (Obj.string.inj this).2
            · rintro rfl
              exact BitVec.eq_of_toNat_eq (hs.same hobj hobj')
          rw [hsame]
          exact .ok (.of_boolean _)
      | other => exact absurd rfl hne
      | _ => exact hmixed rfl
  | other => exact absurd rfl hne
  | _ =>
      cases hz with
      | other => exact absurd rfl hne
      | _ => exact hmixed rfl

theorem and_rel :
    Outcome.Rel (Rep env U w) (.ok (.boolean (y.truthy && z.truthy))) (andOp u v) := by
  rw [andOp, hy.truthy_eq, hz.truthy_eq]
  exact .ok (.of_boolean _)

end Operands

/-- The two values an operator takes, the lower one first. -/
def ofTwo (f : Value → Value → Outcome Value) : List Value → Outcome Value
  | [u, v] => f u v
  | _ => .fault

def ofOne (f : Value → Outcome Value) : List Value → Outcome Value
  | [u] => f u
  | _ => .fault

theorem putsNext_binary {y z : SVal} {op : Op} {f : Value → Value → Outcome Value}
    (hi : F.instructions[s.pc]? = some { op := op }) (hlocal : op.IsLocal)
    (heff : op.effect 0 = (2, 1))
    (hop : ∀ u v, localOp d.host s.view s.world s.func s.pc op 0 0 [v, u]
      = (do pure (s.world, [← f u v], s.pc + 1)))
    (hrel : ∀ u v, Rep env U s.world y u → Rep env U s.world z v → x ≠ .fault →
      Outcome.Rel (Rep env U s.world) x (f u v)) : PutsNext d env U F [y, z] x s := by
  refine ⟨_, ofTwo f, hi, hlocal, heff, fun vs hvs => ?_⟩
  obtain ⟨u, us, hu, hus, rfl⟩ := List.forall₂_cons_left_iff.mp hvs
  obtain ⟨v, _, hv, hnil, rfl⟩ := List.forall₂_cons_left_iff.mp hus
  obtain rfl := List.forall₂_nil_left_iff.mp hnil
  exact ⟨hop u v, hrel u v hu hv⟩

/-- **Operators** compute what they mean of two values. -/
theorem computes_operator (op : Op) (y z : SVal) (line : Option Nat) :
    Computes d env U F ρ [y, z] (genInst { op := op } line) (say (d.binary op y z))
      fun r => [r] := by
  refine computes_puts fun st b st' γ s hm hplaced ha hpc => ?_
  obtain ⟨hi, hpos⟩ := genInst_placed hm hplaced
  rw [← hpc] at hi
  refine ⟨hpos, ?_⟩
  cases op with
  | add | sub | mul | div | pow =>
      exact Or.inr ⟨_, rfl, putsNext_binary hi (by simp [Op.IsLocal]) rfl (fun _ _ => rfl)
        fun u v hu hv => arith_rel hu hv⟩
  | mod =>
      exact Or.inr ⟨_, rfl, putsNext_binary hi (by simp [Op.IsLocal]) rfl (fun _ _ => rfl)
        fun u v hu hv => remainder_rel hu hv⟩
  | less | lequal =>
      exact Or.inr ⟨_, rfl, putsNext_binary hi (by simp [Op.IsLocal]) rfl (fun _ _ => rfl)
        fun u v hu hv => compare_rel hu hv⟩
  | eq =>
      exact Or.inr ⟨_, rfl, putsNext_binary hi (by simp [Op.IsLocal]) rfl (fun _ _ => rfl)
        fun u v hu hv => eq_rel hu hv ha.strung⟩
  | and =>
      exact Or.inr ⟨_, rfl, putsNext_binary hi (by simp [Op.IsLocal]) rfl (fun _ _ => rfl)
        fun u v hu hv _ => and_rel hu hv⟩
  | _ => exact Or.inl rfl

theorem computes_negate (y : SVal) (line : Option Nat) :
    Computes d env U F ρ [y] (genInst { op := .unm } line) (say (d.negate y)) fun r => [r] := by
  refine computes_puts fun st b st' γ s hm hplaced ha hpc => ?_
  obtain ⟨hi, hpos⟩ := genInst_placed hm hplaced
  rw [← hpc] at hi
  refine ⟨hpos, Or.inr ⟨_, rfl, _, ofOne (unmOp d.host), hi, by simp [Op.IsLocal], rfl,
    fun vs hvs => ?_⟩⟩
  obtain ⟨u, _, hu, hnil, rfl⟩ := List.forall₂_cons_left_iff.mp hvs
  obtain rfl := List.forall₂_nil_left_iff.mp hnil
  refine ⟨rfl, fun hne => hu.number_bind hne fun n _ hobj ht => ?_⟩
  rw [hobj]
  exact .ok (.of_number ht)

/-! ## Values that are dropped or defined -/

theorem computes_pop (y : SVal) (line : Option Nat) :
    Computes d env U F ρ [y] (genInst { op := .pop, a := 1 } line) (pure ()) fun _ => [] := by
  intro st b st' γ₀ γ s s' hm hplaced ha hy
  obtain ⟨hi, hpos⟩ := genInst_placed hm hplaced
  have ha' := ha.yields hy
  have hpc := hy.pc
  rw [← hpc] at hi hpos hy
  refine ha'.follows_local hy hi (by simp [Op.IsLocal]) rfl fun _ _ vs _ => .pure ?_
  rw [hpos]
  exact hy.replace [] .rfl ha'.strung ha'.globals .nil ha.room

/-- **Globals** are defined once, under their names. -/
theorem computes_setglobal (hset : Setting d env U) (name : Atom) (y : SVal)
    (line : Option Nat) :
    Computes d env U F ρ [y]
      (pushConst (.string name) >>= fun k => genInst { op := .setglobal, a := k } line)
      (defineGlobal name y) fun z => [z] := by
  intro st b st' γ₀ γ s s' hm hplaced ha hy
  obtain ⟨k, st1, hk, hinst⟩ := bind_ok.mp hm
  have hsame : st1.pos = st.pos := by
    rcases pushConst_ok hk with ⟨-, rfl⟩ | ⟨-, -, rfl⟩ <;> rfl
  obtain ⟨hi, hpos⟩ := genInst_placed hinst (hsame.symm ▸ hplaced)
  rw [hsame] at hi hpos
  have ha' := ha.yields hy
  have hpc := hy.pc
  rw [← hpc] at hi hpos hy
  by_cases hno : name = globalAtom ∨ name = nilAtom
  · exact .unsaid (by rw [defineGlobal, if_pos hno])
  have hmeaning : defineGlobal name y γ
      = (extendGlobals γ name y >>= fun γ' => .ok (y, γ')) := by
    rw [defineGlobal, if_neg hno, extendGlobals]
    split <;> rfl
  have hname := names_of_pushConst ha' hk
    (((onward_genInst _ _ : Onward ρ.ctx _) st1 b st' hinst).const.trans hplaced.const)
    (fun h => hno (Or.inr h)) fun h => hno (Or.inl h)
  rw [hmeaning]
  refine ha'.follows_local hy hi (by simp [Op.IsLocal]) rfl fun _ hspare vs hvs => ?_
  obtain ⟨v, _, hv, hnil, rfl⟩ := List.forall₂_cons_left_iff.mp hvs
  obtain rfl := List.forall₂_nil_left_iff.mp hnil
  rw [Vm.demand, (ha'.fetch hi).2] at hspare
  have hrel := setGlobal_rel hset.hashed hset.globalName ha'.strung ha'.globals hname hv hspare
  have hmap : (s'.replace [y].length <$> localOp d.host s'.view s'.world s'.func s'.pc .setglobal k
        0 [v].reverse)
      = (fun w => s'.replace [y].length (w, [v], s'.pc + 1)) <$> setGlobal s'.world s'.func k
        (.ok v) := by
    change (_ <$> (setGlobal s'.world s'.func k (.ok v) >>= _)) = _
    cases setGlobal s'.world s'.func k (.ok v) <;> rfl
  rw [hmap]
  have htop : s.stackTop + 1 ≤ stackSize := by
    have := hy.top
    have := hy.room
    rw [List.length_singleton] at *
    omega
  have hfrom : (Vm.loop d.host).FollowsFrom (Vm.Full d.host) (extendGlobals γ name y)
      (fun γ' s'' => s.Yields env U (s'.pc + 1) γ' [y] s'')
      ((fun w => s'.replace [y].length (w, [v], s'.pc + 1)) <$> setGlobal s'.world s'.func k
        (.ok v)) :=
    .of_rel (fun _ => hrel) fun γ' w _ h =>
      hy.replace [v] h.1 h.2.1 h.2.2 (.cons (hv.remains h.1) .nil) htop
  refine hfrom.bind fun γ' s'' _ hP => .pure ?_
  rwa [hpos]

/-! ## Closures -/

/-- Elements that are all symbols, or errors. -/
theorem mapM_symbols {f : Sexp → GenM Atom}
    (hf : ∀ e st l st', f e st = .ok (l, st') → e.symbol? = some l) :
    ∀ {es : List Sexp} {st st' : GenState} {ls : List Atom}, es.mapM f st = .ok (ls, st') →
      es.mapM Sexp.symbol? = some ls
  | [], _, _, _, h => by
      cases h
      rfl
  | e :: es, st, st', ls, h => by
      rw [List.mapM_cons] at h
      obtain ⟨l, st1, hl, h⟩ := bind_ok.mp h
      obtain ⟨ls', st2, hrest, h⟩ := bind_ok.mp h
      cases h
      rw [List.mapM_cons, hf e st l st1 hl, mapM_symbols hf hrest]
      rfl

theorem lambdaArgs_params {args : Sexp} {r : List Atom × Int}
    (h : lambdaArgs args st = .ok (r, st')) : lambdaParams args = some r := by
  cases args with
  | number n line => cases h
  | symbol lable line =>
      cases h
      rfl
  | sexp data line =>
      obtain ⟨lables, st1, hlables, h⟩ := bind_ok.mp h
      cases h
      have hsymbols := mapM_symbols (fun e st l st' hl => by
        cases he : e.symbol? with
        | none =>
            rw [he] at hl
            cases hl
        | some lable =>
            rw [he] at hl
            cases hl
            rfl) hlables
      rw [lambdaParams, hsymbols]
      rfl

theorem length_of_mapM {α β : Type} {f : α → Option β} : ∀ {as : List α} {bs : List β},
    as.mapM f = some bs → bs.length = as.length
  | [], _, h => by
      cases h
      rfl
  | a :: as, bs, h => by
      rw [List.mapM_cons] at h
      obtain ⟨b, -, h⟩ := Option.bind_eq_some_iff.mp h
      obtain ⟨bs', hbs, h⟩ := Option.bind_eq_some_iff.mp h
      cases h
      rw [List.length_cons, List.length_cons, length_of_mapM hbs]

theorem lambdaParams_counts {args : Sexp} {lables : List Atom} {numArgs : Int}
    (h : lambdaParams args = some (lables, numArgs)) :
    if numArgs < 0 then lables.length = 1 else numArgs = lables.length := by
  cases args with
  | number n line => cases h
  | symbol lable line =>
      cases h
      rfl
  | sexp data line =>
      obtain ⟨ls, hls, heq⟩ := Option.map_eq_some_iff.mp h
      cases heq
      rw [if_neg (by omega), length_of_mapM hls]

/-- The parts of a `lambda` that is generated. -/
theorem genLambda_parts {g : Gen} {ctx : Ctx} {data : List Sexp} {line : Nat}
    (h : genLambda g ctx data line st = .ok ((), st')) :
    ∃ hd args e es lables numArgs body, data = hd :: args :: e :: es
      ∧ lambdaParams args = some (lables, numArgs)
      ∧ genBody g ⟨⟨lables, false⟩, ctx.own :: ctx.parents⟩ (e :: es) { st with func := {} }
        = .ok ((), body)
      ∧ st' = { body with func := st.func.closure body.function numArgs line } := by
  rcases data with _ | ⟨hd, _ | ⟨args, _ | ⟨e, es⟩⟩⟩
  case nil => cases h
  case cons.nil => cases h
  case cons.cons.nil => cases h
  case cons.cons.cons =>
    unfold genLambda at h
    rw [if_neg (by simp)] at h
    obtain ⟨⟨lables, numArgs⟩, st1, hargs, hrest⟩ := bind_ok.mp h
    obtain rfl := lambdaArgs_state hargs
    obtain ⟨func, _, hfunc, hrest⟩ := bind_ok.mp hrest
    cases hfunc
    obtain ⟨_, _, hempty, hrest⟩ := bind_ok.mp hrest
    cases hempty
    obtain ⟨_, body, hbody, hrest⟩ := bind_ok.mp hrest
    refine ⟨hd, args, e, es, lables, numArgs, body, rfl, lambdaArgs_params hargs, hbody, ?_⟩
    cases hrest
    rfl

/-- The variables of a function that is made are slots of the one around it. -/
theorem captureAll_own (ha : Active env U F ρ γ s) : ∀ {us : List (Nat × Nat)},
    (∀ u ∈ us, u.1 = 1 ∧ u.2 < ρ.own.length ∧ u.2 < 2 ^ 16) →
    captureAll s.capture (us.map asUp)
      = .ok (us.map fun u => s.stack (s.base + 1 + u.2))
  | [], _ => rfl
  | u :: us, h => by
      obtain ⟨h1, hlt, hfits⟩ := h u List.mem_cons_self
      have hheight := ha.height
      have hroom := ha.room
      have hlevel := ha.level
      have hrun := ha.running
      have hlv : (asUp u).lv.toNat = 1 := by
        rw [asUp, h1]
        rfl
      have hidx : (asUp u).idx.toNat = u.2 := by
        rw [asUp, BitVec.toNat_ofNat, Nat.mod_eq_of_lt hfits]
      have hcap : s.capture (asUp u) = .ok (s.stack (s.base + 1 + u.2)) := by
        rw [Vm.capture, hlv, hidx, decide_eq_true (by omega), Outcome.require_true,
          Outcome.ok_bind]
        change s.slot (s.base + u.2 + 1) = _
        rw [Vm.slot, decide_eq_true (by omega), Nat.add_right_comm]
        rfl
      rw [List.map_cons, captureAll, hcap, Outcome.ok_bind,
        captureAll_own ha fun u hu => h u (List.mem_cons_of_mem _ hu)]
      rfl

/-- **Closures** keep the scopes around them. -/
theorem computes_genLambda (hset : Setting d env U) (depth : Nat) (data : List Sexp)
    (line : Nat) :
    Computes d env U F ρ [] (genLambda (gen env depth) ρ.ctx data line) (evalLambda ρ data)
      fun z => [z] := by
  intro st b st' γ₀ γ s s' hm hplaced ha hy
  obtain ⟨hd, args, e, es, lables, numArgs, body, rfl, hparams, hbody, rfl⟩ := genLambda_parts hm
  have hmeaning : evalLambda ρ (hd :: args :: e :: es)
      = pure (.closure lables numArgs (e :: es) (ρ.own :: ρ.outer)) := by
    rw [evalLambda, hparams]
  have ha' := ha.yields hy
  -- where the prototype and the instruction are
  have hat : F.prot[st.func.prot.length]? = some body.function := by
    rw [getElem?_prefix_eq hplaced.prot (by simp [FuncTable.closure, FuncTable.emit])]
    exact List.getElem?_concat_length
  obtain ⟨hi, hpos⟩ : F.instructions[st.pos]?
        = some { op := .lambda, a := st.func.prot.length, b := numArgs }
      ∧ GenState.pos { body with func := st.func.closure body.function numArgs line }
        = st.pos + 1 :=
    emit_placed rfl hplaced
  have htame := ha.tame.of_prot (List.mem_of_getElem? hat)
  have hthis : Tame U body.function := by
    revert htame
    cases body.function
    exact fun h => h.1
  -- its variables
  have hsees : ∀ u ∈ body.function.up, u.1 = 1 ∧ u.2 < ρ.own.length ∧ u.2 < 2 ^ 16 := by
    intro u hu
    have hbegins := onward_genBody (onward_gen env depth _) (e :: es) _ _ _ hbody
    obtain ⟨-, scope, hscope, hlt⟩ := hbegins.sees (fun _ h => by cases h) u hu
    have hnear := hthis.near u hu
    rw [hnear] at hscope
    cases hscope
    rw [show ρ.ctx.own.lables = ρ.own.map Prod.fst from rfl, List.length_map] at hlt
    exact ⟨hnear, hlt, (hthis.fits.up u hu).2⟩
  rw [hmeaning]
  have hpc := hy.pc
  rw [← hpc] at hi hpos hy
  refine ha'.follows_local hy hi (by simp [Op.IsLocal]) rfl fun hroom hspare vs hvs => ?_
  obtain rfl := List.forall₂_nil_left_iff.mp hvs
  have hprot : s'.func.prot.prot[st.func.prot.length]? = some (asProto body.function) := by
    rw [ha'.prot, prot_asProto, List.getElem?_map, hat]
    rfl
  rw [Vm.demand, (ha'.fetch hi).2] at hspare
  dsimp only at hspare
  rw [hprot, Option.map_some, Option.getD_some, constants_asProto, List.length_map] at hspare
  obtain ⟨w, v, fn, hrun, hw, ht, hobj, hnarg, hfn, hconst, hups⟩ :=
    lambda_makes d.host.junk hset.hashed ha'.strung hthis ha'.globals.hasMap hspare
      numArgs (captureAll_own ha' hsees)
  have hlocal : localOp d.host s'.view s'.world s'.func s'.pc .lambda st.func.prot.length numArgs
      [] = .ok (w, [v], s'.pc + 1) := by
    change (Outcome.ofOption _ >>= _) = _
    rw [hprot, Outcome.ofOption_some, Outcome.ok_bind]
    change (lambda d.host.junk s'.world (asProto body.function) numArgs s'.capture >>= _) = _
    rw [hrun]
    rfl
  rw [List.reverse_nil, hlocal]
  refine .pure ?_
  rw [hpos]
  have htop : s.stackTop + 1 ≤ stackSize := by
    have := hy.top
    have := hroom.push _ _ _ (ha'.fetch hi).2 (by simp [Op.effect])
    rw [List.length_nil] at *
    omega
  refine hy.replace [v] hw.remains hw.strung (ha'.globals.goesOn ha'.strung hw) (.cons ?_ .nil) htop
  refine .closure ht hobj ⟨⟨depth, st, body, hbody, rfl⟩, List.cons_ne_nil _ _, htame, hfn, hnarg,
    lambdaParams_counts hparams, hconst, by rw [hups, List.length_map]⟩ ?_
  intro k u x y hu hx hyk
  rw [hups, List.getElem?_map, hu] at hyk
  cases hyk
  obtain ⟨hnear, -, -⟩ := hsees u (List.mem_of_getElem? hu)
  rw [upvalueIn, hnear] at hx
  obtain ⟨p, hp, rfl⟩ := Option.map_eq_some_iff.mp (show ρ.own[u.2]?.map Prod.snd = some x from hx)
  exact (ha'.own _ p hp).remains hw.remains

end Emit

end Saurus
