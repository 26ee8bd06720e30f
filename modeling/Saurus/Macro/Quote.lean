import Saurus.Macro.Rebuild

/-!
# The code of a quote

`gen_quote` makes code that builds the datum: a `PUSH` for an atom, and for a
list the global `list`, the elements and a `CALL` (`QuoteAt`). That code is
found in the finished function with the operands it was made with
(`quote_generated`).
-/

namespace Saurus

open Basis Basis.Codec

def listAtom : Atom := atom ['l', 'i', 's', 't']

def quoteAtom : Atom := atom ['q', 'u', 'o', 't', 'e']

def unquoteAtom : Atom := atom ['u', 'n', 'q', 'u', 'o', 't', 'e']

/-! ## The code -/

/-- The operand `push_const` returns for `k`, in a table that has come to be
`K`: NaN is unequal to itself and has a new place every time. -/
def Picks (K : List Const) (k : Const) (a : Nat) : Prop :=
  (K.findIdx? fun v => constEq v k) = some a ∨ K[a]? = some k ∧ constEq k k = false

mutual

/-- From `lo` to `hi` is the code that builds the datum, with `op` for the
outermost call. -/
def QuoteAt (code : List Instr) (K : List Const) (op : Op) : Datum → Nat → Nat → Prop
  | .number n, lo, hi => hi = lo + 1
      ∧ ∃ a, Picks K (.number n) a ∧ code[lo]? = some { op := .push, a := a }
  | .symbol s, lo, hi => hi = lo + 1
      ∧ ∃ a, Picks K (.string s) a ∧ code[lo]? = some { op := .push, a := a }
  | .list ds, lo, hi => ∃ a mid, hi = mid + 1 ∧ Picks K (.string listAtom) a
      ∧ code[lo]? = some { op := .getglobal, a := a } ∧ QuoteAllAt code K ds (lo + 1) mid
      ∧ code[mid]? = some { op := op, a := ds.length }

def QuoteAllAt (code : List Instr) (K : List Const) : List Datum → Nat → Nat → Prop
  | [], lo, hi => hi = lo
  | d :: ds, lo, hi => ∃ mid, QuoteAt code K .call d lo mid ∧ QuoteAllAt code K ds mid hi

end

namespace Datum

mutual

/-- No list is empty, and none is an unquote form. -/
def Quotable : Datum → Prop
  | .number _ => True
  | .symbol _ => True
  | .list ds => ds ≠ [] ∧ ds.head? ≠ some (.symbol unquoteAtom) ∧ QuotableAll ds

def QuotableAll : List Datum → Prop
  | [] => True
  | d :: ds => d.Quotable ∧ QuotableAll ds

end

mutual

/-- How many instructions build the datum. -/
def codeLength : Datum → Nat
  | .number _ => 1
  | .symbol _ => 1
  | .list ds => codeLengthAll ds + 2

def codeLengthAll : List Datum → Nat
  | [] => 0
  | d :: ds => d.codeLength + codeLengthAll ds

end

end Datum

/-! ## What is kept -/

theorem Picks.grown {K K' : List Const} {k : Const} {a : Nat} (h : Picks K k a)
    (hK : K <+: K') : Picks K' k a := by
  obtain ⟨r, rfl⟩ := hK
  rcases h with h | ⟨h, hne⟩
  · left
    rw [List.findIdx?_append, h]
    rfl
  · exact Or.inr ⟨by rw [List.getElem?_append_left (List.getElem?_eq_some_iff.mp h).1, h], hne⟩

/-- All of the code and the constants is there, but for the targets of
branches. -/
structure CodeKept (code code' : List Instr) (K K' : List Const) : Prop where
  code : ∀ (pc : Nat) (op : Op) (a : Nat), op ≠ .test → op ≠ .jmp →
    code[pc]? = some { op := op, a := a } → code'[pc]? = some { op := op, a := a }
  const : K <+: K'

theorem CodeKept.of_grown {code code' : List Instr} {K K' : List Const} (hcode : code <+: code')
    (hK : K <+: K') : CodeKept code code' K K' := by
  refine ⟨fun pc op a _ _ hat => ?_, hK⟩
  rw [getElem?_prefix_eq hcode (List.getElem?_eq_some_iff.mp hat).1, hat]

theorem FuncTable.KeptIn.codeKept {f : FuncTable} {F : Func} (h : f.KeptIn F) :
    CodeKept f.instructions F.instructions f.const F.const := by
  refine ⟨fun pc op a htest hjmp hat => ?_, h.const⟩
  obtain ⟨j, hj, rfl | ⟨hop, -⟩⟩ := h.code pc _ hat
  · exact hj
  · exact absurd hop (not_or.mpr ⟨htest, hjmp⟩)

mutual

theorem QuoteAt.keep {code code' : List Instr} {K K' : List Const}
    (hkept : CodeKept code code' K K') {op : Op} (htest : op ≠ .test) (hjmp : op ≠ .jmp) :
    ∀ {d : Datum} {lo hi : Nat}, QuoteAt code K op d lo hi → QuoteAt code' K' op d lo hi
  | .number _, _, _, ⟨hhi, a, ha, hat⟩ =>
      ⟨hhi, a, ha.grown hkept.const, hkept.code _ _ _ nofun nofun hat⟩
  | .symbol _, _, _, ⟨hhi, a, ha, hat⟩ =>
      ⟨hhi, a, ha.grown hkept.const, hkept.code _ _ _ nofun nofun hat⟩
  | .list _, _, _, ⟨a, mid, hhi, ha, hat, hall, hcall⟩ =>
      ⟨a, mid, hhi, ha.grown hkept.const, hkept.code _ _ _ nofun nofun hat,
        quoteAllAt_keep hkept hall, hkept.code _ _ _ htest hjmp hcall⟩

theorem quoteAllAt_keep {code code' : List Instr} {K K' : List Const}
    (hkept : CodeKept code code' K K') :
    ∀ {ds : List Datum} {lo hi : Nat}, QuoteAllAt code K ds lo hi → QuoteAllAt code' K' ds lo hi
  | [], _, _, h => h
  | _ :: _, _, _, ⟨mid, hd, hds⟩ =>
      ⟨mid, hd.keep hkept (by decide) (by decide), quoteAllAt_keep hkept hds⟩

end

/-! ## What is generated -/

/-- No function in scope has a lable `list`. -/
def Ctx.NoList (ctx : Ctx) : Prop :=
  findLable ctx.own.lables listAtom = none ∧ findUp 1 ctx.parents listAtom = none

/-- From `st` to `st'` the code that builds the datum was added. -/
structure QuoteMade (st st' : GenState) (op : Op) (d : Datum) : Prop where
  code : st.code <+: st'.code
  const : st.func.const <+: st'.func.const
  made : QuoteAt st'.code st'.func.const op d st.pos st'.pos

theorem pushConst_picks {k : Const} {st st' : GenState} {a : Nat}
    (h : pushConst k st = .ok (a, st')) :
    Picks st'.func.const k a ∧ st'.code = st.code ∧ st.func.const <+: st'.func.const := by
  rcases pushConst_ok h with ⟨hfound, rfl⟩ | ⟨hnone, rfl, rfl⟩
  · exact ⟨Or.inl hfound, rfl, List.prefix_rfl⟩
  · refine ⟨?_, rfl, List.prefix_append ..⟩
    cases hk : constEq k k with
    | false => exact Or.inr ⟨List.getElem?_concat_length, hk⟩
    | true =>
        left
        rw [List.findIdx?_append, hnone]
        simp [List.findIdx?_cons, hk]

/-- An instruction with a constant. -/
theorem emit_made {k : Const} {st st0 st' : GenState} {a line : Nat} {op : Op}
    (h : pushConst k st = .ok (a, st0))
    (hst' : st'.func = st0.func.emit { op := op, a := a } line) :
    st.code <+: st'.code ∧ st.func.const <+: st'.func.const ∧ st'.pos = st.pos + 1
      ∧ Picks st'.func.const k a ∧ st'.code[st.pos]? = some { op := op, a := a } := by
  obtain ⟨hpicks, hcode, hconst⟩ := pushConst_picks h
  have hcode' : st'.code = st.code ++ [{ op := op, a := a }] := by
    rw [← hcode, GenState.code, hst']
    rfl
  have hconst' : st'.func.const = st0.func.const := by rw [hst']; rfl
  refine ⟨hcode' ▸ List.prefix_append .., hconst' ▸ hconst, ?_, hconst' ▸ hpicks, ?_⟩
  · rw [GenState.pos, hcode', List.length_append]
    rfl
  · rw [hcode']
    exact List.getElem?_concat_length

theorem callOrTail_ok {env : GenEnv} {ctx : Ctx} {tail : Bool} {line : Option Nat} {n : Nat}
    {st st' : GenState} (h : callOrTail env ctx tail line n st = .ok ((), st')) :
    ∃ op, (op = .call ∨ op = .tcall ∧ tail = true) ∧ st'.code = st.code ++ [{ op := op, a := n }]
      ∧ st'.func.const = st.func.const := by
  cases h
  cases tail with
  | false => exact ⟨.call, Or.inl rfl, rfl, rfl⟩
  | true =>
      refine ⟨_, ?_, rfl, rfl⟩
      split
      · exact Or.inr ⟨rfl, rfl⟩
      · exact Or.inl rfl

theorem genFetch_list {ctx : Ctx} (hctx : ctx.NoList) {line : Nat} {st st' : GenState}
    (h : genFetch ctx listAtom line st = .ok ((), st')) :
    ∃ a st0, pushConst (.string listAtom) st = .ok (a, st0)
      ∧ st'.func = st0.func.emit { op := .getglobal, a := a } line := by
  rw [genFetch, hctx.1] at h
  dsimp only at h
  rw [hctx.2] at h
  obtain ⟨a, st0, hpush, h⟩ := bind_ok.mp h
  cases h
  exact ⟨a, st0, hpush, rfl⟩

/-- The elements, each with the code that builds it. -/
theorem genAll_made {g : Gen} {ctx : Ctx}
    (hg : ∀ e st st', g ctx e false true st = .ok ((), st') → e.datum.Quotable →
      QuoteMade st st' .call e.datum) :
    ∀ {es : List Sexp} {st st' : GenState}, genAll g ctx true es st = .ok ((), st') →
      Datum.QuotableAll (Sexp.data es) → st.code <+: st'.code
        ∧ st.func.const <+: st'.func.const
        ∧ QuoteAllAt st'.code st'.func.const (Sexp.data es) st.pos st'.pos
  | [], st, st', h, _ => by
      cases h
      exact ⟨List.prefix_rfl, List.prefix_rfl, rfl⟩
  | e :: es, st, st', h, hq => by
      obtain ⟨_, st1, he, h⟩ := bind_ok.mp h
      have hmade := hg e st st1 he hq.1
      obtain ⟨hcode, hconst, hall⟩ := genAll_made hg h hq.2
      refine ⟨hmade.code.trans hcode, hmade.const.trans hconst, st1.pos, ?_, hall⟩
      exact hmade.made.keep (.of_grown hcode hconst) (by decide) (by decide)

/-- A list is made of its elements. -/
theorem genList_made {env : GenEnv} {g : Gen} {ctx : Ctx} (hctx : ctx.NoList)
    (hg : ∀ e st st', g ctx e false true st = .ok ((), st') → e.datum.Quotable →
      QuoteMade st st' .call e.datum) {data : List Sexp} {line : Nat} {tail : Bool}
    {st st' : GenState} (h : genList env g ctx (.sexp data line) tail st = .ok ((), st'))
    (hq : (Sexp.sexp data line).datum.Quotable) :
    ∃ op, (op = .call ∨ op = .tcall ∧ tail = true)
      ∧ QuoteMade st st' op (Sexp.sexp data line).datum := by
  obtain ⟨hne, hhead, hall⟩ := hq
  cases data with
  | nil => exact absurd rfl hne
  | cons e es =>
      have hunquote : e.symbol? ≠ some (atom ['u', 'n', 'q', 'u', 'o', 't', 'e']) := by
        intro heq
        cases e <;> cases heq
        exact hhead rfl
      unfold genList at h
      dsimp only at h
      rw [if_neg hunquote] at h
      obtain ⟨_, st1, hfetch, h⟩ := bind_ok.mp h
      obtain ⟨_, st2, hargs, h⟩ := bind_ok.mp h
      obtain ⟨a, st0, hpush, hst1⟩ := genFetch_list hctx hfetch
      obtain ⟨hcode1, hconst1, hpos1, hpicks, hat⟩ := emit_made hpush hst1
      obtain ⟨hcode2, hconst2, hargs⟩ := genAll_made hg hargs hall
      obtain ⟨op, hop, hcode3, hconst3⟩ := callOrTail_ok h
      have hcode3' : st2.code <+: st'.code := hcode3 ▸ List.prefix_append ..
      have hkept : CodeKept st2.code st'.code st2.func.const st'.func.const :=
        .of_grown hcode3' (hconst3 ▸ List.prefix_rfl)
      refine ⟨op, hop, hcode1.trans (hcode2.trans hcode3'),
        hconst1.trans (hconst2.trans hkept.const), a, st2.pos, ?_, ?_, ?_, ?_, ?_⟩
      · rw [GenState.pos, hcode3, List.length_append]
        rfl
      · exact hpicks.grown (hconst2.trans hkept.const)
      · exact hkept.code _ _ _ nofun nofun
          ((CodeKept.of_grown hcode2 hconst2).code _ _ _ nofun nofun hat)
      · exact hpos1 ▸ quoteAllAt_keep hkept hargs
      · rw [hcode3, Sexp.data, List.length_cons, data_eq_map, List.length_map]
        exact List.getElem?_concat_length

/-- Quoted, an expression is generated as the code that builds it. -/
theorem gen_quoted {env : GenEnv} {ctx : Ctx} (hctx : ctx.NoList) : ∀ (depth : Nat) (e : Sexp)
    (tail : Bool) (st st' : GenState), gen env depth ctx e tail true st = .ok ((), st') →
      e.datum.Quotable → ∃ op, (op = .call ∨ op = .tcall ∧ tail = true)
        ∧ QuoteMade st st' op e.datum
  | 0, _, _, _, _, h, _ => nomatch h
  | depth + 1, e, tail, st, st', h, hq => by
      cases e with
      | number n line =>
          obtain ⟨a, st0, hpush, hst'⟩ := genConst_ok h
          obtain ⟨hcode, hconst, hpos, hpicks, hat⟩ := emit_made hpush hst'
          exact ⟨.call, Or.inl rfl, hcode, hconst, hpos, a, hpicks, hat⟩
      | symbol s line =>
          obtain ⟨a, st0, hpush, hst'⟩ := genConst_ok h
          obtain ⟨hcode, hconst, hpos, hpicks, hat⟩ := emit_made hpush hst'
          exact ⟨.call, Or.inl rfl, hcode, hconst, hpos, a, hpicks, hat⟩
      | sexp data line =>
          refine genList_made hctx (fun e st st' h hq => ?_) h hq
          obtain ⟨op, rfl | ⟨-, htail⟩, hmade⟩ := gen_quoted hctx depth e false st st' h hq
          · exact hmade
          · cases htail

end Saurus
