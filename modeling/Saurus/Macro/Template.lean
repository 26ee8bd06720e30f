import Saurus.Macro.Build

/-!
# Quotes with expressions in them

`gen_list` makes the code of a list of a call of `list`, which it resolves as
it does every symbol, and of the code of the elements; under `unquote` it
hands back to `gen`. What it makes of an expression is a `Template`, in which
the expressions under `unquote` are holes. The code of a template is made of
the code of its holes, in the scope of the quote, and of what `QuoteAt` has
besides, with whatever `list` comes to in that scope (`gen_template`).
-/

namespace Saurus

open Basis Basis.Codec

/-! ## Templates -/

/-- What a quote builds; a hole is an expression under `unquote`. -/
inductive Template where
  | number (n : BitVec 64)
  | symbol (a : Atom)
  | list (ts : List Template)
  | hole (e : Sexp)

/-- The expression in a list that begins with `unquote`. -/
def Sexp.unquoted? : List Sexp → Option Sexp
  | .symbol a _ :: e :: _ => if a = unquoteAtom then some e else none
  | _ => none

theorem Sexp.unquoted?_hole {d e : Sexp} {es : List Sexp} (h : d.symbol? = some unquoteAtom) :
    Sexp.unquoted? (d :: e :: es) = some e := by
  cases d with
  | number | sexp => cases h
  | symbol a line => exact if_pos (Option.some.inj h)

theorem Sexp.unquoted?_list {d : Sexp} {ds : List Sexp} (h : d.symbol? ≠ some unquoteAtom) :
    Sexp.unquoted? (d :: ds) = none := by
  cases d with
  | number | sexp => rfl
  | symbol a line =>
      cases ds with
      | nil => rfl
      | cons e es => exact if_neg fun ha => h (congrArg some ha)

mutual

/-- What is built of an expression under `quote`. -/
def Sexp.template : Sexp → Template
  | .number n _ => .number n
  | .symbol a _ => .symbol a
  | .sexp data _ => match Sexp.unquoted? data with
    | some e => .hole e
    | none => .list (Sexp.templates data)

def Sexp.templates : List Sexp → List Template
  | [] => []
  | e :: es => e.template :: Sexp.templates es

end

theorem length_templates : ∀ es : List Sexp, (Sexp.templates es).length = es.length
  | [] => rfl
  | _ :: es => congrArg (· + 1) (length_templates es)

mutual

/-- A template without holes. -/
def Datum.template : Datum → Template
  | .number n => .number n
  | .symbol a => .symbol a
  | .list ds => .list (Datum.templates ds)

def Datum.templates : List Datum → List Template
  | [] => []
  | d :: ds => d.template :: Datum.templates ds

end

namespace Datum

theorem template_ne_hole (d : Datum) (e : Sexp) : d.template ≠ .hole e := by
  cases d with
  | number n => exact fun h => Template.noConfusion h
  | symbol a => exact fun h => Template.noConfusion h
  | list ds => exact fun h => Template.noConfusion h

mutual

/-- No list in the datum is an unquote form. -/
def Plain : Datum → Prop
  | .number _ => True
  | .symbol _ => True
  | .list ds => ds.head? ≠ some (.symbol unquoteAtom) ∧ PlainAll ds

def PlainAll : List Datum → Prop
  | [] => True
  | d :: ds => d.Plain ∧ PlainAll ds

end

mutual

/-- No list in the datum is empty. -/
def Full : Datum → Prop
  | .number _ => True
  | .symbol _ => True
  | .list ds => ds ≠ [] ∧ FullAll ds

def FullAll : List Datum → Prop
  | [] => True
  | d :: ds => d.Full ∧ FullAll ds

end

mutual

/-- How deep the lists of the datum go, its atoms included. -/
def levels : Datum → Nat
  | .number _ => 1
  | .symbol _ => 1
  | .list ds => levelsAll ds + 1

def levelsAll : List Datum → Nat
  | [] => 0
  | d :: ds => max d.levels (levelsAll ds)

end

mutual

theorem Plain.quotable : ∀ {d : Datum}, d.Plain → d.Full → d.Quotable
  | .number _, _, _ => trivial
  | .symbol _, _, _ => trivial
  | .list _, h, hf => ⟨hf.1, h.1, plainAll_quotable h.2 hf.2⟩

theorem plainAll_quotable : ∀ {ds : List Datum}, PlainAll ds → FullAll ds → QuotableAll ds
  | [], _, _ => trivial
  | _ :: _, h, hf => ⟨h.1.quotable hf.1, plainAll_quotable h.2 hf.2⟩

end

end Datum

theorem Sexp.symbol?_plain {d : Sexp} {ds : List Sexp}
    (h : (Sexp.data (d :: ds)).head? ≠ some (.symbol unquoteAtom)) :
    d.symbol? ≠ some unquoteAtom := by
  intro hd
  cases d with
  | number | sexp => cases hd
  | symbol a line => exact h (congrArg (some ∘ Datum.symbol) (Option.some.inj hd))

theorem Sexp.unquoted?_plain {data : List Sexp}
    (h : (Sexp.data data).head? ≠ some (.symbol unquoteAtom)) : Sexp.unquoted? data = none := by
  cases data with
  | nil => rfl
  | cons d ds => exact Sexp.unquoted?_list (Sexp.symbol?_plain h)

mutual

/-- Where there is no unquote form, the template is the datum. -/
theorem template_plain : ∀ {e : Sexp}, e.datum.Plain → e.template = e.datum.template
  | .number _ _, _ => rfl
  | .symbol _ _, _ => rfl
  | .sexp data line, h => by
      rw [Sexp.template, Sexp.unquoted?_plain h.1]
      exact congrArg Template.list (templates_plain h.2)

theorem templates_plain : ∀ {es : List Sexp}, Datum.PlainAll (Sexp.data es) →
    Sexp.templates es = Datum.templates (Sexp.data es)
  | [], _ => rfl
  | _ :: _, h => congr (congrArg List.cons (template_plain h.1)) (templates_plain h.2)

end

/-! ## The code -/

section Code

variable (code : List Instr) (K : List Const) (fetch : Nat → Prop)
  (hole : Sexp → Nat → Nat → Prop)

mutual

/-- From `lo` to `hi` is the code that builds the template, with `fetch` for
where `list` is pushed and `hole` for the code of the holes. -/
def TemplateAt (op : Op) : Template → Nat → Nat → Prop
  | .number n, lo, hi => hi = lo + 1
      ∧ ∃ a, Picks K (.number n) a ∧ code[lo]? = some { op := .push, a := a }
  | .symbol s, lo, hi => hi = lo + 1
      ∧ ∃ a, Picks K (.string s) a ∧ code[lo]? = some { op := .push, a := a }
  | .list ts, lo, hi => ts ≠ [] ∧ ∃ mid, hi = mid + 1 ∧ fetch lo ∧ TemplatesAt ts (lo + 1) mid
      ∧ code[mid]? = some { op := op, a := ts.length }
  | .hole e, lo, hi => hole e lo hi

def TemplatesAt : List Template → Nat → Nat → Prop
  | [], lo, hi => hi = lo
  | t :: ts, lo, hi => ∃ mid, TemplateAt .call t lo mid ∧ TemplatesAt ts mid hi

end

end Code

instance (ctx : Ctx) : Decidable ctx.NoList := inferInstanceAs (Decidable (_ ∧ _))

/-- `list` is pushed as a global. -/
def GetsList (code : List Instr) (K : List Const) (lo : Nat) : Prop :=
  ∃ a, Picks K (.string listAtom) a ∧ code[lo]? = some { op := .getglobal, a := a }

/-- `list` is pushed as a variable. -/
def LoadsList (code : List Instr) (lo : Nat) : Prop :=
  ∃ a, code[lo]? = some { op := .load, a := a }

/-- What `gen_fetch` makes of `list`. -/
def FetchesList (ctx : Ctx) (code : List Instr) (K : List Const) (lo : Nat) : Prop :=
  if ctx.NoList then GetsList code K lo else LoadsList code lo

/-- From `lo` to `hi` is what was generated for `e`, as an expression in the
scope `ctx`. -/
def GeneratedAt (env : GenEnv) (ctx : Ctx) (code : List Instr) (K : List Const) (e : Sexp)
    (lo hi : Nat) : Prop :=
  ∃ depth st st', gen env depth ctx e false false st = .ok ((), st') ∧ lo = st.pos
    ∧ hi = st'.pos ∧ CodeKept st'.code code st'.func.const K

/-! ## What is generated -/

theorem CodeKept.trans {code code' code'' : List Instr} {K K' K'' : List Const}
    (h : CodeKept code code' K K') (h' : CodeKept code' code'' K' K'') :
    CodeKept code code'' K K'' :=
  ⟨fun pc op a htest hjmp hat => h'.code pc op a htest hjmp (h.code pc op a htest hjmp hat),
    h.const.trans h'.const⟩

theorem FuncTable.Grows.codeKept {f f' : FuncTable} (h : f.Grows f') {code : List Instr}
    {K : List Const} (hkept : CodeKept f'.instructions code f'.const K) :
    CodeKept f.instructions code f.const K :=
  h.kept.codeKept.trans hkept

/-- An instruction with a constant, in what the function has become. -/
theorem CodeKept.emitted {k : Const} {st st0 st' : GenState} {a line : Nat} {op : Op}
    (h : pushConst k st = .ok (a, st0))
    (hst' : st'.func = st0.func.emit { op := op, a := a } line) {code : List Instr}
    {K : List Const} (hkept : CodeKept st'.code code st'.func.const K) (htest : op ≠ .test)
    (hjmp : op ≠ .jmp) :
    st'.pos = st.pos + 1 ∧ ∃ a, Picks K k a ∧ code[st.pos]? = some { op := op, a := a } := by
  obtain ⟨-, -, hpos, hpicks, hat⟩ := emit_made h hst'
  exact ⟨hpos, a, hpicks.grown hkept.const, hkept.code _ _ _ htest hjmp hat⟩

section Made

variable {env : GenEnv} {g : Gen} {ctx : Ctx} {code : List Instr} {K : List Const}
  {st st' : GenState}

theorem genFetch_fetches {line : Nat} (h : genFetch ctx listAtom line st = .ok ((), st'))
    (hkept : CodeKept st'.code code st'.func.const K) :
    st'.pos = st.pos + 1 ∧ FetchesList ctx code K st.pos := by
  unfold FetchesList
  split
  · rename_i hctx
    obtain ⟨a, st0, hpush, hst'⟩ := genFetch_list hctx h
    exact hkept.emitted hpush hst' (by decide) (by decide)
  · rename_i hctx
    obtain ⟨a, hcode⟩ : ∃ a, st'.code = st.code ++ [{ op := .load, a := a }] := by
      unfold genFetch at h
      cases hown : findLable ctx.own.lables listAtom with
      | some id =>
          rw [hown] at h
          cases h
          exact ⟨id, rfl⟩
      | none =>
          cases hup : findUp 1 ctx.parents listAtom with
          | some up =>
              rw [hown, hup] at h
              cases h
              exact ⟨_, rfl⟩
          | none => exact absurd ⟨hown, hup⟩ hctx
    refine ⟨by rw [GenState.pos, hcode, List.length_append]; rfl, a, ?_⟩
    refine hkept.code _ _ _ (by decide) (by decide) ?_
    rw [hcode]
    exact List.getElem?_concat_length

theorem genAll_grows (hg : g.GrowsOnly) {quoted : Bool} {es : List Sexp}
    (h : genAll g ctx quoted es st = .ok ((), st')) : st.func.Grows st'.func :=
  (keeps_genAll (c := ⟨ctx, .number 0#64 0, false, false, st⟩) hg quoted es () st' h).1

/-- The elements, each with its code. -/
theorem genAll_template (hgrows : g.GrowsOnly)
    (hg : ∀ e st st', g ctx e false true st = .ok ((), st') →
      CodeKept st'.code code st'.func.const K →
      TemplateAt code K (FetchesList ctx code K) (GeneratedAt env ctx code K) .call e.template
        st.pos st'.pos) :
    ∀ {es : List Sexp} {st st' : GenState}, genAll g ctx true es st = .ok ((), st') →
      CodeKept st'.code code st'.func.const K →
      TemplatesAt code K (FetchesList ctx code K) (GeneratedAt env ctx code K)
        (Sexp.templates es) st.pos st'.pos
  | [], st, st', h, _ => by
      cases h
      rfl
  | e :: es, st, st', h, hkept => by
      obtain ⟨_, st1, he, h⟩ := bind_ok.mp h
      have hkept1 := (genAll_grows hgrows h).codeKept hkept
      exact ⟨st1.pos, hg e st st1 he hkept1, genAll_template hgrows hg h hkept⟩

/-- A list is made of its elements, or of the expression that is unquoted. -/
theorem genList_template (hgrows : g.GrowsOnly)
    (hg : ∀ e st st', g ctx e false true st = .ok ((), st') →
      CodeKept st'.code code st'.func.const K →
      TemplateAt code K (FetchesList ctx code K) (GeneratedAt env ctx code K) .call e.template
        st.pos st'.pos)
    (hhole : ∀ e st st', g ctx e false false st = .ok ((), st') →
      CodeKept st'.code code st'.func.const K → GeneratedAt env ctx code K e st.pos st'.pos)
    {data : List Sexp} {line : Nat} {tail : Bool}
    (htail : tail = true → ∀ e, (Sexp.sexp data line).template ≠ .hole e)
    (h : genList env g ctx (.sexp data line) tail st = .ok ((), st'))
    (hkept : CodeKept st'.code code st'.func.const K) :
    ∃ op, (op = .call ∨ op = .tcall ∧ tail = true)
      ∧ TemplateAt code K (FetchesList ctx code K) (GeneratedAt env ctx code K) op
        (Sexp.sexp data line).template st.pos st'.pos := by
  cases data with
  | nil => cases h
  | cons d ds =>
      unfold genList at h
      dsimp only at h
      rw [← unquoteAtom] at h
      by_cases hd : d.symbol? = some unquoteAtom
      · rw [if_pos hd] at h
        cases ds with
        | nil => cases h
        | cons e es =>
            rw [Sexp.template, Sexp.unquoted?_hole hd] at htail ⊢
            cases tail with
            | true => exact absurd rfl (htail rfl e)
            | false => exact ⟨.call, Or.inl rfl, hhole e st st' h hkept⟩
      · rw [if_neg hd] at h
        obtain ⟨_, st1, hfetch, h⟩ := bind_ok.mp h
        obtain ⟨_, st2, hargs, h⟩ := bind_ok.mp h
        obtain ⟨op, hop, hcode3, hconst3⟩ := callOrTail_ok h
        have hkept3 : CodeKept st2.code st'.code st2.func.const st'.func.const :=
          .of_grown (hcode3 ▸ List.prefix_append ..) (hconst3 ▸ List.prefix_rfl)
        have hkept2 := hkept3.trans hkept
        obtain ⟨hpos1, hfetches⟩ :=
          genFetch_fetches hfetch ((genAll_grows hgrows hargs).codeKept hkept2)
        have hall := genAll_template hgrows hg hargs hkept2
        have hnotest : op ≠ .test ∧ op ≠ .jmp := by
          rcases hop with rfl | ⟨rfl, -⟩ <;> decide
        rw [Sexp.template, Sexp.unquoted?_list hd]
        refine ⟨op, hop, List.cons_ne_nil _ _, st2.pos, ?_, hfetches, hpos1 ▸ hall, ?_⟩
        · rw [GenState.pos, hcode3, List.length_append]
          rfl
        · refine hkept.code _ _ _ hnotest.1 hnotest.2 ?_
          rw [length_templates, hcode3]
          exact List.getElem?_concat_length

/-- Quoted, an expression is generated as the code of its template. -/
theorem gen_template : ∀ (depth : Nat) (e : Sexp) (tail : Bool) (st st' : GenState),
    (tail = true → ∀ x, e.template ≠ .hole x) → gen env depth ctx e tail true st = .ok ((), st') →
    CodeKept st'.code code st'.func.const K →
    ∃ op, (op = .call ∨ op = .tcall ∧ tail = true)
      ∧ TemplateAt code K (FetchesList ctx code K) (GeneratedAt env ctx code K) op e.template
        st.pos st'.pos
  | 0, _, _, _, _, _, h, _ => nomatch h
  | depth + 1, e, tail, st, st', htail, h, hkept => by
      cases e with
      | number n line =>
          obtain ⟨a, st0, hpush, hst'⟩ := genConst_ok h
          exact ⟨.call, Or.inl rfl, hkept.emitted hpush hst' (by decide) (by decide)⟩
      | symbol s line =>
          obtain ⟨a, st0, hpush, hst'⟩ := genConst_ok h
          exact ⟨.call, Or.inl rfl, hkept.emitted hpush hst' (by decide) (by decide)⟩
      | sexp data line =>
          exact genList_template (gen_growsOnly env depth) (fun e st st' h hkept => by
            obtain ⟨op, rfl | ⟨-, hfalse⟩, hat⟩ :=
              gen_template depth e false st st' (fun hfalse => Bool.noConfusion hfalse) h hkept
            · exact hat
            · cases hfalse) (fun e st st' h hkept => ⟨depth, st, st', h, rfl, rfl, hkept⟩)
            htail h hkept

end Made

/-! ### Without holes -/

section Closed

variable {code : List Instr} {K : List Const} {fetch : Nat → Prop} {hole : Sexp → Nat → Nat → Prop}

theorem Datum.length_templates : ∀ ds : List Datum, (Datum.templates ds).length = ds.length
  | [] => rfl
  | _ :: ds => congrArg (· + 1) (length_templates ds)

mutual

theorem TemplateAt.full {op : Op} : ∀ {d : Datum} {lo hi : Nat},
    TemplateAt code K fetch hole op d.template lo hi → d.Full
  | .number _, _, _, _ => trivial
  | .symbol _, _, _, _ => trivial
  | .list _, _, _, ⟨hne, _, _, _, hall, _⟩ =>
      ⟨fun hds => hne (hds ▸ rfl), templatesAt_full hall⟩

theorem templatesAt_full : ∀ {ds : List Datum} {lo hi : Nat},
    TemplatesAt code K fetch hole (Datum.templates ds) lo hi → Datum.FullAll ds
  | [], _, _, _ => trivial
  | _ :: _, _, _, ⟨_, hd, hds⟩ => ⟨hd.full, templatesAt_full hds⟩

end

mutual

theorem TemplateAt.quoteAt {op : Op} :
    ∀ {d : Datum} {lo hi : Nat}, TemplateAt code K (GetsList code K) hole op d.template lo hi →
      QuoteAt code K op d lo hi
  | .number _, _, _, h => h
  | .symbol _, _, _, h => h
  | .list _, _, _, ⟨_, mid, hhi, ⟨a, hpicks, hat⟩, hall, hcall⟩ => by
      rw [Datum.length_templates] at hcall
      exact ⟨a, mid, hhi, hpicks, hat, templatesAt_quoteAt hall, hcall⟩

theorem templatesAt_quoteAt : ∀ {ds : List Datum} {lo hi : Nat},
    TemplatesAt code K (GetsList code K) hole (Datum.templates ds) lo hi →
    QuoteAllAt code K ds lo hi
  | [], _, _, h => h
  | _ :: _, _, _, ⟨mid, hd, hds⟩ => ⟨mid, hd.quoteAt, templatesAt_quoteAt hds⟩

end

/-- An atom is built without `list`. -/
theorem TemplateAt.quoteAt_atom {op : Op} {d : Datum} (hd : ¬ d.IsList) {lo hi : Nat}
    (h : TemplateAt code K fetch hole op d.template lo hi) : QuoteAt code K op d lo hi := by
  cases d with
  | number n => exact h
  | symbol a => exact h
  | list ds => exact absurd trivial hd

end Closed

/-! ### What is accepted -/

section Accepted

variable {env : GenEnv} {ctx : Ctx}

theorem pushConst_total (const : Const) (st : GenState) :
    ∃ a st', pushConst const st = .ok (a, st') := by
  cases hfound : st.func.const.findIdx? fun v => constEq v const with
  | some a => exact ⟨a, st, bind_ok.mpr ⟨_, _, rfl, by rw [hfound]; rfl⟩⟩
  | none => exact ⟨_, _, bind_ok.mpr ⟨_, _, rfl, by rw [hfound]; rfl⟩⟩

theorem genConst_total (const : Const) (line : Nat) (st : GenState) :
    ∃ st', genConst const line st = .ok ((), st') := by
  obtain ⟨a, st1, hpush⟩ := pushConst_total const st
  exact ⟨_, bind_ok.mpr ⟨a, st1, hpush, rfl⟩⟩

theorem genFetch_total (ctx : Ctx) (sym : Atom) (line : Nat) (st : GenState) :
    ∃ st', genFetch ctx sym line st = .ok ((), st') := by
  unfold genFetch
  cases findLable ctx.own.lables sym with
  | some id => exact ⟨_, rfl⟩
  | none =>
      cases findUp 1 ctx.parents sym with
      | some up => exact ⟨_, rfl⟩
      | none =>
          obtain ⟨a, st1, hpush⟩ := pushConst_total (.string sym) st
          exact ⟨_, bind_ok.mpr ⟨a, st1, hpush, rfl⟩⟩

theorem genAll_total {g : Gen} {quoted : Bool} :
    ∀ {es : List Sexp}, (∀ e ∈ es, ∀ st, ∃ st', g ctx e false quoted st = .ok ((), st')) →
      ∀ st, ∃ st', genAll g ctx quoted es st = .ok ((), st')
  | [], _, st => ⟨st, rfl⟩
  | e :: es, h, st => by
      obtain ⟨st1, he⟩ := h e List.mem_cons_self st
      obtain ⟨st', hes⟩ := genAll_total (fun e he => h e (List.mem_cons_of_mem _ he)) st1
      exact ⟨st', bind_ok.mpr ⟨(), st1, he, hes⟩⟩

/-- What holds of the elements of a list. -/
theorem Datum.of_mem_data {e : Sexp} : ∀ {es : List Sexp}, e ∈ es →
    Datum.PlainAll (Sexp.data es) → Datum.FullAll (Sexp.data es) →
    e.datum.Plain ∧ e.datum.Full ∧ e.datum.levels ≤ Datum.levelsAll (Sexp.data es)
  | e' :: es, he, hplain, hfull => by
      rcases List.mem_cons.mp he with rfl | he
      · exact ⟨hplain.1, hfull.1, Nat.le_max_left ..⟩
      · obtain ⟨hp, hf, hl⟩ := of_mem_data he hplain.2 hfull.2
        exact ⟨hp, hf, Nat.le_trans hl (Nat.le_max_right ..)⟩

/-- A datum without empty lists is accepted, wherever it is quoted. -/
theorem gen_accepts : ∀ (depth : Nat) (e : Sexp), e.datum.Plain → e.datum.Full →
    e.datum.levels ≤ depth → ∀ tail st, ∃ st', gen env depth ctx e tail true st = .ok ((), st')
  | depth, .number n line, _, _, hlevels, tail, st => by
      obtain ⟨depth, rfl⟩ := Nat.exists_eq_add_of_le' hlevels
      exact genConst_total (.number n) line st
  | depth, .symbol a line, _, _, hlevels, tail, st => by
      obtain ⟨depth, rfl⟩ := Nat.exists_eq_add_of_le' hlevels
      exact genConst_total (.string a) line st
  | 0, .sexp data line, _, _, hlevels, _, _ => absurd hlevels (Nat.not_succ_le_zero _)
  | depth + 1, .sexp [] line, _, hfull, _, _, _ => absurd rfl hfull.1
  | depth + 1, .sexp (d :: ds) line, hplain, hfull, hlevels, tail, st => by
      have helement : ∀ e ∈ d :: ds, ∀ st, ∃ st',
          gen env depth ctx e false true st = .ok ((), st') := by
        intro e he
        obtain ⟨hp, hf, hl⟩ := Datum.of_mem_data he hplain.2 hfull.2
        exact gen_accepts depth e hp hf (Nat.le_trans hl (Nat.le_of_succ_le_succ hlevels)) false
      obtain ⟨st1, hfetch⟩ := genFetch_total ctx listAtom line st
      obtain ⟨st2, hargs⟩ := genAll_total helement st1
      obtain ⟨st3, hcall⟩ : ∃ st3, callOrTail env ctx tail (some line) (ds.length + 1) st2
          = .ok ((), st3) := ⟨_, rfl⟩
      refine ⟨st3, ?_⟩
      change genList env (gen env depth) ctx (.sexp (d :: ds) line) tail st = _
      unfold genList
      dsimp only
      rw [← unquoteAtom, if_neg (Sexp.symbol?_plain hplain.1)]
      exact bind_ok.mpr ⟨(), st1, hfetch, bind_ok.mpr ⟨(), st2, hargs, hcall⟩⟩

end Accepted

end Saurus
