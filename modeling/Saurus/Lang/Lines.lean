import Saurus.Lang.InRange
import Saurus.Read.Lines

/-!
# Errors name a line of the source

Whatever goes wrong with a source is reported at one of its lines: by the
reader, by the generator, whose errors are raised at a node, and at run time,
where the interpreter looks up the line of the instruction. The errors that
name no line are those of Lua itself and `"Bad AST tree!"`.
-/

namespace Saurus

open Basis Basis.Codec

/-! ## Errors of the generator -/

/-- The errors of Lua itself. -/
def luaMessages : List String :=
  ["assertion failed!", "attempt to index a nil value", "stack overflow"]

/-- The ways in which generating fails: at a line that has `L`, with an error
of Lua, or in an expansion. -/
def GenEnv.Fails (env : GenEnv) (L : Nat → Prop) (msg : String) : Prop :=
  NamesLine L msg ∨ msg ∈ luaMessages ∨ ∃ past call, env.expand past call = .error msg

/-- A part of the generator that fails in no other way. -/
def Blames {α : Type} (env : GenEnv) (L : Nat → Prop) (m : GenM α) : Prop :=
  ∀ st msg, m st = .error msg → env.Fails L msg

namespace Blames

variable {α β : Type} {env : GenEnv} {L : Nat → Prop} {m : GenM α} {f : α → GenM β}

/-- Two parts fail as one of them does. The second is only asked for what the
first can give. -/
theorem bind (hm : Blames env L m) (hf : ∀ a st st', m st = .ok (a, st') → Blames env L (f a)) :
    Blames env L (m >>= f) := by
  intro st msg h
  rcases bind_error.mp h with h | ⟨a, st', hst, h⟩
  · exact hm st msg h
  · exact hf a st st' hst st' msg h

/-- A part that does not fail. -/
theorem of_ok (h : ∀ st, ∃ r, m st = .ok r) : Blames env L m := fun st msg hm => by
  obtain ⟨r, hr⟩ := h st
  rw [hr] at hm
  cases hm

theorem pure (a : α) : Blames env L (pure a : GenM α) := .of_ok fun _ => ⟨_, rfl⟩

theorem at_line {msg : String} {line : Nat} (hline : L line) :
    Blames env L (genError msg line : GenM α) := fun _ _ h => by
  cases h
  exact .inl ⟨msg, line, hline, rfl⟩

theorem of_lua {msg : String} (h : msg ∈ luaMessages) :
    Blames env L (luaError msg : GenM α) := fun _ _ hm => by
  cases hm
  exact .inr (.inl h)

/-- A piece behind a check. -/
theorem guarded {p : Prop} [Decidable p] {msg : String} {line : Nat} {f : Unit → GenM β}
    (hline : L line) (h : Blames env L (f ())) :
    Blames env L (if p then genError msg line >>= f else f ()) := by
  split
  · exact (at_line hline).bind fun _ _ _ h => by cases h
  · exact h

end Blames

section Blames

variable {env : GenEnv} {L : Nat → Prop} {g : Gen} {ctx : Ctx} {line : Nat} {data : List Sexp}

theorem blames_genInst (inst : Instr) (line : Option Nat) : Blames env L (genInst inst line) :=
  .of_ok fun _ => ⟨_, rfl⟩

theorem blames_callOrTail (tail : Bool) (line : Option Nat) (narg : Nat) :
    Blames env L (callOrTail env ctx tail line narg) := blames_genInst _ _

theorem blames_pushConst (const : Const) : Blames env L (pushConst const) := by
  refine .bind (.of_ok fun _ => ⟨_, rfl⟩) fun func _ _ _ => ?_
  split <;> exact .of_ok fun _ => ⟨_, rfl⟩

theorem blames_genConst (const : Const) (line : Nat) : Blames env L (genConst const line) :=
  (blames_pushConst const).bind fun _ _ _ _ => blames_genInst _ _

theorem blames_genFetch (sym : Atom) (line : Nat) : Blames env L (genFetch ctx sym line) := by
  unfold genFetch
  split
  · exact .of_ok fun _ => ⟨_, rfl⟩
  · split
    · exact .of_ok fun _ => ⟨_, rfl⟩
    · exact (blames_pushConst _).bind fun _ _ _ _ => .of_ok fun _ => ⟨_, rfl⟩

/-- The errors of an expansion are its own, whatever line they name. -/
theorem blames_genMacroExpansion (name : Atom) (data : List Sexp) (line : Nat) :
    Blames env L (genMacroExpansion env name data line) := by
  refine .bind (.of_ok fun _ => ⟨_, rfl⟩) fun st _ _ _ => ?_
  dsimp only
  split
  · rename_i msg hexp
    exact fun _ _ h => by
      cases h
      exact .inr (.inr ⟨_, _, hexp⟩)
  · exact .of_ok fun _ => ⟨_, rfl⟩

/-- What is generated for forms on such lines. -/
def BlamesLines (env : GenEnv) (L : Nat → Prop) (g : Gen) : Prop :=
  ∀ ctx e tail quoted, e.Within L → Blames env L (g ctx e tail quoted)

variable (hg : BlamesLines env L g)
include hg

theorem blames_genAll (quoted : Bool) : ∀ {es : List Sexp}, (∀ e ∈ es, e.Within L) →
    Blames env L (genAll g ctx quoted es)
  | [], _ => .pure ()
  | e :: _, h => (hg ctx e false quoted (h e List.mem_cons_self)).bind fun _ _ _ _ =>
      blames_genAll quoted fun e' he' => h e' (List.mem_cons_of_mem _ he')

theorem blames_genFunccall (tail : Bool) (h : ∀ e ∈ data, e.Within L) :
    Blames env L (genFunccall env g ctx data line tail) := by
  cases data with
  | nil => exact Blames.bind (.of_lua (by decide)) fun _ _ _ h => by cases h
  | cons d ds =>
      exact (blames_genAll hg false h).bind fun _ _ _ _ => blames_callOrTail _ _ _

theorem blames_genBody : ∀ {es : List Sexp}, (∀ e ∈ es, e.Within L) →
    Blames env L (genBody g ctx es)
  | [], _ => .pure ()
  | [e], h => hg ctx e true false (h e List.mem_cons_self)
  | e :: _ :: _, h => (hg ctx e false false (h e List.mem_cons_self)).bind fun _ _ _ _ =>
      (blames_genInst _ _).bind fun _ _ _ _ =>
        blames_genBody fun x hx => h x (List.mem_cons_of_mem _ hx)

theorem blames_genList {e : Sexp} (tail : Bool) (h : e.Within L) :
    Blames env L (genList env g ctx e tail) := by
  unfold genList
  split
  · exact .of_lua (by decide)
  · have hdata := (within_sexp.mp h).2
    split
    · split
      · exact .of_lua (by decide)
      · exact hg ctx _ tail false (hdata _ (List.mem_cons_of_mem _ List.mem_cons_self))
    · exact (blames_genFetch _ _).bind fun _ _ _ _ =>
        (blames_genAll hg true hdata).bind fun _ _ _ _ => blames_callOrTail _ _ _
  · exact hg ctx _ tail true h

theorem blames_genIf (tail : Bool) (hline : L line) (h : ∀ e ∈ data, e.Within L) :
    Blames env L (genIf g ctx data line tail) := by
  unfold genIf
  split
  · rename_i c t hc ht
    have hwt := h t (List.mem_of_getElem? ht)
    have hwf : (data[3]?.getD (Sexp.symbol nilAtom t.line)).Within L := by
      cases hf : data[3]? with
      | none => exact within_symbol.mpr hwt.line
      | some f => exact h f (List.mem_of_getElem? hf)
    refine (hg ctx c false false (h c (List.mem_of_getElem? hc))).bind fun _ _ _ _ => ?_
    refine .bind (.of_ok fun _ => ⟨_, rfl⟩) fun _ _ _ _ => ?_
    refine .bind (.of_ok fun _ => ⟨_, rfl⟩) fun _ _ _ _ => ?_
    refine (hg ctx _ tail false hwf).bind fun _ _ _ _ => ?_
    refine .bind (.of_ok fun _ => ⟨_, rfl⟩) fun _ _ _ _ => ?_
    refine .bind (.of_ok fun _ => ⟨_, rfl⟩) fun _ _ _ _ => ?_
    refine .bind (.of_ok fun _ => ⟨_, rfl⟩) fun _ _ _ _ => ?_
    exact (hg ctx t tail false hwt).bind fun _ _ _ _ => .of_ok fun _ => ⟨_, rfl⟩
  · exact .at_line hline

omit hg in
theorem blames_lambdaArgs {args : Sexp} (h : args.Within L) : Blames env L (lambdaArgs args) := by
  cases args with
  | number n l => exact .of_lua (by decide)
  | symbol s l => exact .pure _
  | sexp params l =>
      refine .bind ?_ fun _ _ _ _ => .pure _
      have hparams := (within_sexp.mp h).2
      clear h
      induction params with
      | nil => exact .pure _
      | cons p ps ih =>
          rw [List.mapM_cons]
          refine .bind ?_ fun _ _ _ _ => .bind (ih fun e he => hparams e ?_) fun _ _ _ _ => .pure _
          · split
            · exact .pure _
            · exact .at_line (hparams p List.mem_cons_self).line
          · exact List.mem_cons_of_mem _ he

theorem blames_genLambda (hline : L line) (h : ∀ e ∈ data, e.Within L) :
    Blames env L (genLambda g ctx data line) := by
  unfold genLambda
  refine .guarded hline ?_
  split
  · rename_i args e es hdrop
    have hmem : ∀ x ∈ args :: e :: es, x.Within L := fun x hx =>
      h x (List.mem_of_mem_drop (hdrop ▸ hx))
    refine (blames_lambdaArgs (hmem args List.mem_cons_self)).bind fun r _ _ _ => ?_
    refine .bind (.of_ok fun _ => ⟨_, rfl⟩) fun _ _ _ _ => ?_
    refine .bind (.of_ok fun _ => ⟨_, rfl⟩) fun _ _ _ _ => ?_
    refine (blames_genBody hg fun x hx => hmem x (List.mem_cons_of_mem _ hx)).bind
      fun _ _ _ _ => ?_
    refine (blames_genInst _ _).bind fun _ _ _ _ => ?_
    refine .bind (.of_ok fun _ => ⟨_, rfl⟩) fun _ _ _ _ => ?_
    refine .bind (.of_ok fun _ => ⟨_, rfl⟩) fun _ _ _ _ => ?_
    exact blames_genInst _ _
  · exact .at_line hline

omit hg in
theorem blames_letPairs (hline : L line) : ∀ args : List Sexp, Blames env L (letPairs line args)
  | [] | [_] => .pure _
  | k :: v :: args => by
      unfold letPairs
      exact .guarded hline ((blames_letPairs hline args).bind fun _ _ _ _ => .pure _)

theorem blames_genLet (tail : Bool) (hline : L line) (h : ∀ e ∈ data, e.Within L) :
    Blames env L (genLet env g ctx data line tail) := by
  unfold genLet
  refine .guarded hline ?_
  split
  · rename_i args _ hargs
    have hwithin := (within_sexp.mp (h _ (List.mem_of_getElem? hargs))).2
    refine .guarded hline ((blames_letPairs hline args).bind fun r _ _ hpairs => ?_)
    obtain ⟨hkeys, hvalues⟩ := letPairs_mem hpairs
    refine (blames_genLambda hg hline fun e he => ?_).bind fun _ _ _ _ =>
      (blames_genAll hg false fun e he => hwithin e (hvalues e he)).bind fun _ _ _ _ =>
        blames_callOrTail _ _ _
    rcases List.mem_cons.mp he with rfl | he
    · exact within_symbol.mpr hline
    rcases List.mem_cons.mp he with rfl | he
    · exact within_sexp.mpr ⟨hline, fun e he => hwithin e (hkeys e he)⟩
    · exact h e (List.mem_of_mem_drop he)
  · exact .at_line hline

theorem blames_genDefine (hline : L line) (h : ∀ e ∈ data, e.Within L) :
    Blames env L (genDefine g ctx data line) := by
  unfold genDefine
  split
  · split
    · exact .at_line (h _ (List.mem_cons_of_mem _ List.mem_cons_self)).line
    · refine (hg ctx _ false false (h _ ?_)).bind fun _ _ _ _ =>
        (blames_pushConst _).bind fun _ _ _ _ => blames_genInst _ _
      exact List.mem_cons_of_mem _ (List.mem_cons_of_mem _ List.mem_cons_self)
  · exact .at_line hline

theorem blames_genOperator {op : Op} {operands : List Sexp} (tail : Bool) (err : String)
    (hline : L line) (h : ∀ e ∈ data, e.Within L) (hoperands : ∀ e ∈ operands, e ∈ data) :
    Blames env L (genOperator env g ctx op data operands line tail err) := by
  unfold genOperator
  split
  · exact .at_line hline
  · split
    · exact blames_genFunccall hg tail h
    · exact (blames_genAll hg false fun e he => h e (hoperands e he)).bind fun _ _ _ _ =>
        blames_genInst _ _

omit hg in
theorem blames_genMacro (hline : L line) (h : ∀ e ∈ data, e.Within L) :
    Blames env L (genMacro data line) := by
  unfold genMacro
  split
  · rename_i d sym args e es
    have hargs := h args (by simp)
    split
    · exact .at_line hline
    · rename_i name _
      -- what is done once the parameters were looked at
      have hkept : Blames env L (do
          let st ← (get : GenM GenState)
          if (st.macros.lookup name).isSome then
            genError ("Redefinition of '" ++ Atom.text name ++ "'.") line
          set { st with macros := st.macros ++ [(name, Sexp.sexp (Sexp.symbol
            (atom ['l', 'a', 'm', 'b', 'd', 'a']) sym.line :: args :: e :: es) line)] }) :=
        .bind (.of_ok fun _ => ⟨_, rfl⟩) fun _ _ _ _ => .guarded hline (.of_ok fun _ => ⟨_, rfl⟩)
      dsimp only
      split
      · split
        · rename_i arg harg
          have harg := (within_sexp.mp hargs).2 arg (List.mem_of_find?_eq_some harg)
          exact .bind (.at_line harg.line) fun _ _ _ h => by cases h
        · exact hkept
      · exact hkept
      · exact .bind (.at_line hargs.line) fun _ _ _ h => by cases h
  · exact .at_line hline

theorem blames_genSpecial {spe : Special} (tail : Bool) (hline : L line)
    (h : ∀ e ∈ data, e.Within L) : Blames env L (genSpecial env g ctx spe data line tail) := by
  have htail : ∀ e ∈ data.tail, e ∈ data := fun _ => List.mem_of_mem_tail
  cases spe with
  | «if» => exact blames_genIf hg tail hline h
  | lambda => exact blames_genLambda hg hline h
  | define => exact blames_genDefine hg hline h
  | undef => exact .at_line hline
  | macroDef => exact blames_genMacro hline h
  | recur =>
      exact (blames_genInst _ _).bind fun _ _ _ _ =>
        (blames_genAll hg false fun e he => h e (htail e he)).bind fun _ _ _ _ =>
          blames_callOrTail _ _ _
  | «do» =>
      refine blames_genBody hg fun e he => h e ?_
      split at he
      · exact he
      · exact htail e he
  | quote =>
      change Blames env L (genQuote env g ctx data tail)
      unfold genQuote
      split
      · exact .of_lua (by decide)
      · exact blames_genList hg tail (h _ (List.mem_of_getElem? ‹_›))
  | «let» => exact blames_genLet hg tail hline h
  | logical op => exact blames_genOperator hg tail _ hline h htail
  | greater op =>
      exact blames_genOperator hg false _ hline h fun e he => htail e (List.mem_reverse.mp he)
  | arith op =>
      change Blames env L (genArith env g ctx op data line tail)
      unfold genArith
      split
      · exact (hg ctx _ false false (h _ (List.mem_cons_of_mem _ List.mem_cons_self))).bind
          fun _ _ _ _ => blames_genInst _ _
      · exact blames_genOperator hg tail _ hline h htail

/-- One case for each kind of node. A macro call goes on with what it was
expanded to, all of which is on the line of the call (`Rebuilds`). -/
theorem blames_genNode (hexp : env.Rebuilds) {e : Sexp} (tail quoted : Bool) (h : e.Within L) :
    Blames env L (genNode env g ctx e tail quoted) := by
  cases e with
  | number n line => exact blames_genConst _ _
  | symbol sym line =>
      dsimp only [genNode]
      split
      · exact blames_genConst _ _
      · exact blames_genFetch _ _
  | sexp data line =>
      obtain ⟨hline, hdata⟩ := within_sexp.mp h
      dsimp only [genNode]
      split
      · exact blames_genList hg tail h
      · refine .bind (.of_ok fun _ => ⟨_, rfl⟩) fun _ _ _ _ => ?_
        split
        · refine (blames_genMacroExpansion _ _ _).bind fun e' _ _ hexpand =>
            hg ctx e' tail false fun n hn => ?_
          exact genMacroExpansion_line hexp hexpand n hn ▸ hline
        · split
          · exact blames_genSpecial hg tail hline hdata
          · exact blames_genFunccall hg tail hdata

omit hg in
/-- By induction on the depth; where the depth runs out, the error is that of a
stack overflow in Lua. -/
theorem blames_gen (hexp : env.Rebuilds) : ∀ depth, BlamesLines env L (gen env depth)
  | 0, _, _, _, _, _ => .of_lua (by decide)
  | depth + 1, ctx, e, tail, quoted, h => by
      rw [gen_succ]
      exact blames_genNode (blames_gen hexp depth) hexp tail quoted h

omit hg in
/-- An error of the generator is raised at a node of the program. The function
that it wraps around the program raises none. -/
theorem blames_genSexp (hexp : env.Rebuilds) (depth : Nat) {e : Sexp} (h : e.Within L) :
    Blames env L (genSexp env depth e) :=
  .bind (.of_ok fun _ => ⟨_, rfl⟩) fun _ _ _ _ =>
    (blames_gen hexp depth topCtx e false false h).bind fun _ _ _ _ => .of_ok fun _ => ⟨_, rfl⟩

end Blames

/-! ## Errors at run time -/

/-- `s'` is reached in the run of a program that was loaded at `s` and called
from C with one argument or more. -/
inductive Vm.ReachedBy (h : Host) (bytes : List Byte) (s s' : Vm) : Prop where
  | mk {junk : Load.HeaderJunk} {input : ReaderBuffer} {rest : List Byte} {s1 s2 s3 : Vm}
      {narg : Nat} : Holds input (bytes ++ rest) → suLoad h junk input s = .ok (0, s1) →
      Vm.Pushes h s1 s2 → s2.stackTop = s1.stackTop + narg → 0 < narg →
      s2.suEnter narg = .ok s3 → (Vm.loop h).Steps s3 s' → Vm.ReachedBy h bytes s s'

theorem toInt_ofNat32 {n : Nat} (h : n < 2 ^ 31) : (BitVec.ofNat 32 n).toInt = n := by
  have hnat : (BitVec.ofNat 32 n).toNat = n := Nat.mod_eq_of_lt (by omega)
  rw [BitVec.toInt_eq_toNat_of_lt (by omega), hnat]

/-- **Errors name a line of the source.** What the reader and the generator
report of a source of fewer than `2 ^ 31` lines names one of them, unless it is
an error of Lua itself, of a macro, or `"Bad AST tree!"`; and in every state
that a run of the program comes to, unless it has returned, an error is
reported at a line of the source.

For the run the program fits the format, it is called with an argument, and the
functions in the world and those natives make have lines of this source too: a
function of another source reports its own. The reader's part is
`readSource_lines`, the generator's `blames_genSexp`, and the run's the line of
`Vm.Sound`. -/
theorem errors_name_lines {tonumber : Atom → Option (BitVec 64)} {src : List Byte} {env : GenEnv}
    (hshort : 1 + newlines src < 2 ^ 31) (henv : ∀ depth, env.special depth = specialNamed)
    (hexp : env.Rebuilds) :
    (∀ msg, readSource tonumber src = .error msg →
      NamesLine (IsLineOf src) msg ∨ msg = "Bad AST tree!")
    ∧ ∀ e, readSource tonumber src = .ok (some e) →
      (∀ depth st msg, genSexp env depth e st = .error msg → env.Fails (IsLineOf src) msg)
      ∧ ∀ {F : Func} {bytes : List Byte} {h : Host} {s s' : Vm}, WrittenAs env e F bytes →
          Vm.NativesSound (IsLineOf src) h → s.world.Sound (IsLineOf src) →
          Vm.ReachedBy h bytes s s' → s'.Halted ∨ ∃ n, IsLineOf src n ∧ s'.errorLine = n := by
  have hread := readSource_lines tonumber src
  refine ⟨fun msg hmsg => hread.of_error hmsg, fun e he => ?_⟩
  have hwithin : e.Within (IsLineOf src) := hread.of_ok he e rfl
  refine ⟨fun depth st msg => blames_genSexp hexp depth hwithin st msg, ?_⟩
  intro F bytes h s s' hprogram hnative hw hreached
  obtain ⟨hinput, hload, hpush, hnarg, hpos, henter, hrun⟩ := hreached
  have hlines : ∀ n, e.HasLine n → IsLineOf src n := by
    rintro n (rfl | hn)
    · exact ⟨Nat.le_refl _, Nat.le_add_right _ _⟩
    · exact hwithin n hn
  obtain ⟨fn, hs', hlen⟩ := sound_program henv hexp hprogram hlines hnative hw hinput hload hpush
    hnarg hpos henter hrun
  refine (hs'.finds hlen).imp And.left ?_
  rintro ⟨i, -, -, n, hn, hline⟩
  exact ⟨n, hn, hline.trans (toInt_ofNat32 (Nat.lt_of_le_of_lt hn.2 hshort))⟩

/-! ### A source of two lines -/

/-- A global that is not defined, on the second line. -/
def undefinedSource : List Byte := atom ['\n', 'f']

/-- The program of a source, loaded, called, and after some turns. -/
def sourceTurns (src : List Byte) (n : Nat) : Option (Sexp × Func × List Byte × Vm) := do
  let e ← (readSource noNumber src).toOption.join
  let (F, _) ← (genSexp (sourceEnv true false noMacros) 8 e genStart).toOption
  let bytes ← (compile F none).toOption
  let (flag, s1) ← (suLoad idleHost zeroJunk ⟨bytes, []⟩ startVm).toOption
  guard (flag = 0 ∧ s1.stackTop < stackSize)
  let s3 ← ((s1.withNumber 5#64).suEnter 1).toOption
  let s' ← (Vm.turns idleHost n s3).toOption
  pure (e, F, bytes, s')

/-- The second line fetches a global that is missing: the run comes to where the
error names that line. -/
theorem errors_name_lines_undefined : ∃ e F bytes s',
    readSource noNumber undefinedSource = .ok (some e)
      ∧ WrittenAs (sourceEnv true false noMacros) e F bytes
      ∧ Vm.ReachedBy idleHost bytes startVm s' ∧ s'.errorLine = 2
      ∧ (s'.Halted ∨ ∃ n, IsLineOf undefinedSource n ∧ s'.errorLine = n) := by
  have hrun : (sourceTurns undefinedSource 3).map (fun r =>
      decide ((r.2.1.named [0x3f#8]).All (Tame Set.univ))
        && decide (r.2.1.instructions.length ≤ 0xffff)
        && decide (r.2.2.2.errorLine = 2)) = some true := by decide +kernel
  obtain ⟨⟨e, F, bytes, s'⟩, hturns, hrun⟩ := Option.map_eq_some_iff.mp hrun
  simp only [Bool.and_eq_true, decide_eq_true_eq] at hrun
  obtain ⟨⟨htame, hlen⟩, hline⟩ := hrun
  obtain ⟨_, hread, hturns⟩ := Option.bind_eq_some_iff.mp hturns
  obtain ⟨⟨_, st'⟩, hgen, hturns⟩ := Option.bind_eq_some_iff.mp hturns
  obtain ⟨_, hcompile, hturns⟩ := Option.bind_eq_some_iff.mp hturns
  obtain ⟨⟨flag, s1⟩, hload, hturns⟩ := Option.bind_eq_some_iff.mp hturns
  obtain ⟨_, hguard, hturns⟩ := Option.bind_eq_some_iff.mp hturns
  obtain ⟨s3, henter, hturns⟩ := Option.bind_eq_some_iff.mp hturns
  obtain ⟨_, hrest, hturns⟩ := Option.bind_eq_some_iff.mp hturns
  cases hturns
  rw [Option.guard_eq_some'] at hguard
  obtain ⟨rfl, hroom⟩ := hguard
  have hread := ok_of_toOption (Option.join_eq_some_iff.mp hread)
  have hgen := ok_of_toOption hgen
  have hprogram : WrittenAs (sourceEnv true false noMacros) e F bytes :=
    ⟨⟨8, genStart, st', hgen⟩,
      ⟨none, Outcome.toOption_eq_some.mp hcompile, htame.imp fun _ h => h.fits⟩, hlen⟩
  have hinput : Holds ⟨bytes, []⟩ (bytes ++ []) :=
    ⟨by simp, fun c hc => absurd hc List.not_mem_nil⟩
  have hreached : Vm.ReachedBy idleHost bytes startVm s' :=
    .mk hinput (Outcome.toOption_eq_some.mp hload) (Vm.pushes_withNumber hroom 5#64) rfl
      Nat.one_pos (Outcome.toOption_eq_some.mp henter)
      (Vm.steps_of_turns (Outcome.toOption_eq_some.mp hrest))
  have hnative : Vm.NativesSound (IsLineOf undefinedSource) idleHost := fun _ _ _ _ hr hw => by
    cases hr
    exact hw
  have hw : startVm.world.Sound (IsLineOf undefinedSource) := fun fn hfn => by
    cases List.mem_singleton.mp hfn
  exact ⟨e, F, bytes, s', hread, hprogram, hreached, hline,
    ((errors_name_lines (by decide) (fun _ => rfl) fun _ _ _ _ h => by cases h).2 e hread).2
      hprogram hnative hw hreached⟩

end Saurus
