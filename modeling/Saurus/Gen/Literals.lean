import Saurus.Gen.Compile
import Saurus.Gen.Sites
import Saurus.Vm.Closures

/-!
# Literals from the syntax tree to the stack

A literal is a constant of the function it stands in and one `PUSH`. On the
way the names `nil`, `true` and `false` and all strings are Lua strings;
`compile_func` takes the string `"nil"` for nil, and no other string for
anything but a string; `encode_string` ends at the first NUL; the operand of
`PUSH` has eight bits; and `create_value` asks for a string by its hash. What
is pushed is therefore told by the constants before the literal and by the
strings the interpreter knows when the closure is made (`Survives`).
-/

namespace Saurus

open Basis Basis.Codec

/-! ## Literals -/

inductive Literal where
  | nil
  | boolean (b : Bool)
  | number (n : BitVec 64)
  | string (s : Atom)

namespace Literal

/-- The name of a boolean. -/
def booleanAtom (b : Bool) : Atom :=
  if b then atom ['t', 'r', 'u', 'e'] else atom ['f', 'a', 'l', 's', 'e']

/-- What `next_token` makes of the literal: a string is a quoted symbol. -/
def node (lit : Literal) (line : Nat) : Sexp :=
  match lit with
  | nil => .symbol nilAtom line
  | boolean b => .symbol (booleanAtom b) line
  | number n => .number n line
  | string s => .sexp [.symbol (atom ['q', 'u', 'o', 't', 'e']) line, .symbol s line] line

/-- The constant `gen_const` asks for. -/
def const : Literal → Const
  | nil => .string nilAtom
  | boolean b => .string (booleanAtom b)
  | number n => .number n
  | string s => .string s

/-- The value a literal is meant to evaluate to. -/
def Denotes (lit : Literal) (w : World) (v : Value) : Prop :=
  match lit with
  | nil => v.type = .nil
  | boolean b => v.type = .boolean ∧ v.obj.setWidth 32 = if b then 1#32 else 0#32
  | number n => v.type = .number ∧ v.obj = n
  | string s => v.type = .string ∧ ∃ hash, w.object v.addr = .ok (.string hash (s ++ [0#8]))

/-- The operand of the literal's `PUSH`, behind the constants `const`. -/
def operand (lit : Literal) (const : List Const) : Nat :=
  ((const.findIdx? fun v => constEq v lit.const).getD const.length) % 256

end Literal

/-- A string asked for with the bytes `str` has the bytes `bytes`: the strings
of `w` have no other under its hash, or one with these bytes, as found in
`w'`. -/
def World.Gives (w w' : World) (str bytes : List Byte) : Prop :=
  ∀ v, mapGet w.strings (dbKey (murmur str 0)) (murmur str 0) = .ok v →
    if v.type = .inv then str = bytes else ∃ hash, w'.object v.addr = .ok (.string hash bytes)

namespace Literal

/-- The literal is what comes of a constant created in `w`, as seen in `w'`. -/
def ComesOf (lit : Literal) (w w' : World) (k : ProtoConst) : Prop :=
  match lit, k with
  | nil, .nil => True
  | number n, .number m => m = n
  | string s, .string str => w.Gives w' str (s ++ [0#8])
  | _, _ => False

/-- The constant the operand picks is one that the literal comes of, in a
closure made in `w0`: `const` are the constants before the literal. -/
def Survives (lit : Literal) (junk : Nat → BitVec 64) (const : List Const) (w0 w' : World) :
    Prop :=
  ∃ k w vs, (const ++ [lit.const])[lit.operand const]? = some k
    ∧ createValues junk w0 ((const.map asConst).take (lit.operand const)) = .ok (w, vs)
    ∧ lit.ComesOf w w' (asConst k)

end Literal

/-- The call generates the literal. A string is a quote form, and is generated
as one where it is neither quoted itself nor the call of a macro. -/
def GenCall.Generates (env : GenEnv) (c : GenCall) (lit : Literal) : Prop :=
  ∃ line, c.e = lit.node line ∧ ∀ s, lit = .string s → c.quoted = false
    ∧ (env.inMacroWorld = true ∨ c.st.macros.lookup (atom ['q', 'u', 'o', 't', 'e']) = none)

/-- The step pushes the value of the literal. -/
def Vm.Evaluates (s s' : Vm) (lit : Literal) : Prop :=
  s'.stackTop = s.stackTop + 1 ∧ lit.Denotes s'.world (s'.stack s.stackTop)

/-! ## What is generated -/

theorem genConst_ok {const : Const} {line : Nat} {st st' : GenState}
    (h : genConst const line st = .ok ((), st')) :
    ∃ a st0, pushConst const st = .ok (a, st0)
      ∧ st'.func = st0.func.emit { op := .push, a := a } line := by
  obtain ⟨a, st0, hpush, h⟩ := bind_ok.mp h
  cases h
  exact ⟨a, st0, hpush, rfl⟩

/-- A literal is one constant and one instruction. -/
theorem gen_literal {optTail inMacroWorld : Bool}
    {expand : List MacroCall → MacroCall → Except String (Sexp × List (Atom × Sexp))}
    {depth : Nat} {c : GenCall} {lit : Literal} {st' : GenState}
    (hlit : c.Generates (sourceEnv optTail inMacroWorld expand) lit)
    (h : c.run (gen (sourceEnv optTail inMacroWorld expand) depth) = .ok ((), st')) :
    ∃ line a st0, pushConst lit.const c.st = .ok (a, st0)
      ∧ st'.func = st0.func.emit { op := .push, a := a } line := by
  obtain ⟨line, hnode, hstring⟩ := hlit
  obtain ⟨ctx, e, tail, quoted, st⟩ := c
  obtain rfl : e = lit.node line := hnode
  cases depth with
  | zero => cases h
  | succ depth =>
      change gen _ (depth + 1) ctx (lit.node line) tail quoted st = _ at h
      cases lit with
      | nil =>
          have hgen : genConst (.string nilAtom) line st = .ok ((), st') := by
            cases quoted <;> exact h
          exact ⟨line, genConst_ok hgen⟩
      | boolean b =>
          have hgen : genConst (.string (Literal.booleanAtom b)) line st = .ok ((), st') := by
            cases b <;> cases quoted <;> exact h
          exact ⟨line, genConst_ok hgen⟩
      | number n => exact ⟨line, genConst_ok h⟩
      | string s =>
          obtain ⟨rfl, hmacro⟩ := hstring s rfl
          have hno : isMacro (sourceEnv optTail inMacroWorld expand) st.macros
              [.symbol (atom ['q', 'u', 'o', 't', 'e']) line, .symbol s line] = none := by
            rcases hmacro with hworld | hnone
            · obtain rfl : inMacroWorld = true := hworld
              rfl
            · rw [isMacro, show st.macros.lookup _ = none from hnone]
              simp
          rw [gen_succ] at h
          dsimp only [genNode, Literal.node] at h
          rw [if_neg Bool.false_ne_true] at h
          obtain ⟨_, _, hget, h⟩ := bind_ok.mp h
          cases hget
          rw [hno] at h
          change gen _ depth ctx (.symbol s line) tail true st = _ at h
          cases depth with
          | zero => cases h
          | succ depth => exact ⟨line, genConst_ok h⟩

/-- The constants of `st'` begin with those before the literal, and the
literal's own if it was not there. -/
theorem pushConst_operand {lit : Literal} {st st' : GenState} {a : Nat}
    (h : pushConst lit.const st = .ok (a, st')) :
    a % 256 = lit.operand st.func.const ∧ st.func.const <+: st'.func.const
      ∧ st'.func.const <+: st.func.const ++ [lit.const] ∧ a < st'.func.const.length := by
  unfold Literal.operand
  rcases pushConst_ok h with ⟨hfound, rfl⟩ | ⟨hnone, rfl, rfl⟩
  · rw [hfound]
    obtain ⟨hlt, -⟩ := List.findIdx?_eq_some_iff_getElem.mp hfound
    exact ⟨rfl, List.prefix_rfl, List.prefix_append .., hlt⟩
  · rw [hnone]
    refine ⟨rfl, List.prefix_append .., List.prefix_rfl, ?_⟩
    simp

/-! ## What never survives -/

section Never

variable {junk : Nat → BitVec 64} {const : List Const} {w0 w' : World}

theorem not_survives_boolean (b : Bool) :
    ¬ (Literal.boolean b).Survives junk const w0 w' := by
  rintro ⟨k, w, vs, -, -, hcomes⟩
  cases hk : asConst k <;> rw [hk] at hcomes <;> exact hcomes

/-- Up to 255 constants the operand picks a constant equal to the literal's. -/
theorem constEq_operand {lit : Literal} (hlen : const.length < 256) {k : Const}
    (hk : (const ++ [lit.const])[lit.operand const]? = some k) :
    k = lit.const ∨ constEq k lit.const = true := by
  unfold Literal.operand at hk
  cases hfound : const.findIdx? fun v => constEq v lit.const with
  | none =>
      rw [hfound, Option.getD_none, Nat.mod_eq_of_lt hlen, List.getElem?_concat_length] at hk
      exact Or.inl (Option.some.inj hk).symm
  | some i =>
      obtain ⟨hlt, heq, -⟩ := List.findIdx?_eq_some_iff_getElem.mp hfound
      rw [hfound, Option.getD_some, Nat.mod_eq_of_lt (by omega), List.getElem?_append_left hlt,
        List.getElem?_eq_getElem hlt] at hk
      exact Or.inr (Option.some.inj hk ▸ heq)

theorem not_survives_nilAtom (hlen : const.length < 256) :
    ¬ (Literal.string nilAtom).Survives junk const w0 w' := by
  rintro ⟨k, w, vs, hk, -, hcomes⟩
  have hnil : k = .string nilAtom := by
    rcases constEq_operand hlen hk with heq | heq
    · exact heq
    · cases k with
      | string s => exact congrArg Const.string (beq_iff_eq.mp heq)
      | number n => cases heq
      | boolean b => cases heq
  rw [hnil] at hcomes
  exact hcomes

end Never

/-! ## What is read back -/

theorem asProtos_eq_map : ∀ fs : List Func, asProtos fs = fs.map asProto
  | [] => rfl
  | f :: fs => by rw [asProtos, asProtos_eq_map fs, List.map_cons]

theorem at?_asProto : ∀ (path : List Nat) (f : Func),
    (asProto f).at? path = (f.at? path).map asProto
  | [], _ => rfl
  | i :: path, .mk ins c u ps n l => by
      rw [asProto, Proto.at?, Func.at?, Proto.prot, Func.prot, asProtos_eq_map, List.getElem?_map]
      cases ps[i]? with
      | none => rfl
      | some p => exact at?_asProto path p

theorem inst_asProto (f : Func) : (asProto f).inst = f.instructions.map asInst := by
  cases f
  rfl

theorem constants_asProto (f : Func) : (asProto f).constants = f.const.map asConst := by
  cases f
  rfl

/-- A name changes nothing else in the tree. -/
theorem at?_named (name : List Byte) {f G : Func} {path : List Nat} (h : f.at? path = some G) :
    ∃ G', (f.named name).at? path = some G' ∧ G'.instructions = G.instructions
      ∧ G'.const = G.const := by
  obtain ⟨i, c, u, ps, n, l⟩ := f
  cases path with
  | nil =>
      cases h
      exact ⟨_, rfl, rfl, rfl⟩
  | cons i path => exact ⟨G, h, rfl, rfl⟩

theorem tablesFit_named {name : List Byte} {f : Func} (h : f.All TablesFit) :
    (f.named name).All TablesFit := by
  obtain ⟨i, c, u, ps, n, l⟩ := f
  exact h

/-- Of a chunk whose tables fit, the tree is read with its fields cut. -/
theorem readChunk_named {f : Func} {name : Option (List Byte)} {bytes : List Byte}
    (h : compile f name = .ok bytes) (hfit : f.All TablesFit) {depth : Nat}
    (hdepth : f.depth ≤ depth) {st : ReaderBuffer} {rest : List Byte}
    (hst : Holds st (bytes ++ rest)) :
    ∃ st', readChunk depth st = .ok (asProto (f.named (name.getD [0x3f#8])), st') := by
  obtain ⟨tree, htree, h⟩ := Outcome.bind_eq_ok.mp h
  cases h
  rw [List.append_assoc] at hst
  obtain ⟨st1, hheader, hst1⟩ := verifyHeader_reads st _ hst
  obtain ⟨st2, hread, -⟩ := readPrototype_reads _ htree (tablesFit_named hfit)
    (depth_named.trans_le hdepth) st1 _ hst1
  refine ⟨st2, ?_⟩
  change (verifyHeader st >>= fun x => readPrototype depth x.2) = _
  rw [hheader]
  exact hread

/-! ## What is created -/

section Constants

variable {junk : Nat → BitVec 64} {w w' w'' : World}

/-- The constant at `i` is created after those before it, and its strings are
there from then on. -/
theorem createValues_at : ∀ {ks : List ProtoConst} {w w' : World} {vs : List Value},
    createValues junk w ks = .ok (w', vs) → ∀ {i : Nat} {k : ProtoConst}, ks[i]? = some k →
      ∃ w1 us w2 v, createValues junk w (ks.take i) = .ok (w1, us)
        ∧ createValue junk w1 k = .ok (w2, v) ∧ vs[i]? = some v ∧ w2.KeepsStrings w'
  | [], _, _, _, _, _, _, hi => nomatch hi
  | k :: ks, w, w', vs, h, i, k', hi => by
      obtain ⟨⟨w1, v⟩, hv, h⟩ := Outcome.bind_eq_ok.mp h
      obtain ⟨⟨w2, us⟩, hus, h⟩ := Outcome.bind_eq_ok.mp h
      cases h
      cases i with
      | zero =>
          cases hi
          have hgrows : w1.Grows junk w' := createValues_additive World.Grows.additive ks _ hus
          exact ⟨w, [], w1, v, rfl, hv, rfl, hgrows.strings⟩
      | succ i =>
          obtain ⟨w3, us', w4, v', hrun, hv', hat, hkeep⟩ := createValues_at hus hi
          refine ⟨w3, v :: us', w4, v', ?_, hv', hat, hkeep⟩
          rw [List.take_succ_cons, createValues, hv, Outcome.ok_bind]
          dsimp only
          rw [hrun]
          rfl

theorem internString_gives {str : List Byte} (bytes : List Byte) {v : Value}
    (h : internString w str = .ok (w', v)) (hkeep : w'.KeepsStrings w'') :
    v.type = .string ∧ ((∃ hash, w''.object v.addr = .ok (.string hash bytes))
      ↔ w.Gives w'' str bytes) := by
  obtain ⟨⟨w1, a⟩, hdb, h⟩ := Outcome.bind_eq_ok.mp h
  cases h
  refine ⟨rfl, ?_⟩
  obtain ⟨v, hget, hdb⟩ := Outcome.bind_eq_ok.mp hdb
  have hgives : w.Gives w'' str bytes ↔ if v.type = .inv then str = bytes
      else ∃ hash, w''.object v.addr = .ok (.string hash bytes) := by
    refine ⟨fun hg => hg v hget, fun hg v' hget' => ?_⟩
    rw [hget] at hget'
    cases hget'
    exact hg
  rw [hgives]
  by_cases hinv : v.type = .inv
  · rw [if_neg (not_not.mpr hinv)] at hdb
    rw [if_pos hinv]
    obtain ⟨⟨w2, b⟩, halloc, hdb⟩ := Outcome.bind_eq_ok.mp hdb
    obtain ⟨strings, -, hdb⟩ := Outcome.bind_eq_ok.mp hdb
    cases hdb
    have hself := object_alloc_self halloc
    obtain ⟨-, rfl, haddr⟩ := alloc_ok halloc
    have hlt : w.objects.length + 1 < 2 ^ 64 := by
      obtain ⟨hw, -, -⟩ := alloc_ok halloc
      rw [hw] at haddr
      simpa [World.Addressable] using haddr
    rw [addr_objValue hlt]
    have hobj : w''.object (w.objects.length + 1) = .ok (.string (murmur str 0) str) :=
      hkeep _ _ _ hself
    constructor
    · rintro ⟨hash, hbytes⟩
      rw [hobj] at hbytes
      exact (Obj.string.inj (Outcome.ok.inj hbytes)).2
    · rintro rfl
      exact ⟨_, hobj⟩
  · rw [if_pos hinv] at hdb
    rw [if_neg hinv]
    cases hdb
    rw [addr_objValue (show v.addr < 2 ^ 64 from v.obj.isLt)]

/-- What is created of a constant is the literal where the literal comes of
it; no boolean is created of a string or a number. -/
theorem denotes_createValue (lit : Literal) {const : Const} {v : Value}
    (hconst : ∀ b, const ≠ .boolean b) (h : createValue junk w (asConst const) = .ok (w', v))
    (hkeep : w'.KeepsStrings w'') : lit.Denotes w'' v ↔ lit.ComesOf w w'' (asConst const) := by
  cases const with
  | boolean b => exact absurd rfl (hconst b)
  | number n =>
      cases h
      cases lit with
      | number m => exact and_iff_right rfl
      | _ => simp [Literal.Denotes, Literal.ComesOf, asConst]
  | string s =>
      rw [asConst] at h ⊢
      by_cases hnil : s = nilName
      · rw [if_pos hnil] at h ⊢
        cases h
        cases lit <;> simp [Literal.Denotes, Literal.ComesOf]
      · rw [if_neg hnil] at h ⊢
        cases lit with
        | string t =>
            obtain ⟨htype, hiff⟩ := internString_gives (t ++ [0#8]) h hkeep
            exact (and_iff_right htype).trans hiff
        | _ =>
            have htype := (internString_gives [] h hkeep).1
            simp [Literal.Denotes, Literal.ComesOf, htype]

end Constants

/-! ## Programs -/

/-- The call of `gen` for a whole program. -/
def rootCall (e : Sexp) (st : GenState) : GenCall :=
  ⟨topCtx, e, false, false, { st with func := {} }⟩

theorem genSexp_root {env : GenEnv} {depth : Nat} {e : Sexp} {st st' : GenState} {func : Func}
    (h : genSexp env depth e st = .ok (func, st')) :
    ∃ st1, (rootCall e st).run (gen env depth) = .ok ((), st1) ∧ st1.func.KeptIn func := by
  obtain ⟨_, _, hempty, h⟩ := bind_ok.mp h
  cases hempty
  obtain ⟨_, st1, he, h⟩ := bind_ok.mp h
  obtain ⟨_, st2, hload, h⟩ := bind_ok.mp h
  obtain ⟨_, st3, hcall, h⟩ := bind_ok.mp h
  cases h
  cases hload
  cases hcall
  refine ⟨st1, he, ?_⟩
  exact (((FuncTable.grows_emit _ _ _).trans (FuncTable.grows_emit _ _ _)).trans
    (FuncTable.grows_emit _ _ _)).kept

/-- Where the `PUSH` of a literal is in what is loaded, and what it picks. -/
theorem literal_site {optTail inMacroWorld : Bool}
    {expand : List MacroCall → MacroCall → Except String (Sexp × List (Atom × Sexp))}
    {depth depth' : Nat} {e : Sexp} {st st' : GenState} {func : Func} {c : GenCall} {lit : Literal}
    (hgen : genSexp (sourceEnv optTail inMacroWorld expand) depth e st = .ok (func, st'))
    (hcalls : Calls (sourceEnv optTail inMacroWorld expand) depth (rootCall e st) depth' c)
    (hlit : c.Generates (sourceEnv optTail inMacroWorld expand) lit) :
    ∃ path F a, func.at? path = some F ∧ a % 256 = lit.operand c.st.func.const
      ∧ F.instructions[c.st.pos]? = some { op := .push, a := a }
      ∧ F.const[a % 256]? = (c.st.func.const ++ [lit.const])[lit.operand c.st.func.const]?
      ∧ F.const.take (a % 256) = c.st.func.const.take (lit.operand c.st.func.const)
      ∧ a % 256 < F.const.length ∧ c.st.func.Plain := by
  obtain ⟨st1, hroot, hkept⟩ := genSexp_root hgen
  obtain ⟨st2, hrun, hplain, hland⟩ := hcalls.landed hroot
  obtain ⟨line, a, st0, hpush, hst2⟩ := gen_literal hlit hrun
  obtain ⟨hop, hpre, hsub, hlt⟩ := pushConst_operand hpush
  obtain ⟨path, F, hat, hF⟩ := hland.grows hkept
  have hconst : st0.func.const <+: F.const := by
    have h := hF.const
    rw [hst2] at h
    exact h
  have hle : a % 256 < st0.func.const.length := Nat.lt_of_le_of_lt (Nat.mod_le ..) hlt
  have hpos : c.st.pos = st0.func.instructions.length := by
    rw [GenState.pos, ← pushConst_code hpush]
    rfl
  refine ⟨path, F, a, hat, hop, ?_, ?_, ?_, Nat.lt_of_lt_of_le hle hconst.length_le,
    hplain FuncTable.plain_empty⟩
  · obtain ⟨j, hj, hpatched⟩ := hF.code c.st.pos { op := .push, a := a } (by
      rw [hst2, hpos]
      exact List.getElem?_concat_length)
    rcases hpatched with rfl | ⟨htest | hjmp, -⟩
    · exact hj
    · cases htest
    · cases hjmp
  · rw [getElem?_prefix_eq hconst hle, ← getElem?_prefix_eq hsub hle, hop]
  · have hle' : lit.operand c.st.func.const ≤ c.st.func.const.length := by
      have h1 := hsub.length_le
      rw [List.length_append, List.length_singleton] at h1
      omega
    obtain ⟨r, hr⟩ := hpre.trans hconst
    rw [← hr, hop, List.take_append_of_le_length hle']

/-! ## Runs -/

/-- A `PUSH` puts the constant its operand picks, and changes nothing else. -/
theorem step_push {h : Host} {s s' : Vm} {a : Nat}
    (hat : s.func.prot.inst[s.pc]? = some (asInst { op := .push, a := a }))
    (hstep : s.step h = .ok s') :
    ∃ v, s.func.constants[a % 256]? = some v ∧ s'.stackTop = s.stackTop + 1
      ∧ s'.stack s.stackTop = v ∧ s'.world = s.world := by
  have hfetch : s.fetch = .ok (.push, a % 256, 0) := by
    rw [Vm.fetch, hat, Outcome.ofOption_some, Outcome.ok_bind]
    rfl
  rw [Vm.step, hfetch, Outcome.ok_bind] at hstep
  change Vm.next <$> s.pushFrom (Outcome.ofOption s.func.constants[a % 256]?) = _ at hstep
  obtain ⟨s1, hs1, rfl⟩ := Outcome.map_eq_ok.mp hstep
  obtain ⟨_, -, hs1⟩ := Outcome.bind_eq_ok.mp hs1
  obtain ⟨v, hv, hs1⟩ := Outcome.bind_eq_ok.mp hs1
  cases hs1
  exact ⟨v, Outcome.ofOption_eq_ok.mp hv, rfl, Function.update_self .., rfl⟩

/-- **Literals.** Wherever a literal stands in a program that is generated,
compiled and loaded, and in whatever run its `PUSH` is executed, the value
pushed is the literal's if and only if the constant that the operand picks
is one the literal comes of, where the closure was made. Runs are without
collections, which could free the table of strings. -/
theorem literal_exact_iff {optTail inMacroWorld : Bool}
    {expand : List MacroCall → MacroCall → Except String (Sexp × List (Atom × Sexp))}
    {depth depth' : Nat} {e : Sexp} {st st' : GenState} {func : Func} {c : GenCall} {lit : Literal}
    (hgen : genSexp (sourceEnv optTail inMacroWorld expand) depth e st = .ok (func, st'))
    (hcalls : Calls (sourceEnv optTail inMacroWorld expand) depth (rootCall e st) depth' c)
    (hlit : c.Generates (sourceEnv optTail inMacroWorld expand) lit)
    {name : Option (List Byte)} {bytes : List Byte} (hcompile : compile func name = .ok bytes)
    (htables : func.All TablesFit) {levels : Nat} (hlevels : func.depth ≤ levels)
    {buffer : ReaderBuffer} {rest : List Byte} (hbuffer : Holds buffer (bytes ++ rest)) :
    ∃ p buffer' path q, readChunk levels buffer = .ok (p, buffer') ∧ p.at? path = some q
      ∧ ∀ {h : Host} {s0 s s' : Vm}, Vm.NativesGrow h → s0.Unloaded →
        Relation.ReflTransGen (Vm.Moves h) s0 s → s.func.prot = q → s.pc = c.st.pos →
        s.step h = .ok s' → s.func.Made h.junk s.world
          ∧ ∀ w0 w1, createValues h.junk w0 q.constants = .ok (w1, s.func.constants) →
            w1.KeepsStrings s.world →
            (s.Evaluates s' lit ↔ lit.Survives h.junk c.st.func.const w0 s.world) := by
  obtain ⟨buffer', hread⟩ := readChunk_named hcompile htables hlevels hbuffer
  obtain ⟨path, F, a, hat, hop, hinst, hconst, htake, hlt, hplain⟩ :=
    literal_site hgen hcalls hlit
  obtain ⟨G, hG, hinstG, hconstG⟩ := at?_named (name.getD [0x3f#8]) hat
  refine ⟨_, buffer', path, asProto G, hread, by rw [at?_asProto, hG]; rfl, ?_⟩
  intro h s0 s s' hnative hstart hrun hprot hpc hstep
  refine ⟨((Vm.after_moves hnative hrun).closed hstart.closed).func, fun w0 w1 hmade hkeep => ?_⟩
  have hat' : s.func.prot.inst[s.pc]? = some (asInst { op := .push, a := a }) := by
    rw [hprot, hpc, inst_asProto, hinstG, List.getElem?_map, hinst]
    rfl
  obtain ⟨v, hv, htop, hstack, hworld⟩ := step_push hat' hstep
  -- the constant at the operand, and what it was before it was compiled
  obtain ⟨k, hk⟩ : ∃ k, F.const[a % 256]? = some k := ⟨_, List.getElem?_eq_getElem hlt⟩
  have hpick : (c.st.func.const ++ [lit.const])[lit.operand c.st.func.const]? = some k :=
    hconst.symm.trans hk
  have hbool : ∀ b, k ≠ .boolean b := by
    rcases List.mem_append.mp (List.mem_of_getElem? hpick) with hmem | hmem
    · exact hplain k hmem
    · rw [List.mem_singleton.mp hmem]
      cases lit <;> nofun
  have hproto : (asProto G).constants[a % 256]? = some (asConst k) := by
    rw [constants_asProto, hconstG, List.getElem?_map, hk]
    rfl
  obtain ⟨w2, us, w3, v', hbefore, hcreate, hv', hkeep'⟩ := createValues_at hmade hproto
  obtain rfl : v' = v := Option.some.inj (hv'.symm.trans hv)
  rw [constants_asProto, hconstG, ← List.map_take, htake, List.map_take] at hbefore
  have hdenotes := denotes_createValue lit hbool hcreate (hkeep'.trans hkeep)
  unfold Vm.Evaluates
  rw [hstack, hworld, hdenotes]
  constructor
  · rintro ⟨-, hcomes⟩
    exact ⟨k, w2, us, hpick, hbefore, hcomes⟩
  · rintro ⟨k', w2', us', hpick', hbefore', hcomes⟩
    rw [hpick] at hpick'
    cases hpick'
    rw [hbefore] at hbefore'
    cases hbefore'
    exact ⟨htop, hcomes⟩

/-! ## A number and a boolean -/

theorem nativesGrow_idle : Vm.NativesGrow idleHost := by
  intro f w args r hr
  cases hr
  exact .rfl

theorem compile_of_isSome (func : Func) (h : (compile func none).toOption.isSome = true) :
    ∃ bytes, compile func none = .ok bytes := by
  obtain ⟨bytes, hbytes⟩ := Option.isSome_iff_exists.mp h
  exact ⟨bytes, Outcome.toOption_eq_some.mp hbytes⟩

theorem unloaded_emptyVm : emptyVm.Unloaded :=
  ⟨fun _ hf => absurd hf List.not_mem_nil, rfl, rfl, rfl⟩

/-- The program `7`, and what is read of it. -/
def sevenFunc : Func :=
  .mk [⟨.push, 0, 0⟩, ⟨.load, 0, 0⟩, ⟨.call, 1, 0⟩, ⟨.return, 0, 0⟩] [.number 7#64] [] [] none
    [1, 1, 1, 1]

def sevenProto : Proto :=
  .mk [⟨0x00#8, 0#8, 0#16⟩, ⟨0x18#8, 0#8, 0#16⟩, ⟨0x13#8, 1#8, 0#16⟩, ⟨0x12#8, 0#8, 0#16⟩]
    [.number 7#64] [] [] [0x3f#8, 0#8] [1#32, 1#32, 1#32, 1#32]

theorem literal_exact_iff_seven :
    ∃ s s', Relation.ReflTransGen (Vm.Moves idleHost) emptyVm s ∧ s.func.prot = sevenProto
      ∧ s.step idleHost = .ok s'
      ∧ ∀ w0 w1, createValues idleHost.junk w0 sevenProto.constants = .ok (w1, s.func.constants) →
        w1.KeepsStrings s.world →
        (s.Evaluates s' (.number 7#64)
          ↔ (Literal.number 7#64).Survives idleHost.junk [] w0 s.world) := by
  have htables : sevenFunc.All TablesFit := ⟨by unfold TablesFit; decide, trivial⟩
  have hdepth : sevenFunc.depth ≤ 1 := by decide
  obtain ⟨st', hgen⟩ := genSexp_of_generate
    (show generate (.number 7#64 1) = some sevenFunc from rfl)
  obtain ⟨bytes, hcompile⟩ := compile_of_isSome sevenFunc (by decide +kernel)
  have hbuf : Holds ⟨bytes, []⟩ (bytes ++ []) := by simp [Holds]
  obtain ⟨buffer', hread'⟩ := readChunk_named hcompile htables hdepth hbuf
  have hlit : GenCall.Generates (sourceEnv true false noMacros) (rootCall (.number 7#64 1) genStart)
      (.number 7#64) := ⟨1, rfl, fun _ h => Literal.noConfusion h⟩
  obtain ⟨p, _, path, q, hread, hat, hruns⟩ :=
    literal_exact_iff hgen .refl hlit hcompile htables hdepth hbuf
  obtain rfl : p = sevenProto := by
    rw [hread'] at hread
    cases hread
    rfl
  obtain rfl : q = sevenProto := by
    cases path with
    | nil => exact (Option.some.inj hat).symm
    | cons i path => cases hat
  obtain ⟨n, s1, s, s', hload, henter, hprot, hpc, hstep⟩ : ∃ n s1 s s',
      pushLoaded idleHost emptyVm sevenProto = .ok (n, s1) ∧ s1.suEnter 0 = .ok s
        ∧ s.func.prot = sevenProto ∧ s.pc = 0 ∧ s.step idleHost = .ok s' :=
    ⟨_, _, _, _, rfl, rfl, rfl, rfl, rfl⟩
  have hrun : Relation.ReflTransGen (Vm.Moves idleHost) emptyVm s :=
    .tail (.single (.load sevenProto hload)) (.enter 0 henter)
  exact ⟨s, s', hrun, hprot, hstep,
    (hruns nativesGrow_idle unloaded_emptyVm hrun hprot hpc hstep).2⟩

/-- The call of `gen` for the `true` in `(lambda (...) true)`, which is what
`start` reads of the source `true`. -/
def trueCall : GenCall :=
  ⟨⟨⟨[atom ['.', '.', '.']], false⟩, [⟨[], true⟩]⟩, (Literal.boolean true).node 1, true, false,
    genStart⟩

def trueProgram : Sexp :=
  .sexp [.symbol (atom ['l', 'a', 'm', 'b', 'd', 'a']) 1,
    .sexp [.symbol (atom ['.', '.', '.']) 1] 1, (Literal.boolean true).node 1] 1

def trueFunc : Func :=
  .mk [⟨.lambda, 0, 1⟩, ⟨.load, 0, 0⟩, ⟨.call, 1, 0⟩, ⟨.return, 0, 0⟩] [] []
    [.mk [⟨.push, 0, 0⟩, ⟨.return, 0, 0⟩] [.string (Literal.booleanAtom true)] [] [] none [1, 1]]
    none [1, 1, 1, 1]

/-- What is read of the function in it, and of the whole. -/
def trueLambda : Proto :=
  .mk [⟨0x00#8, 0#8, 0#16⟩, ⟨0x12#8, 0#8, 0#16⟩]
    [.string [0x74#8, 0x72#8, 0x75#8, 0x65#8, 0#8]] [] [] [] [1#32, 1#32]

def trueProto : Proto :=
  .mk [⟨0x15#8, 0#8, 1#16⟩, ⟨0x18#8, 0#8, 0#16⟩, ⟨0x13#8, 1#8, 0#16⟩, ⟨0x12#8, 0#8, 0#16⟩]
    [] [] [trueLambda] [0x3f#8, 0#8] [1#32, 1#32, 1#32, 1#32]

theorem calls_trueCall :
    Calls (sourceEnv true false noMacros) 8 (rootCall trueProgram genStart) 7 trueCall := by
  refine .step .refl fun heq => ?_
  obtain ⟨k, hk⟩ : ∃ k : Unit × GenState → Except String (Unit × GenState), ∀ g : Gen,
      (rootCall trueProgram genStart).run (genNode (sourceEnv true false noMacros) g)
        = trueCall.run g >>= k := ⟨_, fun _ => rfl⟩
  have hfail : ∀ g : Gen, trueCall.run (g.failAt trueCall) = .error "" := fun _ => if_pos rfl
  rw [hk, hfail] at heq
  exact nomatch heq

/-- The literal `true` evaluates to a string. -/
theorem true_is_string :
    ∃ func st' bytes buffer' s s',
      genSexp (sourceEnv true false noMacros) 8 trueProgram genStart = .ok (func, st')
      ∧ Calls (sourceEnv true false noMacros) 8 (rootCall trueProgram genStart) 7 trueCall
      ∧ trueCall.Generates (sourceEnv true false noMacros) (.boolean true)
      ∧ compile func none = .ok bytes ∧ readChunk 2 ⟨bytes, []⟩ = .ok (trueProto, buffer')
      ∧ Relation.ReflTransGen (Vm.Moves idleHost) emptyVm s ∧ s.func.prot = trueLambda
      ∧ s.pc = trueCall.st.pos ∧ s.step idleHost = .ok s'
      ∧ (s'.stack s.stackTop).type = .string ∧ ¬ s.Evaluates s' (.boolean true) := by
  have htables : trueFunc.All TablesFit :=
    ⟨by unfold TablesFit; decide, ⟨by unfold TablesFit; decide, trivial⟩, trivial⟩
  obtain ⟨st', hgen⟩ := genSexp_of_generate (show generate trueProgram = some trueFunc from rfl)
  obtain ⟨bytes, hcompile⟩ := compile_of_isSome trueFunc (by decide +kernel)
  have hbuf : Holds ⟨bytes, []⟩ (bytes ++ []) := by simp [Holds]
  obtain ⟨buffer', hread⟩ :=
    readChunk_named hcompile htables (show trueFunc.depth ≤ 2 by decide) hbuf
  obtain ⟨n, s1, s2, s3, s4, s, s', hload, henter, h3, h4, h5, hprot, hpc, hstep, htype⟩ :
      ∃ n s1 s2 s3 s4 s s', pushLoaded idleHost emptyVm trueProto = .ok (n, s1)
        ∧ s1.suEnter 0 = .ok s2 ∧ s2.step idleHost = .ok s3 ∧ s3.step idleHost = .ok s4
        ∧ s4.step idleHost = .ok s ∧ s.func.prot = trueLambda ∧ s.pc = 0
        ∧ s.step idleHost = .ok s' ∧ (s'.stack s.stackTop).type = .string :=
    ⟨_, _, _, _, _, _, _, rfl, rfl, rfl, rfl, rfl, rfl, rfl, rfl, rfl⟩
  refine ⟨trueFunc, st', bytes, buffer', s, s', hgen, calls_trueCall,
    ⟨1, rfl, fun _ h => Literal.noConfusion h⟩, hcompile, hread, ?_, hprot, hpc, hstep, htype,
    fun heval => ?_⟩
  · exact .tail (.tail (.tail (.tail (.single (.load trueProto hload)) (.enter 0 henter))
      (.turn h3)) (.turn h4)) (.turn h5)
  · have hbool : (s'.stack s.stackTop).type = .boolean := heval.2.1
    rw [htype] at hbool
    cases hbool

end Saurus
