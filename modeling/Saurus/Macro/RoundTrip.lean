import Saurus.Macro.Build

/-!
# The round trip of a quote

From the syntax tree of a datum to the code that builds it, the value it
leaves, the Lua value made of that and the syntax tree made of it in turn.
Nothing is lost on the way, but `list_to_vec` turns every list round: what
comes back is the mirror of the datum, and the datum itself only where the
two are the same (`quote_round_trip_iff`).
-/

namespace Saurus

open Basis Basis.Codec

/-! ## The site of a quote -/

/-- The call generates `(quote x)`, which is not taken for a macro. -/
def GenCall.Quotes (env : GenEnv) (c : GenCall) (x : Sexp) : Prop :=
  c.quoted = false ∧ (∃ line line' more, c.e = .sexp (.symbol quoteAtom line :: x :: more) line')
    ∧ (env.inMacroWorld = true ∨ c.st.macros.lookup quoteAtom = none)

/-- What is generated for the call is what is generated for `x` in a quote.
`gen_list` hands only an atom back to `gen`, which then has the smaller
depth. -/
theorem GenCall.Quotes.run {optTail inMacroWorld : Bool}
    {expand : List MacroCall → MacroCall → Except String (Sexp × List (Atom × Sexp))}
    {c : GenCall} {x : Sexp} (hquote : c.Quotes (sourceEnv optTail inMacroWorld expand) x)
    (depth : Nat) :
    ∃ depth', depth ≤ depth' ∧ c.run (gen (sourceEnv optTail inMacroWorld expand) (depth + 1))
      = gen (sourceEnv optTail inMacroWorld expand) depth' c.ctx x c.tail true c.st := by
  obtain ⟨ctx, e, tail, quoted, st⟩ := c
  obtain ⟨rfl, ⟨line, line', more, rfl⟩, hmacro⟩ := hquote
  have hno : isMacro (sourceEnv optTail inMacroWorld expand) st.macros
      (.symbol quoteAtom line :: x :: more) = none := by
    rcases hmacro with hworld | hnone
    · obtain rfl : inMacroWorld = true := hworld
      rfl
    · rw [isMacro, show st.macros.lookup quoteAtom = none from hnone]
      simp
  have hlist : GenCall.run ⟨ctx, .sexp (.symbol quoteAtom line :: x :: more) line', tail, false, st⟩
      (gen (sourceEnv optTail inMacroWorld expand) (depth + 1))
      = genList (sourceEnv optTail inMacroWorld expand)
        (gen (sourceEnv optTail inMacroWorld expand) depth) ctx x tail st := by
    rw [GenCall.run, gen_succ]
    dsimp only [genNode]
    rw [if_neg Bool.false_ne_true]
    dsimp only [bind, StateT.bind, get, getThe, MonadStateOf.get, StateT.get, pure, Except.pure,
      Except.bind]
    rw [hno]
    rfl
  rw [hlist]
  cases x with
  | number n l => exact ⟨depth, Nat.le_refl _, rfl⟩
  | symbol a l => exact ⟨depth, Nat.le_refl _, rfl⟩
  | sexp data l => exact ⟨depth + 1, Nat.le_succ _, rfl⟩

theorem gen_quotes {optTail inMacroWorld : Bool}
    {expand : List MacroCall → MacroCall → Except String (Sexp × List (Atom × Sexp))}
    {depth : Nat} {c : GenCall} {x : Sexp} {st' : GenState}
    (hquote : c.Quotes (sourceEnv optTail inMacroWorld expand) x) (hctx : c.ctx.NoList)
    (hx : x.datum.Quotable)
    (h : c.run (gen (sourceEnv optTail inMacroWorld expand) depth) = .ok ((), st')) :
    ∃ op, (op = .call ∨ op = .tcall ∧ c.tail = true) ∧ QuoteMade c.st st' op x.datum := by
  cases depth with
  | zero => cases h
  | succ depth =>
      obtain ⟨depth', -, hrun⟩ := hquote.run depth
      exact gen_quoted hctx depth' x c.tail c.st st' (hrun.symm.trans h) hx

/-- Where the code of a quote is in the program. -/
theorem quote_site {optTail inMacroWorld : Bool}
    {expand : List MacroCall → MacroCall → Except String (Sexp × List (Atom × Sexp))}
    {depth depth' : Nat} {e x : Sexp} {st st' : GenState} {func : Func} {c : GenCall}
    (hgen : genSexp (sourceEnv optTail inMacroWorld expand) depth e st = .ok (func, st'))
    (hcalls : Calls (sourceEnv optTail inMacroWorld expand) depth (rootCall e st) depth' c)
    (hquote : c.Quotes (sourceEnv optTail inMacroWorld expand) x) (hctx : c.ctx.NoList)
    (hx : x.datum.Quotable) :
    ∃ path F op hi, func.at? path = some F ∧ (op = .call ∨ op = .tcall ∧ c.tail = true)
      ∧ QuoteAt F.instructions F.const op x.datum c.st.pos hi := by
  obtain ⟨st1, hroot, hkept⟩ := genSexp_root hgen
  obtain ⟨st2, hrun, -, hland⟩ := hcalls.landed hroot
  obtain ⟨op, hop, hmade⟩ := gen_quotes hquote hctx hx hrun
  obtain ⟨path, F, hat, hF⟩ := hland.grows hkept
  refine ⟨path, F, op, st2.pos, hat, hop, hmade.made.keep hF.codeKept ?_ ?_⟩
  · rcases hop with rfl | ⟨rfl, -⟩ <;> decide
  · rcases hop with rfl | ⟨rfl, -⟩ <;> decide

/-! ## What it takes -/

/-- In a closure of a prototype with the constants `K`, made in `w0`, the
constant at `i` is one that the literal comes of. -/
def Literal.SurvivesAt (lit : Literal) (junk : Nat → BitVec 64) (K : List Const) (w0 w' : World)
    (i : Nat) : Prop :=
  ∃ k w vs, K[i]? = some k ∧ createValues junk w0 ((K.map asConst).take i) = .ok (w, vs)
    ∧ lit.ComesOf w w' (asConst k)

theorem Literal.SurvivesAt.denotes {lit : Literal} {junk : Nat → BitVec 64} {K : List Const}
    {w0 w1 w' : World} {i : Nat} {vs : List Value} (h : lit.SurvivesAt junk K w0 w' i)
    (hmade : createValues junk w0 (K.map asConst) = .ok (w1, vs)) (hkeep : w1.KeepsStrings w') :
    ∃ v, vs[i]? = some v ∧ lit.Denotes w' v := by
  obtain ⟨k, w, us, hk, hbefore, hcomes⟩ := h
  have hproto : (K.map asConst)[i]? = some (asConst k) := by
    rw [List.getElem?_map, hk]
    rfl
  obtain ⟨w2, us', w3, v, hbefore', hcreate, hv, hkeep'⟩ := createValues_at hmade hproto
  rw [hbefore] at hbefore'
  cases hbefore'
  have hbool : ∀ b, k ≠ .boolean b := by
    rintro b rfl
    cases lit <;> cases b <;> exact hcomes
  exact ⟨v, hv, (denotes_createValue lit hbool hcreate (hkeep'.trans hkeep)).mpr hcomes⟩

/-- The datum is within the limits on the way, in a state whose function has
the constants `K` and was made in `w0`: its lists are not too long for their
`CALL`, every atom is what its `PUSH` picks, the global `list` is the native,
and there is room on the stack and for the cells. A quote in tail position
has a frame to leave. -/
structure QuoteFits (h : Host) (K : List Const) (w0 : World) (s : Vm) (tail : Bool) (d : Datum) :
    Prop where
  narrow : d.Narrow
  survive : ∀ lit ∈ d.literals, ∀ a, Picks K lit.const a →
    lit.SurvivesAt h.junk K w0 s.world (a % 256)
  list : ∀ a, Picks K (.string listAtom) a →
    ∃ f, getGlobal s.world s.func (a % 256) = .ok f ∧ f.type = .nativefunc ∧ RunsList h f.obj
  room : s.stackTop + d.height ≤ stackSize
  memory : s.world.objects.length + d.cells < 2 ^ 64
  frame : tail = true → ∃ frame, s.frame = .ok frame ∧ frame.stackTop ≤ s.stackTop

/-- The code of the quote leaves a value on the stack of which, then or
later, the datum is rebuilt. -/
def RoundTrips (h : Host) (s : Vm) (d : Datum) : Prop :=
  ∃ s', Vm.turns h d.codeLength s = .ok s' ∧ 0 < s'.stackTop
    ∧ ∀ w, s'.world.Extends w → ∀ name line,
      Rebuilds h.junk w (s'.stack (s'.stackTop - 1)) name line d

/-- The code of a quote leaves its datum on the stack, in whichever way it
calls `list` last. -/
theorem quote_shows {h : Host} {K : List Const} {code : List Instr} {s : Vm} {op : Op} {d : Datum}
    {hi : Nat} {tail : Bool} (hop : op = .call ∨ op = .tcall ∧ tail = true)
    (hat : QuoteAt code K op d s.pc hi) (hq : d.Quotable) (hn : d.Narrow)
    (hr : Ready h K code s d.literals d.height d.cells)
    (hframe : tail = true → ∃ frame, s.frame = .ok frame ∧ frame.stackTop ≤ s.stackTop) :
    ∃ s', Vm.turns h d.codeLength s = .ok s' ∧ 0 < s'.stackTop
      ∧ d.Shows s'.world (s'.stack (s'.stackTop - 1)) := by
  have hcall : QuoteAt code K .call d s.pc hi → ∃ s', Vm.turns h d.codeLength s = .ok s'
      ∧ 0 < s'.stackTop ∧ d.Shows s'.world (s'.stack (s'.stackTop - 1)) := by
    intro hat
    obtain ⟨s', hrun, hp, hshows⟩ := hat.run hq hn hr rfl
    exact ⟨s', hrun, by rw [hp.stackTop]; omega, by rwa [hp.stackTop, Nat.add_sub_cancel]⟩
  rcases hop with rfl | ⟨rfl, htail⟩
  · exact hcall hat
  · cases d with
    | number n => exact hcall hat
    | symbol a => exact hcall hat
    | list ds =>
        obtain ⟨a, mid, -, hpicks, hget, hall, htcall⟩ := hat
        obtain ⟨frame, hframe, hle⟩ := hframe htail
        obtain ⟨s2, hrun, hp, htype, hlist, hshows⟩ := elements_run hget hpicks hr
          fun s1 hpc1 hr1 => quoteAllAt_run hall hq.2.2 hn.2 hr1 hpc1
        have hmem := hr.memory
        have hroom := hr.room
        have hheight := Datum.length_lt_height ds
        rw [Datum.cells] at hmem
        rw [Datum.height] at hroom
        have hframe2 : s2.frame = .ok frame := by
          rw [Vm.frame, hp.frames, hp.frameTop]
          exact hframe
        obtain ⟨s3, hstep, hadds, htop, hchain⟩ := Vm.step_tcallChain (h := h)
          (List.length_pos_of_ne_nil hq.1) hn.1 (by rw [hp.func, hp.pc]; exact hr.code _ _ htcall)
          hframe2 hle hp.stackTop (by rw [hp.stackTop]; omega) htype hlist
          (by rw [hp.world.length]; omega)
        refine ⟨s3, ?_, by rw [htop]; omega, ?_⟩
        case refine_2 =>
          rw [htop, Nat.add_sub_cancel]
          exact ⟨hq.1, Datum.showsAll_of_chained hadds.objects hshows hchain⟩
        rw [Datum.codeLength,
          show Datum.codeLengthAll ds + 2 = Datum.codeLengthAll ds + 1 + 1 from rfl,
          Vm.turns_add 1 hrun, Vm.turns, hstep]
        rfl

theorem roundTrips_iff_mirror {h : Host} {s s' : Vm} {d : Datum}
    (hrun : Vm.turns h d.codeLength s = .ok s') (htop : 0 < s'.stackTop)
    (hshows : d.Shows s'.world (s'.stack (s'.stackTop - 1))) :
    RoundTrips h s d ↔ d.mirror = d := by
  constructor
  · rintro ⟨s2, hrun2, -, hback⟩
    cases hrun.symm.trans hrun2
    exact (rebuilds_mirror hshows [] 0).unique (hback _ .rfl [] 0)
  · intro hmirror
    refine ⟨s', hrun, htop, fun w hw name line => ?_⟩
    have hback : Rebuilds h.junk w _ name line d.mirror :=
      rebuilds_mirror (hshows.extends hw) name line
    rwa [hmirror] at hback

/-- Within the limits the datum comes back if and only if it is its mirror. -/
theorem fits_iff_mirror {h : Host} {K : List Const} {code : List Instr} {w0 w1 : World} {s : Vm}
    {op : Op} {d : Datum} {hi : Nat} {tail : Bool} (hop : op = .call ∨ op = .tcall ∧ tail = true)
    (hat : QuoteAt code K op d s.pc hi) (hq : d.Quotable)
    (hcode : ∀ (pc : Nat) (i : Instr), code[pc]? = some i → s.func.prot.inst[pc]? = some (asInst i))
    (hmade : createValues h.junk w0 (K.map asConst) = .ok (w1, s.func.constants))
    (hkeep : w1.KeepsStrings s.world) (hfits : QuoteFits h K w0 s tail d) :
    RoundTrips h s d ↔ d.mirror = d := by
  have hr : Ready h K code s d.literals d.height d.cells :=
    ⟨hcode, fun lit hlit a ha => (hfits.survive lit hlit a ha).denotes hmade hkeep, hfits.list,
      hfits.room, hfits.memory⟩
  obtain ⟨s', hrun, htop, hshows⟩ := quote_shows hop hat hq hfits.narrow hr hfits.frame
  exact roundTrips_iff_mirror hrun htop hshows

/-- **The round trip.** Wherever a datum is quoted in a program that is
generated, compiled and loaded, and in whatever run its code is reached, then
within the limits on the way the datum is rebuilt of the value left on the
stack if and only if it is its own mirror. No collection happens in the run,
nor before the value is rebuilt: one could free cells of the list. -/
theorem quote_round_trip_iff {optTail inMacroWorld : Bool}
    {expand : List MacroCall → MacroCall → Except String (Sexp × List (Atom × Sexp))}
    {depth depth' : Nat} {e x : Sexp} {st st' : GenState} {func : Func} {c : GenCall}
    (hgen : genSexp (sourceEnv optTail inMacroWorld expand) depth e st = .ok (func, st'))
    (hcalls : Calls (sourceEnv optTail inMacroWorld expand) depth (rootCall e st) depth' c)
    (hquote : c.Quotes (sourceEnv optTail inMacroWorld expand) x) (hctx : c.ctx.NoList)
    (hx : x.datum.Quotable)
    {name : Option (List Byte)} {bytes : List Byte} (hcompile : compile func name = .ok bytes)
    (htables : func.All TablesFit) {levels : Nat} (hlevels : func.depth ≤ levels)
    {buffer : ReaderBuffer} {rest : List Byte} (hbuffer : Holds buffer (bytes ++ rest)) :
    ∃ p buffer' path F q, readChunk levels buffer = .ok (p, buffer') ∧ func.at? path = some F
      ∧ p.at? path = some q
      ∧ ∀ {h : Host} {s0 s : Vm}, Vm.NativesGrow h → s0.Unloaded →
        Relation.ReflTransGen (Vm.Moves h) s0 s → s.func.prot = q → s.pc = c.st.pos →
        s.func.Made h.junk s.world
          ∧ ∀ w0 w1, createValues h.junk w0 q.constants = .ok (w1, s.func.constants) →
            w1.KeepsStrings s.world → QuoteFits h F.const w0 s c.tail x.datum →
            (RoundTrips h s x.datum ↔ x.datum.mirror = x.datum) := by
  obtain ⟨buffer', hread⟩ := readChunk_named hcompile htables hlevels hbuffer
  obtain ⟨path, F, op, hi, hat, hop, hcode⟩ := quote_site hgen hcalls hquote hctx hx
  obtain ⟨G, hG, hinstG, hconstG⟩ := at?_named (name.getD [0x3f#8]) hat
  refine ⟨_, buffer', path, F, asProto G, hread, hat, by rw [at?_asProto, hG]; rfl, ?_⟩
  intro h s0 s hnative hstart hrun hprot hpc
  refine ⟨((Vm.after_moves hnative hrun).closed hstart.closed).func,
    fun w0 w1 hmade hkeep hfits => ?_⟩
  rw [← hpc] at hcode
  refine fits_iff_mirror hop hcode hx (fun pc i hi => ?_) ?_ hkeep hfits
  · rw [hprot, inst_asProto, hinstG, List.getElem?_map, hi]
    rfl
  · rwa [constants_asProto, hconstG] at hmade

/-! ## Two lists -/

/-- A host with one native, `list`. -/
def listHost : Host :=
  { idleHost with native := fun _ w window =>
      (fun r => ⟨r.1, r.2, fun i => window.getD i ⟨.nil, 0#64⟩⟩)
        <$> listNative idleHost.junk w window.tail }

theorem runsList_listHost (p : BitVec 64) : RunsList listHost p := by
  intro w f args
  change (fun r : Reply => (r.world, r.ret)) <$> ((fun r : World × Option Value =>
    (⟨r.1, r.2, fun i => (f :: args).getD i ⟨.nil, 0#64⟩⟩ : Reply))
      <$> listNative idleHost.junk w args) = listNative idleHost.junk w args
  cases listNative idleHost.junk w args <;> rfl

section Additive

variable {R : World → World → Prop} (hR : World.Additive R)

include hR

theorem cellCreateArray_additive {junk : Nat → BitVec 64} : ∀ (vs : List Value) {w : World},
    Outcome.Ensures (cellCreateArray junk w vs) fun r => R w r.1
  | [], _ => Outcome.ensures_ok (hR.of_objects rfl)
  | v :: vs, _ => .bind fun x hx => .bind fun r hr => Outcome.ensures_ok
      (hR.trans (cellCreateArray_additive vs x hx) (hR.alloc (o := .cell v x.2) nofun r hr))

theorem additive_listHost {f : BitVec 64} {w : World} {args : List Value} {r : Reply}
    (hr : listHost.native f w args = .ok r) : R w r.world := by
  have hlist : Outcome.Ensures (listNative idleHost.junk w args.tail) fun r => R w r.1 := by
    unfold listNative
    split
    · exact .bind fun x hx => Outcome.ensures_ok (cellCreateArray_additive hR _ x hx)
    · exact Outcome.ensures_ok hR.rfl
  obtain ⟨x, hx, rfl⟩ := Outcome.map_eq_ok.mp hr
  exact hlist x hx

end Additive

theorem nativesGrow_listHost : Vm.NativesGrow listHost :=
  fun _ _ _ _ => additive_listHost World.Grows.additive

/-- The world of `emptyVm` with the global `list`. -/
def listWorld : World :=
  ((do
    let (w, key) ← internString ⟨[.map mapCreateEmpty], mapCreateEmpty, 1, 0, 0⟩ (listAtom ++ [0#8])
    insertGlobal w key (← hashValue w key) ⟨.nativefunc, 1#64⟩ : Outcome World)).toOption.getD
      emptyWorld

def listVm : Vm := { emptyVm with world := listWorld }

theorem unloaded_listVm : listVm.Unloaded := by
  refine ⟨fun f hf => ?_, rfl, rfl, rfl⟩
  obtain ⟨m, hobjects⟩ : ∃ m, listWorld.objects
      = [.map mapCreateEmpty, .string (murmur (listAtom ++ [0#8]) 0) (listAtom ++ [0#8]), .map m] :=
    ⟨_, rfl⟩
  rw [show listVm.world.objects = _ from hobjects] at hf
  simp at hf

/-- The program `(quote (m n))`. -/
def quoteTwo (m n : BitVec 64) : Sexp :=
  .sexp [.symbol quoteAtom 1, .sexp [.number m 1, .number n 1] 1] 1

/-- What is generated of it, with the operands `a` and `b` for the numbers. -/
def quoteTwoFunc (K : List Const) (a b : Nat) : Func :=
  .mk [⟨.getglobal, 0, 0⟩, ⟨.push, a, 0⟩, ⟨.push, b, 0⟩, ⟨.call, 2, 0⟩, ⟨.load, 0, 0⟩,
    ⟨.call, 1, 0⟩, ⟨.return, 0, 0⟩] K [] [] none [1, 1, 1, 1, 1, 1, 1]

theorem generate_same : generate (quoteTwo 1#64 1#64)
    = some (quoteTwoFunc [.string listAtom, .number 1#64] 1 1) := rfl

theorem generate_differing : generate (quoteTwo 1#64 2#64)
    = some (quoteTwoFunc [.string listAtom, .number 1#64, .number 2#64] 1 2) := rfl

def sameConst : List Const := [.string listAtom, .number 1#64]

def differingConst : List Const := [.string listAtom, .number 1#64, .number 2#64]

/-- What is read of the two programs. -/
def sameProto : Proto := asProto ((quoteTwoFunc sameConst 1 1).named [0x3f#8])

def differingProto : Proto := asProto ((quoteTwoFunc differingConst 1 2).named [0x3f#8])

theorem picks_same_number {a : Nat} (h : Picks sameConst (.number 1#64) a) : a = 1 := by
  rcases h with h | ⟨-, hne⟩
  · exact (Option.some.inj h).symm
  · exact absurd hne (by decide)

theorem picks_same_list {a : Nat} (h : Picks sameConst (.string listAtom) a) : a = 0 := by
  rcases h with h | ⟨-, hne⟩
  · exact (Option.some.inj h).symm
  · exact absurd hne (by decide)

theorem same_at? {path : List Nat} {F : Func}
    (h : (quoteTwoFunc sameConst 1 1).at? path = some F) : F = quoteTwoFunc sameConst 1 1 := by
  cases path with
  | nil => exact (Option.some.inj h).symm
  | cons i path => cases h

/-- The list `(1 1)` comes back. -/
theorem quote_round_trip_same :
    ∃ s, Relation.ReflTransGen (Vm.Moves listHost) listVm s ∧ s.func.prot = sameProto ∧ s.pc = 0
      ∧ RoundTrips listHost s (.list [.number 1#64, .number 1#64]) := by
  have htables : (quoteTwoFunc sameConst 1 1).All TablesFit :=
    ⟨by unfold TablesFit; decide, trivial⟩
  have hdepth : (quoteTwoFunc sameConst 1 1).depth ≤ 1 := by decide
  obtain ⟨st', hgen⟩ := genSexp_of_generate generate_same
  obtain ⟨bytes, hcompile⟩ := compile_of_isSome (quoteTwoFunc sameConst 1 1) (by decide +kernel)
  have hbuf : Holds ⟨bytes, []⟩ (bytes ++ []) := by simp [Holds]
  obtain ⟨buffer', hread'⟩ := readChunk_named hcompile htables hdepth hbuf
  have hquote : (rootCall (quoteTwo 1#64 1#64) genStart).Quotes (sourceEnv true false noMacros)
      (.sexp [.number 1#64 1, .number 1#64 1] 1) := ⟨rfl, ⟨1, 1, [], rfl⟩, Or.inr rfl⟩
  obtain ⟨p, _, path, F, q, hread, hatF, hat, hruns⟩ := quote_round_trip_iff hgen .refl hquote
    ⟨rfl, rfl⟩
    ⟨List.cons_ne_nil _ _, fun h => Datum.noConfusion (Option.some.inj h), trivial, trivial,
      trivial⟩ hcompile htables hdepth hbuf
  obtain rfl : p = sameProto := by
    rw [hread'] at hread
    cases hread
    rfl
  obtain rfl := same_at? hatF
  obtain rfl : q = sameProto := by
    cases path with
    | nil => exact (Option.some.inj hat).symm
    | cons i path => cases hat
  obtain ⟨n, s1, s, f, w1, o, hload, henter, hprot, hpc, hget, htype, hmade, htop, hworld, hlen⟩ :
      ∃ n s1 s f w1 o, pushLoaded listHost listVm sameProto = .ok (n, s1) ∧ s1.suEnter 0 = .ok s
        ∧ s.func.prot = sameProto ∧ s.pc = 0 ∧ getGlobal s.world s.func 0 = .ok f
        ∧ f.type = .nativefunc
        ∧ createValues listHost.junk listWorld sameProto.constants = .ok (w1, s.func.constants)
        ∧ s.stackTop = 1 ∧ s.world = { w1 with objects := w1.objects ++ [o] }
        ∧ s.world.objects.length = 4 :=
    ⟨_, _, _, _, _, _, rfl, rfl, rfl, rfl, rfl, rfl, rfl, rfl, rfl, rfl⟩
  have hrun : Relation.ReflTransGen (Vm.Moves listHost) listVm s :=
    .tail (.single (.load sameProto hload)) (.enter 0 henter)
  have hkeep : w1.KeepsStrings s.world := fun a hash str hobj => hworld ▸ object_append hobj
  have hfits : QuoteFits listHost sameConst listWorld s false
      (.list [.number 1#64, .number 1#64]) := by
    refine ⟨⟨by decide, trivial, trivial, trivial⟩, fun lit hmem a ha => ?_, fun a ha => ?_, ?_,
      ?_, fun h => Bool.noConfusion h⟩
    · obtain rfl : lit = .number 1#64 := by
        simpa [Datum.literals, Datum.literalsAll] using hmem
      rw [picks_same_number ha]
      exact ⟨.number 1#64, _, _, rfl, rfl, rfl⟩
    · rw [picks_same_list ha]
      exact ⟨f, hget, htype, runsList_listHost _⟩
    · rw [htop]
      decide
    · rw [hlen]
      decide
  exact ⟨s, hrun, hprot, hpc, ((hruns nativesGrow_listHost unloaded_listVm hrun hprot hpc).2
    listWorld w1 hmade hkeep hfits).mpr rfl⟩

/-- The list `(1 2)` comes back as `(2 1)`. -/
theorem quote_turned_round :
    ∃ func st' bytes buffer' s, genSexp (sourceEnv true false noMacros) 8
        (quoteTwo 1#64 2#64) genStart = .ok (func, st')
      ∧ compile func none = .ok bytes ∧ readChunk 1 ⟨bytes, []⟩ = .ok (differingProto, buffer')
      ∧ Relation.ReflTransGen (Vm.Moves listHost) listVm s ∧ s.func.prot = differingProto
      ∧ s.pc = 0
      ∧ (∃ f, getGlobal s.world s.func 0 = .ok f ∧ f.type = .nativefunc ∧ RunsList listHost f.obj)
      ∧ RoundTrips listHost s (.list [.number 2#64, .number 1#64])
      ∧ ¬ RoundTrips listHost s (.list [.number 1#64, .number 2#64]) := by
  have htables : (quoteTwoFunc differingConst 1 2).All TablesFit :=
    ⟨by unfold TablesFit; decide, trivial⟩
  obtain ⟨st', hgen⟩ := genSexp_of_generate generate_differing
  obtain ⟨bytes, hcompile⟩ :=
    compile_of_isSome (quoteTwoFunc differingConst 1 2) (by decide +kernel)
  have hbuf : Holds ⟨bytes, []⟩ (bytes ++ []) := by simp [Holds]
  obtain ⟨buffer', hread⟩ := readChunk_named hcompile htables
    (show (quoteTwoFunc differingConst 1 2).depth ≤ 1 by decide) hbuf
  obtain ⟨n, s1, s, s', f, hload, henter, hprot, hpc, hget, htype, hrun, htop, hv, hcell, hcell'⟩ :
      ∃ n s1 s s' f, pushLoaded listHost listVm differingProto = .ok (n, s1)
        ∧ s1.suEnter 0 = .ok s ∧ s.func.prot = differingProto ∧ s.pc = 0
        ∧ getGlobal s.world s.func 0 = .ok f ∧ f.type = .nativefunc
        ∧ Vm.turns listHost 4 s = .ok s' ∧ s'.stackTop = 2
        ∧ s'.stack 1 = objValue .cellSeq 6
        ∧ s'.world.object 6 = .ok (.cell ⟨.number, 1#64⟩ (objValue .cellSeq 5))
        ∧ s'.world.object 5 = .ok (.cell ⟨.number, 2#64⟩ ⟨.nil, 0#64⟩) :=
    ⟨_, _, _, _, _, rfl, rfl, rfl, rfl, rfl, rfl, rfl, rfl, rfl, rfl, rfl⟩
  have hshows : (Datum.list [.number 1#64, .number 2#64]).Shows s'.world
      (s'.stack (s'.stackTop - 1)) := by
    rw [htop, hv]
    refine ⟨List.cons_ne_nil _ _, rfl, ⟨.number, 1#64⟩, objValue .cellSeq 5, ?_, ⟨rfl, rfl⟩, rfl,
      ⟨.number, 2#64⟩, ⟨.nil, 0#64⟩, ?_, ⟨rfl, rfl⟩, rfl⟩
    · rw [addr_objValue (by decide)]
      exact hcell
    · rw [addr_objValue (by decide)]
      exact hcell'
  refine ⟨_, st', bytes, buffer', s, hgen, hcompile, hread, ?_, hprot, hpc,
    ⟨f, hget, htype, runsList_listHost _⟩, ?_, ?_⟩
  · exact .tail (.single (.load differingProto hload)) (.enter 0 henter)
  · exact ⟨s', hrun, by rw [htop]; decide, fun w hw name line =>
      rebuilds_mirror (hshows.extends hw) name line⟩
  · intro hback
    have hmirror := (roundTrips_iff_mirror hrun (by rw [htop]; decide) hshows).mp hback
    have hfirst : 2#64 = 1#64 := Datum.number.inj (List.cons.inj (Datum.list.inj hmirror)).1
    exact absurd hfirst (by decide)

end Saurus
