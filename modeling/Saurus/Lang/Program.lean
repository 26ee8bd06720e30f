import Saurus.Gen.Compile
import Saurus.Lang.Simulate
import Saurus.Vm.Load

/-!
# Programs from the compiler to the result

A program is generated, written to a chunk, loaded by `su_load` and called by
`su_call`. What `su_call` ends with is what the evaluator says of the program
(`program_means`).

A program that is called from C finds its arguments in its slots: `su_call`
does not collect them, and `LOAD 0` is the first of them.
-/

namespace Saurus

open Basis Basis.Codec

/-- The meaning of a program: the value of its form is called on the first
argument. -/
def Dialect.program (d : Dialect) (fuel : Nat) (e : Sexp) (x : SVal) : EvalM SVal := do
  let f ← d.eval fuel ⟨.program, [], []⟩ e false false
  apply d (d.eval fuel) f [x]

/-- `F` is generated for the program `e`, and `bytes` is what it is written to;
nothing in it is cut or confused on the way, and its end is below the return
address of a call from C. -/
structure Compiles (env : GenEnv) (U : Set (List Byte)) (e : Sexp) (F : Func)
    (bytes : List Byte) : Prop where
  generated : ∃ depth st st', genSexp env depth e st = .ok (F, st')
  compiled : ∃ name, compile F name = .ok bytes ∧ (F.named (name.getD [0x3f#8])).All (Tame U)
  short : F.instructions.length ≤ 0xffff

namespace Vm

/-- The strings are interned under hashes of their own, the globals are `γ`,
and there is room to load the function `F` and to call it. -/
structure Takes (env : GenEnv) (U : Set (List Byte)) (γ : Globals) (F : Func) (s : Vm) :
    Prop where
  strung : s.world.Strung U
  globals : Defines env U γ s.world
  spare : s.world.Spare (F.const.length + 1)
  level : s.frameTop < maxCalls
  top : s.stackTop < stackSize

/-- From `s` on, the function `F` was loaded, and is on top of the stack of
`s1`. -/
structure Loaded (env : GenEnv) (U : Set (List Byte)) (γ : Globals) (F : Func) (s s1 : Vm) :
    Prop where
  yields : s.Yields env U s.pc γ [.program] s1
  level : s.frameTop < maxCalls
  function : ∃ name fn, (F.named name).All (Tame U) ∧ (F.named name).up = []
    ∧ (s1.stack s.stackTop).type = .function
    ∧ s1.world.object (s1.stack s.stackTop).addr = .ok (.function fn)
    ∧ fn.narg = -1 ∧ fn.prot = asProto (F.named name)
    ∧ ShowConsts s1.world (F.named name).const fn.constants

/-- `su_call` comes to where it lacks room. -/
def Exhausts (h : Host) (s : Vm) (narg : Nat) : Prop :=
  ∃ s1 s2, s.suEnter narg = .ok s1 ∧ (loop h).Steps s1 s2 ∧ Full h s2

end Vm

section Programs

variable {d : Dialect} {env : GenEnv} {U : Set (List Byte)} {F : Func} {γ : Globals} {x : SVal}
  {self : Value} {s : Vm} {st st' : GenState}

/-! ## The code -/

theorem FuncTable.PlacedIn.named {lo : Nat} {f : FuncTable} (h : f.PlacedIn lo F)
    (name : List Byte) : f.PlacedIn lo (F.named name) := by
  cases F
  exact ⟨h.code, h.const, h.prot, h.up⟩

/-- Behind the form the program loads its argument, calls and returns. -/
theorem genSexp_parts {depth : Nat} {e : Sexp}
    (h : genSexp env depth e st = .ok (F, st')) :
    ∃ st1 st2 st3, gen env depth topCtx e false false { st with func := {} } = .ok ((), st1)
      ∧ genInst { op := .load } none st1 = .ok ((), st2)
      ∧ callOrTail env topCtx false none 1 st2 = .ok ((), st3)
      ∧ F = st3.function := by
  obtain ⟨_, st0, hset, h⟩ := bind_ok.mp h
  cases hset
  obtain ⟨_, st1, hgen, h⟩ := bind_ok.mp h
  obtain ⟨_, st2, hload, h⟩ := bind_ok.mp h
  obtain ⟨_, st3, hcall, h⟩ := bind_ok.mp h
  cases h
  exact ⟨st1, st2, st3, hgen, hload, hcall, rfl⟩

/-- The outermost function has no variables of others. -/
theorem up_genSexp {depth : Nat} {e : Sexp} (h : genSexp env depth e st = .ok (F, st')) :
    F.up = [] := by
  obtain ⟨st1, st2, st3, hgen, hload, hcall, rfl⟩ := genSexp_parts h
  have hload' : st1.func.Begins topCtx st2.func := onward_genInst _ _ _ _ _ hload
  have hcall' : st2.func.Begins topCtx st3.func := onward_callOrTail _ _ _ _ _ _ hcall
  have hsees := ((onward_gen env depth topCtx e false false _ _ _ hgen).trans
    (hload'.trans hcall')).sees fun _ h => by cases h
  refine List.eq_nil_iff_forall_not_mem.mpr fun u hu => ?_
  obtain ⟨-, scope, hscope, -⟩ := hsees u hu
  cases hscope

/-! ## The run -/

/-- The outermost function means its program. Behind the code of the form
(`simulates_eval`) it loads its argument, calls what the form has left, and hands
back what the call leaves; the form, the call and the return are followed one
after the other. -/
theorem follows_program (hset : Setting d env U) {depth : Nat} {e : Sexp}
    (hgen : genSexp env depth e st = .ok (F, st')) (name : List Byte) (fuel : Nat)
    (ha : Active env U (F.named name) ⟨.program, [], []⟩ γ s) (hpc : s.pc = 0)
    (hslot : s.base + 1 < s.stackTop) (hx : Rep env U s.world x (s.stack (s.base + 1))) :
    (Vm.loop d.host).Follows (Vm.Full d.host) (d.program fuel e x γ)
      (fun r s' => s.HandsBack env U r.2 r.1 s') s := by
  obtain ⟨st1, st2, st3, hform, hload, hcall, rfl⟩ := genSexp_parts hgen
  have hev := simulates_eval hset fuel
  have hreturn : (st3.function.named name).instructions[st3.pos]? = some { op := .return } :=
    List.getElem?_concat_length
  have hload' : st1.func.Begins topCtx st2.func := onward_genInst _ _ _ _ _ hload
  have hcall' : st2.func.Begins topCtx st3.func := onward_callOrTail _ _ _ _ _ _ hcall
  have hplaced3 : st3.func.PlacedIn 0 (st3.function.named name) :=
    (FuncTable.placedIn_code _ _ _).named name
  have hplaced2 := hplaced3.before hcall'
  have hplaced1 := hplaced2.before hload'
  have hrefl := ha.refl
  rw [hpc] at hrefl
  -- the form
  refine ((hev depth _ ⟨.program, [], []⟩ e false false).stays rfl _ _ _ _ _ _ _ hform
    hplaced1 ha hrefl).bind fun ⟨f, γ1⟩ s1 _ hy1 => ?_
  have ha1 := ha.yields hy1
  have hbase := hy1.base ha.running
  -- the argument
  obtain ⟨hi, hpos2⟩ := genInst_placed hload (hplaced2.mono (Nat.zero_le _))
  rw [← hy1.pc] at hi hpos2
  obtain ⟨i, v, hi, hop, heff, hput⟩ := putsNext_load (d := d) (k := 0) ha1 hi
    (by rw [hbase, hy1.top]; omega)
    (by rw [hbase, Nat.add_zero, hy1.below _ hslot]; exact hx.remains hy1.remains)
  have hargument := ha1.puts ha1.refl hi hop heff (fun vs hvs => (hput vs hvs).1)
    fun vs hvs => (hput vs hvs).2
  refine hargument.bind (f := fun r => apply d (d.eval fuel) f [r.1] r.2)
    fun ⟨z, γ2⟩ s2 hz hy2 => ?_
  cases hz
  have hy12 := hy1.trans hy2
  rw [← hpos2] at hy12
  -- the call
  refine ((finishes_callOrTail hset hev f [x] false none).stays rfl _ _ _ _ _ _ _ hcall
    (hplaced3.mono (Nat.zero_le _)) ha hy12).tail fun r s3 _ hy3 => ?_
  have hret := hreturn
  have hend := hy3.pc
  rw [← hend] at hy3 hret
  exact follows_return ha hy3 hret

/-! ## From C -/

/-- `su_load` reads what `compile` has written. The header is accepted, and with
as many levels as there are bytes `readPrototype` comes to the one prototype
that the bytes are written from, since its tables fit their lengths. -/
theorem suLoad_compiled {h : Host} {junk : Load.HeaderJunk} {name : Option (List Byte)}
    {bytes rest : List Byte} {input : ReaderBuffer} (hcompile : compile F name = .ok bytes)
    (hfit : F.All TablesFit) (hinput : Holds input (bytes ++ rest)) :
    suLoad h junk input s = pushLoaded h s (asProto (F.named (name.getD [0x3f#8]))) := by
  obtain ⟨tree, htree, hcompile⟩ := Outcome.bind_eq_ok.mp hcompile
  cases hcompile
  rw [List.append_assoc] at hinput
  have hheader : Holds input (headerBytes versionMajor versionMinor ++ (tree ++ rest)) := hinput
  obtain ⟨input', hv, hinput'⟩ := Load.verifyHeader_header hheader (Or.inl rfl) junk
  -- with levels enough the prototype is read, so it is a well-formed beginning
  obtain ⟨_, hread, -⟩ := readPrototype_reads _ htree (tablesFit_named hfit) (Nat.le_refl _)
    input' rest hinput'
  obtain ⟨⟨hwf, -⟩, rest', heq, -⟩ := (readPrototype_decodes _).sound hinput' hread
  have hn : (tree ++ rest).length < Load.levels input := by
    rw [Load.levels, hinput.1]
    simp only [List.length_append]
    omega
  rcases readPrototype_cases hinput' hn with ⟨-, hnone, -⟩ | ⟨-, hnone, -⟩ |
    ⟨p, input2, hr, -, -, huniq, -⟩
  · exact absurd ⟨rest', heq.symm⟩ (hnone _ hwf)
  · exact absurd ⟨rest', heq.symm⟩ (hnone _ hwf)
  · rw [huniq _ hwf ⟨rest', heq.symm⟩]
    exact suLoad_of_ok hv hr

/-- The function that `su_load` pushes. Its constants are made one by one, each
with what the language knows it by; it captures nothing, since the outermost
code has no variables of others. -/
theorem pushLoaded_makes (hset : Setting d env U) (htame : Tame U F) (hup : F.up = [])
    (hs : s.world.Strung U) (hd : Defines env U γ s.world)
    (hspare : s.world.Spare (F.const.length + 1)) (htop : s.stackTop < stackSize) :
    ∃ s1 fn, pushLoaded d.host s (asProto F) = .ok (0, s1)
      ∧ s.Yields env U s.pc γ [.program] s1
      ∧ (s1.stack s.stackTop).type = .function
      ∧ s1.world.object (s1.stack s.stackTop).addr = .ok (.function fn)
      ∧ fn.narg = -1 ∧ fn.prot = asProto F ∧ ShowConsts s1.world F.const fn.constants := by
  have hups : captureAll s.capture (F.up.map asUp) = .ok [] := by
    rw [hup]
    rfl
  obtain ⟨w, f, fn, hmakes, hw, ht, hobj, hnarg, hprot, hshow, -⟩ :=
    lambda_makes d.host.junk hset.hashed hs htame hd.hasMap hspare (-1) hups
  have hself : Function.update s.stack s.stackTop f s.stackTop = f := Function.update_self ..
  refine ⟨{ s with
    world := w, stack := Function.update s.stack s.stackTop f, stackTop := s.stackTop + 1 }, fn,
    ?_, ⟨hw.remains, hw.strung, hd.goesOn hs hw, rfl, rfl, rfl, fun _ _ => rfl, rfl, htop,
      fun i hi => Function.update_of_ne (Nat.ne_of_lt hi) .., ?_⟩, ?_, ?_, hnarg, hprot, hshow⟩
  · rw [pushLoaded, hmakes, Outcome.ok_bind]
    change (({ s with world := w } : Vm).pushValue f >>= _) = _
    rw [Vm.pushValue, Vm.pushFrom, decide_eq_true htop]
    rfl
  · refine .cons ?_ .nil
    change Rep env U w .program (Function.update s.stack s.stackTop f s.stackTop)
    rw [hself]
    exact .program ht
  · dsimp only
    rw [hself, ht]
  · dsimp only
    rw [hself, hobj]

/-- `su_call` enters the function that was loaded, its argument in a slot. The
frame is the one that `su_call` pushes: its base is the slot of the function,
and it returns to where no program is as long. -/
theorem active_loaded {fn : FunctionObj} {s1 s2 s3 : Vm} {xs : List SVal}
    (hs1 : s.Yields env U s.pc γ [.program] s1) (hself : s1.stack s.stackTop = self)
    (ht : self.type = .function) (hobj : s1.world.object self.addr = .ok (.function fn))
    (hnarg : fn.narg = -1) (hprot : fn.prot = asProto F)
    (hshow : ShowConsts s1.world F.const fn.constants) (htame : F.All (Tame U)) (hup : F.up = [])
    (hlevel : s.frameTop < maxCalls) (hs2 : s1.Yields env U s1.pc γ (x :: xs) s2)
    (hs3 : s3 = { s2 with
      frames := Function.update s2.frames s2.frameTop ⟨fn, s.stackTop, 0xffff⟩
      frameTop := s2.frameTop + 1
      func := fn
      pc := 0 }) :
    s2.suEnter (xs.length + 1) = .ok s3 ∧ Active env U F ⟨.program, [], []⟩ γ s3
      ∧ s3.base = s.stackTop ∧ s3.base + 1 < s3.stackTop
      ∧ Rep env U s3.world x (s3.stack (s3.base + 1)) := by
  subst hs3
  have htop1 := hs1.top
  have htop2 := hs2.top
  have hframe := hs2.frameTop.trans hs1.frameTop
  rw [List.length_singleton] at htop1
  rw [List.length_cons] at htop2
  have hslot : s2.stack s.stackTop = self := (hs2.below _ (by omega)).trans hself
  have hobj2 := hs2.remains _ (.function fn) trivial hobj
  have hbase : Vm.base { s2 with
      frames := Function.update s2.frames s2.frameTop ⟨fn, s.stackTop, 0xffff⟩
      frameTop := s2.frameTop + 1
      func := fn
      pc := 0 } = s.stackTop := by
    rw [Vm.base]
    dsimp only
    rw [Nat.add_sub_cancel, Function.update_self]
  have hrep : Rep env U s2.world x (s2.stack (s.stackTop + 1)) := by
    obtain ⟨v, vs, hv, -, hwin⟩ := List.forall₂_cons_left_iff.mp hs2.values
    rw [List.length_cons, Vm.window, slice_succ] at hwin
    rw [← htop1, (List.cons_eq_cons.mp hwin).1]
    exact hv
  refine ⟨?_, ⟨hprot, hshow.remains hs2.remains, htame, Nat.succ_pos _, ?_, ?_,
    fun i p hp => (by cases hp), fun k u y hu hy => ?_, ?_, hs2.room, hs2.strung, hs2.globals⟩,
    hbase, ?_, ?_⟩
  · rw [Vm.suEnter, decide_eq_true (by omega), Outcome.require_true, Outcome.ok_bind]
    dsimp only
    rw [show s2.stackTop - (xs.length + 1) - 1 = s.stackTop by omega, hslot, ht,
      decide_eq_true rfl, Outcome.require_true, Outcome.ok_bind, functionAt, hobj2]
    change (Outcome.check (decide (fn.narg < 0 ∨ _)) _ >>= _) = _
    rw [hnarg, decide_eq_true (Or.inl (by decide))]
    rfl
  · change s2.frameTop + 1 ≤ maxCalls
    omega
  · rw [hbase]
    dsimp only
    rw [hslot]
    exact .program ht
  · rw [hup] at hu
    cases hu
  · rw [hbase, hup]
    dsimp only [List.length_nil]
    omega
  · rw [hbase]
    dsimp only
    omega
  · rw [hbase]
    exact hrep

/-- What the function hands back is all that `su_call` leaves; the loop has
ended, since nothing is as long as where it returns to. -/
theorem yields_suLeave {fn : FunctionObj} {s1 s2 s3 s4 : Vm} {xs : List SVal} {y : SVal}
    {γ' : Globals} (hs1 : s.Yields env U s.pc γ [.program] s1)
    (hs2 : s1.Yields env U s1.pc γ xs s2) (hlen : fn.prot.inst.length ≤ 0xffff)
    (hs3 : s3 = { s2 with
      frames := Function.update s2.frames s2.frameTop ⟨fn, s.stackTop, 0xffff⟩
      frameTop := s2.frameTop + 1
      func := fn
      pc := 0 })
    (hback : s3.HandsBack env U γ' y s4) :
    s4.Halted ∧ s.Yields env U s.pc γ' [y] (s2.suLeave s4) := by
  subst hs3
  obtain ⟨v, hret, hrep⟩ := hback.returned
  dsimp only at hret
  rw [Nat.add_sub_cancel, Function.update_self] at hret
  have htop1 := hs1.top
  have hframe1 := hs1.frameTop
  have hframe2 := hs2.frameTop
  rw [List.length_singleton] at htop1
  refine ⟨?_, (hs1.remains.trans hs2.remains).trans hback.remains, hback.strung, hback.globals,
    hs2.func.trans hs1.func, hs2.pc.trans hs1.pc, ?_, fun k hk => ?_, hret.stackTop, hback.room,
    fun i hi => ?_, ?_⟩
  · rw [Vm.Halted, hret.func, hret.pc]
    exact hlen
  · exact (hret.frameTop.trans (Nat.add_sub_cancel ..)).trans (hframe2.trans hframe1)
  · refine (hret.frames k (by dsimp only; omega)).trans ?_
    exact (Function.update_of_ne (by omega) ..).trans
      ((hs2.frames k (by omega)).trans (hs1.frames k hk))
  · exact (hret.below i hi).trans ((hs2.below i (by omega)).trans (hs1.below i hi))
  · have hvalue : s4.stack s.stackTop = v := hret.value
    refine .cons ?_ .nil
    change Rep env U s4.world y (s4.stack s.stackTop)
    rwa [hvalue]

/-- A compiled program is loaded as a function, the outermost of its code. The
state must have room for it and for its constants (`Takes`), and the name that
the compiler puts into the bytes changes nothing of what fits. -/
theorem Compiles.loads (hset : Setting d env U) {e : Sexp} {bytes : List Byte}
    (hprogram : Compiles env U e F bytes) (junk : Load.HeaderJunk) {input : ReaderBuffer}
    {rest : List Byte} (hinput : Holds input (bytes ++ rest)) (hs : s.Takes env U γ F) :
    ∃ s1, suLoad d.host junk input s = .ok (0, s1) ∧ s.Loaded env U γ F s1 := by
  obtain ⟨⟨depth, st, st', hgen⟩, ⟨name, hcompile, htame⟩, hlen⟩ := hprogram
  have htables : F.All TablesFit := by
    have hnamed : (F.named (name.getD [0x3f#8])).All TablesFit :=
      htame.imp fun _ h => h.fits.tables
    cases F
    exact hnamed
  have hconst : (F.named (name.getD [0x3f#8])).const = F.const := by cases F; rfl
  have hup : (F.named (name.getD [0x3f#8])).up = [] := by
    rw [← up_genSexp hgen]
    cases F
    rfl
  obtain ⟨s1, fn, hpush, hs1, hmade⟩ :=
    pushLoaded_makes hset htame.root hup hs.strung hs.globals (hconst ▸ hs.spare) hs.top
  exact ⟨s1, (suLoad_compiled hcompile htables hinput).trans hpush, hs1, hs.level, _, fn, htame,
    hup, hmade⟩

/-- What `su_call` does with the function that was loaded, on the arguments
`x :: xs`. It enters with the first argument in a slot (`active_loaded`), runs
as the program means (`follows_program`), and leaves what was handed back
(`yields_suLeave`); the rest of the arguments is dropped. -/
theorem Vm.Loaded.suCall {s1 s2 : Vm} {xs : List SVal} (hset : Setting d env U) {e : Sexp}
    {bytes : List Byte} (hprogram : Compiles env U e F bytes) (hloaded : s.Loaded env U γ F s1)
    (hs2 : s1.Yields env U s1.pc γ (x :: xs) s2) {fuel : Nat}
    (hmeaning : d.program fuel e x γ ≠ .fault) :
    s2.Exhausts d.host (xs.length + 1) ∨ ∃ o, Vm.SuCall d.host s2 (xs.length + 1) o
      ∧ Outcome.Rel (fun r s' => s.Yields env U s.pc r.2 [r.1] s') (d.program fuel e x γ) o := by
  obtain ⟨hs1, hlevel, name, fn, htame, hup, ht, hobj, hnarg, hprot, hshow⟩ := hloaded
  obtain ⟨⟨depth, st, st', hgen⟩, -, hlen⟩ := hprogram
  have hinst : (F.named name).instructions = F.instructions := by cases F; rfl
  obtain ⟨henter, ha, hbase, hslot, hx⟩ :=
    active_loaded hs1 rfl ht hobj hnarg hprot hshow htame hup hlevel hs2 rfl
  have hfollows := follows_program hset hgen _ fuel ha rfl hslot hx
  have hshort : fn.prot.inst.length ≤ 0xffff := by
    rw [hprot, inst_asProto, List.length_map, hinst]
    exact hlen
  have hruns := hfollows.runs
    (fun r s4 hback => (yields_suLeave hs1 hs2 hshort rfl hback).1) hmeaning
  refine hruns.imp ?_ ?_
  · rintro ⟨s4, hsteps, hfull⟩
    exact ⟨_, s4, henter, hsteps, hfull⟩
  · rintro ⟨o, hrun, hrel⟩
    refine ⟨s2.suLeave <$> o, ⟨o, by rw [henter]; exact hrun, rfl⟩, ?_⟩
    generalize d.program fuel e x γ = y at hrel
    cases hrel with
    | ok hback => exact .ok (yields_suLeave hs1 hs2 hshort rfl hback).2
    | raise msg => exact .raise msg
    | fault => exact .fault

end Programs

/-! ## A program -/

/-- The strings of programs that use none. -/
instance : DecidablePred (· ∈ ({globalName} : Set (List Byte))) :=
  fun s => inferInstanceAs (Decidable (s = globalName))

/-- Just started, with an empty map for the globals. -/
def startVm : Vm :=
  { emptyVm with world := { emptyWorld with objects := [.map mapCreateEmpty], globals := 1 } }

/-- An argument is pushed from C. -/
def Vm.withNumber (s : Vm) (n : BitVec 64) : Vm :=
  { s with
    stack := Function.update s.stack s.stackTop ⟨.number, n⟩
    stackTop := s.stackTop + 1 }

theorem Vm.Yields.withNumber {env : GenEnv} {U : Set (List Byte)} {γ : Globals} {xs : List SVal}
    {pc : Nat} {s s' : Vm} (h : s.Yields env U pc γ xs s') (hroom : s'.stackTop < stackSize)
    (n : BitVec 64) : s'.Yields env U s'.pc γ [.number n] (s'.withNumber n) := by
  have hvalue : (s'.withNumber n).stack s'.stackTop = ⟨.number, n⟩ := Function.update_self ..
  refine ⟨.rfl, h.strung, h.globals, rfl, rfl, rfl, fun _ _ => rfl, rfl, hroom,
    fun i hi => Function.update_of_ne (Nat.ne_of_lt hi) .., .cons (.number ?_ ?_) .nil⟩
  · exact congrArg Value.type hvalue
  · exact congrArg Value.obj hvalue

end Saurus
