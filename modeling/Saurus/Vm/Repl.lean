import Saurus.Basis.Results
import Saurus.Gen.Session
import Saurus.Lang.Program
import Saurus.Lib.Vector
import Saurus.Vm.Recover

/-!
# Lines of the REPL

The REPL compiles a line with `entry`, loads what was written, pushes an empty
vector for the arguments and calls. `start` reads a line as the body of a
function of its own, and the generator wraps the program once more, in code
that makes that function and calls it (`lineFunc`). A line therefore runs two
frames above the host, and both stay where it fails: of `MAX_CALLS` frames
none is left after half as many such lines.
-/

namespace Saurus

open Basis Relation

/-! ## From the interpreter to its registers -/

namespace Vm

variable {s s' : Vm} {narg : Nat} {acts : List Recover.Activation} {saved : Recover.Saved}

/-- `su_call` and the start of `vm_loop`, where the host has the stack and the
frames of the interpreter. -/
theorem enter_registers {r : Recover.Regs} (hC : Recover.InC acts)
    (htop : r.stackTop = s.stackTop) (hframes : r.frames = fun k => record (s.frames k))
    (hlevel : r.frameTop = s.frameTop) (henter : s.suEnter narg = .ok s') :
    ReflTransGen Recover.Step ⟨acts, r⟩
      ⟨.suCall .turn s'.func r.save :: acts, s'.registers narg⟩ := by
  obtain ⟨_, hroom, henter⟩ := Outcome.bind_eq_ok.mp henter
  obtain ⟨_, -, henter⟩ := Outcome.bind_eq_ok.mp henter
  obtain ⟨fn, -, henter⟩ := Outcome.bind_eq_ok.mp henter
  obtain ⟨_, -, henter⟩ := Outcome.bind_eq_ok.mp henter
  cases henter
  obtain ⟨hargs, hlt⟩ := of_decide_eq_true (Outcome.require_eq_ok.mp hroom)
  have hbase : s.stackTop - narg - 1 = r.stackTop - (narg + 1) := by omega
  refine reaches_registers (.tail (.single (.suCall hC (htop ▸ hargs) (hlevel ▸ hlt))) .start)
    ?_ rfl
  rw [registers]
  dsimp only
  rw [record_update, hbase, ← hlevel, ← hframes, ← htop]
  rfl

/-- Turns of the loop are steps of its registers. -/
theorem steps_registers {h : Host} (hsteps : (loop h).Steps s s') :
    ReflTransGen Recover.Step ⟨.suCall .turn s.func saved :: acts, s.registers narg⟩
      ⟨.suCall .turn s'.func saved :: acts, s'.registers narg⟩ := by
  induction hsteps with
  | refl => exact .refl
  | tail _ hnext ih => exact ih.trans (step_registers hnext.2)

end Vm

namespace Recover

/-- The host once `su_init` is done, which leaves `s->prot` as `malloc` does.
Nothing has been written to `s->frames`. -/
def repl : Interp := ⟨[], ⟨0, fun k => Vm.record (emptyVm.frames k), 0, 0, 0, 0xffff, none⟩⟩

/-! ## The program of a line -/

/-- What the generator makes of a line, around the function of the line. -/
def lineFunc (body : Func) : Func :=
  .mk [⟨.lambda, 0, 1⟩, ⟨.load, 0, 0⟩, ⟨.call, 1, 0⟩, ⟨.return, 0, 0⟩] [] [] [body] none
    [1, 1, 1, 1]

/-- `(lambda (...) x)`, with a global. -/
def unboundBody : Func :=
  .mk [⟨.getglobal, 0, 0⟩, ⟨.return, 0, 0⟩] [.string (atom ['x'])] [] [] none [1, 1]

/-- `(lambda (...) "x")`, with a string. -/
def stringBody : Func :=
  .mk [⟨.push, 0, 0⟩, ⟨.return, 0, 0⟩] [.string (atom ['x'])] [] [] none [1, 1]

/-- A line in the file the REPL has put it in, and the file it is compiled to. -/
def lineSource (text : List Byte) : Source := ⟨some text, some (atom ['o', 'u', 't']), true⟩

/-- The outermost function of a line, as it is read back. -/
def lineProto (body : Func) : Proto := asProto ((lineFunc body).named (atom ['o', 'u', 't']))

/-- The REPL compiles the line, and what it loads then is its program. -/
def LoadsAs (text : List Byte) (body : Func) : Prop :=
  ∃ bytes, (entry (Call.ofText text).env 8 .fresh (lineSource text)).1 = .ok bytes
    ∧ ∀ h junk s, suLoad h junk ⟨[], [bytes]⟩ s = pushLoaded h s (lineProto body)

theorem loadsAs_of_compile {text : List Byte} {body : Func}
    (hentry : (entry (Call.ofText text).env 8 .fresh (lineSource text)).1.toOption
      = (compile (lineFunc body) (lineSource text).dest).toOption)
    (hsome : (compile (lineFunc body) (lineSource text).dest).toOption.isSome)
    (hfit : (lineFunc body).All TablesFit) : LoadsAs text body := by
  obtain ⟨bytes, hbytes⟩ := Option.isSome_iff_exists.mp hsome
  have hcompile := Outcome.toOption_eq_some.mp hbytes
  obtain ⟨tree, htree, hfile⟩ := Outcome.bind_eq_ok.mp hcompile
  have hne : bytes ≠ [] := by
    cases hfile
    exact List.cons_ne_nil _ _
  have hinput : Holds ⟨[], [bytes]⟩ (bytes ++ []) :=
    ⟨by simp, fun c hc => List.mem_singleton.mp hc ▸ hne⟩
  exact ⟨bytes, ok_of_toOption (hentry.trans hbytes), fun h junk s =>
    suLoad_compiled hcompile hfit hinput⟩

/-- The line `x`, with a global that is not defined. -/
theorem unbound_loads : LoadsAs (atom ['x', '\n']) unboundBody :=
  loadsAs_of_compile (by decide +kernel) (by decide +kernel)
    ⟨by unfold TablesFit; decide, ⟨by unfold TablesFit; decide, trivial⟩, trivial⟩

/-- The line `"x"`, which does not fail. -/
theorem string_loads : LoadsAs (atom ['"', 'x', '"', '\n']) stringBody :=
  loadsAs_of_compile (by decide +kernel) (by decide +kernel)
    ⟨by unfold TablesFit; decide, ⟨by unfold TablesFit; decide, trivial⟩, trivial⟩

/-! ## A line on the registers -/

/-- `(lambda ...)` around the line, and the function of the line itself. -/
def lineFn (body : Func) : FunctionObj := ⟨-1, lineProto body, [], []⟩

def bodyFn (body : Func) (constants : List Value) : FunctionObj := ⟨1, asProto body, constants, []⟩

/-- The host has called a line, which is at its first instruction. -/
def inLine (i : Interp) (body : Func) (constants : List Value) : Interp :=
  ⟨.suCall .turn (bodyFn body constants) i.regs.save :: i.acts,
    { (i.regs.push ⟨.closure (lineFn body), 1, 0xffff⟩).push ⟨.closure (lineFn body), 3, 3⟩ with
      stackTop := 5, frame := i.regs.frameTop + 2, narg := 1, pc := 0,
      prot := some (asProto body) }⟩

/-- A step of a run in which no `vm_loop` is left the wrong way. -/
def OwnStep (i j : Interp) : Prop := Step i j ∧ OwnReturn i

variable {acts : List Activation} {r : Regs} {func : FunctionObj} {saved : Saved}

theorem ownReturn_of_inC (hC : InC acts) : OwnReturn ⟨acts, r⟩ := by
  rcases acts with _ | ⟨⟨phase, func, saved⟩ | _ | _, acts⟩
  · exact trivial
  · exact hC.elim
  · exact trivial
  · exact trivial

theorem ownReturn_turn {x : Op × Nat} (hinst : r.inst = some x)
    (hlevel : r.frameTop ≠ saved.frameTop) : OwnReturn ⟨.suCall .turn func saved :: acts, r⟩ :=
  iff_of_false (not_over_of_inst hinst) hlevel

/-- The registers in the code around a line, with the stack and `s->pc`. -/
def around (r : Regs) (body : Func) (n : Nat) (pc : Int) : Regs :=
  { r.push ⟨.closure (lineFn body), 1, 0xffff⟩ with
    stackTop := n, frame := r.frameTop + 1, narg := 1, pc := pc, prot := some (lineProto body) }

/-- The code around a line, up to the line. -/
theorem line_run (hC : InC acts) (hroom : r.frameTop + 2 ≤ maxCalls) (body : Func)
    (constants : List Value) :
    ReflTransGen OwnStep ⟨acts, r⟩ (inLine ⟨acts, r⟩ body constants) := by
  have hlevel : r.frameTop + 1 ≠ r.save.frameTop := Nat.succ_ne_self _
  have hapi : Step ⟨acts, r⟩ ⟨acts, { r with stackTop := 3 }⟩ := .api hC
  have hcall : Step ⟨acts, { r with stackTop := 3 }⟩ ⟨.suCall .enter (lineFn body) r.save :: acts,
      { r.push ⟨.closure (lineFn body), 1, 0xffff⟩ with stackTop := 3, narg := 1 }⟩ :=
    .suCall hC (show 1 + 1 ≤ 3 by decide)
      (show Regs.frameTop { r with stackTop := 3 } < maxCalls from Nat.lt_of_succ_lt hroom)
  have hstart : Step ⟨.suCall .enter (lineFn body) r.save :: acts,
      { r.push ⟨.closure (lineFn body), 1, 0xffff⟩ with stackTop := 3, narg := 1 }⟩
      ⟨.suCall .turn (lineFn body) r.save :: acts, around r body 3 0⟩ := .start
  -- the function of the line is made and pushed, then its argument
  have hinst0 : (around r body 3 0).inst = some (.lambda, 0) := rfl
  have hlambda : Step ⟨.suCall .turn (lineFn body) r.save :: acts, around r body 3 0⟩
      ⟨.suCall .turn (lineFn body) r.save :: acts, around r body 4 1⟩ :=
    .within 4 hinst0 (by decide) (by decide) (by decide) (Or.inl rfl)
  have hinst1 : (around r body 4 1).inst = some (.load, 0) := rfl
  have hload : Step ⟨.suCall .turn (lineFn body) r.save :: acts, around r body 4 1⟩
      ⟨.suCall .turn (lineFn body) r.save :: acts, around r body 5 2⟩ :=
    .within 5 hinst1 (by decide) (by decide) (by decide) (Or.inl rfl)
  -- it is called
  have hinst2 : (around r body 5 2).inst = some (.call, 1) := rfl
  have hframe : Step ⟨.suCall .turn (lineFn body) r.save :: acts, around r body 5 2⟩
      ⟨.suCall .called (bodyFn body constants) r.save :: acts,
        { (around r body 5 2).push ⟨.closure (lineFn body), 3, 3⟩ with
          frame := r.frameTop + 2 }⟩ :=
    .pushFrame (.call hinst2) (show 1 + 1 ≤ 5 by decide)
      (show (around r body 5 2).frameTop < maxCalls from hroom)
  have hinto : Step ⟨.suCall .called (bodyFn body constants) r.save :: acts,
        { (around r body 5 2).push ⟨.closure (lineFn body), 3, 3⟩ with frame := r.frameTop + 2 }⟩
      (inLine ⟨acts, r⟩ body constants) := .goInto 5
  exact .tail (.tail (.tail (.tail (.tail (.tail (.single ⟨hapi, ownReturn_of_inC hC⟩)
    ⟨hcall, ownReturn_of_inC hC⟩) ⟨hstart, trivial⟩) ⟨hlambda, ownReturn_turn hinst0 hlevel⟩)
    ⟨hload, ownReturn_turn hinst1 hlevel⟩) ⟨hframe, ownReturn_turn hinst2 hlevel⟩)
    ⟨hinto, trivial⟩

/-! ## Lines that fail -/

/-- Steps are moves of a program that has no activation to come back to. -/
theorem moves_of_steps {i₀ i j : Interp} (h₀ : i₀.acts = []) (h : ReflTransGen Step i j) :
    ReflTransGen (Move i₀) i j :=
  h.lift id fun _ _ hstep => .step hstep (h₀ ▸ List.nil_suffix)

/-- A line that fails leaves two frames behind. -/
theorem failing_line {i : Interp} (h : i.acts = []) (hroom : i.regs.frameTop + 2 ≤ maxCalls) :
    ∃ j, ReflTransGen (Move repl) i j ∧ j.acts = []
      ∧ j.regs.frameTop = i.regs.frameTop + 2 := by
  obtain ⟨_, r⟩ := i
  obtain rfl : _ = [] := h
  have hrun : ReflTransGen Step ⟨[], r⟩ (inLine ⟨[], r⟩ unboundBody []) :=
    (line_run (show InC [] from trivial) hroom unboundBody []).lift id fun _ _ hstep => hstep.1
  have herror : Move repl (inLine ⟨[], r⟩ unboundBody [])
      (recover repl (inLine ⟨[], r⟩ unboundBody [])) :=
    .error (not_over_of_inst (show Regs.inst _ = some (.getglobal, 0) from rfl))
  exact ⟨_, (moves_of_steps rfl hrun).tail herror, rfl, rfl⟩

/-- After `n` lines that fail there are two frames for each. -/
theorem failing_lines : ∀ n, 2 * n ≤ maxCalls → ∃ i, ReflTransGen (Move repl) repl i
    ∧ i.acts = [] ∧ i.regs.frameTop = 2 * n
  | 0, _ => ⟨repl, .refl, rfl, rfl⟩
  | n + 1, h => by
      obtain ⟨i, hrun, hacts, htop⟩ := failing_lines n (by omega)
      obtain ⟨j, hline, hacts', htop'⟩ := failing_line hacts (by omega)
      exact ⟨j, hrun.trans hline, hacts', by omega⟩

/-- With no frame left the host calls nothing any more. -/
theorem no_call_left {i j : Interp} (h : i.acts = []) (hfull : i.regs.frameTop = maxCalls)
    (hstep : Step i j) : j.acts = [] := by
  cases hstep with
  | api => exact h
  | suCall _ _ hlt => exact absurd hfull (Nat.ne_of_lt hlt)
  | suCallNative _ _ hlt => exact absurd hfull (Nat.ne_of_lt hlt)
  | _ => cases h

/-- The host with `print` pushed and no globals. -/
def readyVm : Vm := { startVm with stack := fun _ => ⟨.nativefunc, 0x401000#64⟩, stackTop := 1 }

/-- The line `x`. It is compiled, loaded and called, and at its own first
instruction, three turns on, it raises an error. The handler finds two frames
it has not registered with, and after `MAX_CALLS / 2` such lines no line can be
called. -/
theorem failing_line_keeps_frame :
    ∃ bytes s1 s2 s3 s4,
      (entry (Call.ofText (atom ['x', '\n'])).env 8 .fresh (lineSource (atom ['x', '\n']))).1
        = .ok bytes
      ∧ suLoad idleHost zeroJunk ⟨[], [bytes]⟩ readyVm = .ok (0, s1)
      ∧ s1.suVector 0 = .ok s2 ∧ s2.suEnter 1 = .ok s3
      ∧ (Vm.loop idleHost).Steps s3 s4 ∧ (s4.step idleHost).Raises
      ∧ ReflTransGen (Move repl) repl
          ⟨[.suCall .turn s4.func repl.regs.save], s4.registers 1⟩
      ∧ (recover repl ⟨[.suCall .turn s4.func repl.regs.save], s4.registers 1⟩).regs.frameTop
        = repl.regs.frameTop + 2
      ∧ ¬ Restores repl ⟨[.suCall .turn s4.func repl.regs.save], s4.registers 1⟩
      ∧ ∃ i, ReflTransGen (Move repl) repl i ∧ i.acts = [] ∧ ∀ j, Step i j → j.acts = [] := by
  obtain ⟨bytes, hentry, hload⟩ := unbound_loads
  obtain ⟨s1, s2, s3, s4, hpush, hvector, henter, hturns, hraise, htop, hlevel, hframes⟩ :
      ∃ s1 s2 s3 s4, pushLoaded idleHost readyVm (lineProto unboundBody) = .ok (0, s1)
        ∧ s1.suVector 0 = .ok s2 ∧ s2.suEnter 1 = .ok s3
        ∧ Vm.turns idleHost 3 s3 = .ok s4 ∧ (s4.step idleHost).Raises
        ∧ s4.frameTop = 2 ∧ s2.frameTop = 0 ∧ s2.frames = emptyVm.frames :=
    ⟨_, _, _, _, rfl, rfl, rfl, rfl, ⟨_, rfl⟩, rfl, rfl, rfl⟩
  have hsteps := Vm.steps_of_turns hturns
  have hpushed : Step repl ⟨[], { repl.regs with stackTop := s2.stackTop }⟩ := .api trivial
  have hcall := Vm.enter_registers (r := { repl.regs with stackTop := s2.stackTop })
    (show InC [] from trivial) rfl
    (by rw [hframes]; rfl) hlevel.symm henter
  have hrun := (ReflTransGen.single hpushed).trans (hcall.trans (Vm.steps_registers hsteps))
  refine ⟨bytes, s1, s2, s3, s4, hentry, (hload ..).trans hpush, hvector, henter, hsteps, hraise,
    moves_of_steps rfl hrun, htop, fun h => ?_, ?_⟩
  · have hsame : s4.frameTop = 0 := h.frameTop
    exact absurd (htop.symm.trans hsame) (by decide)
  · obtain ⟨i, hlines, hacts, hfull⟩ := failing_lines 64 (by decide)
    exact ⟨i, hlines, hacts, fun j => no_call_left hacts hfull⟩

/-! ## A line that does not fail -/

/-- The registers after it, with the host's `narg`, `pc` and `prot` again. -/
def afterLine (r : Regs) (body : Func) : Regs :=
  { around r body 2 0xffff with
    frames := ((around r body 5 2).push ⟨.closure (lineFn body), 3, 3⟩).frames
    frameTop := r.frameTop, frame := r.frameTop, narg := r.narg, pc := r.pc, prot := r.prot }

/-- A return through a frame whose fields are known. -/
theorem step_ret {a : Nat} {fr : Record} {fn : FunctionObj} (hinst : r.inst = some (.return, a))
    (hframe : r.frame ≠ 0) (hlevel : r.frameTop ≠ 0) (hrecord : r.record = fr)
    (hfn : fr.func = .closure fn) :
    Step ⟨.suCall .turn func saved :: acts, r⟩ ⟨.suCall .turn fn saved :: acts,
      { r with stackTop := fr.stackTop + 1, frameTop := r.frameTop - 1,
               frame := r.frameTop - 1, pc := fr.retAddr, prot := some fn.prot }⟩ := by
  subst hrecord
  exact .ret hinst hframe hfn hlevel

/-- The line `"x"` comes back to the host. -/
theorem string_line (hC : InC acts) (hroom : r.frameTop + 2 ≤ maxCalls) :
    ReflTransGen OwnStep ⟨acts, r⟩ ⟨acts, afterLine r stringBody⟩ := by
  let frames := ((around r stringBody 5 2).push ⟨.closure (lineFn stringBody), 3, 3⟩).frames
  let inner := (inLine ⟨acts, r⟩ stringBody []).regs
  let outer : Regs := { around r stringBody 4 3 with frames := frames }
  let passed : Regs := { around r stringBody 2 0xffff with
    frames := frames, frameTop := r.frameTop, frame := r.frameTop }
  have hlevel : r.frameTop + 1 ≠ r.save.frameTop := Nat.succ_ne_self _
  have hlevel' : r.frameTop + 2 ≠ r.save.frameTop :=
    Nat.ne_of_gt (Nat.lt_add_of_pos_right (by decide))
  have hinst0 : inner.inst = some (.push, 0) := rfl
  have hpush : Step ⟨.suCall .turn (bodyFn stringBody []) r.save :: acts, inner⟩
      ⟨.suCall .turn (bodyFn stringBody []) r.save :: acts,
        { inner with stackTop := 6, pc := 1 }⟩ :=
    .within 6 hinst0 (by decide) (by decide) (by decide) (Or.inl rfl)
  -- its frame is on top, that of the code around it below
  have htop : frames (r.frameTop + 1) = ⟨.closure (lineFn stringBody), 3, 3⟩ :=
    Function.update_self ..
  have hbelow : frames r.frameTop = ⟨.closure (lineFn stringBody), 1, 0xffff⟩ :=
    (Function.update_of_ne (Nat.ne_of_lt (Nat.lt_succ_self _)) ..).trans (Function.update_self ..)
  have hinst1 : Regs.inst { inner with stackTop := 6, pc := 1 } = some (.return, 0) := rfl
  have hret1 : Step ⟨.suCall .turn (bodyFn stringBody []) r.save :: acts,
      { inner with stackTop := 6, pc := 1 }⟩
      ⟨.suCall .turn (lineFn stringBody) r.save :: acts, outer⟩ :=
    step_ret hinst1 (Nat.succ_ne_zero _) (Nat.succ_ne_zero _) htop rfl
  have hinst2 : outer.inst = some (.return, 0) := rfl
  have hret2 : Step ⟨.suCall .turn (lineFn stringBody) r.save :: acts, outer⟩
      ⟨.suCall .turn (lineFn stringBody) r.save :: acts, passed⟩ :=
    step_ret hinst2 (Nat.succ_ne_zero _) (Nat.succ_ne_zero _) hbelow rfl
  -- and the loop is over, with the frame of its own call gone
  have hover : passed.Over := show (4 : Int) ≤ 0xffff by decide
  have hexit : Step ⟨.suCall .turn (lineFn stringBody) r.save :: acts, passed⟩
      ⟨acts, afterLine r stringBody⟩ := @Step.exit acts passed (lineFn stringBody) r.save 1 hover
  exact .tail (.tail (.tail (.tail (line_run hC hroom stringBody [])
    ⟨hpush, ownReturn_turn hinst0 hlevel'⟩) ⟨hret1, ownReturn_turn hinst1 hlevel'⟩)
    ⟨hret2, ownReturn_turn hinst2 hlevel⟩) ⟨hexit, iff_of_true hover rfl⟩

/-- A line that does not fail, then an error of the host itself with three
values pushed. -/
theorem recovery_restores_line :
    ReflTransGen (Harmless repl) repl ⟨[], { afterLine repl.regs stringBody with stackTop := 3 }⟩
      ∧ Restores repl ⟨[], { afterLine repl.regs stringBody with stackTop := 3 }⟩ := by
  have hline : ReflTransGen (Harmless repl) repl ⟨[], afterLine repl.regs stringBody⟩ :=
    (string_line (show InC [] from trivial) (show 0 + 2 ≤ maxCalls by decide)).lift id
      fun _ _ hstep => .step hstep.1 List.nil_suffix hstep.2
  have hpush : Harmless repl ⟨[], afterLine repl.regs stringBody⟩
      ⟨[], { afterLine repl.regs stringBody with stackTop := 3 }⟩ :=
    .step (.api trivial) List.nil_suffix trivial
  have hrun := hline.tail hpush
  exact ⟨hrun, (recovery_restores (show InC repl.acts from trivial) hrun
    (show OwnReturn _ from trivial) not_false).1 rfl⟩

end Recover

end Saurus
