import Saurus.Vm.Entry

/-!
# Recovery from errors

`su_error` leaves by `longjmp` from wherever the interpreter is: between two
instructions, half way through a call, in a native, under any number of
`su_call`s. What is kept over the jump are the registers of `su_state`; the
locals in which `su_call` saves some of them are on the C stack and are lost.

The registers and that C stack are a machine of their own here. The values
on the stack are left out, so the branches that depend on values are taken
either way, and `stack_top` after C code is any number. `step_registers` is
the connection to the interpreter: each of its turns is a few steps of this
machine.
-/

namespace Saurus

open Basis Relation

namespace Recover

/-! ## Registers and the C stack -/

/-- What `func` of a frame points to: a function, or the code of a native that
was in the union. -/
inductive Pointee where
  | closure (fn : FunctionObj)
  | native (ptr : BitVec 64)

def Pointee.IsClosure : Pointee → Prop
  | .closure _ => True
  | .native _ => False

/-- `frame_t` -/
structure Record where
  func : Pointee
  stackTop : Nat
  retAddr : Nat

/-- The registers of `su_state`; `s->frame` is `&s->frames[frame - 1]`. -/
structure Regs where
  stackTop : Nat
  frames : Nat → Record
  frameTop : Nat
  frame : Nat
  narg : Nat
  pc : Int
  prot : Option Proto

/-- `*s->frame` -/
def Regs.record (r : Regs) : Record := r.frames (r.frame - 1)

/-- `s->frames[s->frame_top++]` is filled in. -/
def Regs.push (r : Regs) (fr : Record) : Regs :=
  { r with frames := Function.update r.frames r.frameTop fr, frameTop := r.frameTop + 1 }

/-- The entries of an array below `n`, the last one first. -/
def lastFirst {α : Type} (f : Nat → α) : Nat → List α
  | 0 => []
  | n + 1 => f n :: lastFirst f n

/-- The frames, the newest first. -/
def Regs.live (r : Regs) : List Record := lastFirst r.frames r.frameTop

/-- The locals `tmp`, `pc` and `prot` of `su_call`. The `frame_top` it was
called at is no local of it and is never read by a step. -/
structure Saved where
  frameTop : Nat
  narg : Nat
  pc : Int
  prot : Option Proto

def Regs.save (r : Regs) : Saved := ⟨r.frameTop, r.narg, r.pc, r.prot⟩

/-- Where a `su_call` is: before `vm_loop`, in it before an instruction, in
`OP_CALL` with the frame pushed, or in `OP_TCALL` with `a` arguments and the
frame dropped. -/
inductive Phase where
  | enter | turn | called
  | tailed (a : Nat)

/-- What is on the C stack: a `su_call` with the local `func` of its
`vm_loop`, a `su_call` with the native it runs, or a native called by the
`vm_loop` below it, with the locals `tmp` and `narg` of that. -/
inductive Activation where
  | suCall (phase : Phase) (func : FunctionObj) (saved : Saved)
  | direct (saved : Saved)
  | native (tmp narg : Nat)

/-- The interpreter, the innermost activation first. -/
structure Interp where
  acts : List Activation
  regs : Regs

/-- C code outside the interpreter is running: the host, or a native. -/
def InC : List Activation → Prop
  | [] => True
  | .direct _ :: _ => True
  | .native _ _ :: _ => True
  | _ => False

/-- `s->prot->num_inst` -/
def Regs.numInst (r : Regs) : Nat :=
  match r.prot with
  | some prot => prot.inst.length
  | none => 0

/-- The condition of the loop fails. -/
def Regs.Over (r : Regs) : Prop := (r.numInst : Int) ≤ r.pc

/-- The instruction at `s->pc`, with its operand `a`. -/
def Regs.inst (r : Regs) : Option (Op × Nat) := do
  let prot ← r.prot
  let inst ← prot.inst[r.pc.toNat]?
  let op ← Op.ofCode inst.id.toNat
  pure (op, inst.a.toNat)

/-! ## Steps -/

/-- The loop is at the common part of `OP_CALL` and `OP_TCALL`. -/
inductive Calling (r : Regs) (a : Nat) : Phase → Prop where
  | call : r.inst = some (.call, a) → Calling r a .turn
  | tcall : Calling r a (.tailed a)

/-- Where control goes on after an instruction that stays in its frame. -/
def Goes (op : Op) (a : Nat) (pc pc' : Int) : Prop :=
  pc' = pc + 1 ∨ (op = .test ∨ op = .jmp) ∧ pc' = a

inductive Step : Interp → Interp → Prop where
  /-- A call of the API other than `su_call`. -/
  | api {acts r n} : InC acts → Step ⟨acts, r⟩ ⟨acts, { r with stackTop := n }⟩
  | suCall {acts r fn narg} : InC acts → narg + 1 ≤ r.stackTop → r.frameTop < maxCalls →
      Step ⟨acts, r⟩ ⟨.suCall .enter fn r.save :: acts,
        { r.push ⟨.closure fn, r.stackTop - (narg + 1), 0xffff⟩ with narg := narg }⟩
  /-- `su_call` on a native, whose union is put in the frame all the same. -/
  | suCallNative {acts r ptr narg} : InC acts → narg + 1 ≤ r.stackTop → r.frameTop < maxCalls →
      Step ⟨acts, r⟩ ⟨.direct r.save :: acts,
        { r.push ⟨.native ptr, r.stackTop - (narg + 1), 0xffff⟩ with narg := narg }⟩
  /-- `vm_loop` is entered. -/
  | start {acts r fn saved} :
      Step ⟨.suCall .enter fn saved :: acts, r⟩ ⟨.suCall .turn fn saved :: acts,
        { r with pc := 0, prot := some fn.prot, frame := r.frameTop }⟩
  /-- An instruction that stays in its frame. -/
  | within {acts r func saved op a pc'} (n : Nat) : r.inst = some (op, a) →
      op ≠ .call → op ≠ .tcall → op ≠ .return → Goes op a r.pc pc' →
      Step ⟨.suCall .turn func saved :: acts, r⟩
        ⟨.suCall .turn func saved :: acts, { r with stackTop := n, pc := pc' }⟩
  /-- A function is called: its frame is pushed. -/
  | pushFrame {acts r phase func saved a fn} : Calling r a phase → a + 1 ≤ r.stackTop →
      r.frameTop < maxCalls →
      Step ⟨.suCall phase func saved :: acts, r⟩ ⟨.suCall .called fn saved :: acts,
        { r.push ⟨.closure func, r.stackTop - (a + 1), (r.pc + 1).toNat⟩ with
          frame := r.frameTop + 1 }⟩
  /-- Its arguments and upvalues are in place. -/
  | goInto {acts r fn saved} (n : Nat) :
      Step ⟨.suCall .called fn saved :: acts, r⟩ ⟨.suCall .turn fn saved :: acts, { r with
        stackTop := n, pc := 0, prot := some fn.prot }⟩
  /-- A native is called. -/
  | callNative {acts r phase func saved a} : Calling r a phase →
      a + 1 ≤ r.stackTop →
      Step ⟨.suCall phase func saved :: acts, r⟩
        ⟨.native (r.stackTop - (a + 1)) r.narg :: .suCall .turn func saved :: acts,
          { r with narg := a }⟩
  /-- A vector or a map is called. -/
  | callData {acts r phase func saved a} : Calling r a phase →
      a + 1 ≤ r.stackTop →
      Step ⟨.suCall phase func saved :: acts, r⟩ ⟨.suCall .turn func saved :: acts, { r with
        stackTop := r.stackTop - a, pc := r.pc + 1 }⟩
  /-- The part of `OP_TCALL` before the call. It reads `s->frame->func->prot`. -/
  | dropFrame {acts r func saved a fn} : r.inst = some (.tcall, a) → r.frame ≠ 0 →
      r.record.func = .closure fn → r.frameTop ≠ 0 →
      Step ⟨.suCall .turn func saved :: acts, r⟩ ⟨.suCall (.tailed a) fn saved :: acts,
        { r with stackTop := r.record.stackTop + a + 1, frameTop := r.frameTop - 1,
                 frame := r.frameTop - 1, pc := (r.record.retAddr : Int) - 1,
                 prot := some fn.prot }⟩
  | ret {acts r func saved a fn} : r.inst = some (.return, a) → r.frame ≠ 0 →
      r.record.func = .closure fn → r.frameTop ≠ 0 →
      Step ⟨.suCall .turn func saved :: acts, r⟩ ⟨.suCall .turn fn saved :: acts,
        { r with stackTop := r.record.stackTop + 1, frameTop := r.frameTop - 1,
                 frame := r.frameTop - 1, pc := r.record.retAddr, prot := some fn.prot }⟩
  /-- A native called by the loop returns. -/
  | nativeReturn {acts r tmp narg} :
      Step ⟨.native tmp narg :: acts, r⟩
        ⟨acts, { r with stackTop := tmp + 1, narg := narg, pc := r.pc + 1 }⟩
  /-- The loop is over, and `su_call` returns. -/
  | exit {acts r func saved nret} : r.Over →
      Step ⟨.suCall .turn func saved :: acts, r⟩ ⟨acts, { r with
        stackTop := if nret = 0 then r.stackTop - 1 else r.stackTop,
        narg := saved.narg, pc := saved.pc, prot := saved.prot }⟩
  /-- `su_call` returns from its native, and leaves `s->frame` where it is. -/
  | directReturn {acts r saved n} : r.frameTop ≠ 0 →
      Step ⟨.direct saved :: acts, r⟩ ⟨acts, { r with
        stackTop := n, frameTop := r.frameTop - 1, narg := saved.narg, pc := saved.pc,
        prot := saved.prot }⟩

/-! ## Errors -/

/-- Between the last instruction and the end of `su_call` nothing can be
raised. -/
def AtExit : Interp → Prop
  | ⟨.suCall .turn _ _ :: _, r⟩ => r.Over
  | _ => False

/-- `longjmp` back to the code that called `su_seterror(s, jmp, 0)` in the
state `i₀`, and the `su_seterror(s, jmp, 1)` with which it goes on. -/
def recover (i₀ i : Interp) : Interp :=
  ⟨i₀.acts, { i.regs with stackTop := i₀.regs.stackTop }⟩

/-- What the program can do after `su_seterror(s, jmp, 0)` in `i₀`. -/
inductive Move (i₀ : Interp) : Interp → Interp → Prop where
  | step {i j} : Step i j → i₀.acts <:+ j.acts → Move i₀ i j
  | error {i} : ¬ AtExit i → Move i₀ i (recover i₀ i)

/-- The five registers. -/
structure SameRegs (r r' : Regs) : Prop where
  stackTop : r.stackTop = r'.stackTop
  frameTop : r.frameTop = r'.frameTop
  narg : r.narg = r'.narg
  pc : r.pc = r'.pc
  prot : r.prot = r'.prot

/-- A `vm_loop` is left when the frame its `su_call` pushed is gone, and not
otherwise. -/
def OwnReturn : Interp → Prop
  | ⟨.suCall .turn _ saved :: _, r⟩ => r.Over ↔ r.frameTop = saved.frameTop
  | _ => True

/-- A move that is not the error of an inner activation, and by which no
`vm_loop` is left the wrong way. -/
inductive Harmless (i₀ : Interp) : Interp → Interp → Prop where
  | step {i j} : Step i j → i₀.acts <:+ j.acts → OwnReturn i → Harmless i₀ i j
  | error {i} : ¬ AtExit i → i.acts = i₀.acts → Harmless i₀ i (recover i₀ i)

/-! ## What an activation restores -/

@[simp] theorem length_lastFirst {α : Type} (f : Nat → α) : ∀ n, (lastFirst f n).length = n
  | 0 => rfl
  | n + 1 => congrArg (· + 1) (length_lastFirst f n)

theorem lastFirst_congr {α : Type} {f g : Nat → α} :
    ∀ {n : Nat}, (∀ k < n, f k = g k) → lastFirst f n = lastFirst g n
  | 0, _ => rfl
  | n + 1, h => by
      rw [lastFirst, lastFirst, h n (Nat.lt_succ_self n),
        lastFirst_congr fun k hk => h k (Nat.lt_succ_of_lt hk)]

theorem lastFirst_update {α : Type} (f : Nat → α) (n : Nat) (x : α) :
    lastFirst (Function.update f n x) (n + 1) = x :: lastFirst f n := by
  rw [lastFirst, Function.update_self]
  exact congrArg _ (lastFirst_congr fun k hk => Function.update_of_ne (Nat.ne_of_lt hk) ..)

theorem Regs.live_push (r : Regs) (fr : Record) : (r.push fr).live = fr :: r.live :=
  lastFirst_update ..

theorem Regs.live_pop {r : Regs} (h : r.frameTop ≠ 0) :
    r.live = r.frames (r.frameTop - 1) :: lastFirst r.frames (r.frameTop - 1) := by
  obtain ⟨n, hn⟩ := Nat.exists_eq_succ_of_ne_zero h
  rw [live, hn]
  rfl

/-- The bottom frame is one that `su_call` pushed, and all are of functions. -/
def Bottom (own : List Record) : Prop :=
  (∃ init fr, own = init ++ [fr] ∧ fr.retAddr = 0xffff) ∧ ∀ fr ∈ own, fr.func.IsClosure

/-- The frames above those that a `su_call` started on. Without any, control
is on its way out of the `vm_loop`. -/
def Own : Phase → List Record → Int → Prop
  | .enter, own, _ => Bottom own
  | .called, own, _ => Bottom own
  | .turn, own, pc => own = [] ∧ pc = 0xffff ∨ Bottom own
  | .tailed _, own, pc => own = [] ∧ pc = 0xfffe ∨ Bottom own

def Turning : List Activation → Prop
  | .suCall .turn _ _ :: _ => True
  | _ => False

theorem Turning.shape {ext : List Activation} (h : Turning ext) :
    ∃ func saved ext', ext = .suCall .turn func saved :: ext' := by
  cases ext with
  | nil => exact h.elim
  | cons act ext =>
      cases act with
      | native tmp narg => exact h.elim
      | direct saved => exact h.elim
      | suCall phase func saved =>
          cases phase with
          | turn => exact ⟨func, saved, ext, rfl⟩
          | _ => exact h.elim

/-- When the activations `ext` have returned one after the other, the
registers are those of `r₀`, but for `stack_top` and `s->frame`. -/
def Back (r₀ : Regs) : List Activation → List Record → Nat → Int → Option Proto → Prop
  | [], frames, narg, pc, prot =>
      frames = r₀.live ∧ narg = r₀.narg ∧ pc = r₀.pc ∧ prot = r₀.prot
  | .native _ narg :: ext, frames, _, pc, prot =>
      Turning ext ∧ Back r₀ ext frames narg (pc + 1) prot
  | .direct saved :: ext, frames, _, _, _ =>
      ∃ fr rest, frames = fr :: rest ∧ ¬ fr.func.IsClosure ∧ saved.frameTop = rest.length
        ∧ Back r₀ ext rest saved.narg saved.pc saved.prot
  | .suCall phase _ saved :: ext, frames, _, pc, _ =>
      ∃ own rest, frames = own ++ rest ∧ Own phase own pc ∧ saved.frameTop = rest.length
        ∧ Back r₀ ext rest saved.narg saved.pc saved.prot

/-- A `vm_loop` has been entered, and none is about to be. -/
def Loops : List Activation → Prop
  | .suCall .enter _ _ :: _ => False
  | acts => ∃ phase func saved, .suCall phase func saved ∈ acts

/-- The frames newer than `s->frame` are of natives, or it is of one itself:
what a `su_call` on a native leaves, until the loop sets `s->frame` again. -/
def Tracks (r : Regs) : Prop :=
  ¬ r.record.func.IsClosure
    ∨ r.frame ≤ r.frameTop ∧ ∀ k, r.frame ≤ k → k < r.frameTop → ¬ (r.frames k).func.IsClosure

/-- The state `i` is above the registered one. -/
def Above (i₀ i : Interp) : Prop :=
  ∃ ext, i.acts = ext ++ i₀.acts
    ∧ Back i₀.regs ext i.regs.live i.regs.narg i.regs.pc i.regs.prot
    ∧ (Loops ext → Tracks i.regs)

/-- What a `su_call` has below it: the activations `acts`, above the
registered ones, and the frames `rest`. -/
def Below (i₀ : Interp) (saved : Saved) (acts : List Activation) (rest : List Record) : Prop :=
  saved.frameTop = rest.length
    ∧ ∃ ext, acts = ext ++ i₀.acts ∧ Back i₀.regs ext rest saved.narg saved.pc saved.prot

variable {i₀ i j : Interp} {r : Regs} {acts ext : List Activation} {phase : Phase}
  {func : FunctionObj} {saved : Saved}

theorem above_refl (i : Interp) : Above i i :=
  ⟨[], rfl, ⟨rfl, rfl, rfl, rfl⟩, fun ⟨_, _, _, h⟩ => nomatch h⟩

theorem loops_cons (hphase : phase ≠ .enter) : Loops (.suCall phase func saved :: ext) := by
  cases phase with
  | enter => exact absurd rfl hphase
  | _ => exact ⟨_, _, _, List.mem_cons_self⟩

theorem Loops.mem (h : Loops ext) : ∃ phase func saved, .suCall phase func saved ∈ ext := by
  rcases ext with _ | ⟨⟨phase, func, saved⟩ | _ | _, ext⟩
  · exact h
  · exact ⟨phase, func, saved, List.mem_cons_self⟩
  · exact h
  · exact h

/-- No loop is about to be entered where C code runs. -/
theorem loops_of_inC (hC : InC (ext ++ acts))
    (h : ∃ phase func saved, .suCall phase func saved ∈ ext) : Loops ext := by
  rcases ext with _ | ⟨⟨phase, func, saved⟩ | _ | _, ext⟩
  · exact h
  · cases phase <;> exact hC.elim
  · exact h
  · exact h

theorem tracks_newest (r : Regs) (h : r.frame = r.frameTop) : Tracks r :=
  Or.inr ⟨Nat.le_of_eq h, fun k hk hlt => by omega⟩

theorem Regs.push_frames (r : Regs) (fr : Record) (k : Nat) :
    (r.push fr).frames k = if k = r.frameTop then fr else r.frames k :=
  Function.update_apply ..

theorem Tracks.push {fr : Record} (h : Tracks r) (hfr : ¬ fr.func.IsClosure) :
    Tracks (r.push fr) := by
  have hsame : ∀ k, (k ≠ r.frameTop → ¬ (r.frames k).func.IsClosure) →
      ¬ ((r.push fr).frames k).func.IsClosure := by
    intro k hk
    rw [Regs.push_frames]
    split
    · exact hfr
    · exact hk ‹_›
  rcases h with h | ⟨hle, h⟩
  · exact Or.inl (hsame _ fun _ => h)
  · refine Or.inr ⟨Nat.le_succ_of_le hle, fun k hk hlt => hsame k fun hne => h k hk ?_⟩
    exact Nat.lt_of_le_of_ne (Nat.le_of_lt_succ hlt) hne

/-- The frame of a native is gone, but maybe not from `s->frame`. -/
theorem Tracks.pop {r' : Regs} (h : Tracks r) (hframes : r'.frames = r.frames)
    (hframe : r'.frame = r.frame) (htop : r'.frameTop = r.frameTop - 1)
    (hnewest : ¬ (r.frames (r.frameTop - 1)).func.IsClosure) : Tracks r' := by
  rw [Tracks, Regs.record, hframes, hframe, htop]
  rcases h with h | ⟨hle, h⟩
  · exact Or.inl h
  · by_cases heq : r.frame = r.frameTop
    · exact Or.inl (heq ▸ hnewest)
    · exact Or.inr ⟨by omega, fun k hk hlt => h k hk (by omega)⟩

/-- An activation on top of what it is above of. -/
theorem Below.suCall {own rest : List Record} (h : Below i₀ saved acts rest)
    (hframes : r.live = own ++ rest) (hown : Own phase own r.pc)
    (htracks : phase ≠ .enter → Tracks r) : Above i₀ ⟨.suCall phase func saved :: acts, r⟩ := by
  obtain ⟨hlen, ext, rfl, hback⟩ := h
  refine ⟨.suCall phase func saved :: ext, rfl, ⟨own, rest, hframes, hown, hlen, hback⟩, ?_⟩
  rintro hloops
  refine htracks ?_
  rintro rfl
  exact hloops

/-- C code is where the error is caught, so a running loop is above that. -/
theorem Above.below (hC : InC i₀.acts) (h : Above i₀ ⟨.suCall phase func saved :: acts, r⟩) :
    ∃ own rest, r.live = own ++ rest ∧ Own phase own r.pc ∧ Below i₀ saved acts rest
      ∧ (phase ≠ .enter → Tracks r) := by
  obtain ⟨ext, hacts, hback, htracks⟩ := h
  cases ext with
  | nil =>
      rw [← show _ = i₀.acts from hacts] at hC
      cases phase <;> exact hC.elim
  | cons act ext =>
      obtain ⟨rfl, rfl⟩ := List.cons.inj hacts
      obtain ⟨own, rest, hframes, hown, hlen, hback⟩ := hback
      exact ⟨own, rest, hframes, hown, ⟨hlen, ext, rfl, hback⟩, fun hp => htracks (loops_cons hp)⟩

theorem Bottom.push {own : List Record} (h : Bottom own) {fr : Record} (hfr : fr.func.IsClosure) :
    Bottom (fr :: own) := by
  obtain ⟨⟨init, last, rfl, hlast⟩, hall⟩ := h
  exact ⟨⟨fr :: init, last, rfl, hlast⟩, List.forall_mem_cons.mpr ⟨hfr, hall⟩⟩

theorem Bottom.one {fr : Record} (hret : fr.retAddr = 0xffff) (hfr : fr.func.IsClosure) :
    Bottom [fr] :=
  ⟨⟨[], fr, rfl, hret⟩, fun _ hx => List.mem_singleton.mp hx ▸ hfr⟩

theorem Bottom.ne_nil {own : List Record} (h : Bottom own) : own ≠ [] := by
  obtain ⟨⟨init, last, rfl, -⟩, -⟩ := h
  simp

/-- The newest frame is dropped: the last one takes the loop to its end. -/
theorem Bottom.pop {fr : Record} {own : List Record} (h : Bottom (fr :: own)) :
    own = [] ∧ fr.retAddr = 0xffff ∨ Bottom own := by
  obtain ⟨⟨init, last, heq, hlast⟩, hall⟩ := h
  cases init with
  | nil =>
      obtain ⟨rfl, rfl⟩ := List.cons.inj heq
      exact Or.inl ⟨rfl, hlast⟩
  | cons x init =>
      obtain ⟨rfl, rfl⟩ := List.cons.inj heq
      exact Or.inr ⟨⟨init, last, rfl, hlast⟩, (List.forall_mem_cons.mp hall).2⟩

theorem not_over_of_inst {x : Op × Nat} (h : r.inst = some x) : ¬ r.Over := by
  simp only [Regs.inst, Option.bind_eq_bind, Option.bind_eq_some_iff] at h
  obtain ⟨prot, hprot, inst, hinst, -⟩ := h
  have hlt := (List.getElem?_eq_some_iff.mp hinst).1
  simp only [Regs.Over, Regs.numInst, hprot]
  omega

/-- A loop that fetches has its own frame. -/
theorem Above.fetching (hC : InC i₀.acts) (h : Above i₀ ⟨.suCall .turn func saved :: acts, r⟩)
    (hend : OwnReturn ⟨.suCall .turn func saved :: acts, r⟩) {x : Op × Nat}
    (hinst : r.inst = some x) :
    ∃ own rest, r.live = own ++ rest ∧ Bottom own ∧ Below i₀ saved acts rest ∧ Tracks r := by
  obtain ⟨own, rest, hframes, hown, hbelow, htracks⟩ := h.below hC
  refine ⟨own, rest, hframes, hown.resolve_left ?_, hbelow, htracks nofun⟩
  rintro ⟨rfl, -⟩
  refine not_over_of_inst hinst (hend.mpr ?_)
  rw [hbelow.1, ← length_lastFirst r.frames r.frameTop]
  exact congrArg List.length hframes

/-- The frames of a `su_call` at the common part of the two calls. -/
def OwnCalling : Phase → List Record → Int → Prop
  | .turn, own, _ => Bottom own
  | phase, own, pc => Own phase own pc

theorem Above.calling (hC : InC i₀.acts) (h : Above i₀ ⟨.suCall phase func saved :: acts, r⟩)
    (hend : OwnReturn ⟨.suCall phase func saved :: acts, r⟩) {a : Nat} (hc : Calling r a phase) :
    ∃ own rest, r.live = own ++ rest ∧ OwnCalling phase own r.pc ∧ Below i₀ saved acts rest
      ∧ Tracks r := by
  cases hc with
  | call hinst => exact h.fetching hC hend hinst
  | tcall =>
      obtain ⟨own, rest, hframes, hown, hbelow, htracks⟩ := h.below hC
      exact ⟨own, rest, hframes, hown, hbelow, htracks nofun⟩

/-- A frame pushed there. -/
theorem OwnCalling.push {a : Nat} {own : List Record} (hown : OwnCalling phase own r.pc)
    (hc : Calling r a phase) (func : FunctionObj) (top : Nat) :
    Bottom (⟨.closure func, top, (r.pc + 1).toNat⟩ :: own) := by
  cases hc with
  | call => exact Bottom.push hown trivial
  | tcall =>
      rcases hown with ⟨rfl, hpc⟩ | hb
      · exact .one (by rw [hpc]; rfl) trivial
      · exact hb.push trivial

/-- Control after it, without a new frame. -/
theorem OwnCalling.goOn {a : Nat} {own : List Record} (hown : OwnCalling phase own r.pc)
    (hc : Calling r a phase) : Own .turn own (r.pc + 1) := by
  cases hc with
  | call => exact Or.inr hown
  | tcall =>
      rcases hown with ⟨rfl, hpc⟩ | hb
      · exact Or.inl ⟨rfl, by rw [hpc]; rfl⟩
      · exact Or.inr hb

/-- The newest frame of a loop that fetches is `*s->frame`, if that is a
function's. -/
theorem own_record {own rest : List Record} (hframes : r.live = own ++ rest) (hb : Bottom own)
    (htracks : Tracks r) {fn : FunctionObj} (hfn : r.record.func = .closure fn)
    (htop : r.frameTop ≠ 0) :
    ∃ own', own = r.record :: own' ∧ lastFirst r.frames (r.frameTop - 1) = own' ++ rest := by
  rw [Regs.live_pop htop] at hframes
  cases own with
  | nil => exact absurd rfl hb.ne_nil
  | cons x own' =>
      obtain ⟨hx, hrest⟩ := List.cons.inj hframes
      have hclosure : (r.frames (r.frameTop - 1)).func.IsClosure :=
        hx ▸ hb.2 x List.mem_cons_self
      have hnewest : r.frame = r.frameTop := by
        rcases htracks with h | ⟨hle, h⟩
        · exact absurd (hfn ▸ trivial) h
        · by_contra hne
          exact h (r.frameTop - 1) (by omega) (by omega) hclosure
      refine ⟨own', ?_, hrest⟩
      rw [← hx, Regs.record, hnewest]

/-- The code that catches the error has not returned. -/
theorem not_suffix_of_cons {act : Activation} {acts acts₀ : List Activation}
    (h : act :: acts = acts₀) (hsuf : acts₀ <:+ acts) : False := by
  have := hsuf.length_le
  rw [← h, List.length_cons] at this
  omega

/-- One step keeps the way back. -/
theorem above_step (hC : InC i₀.acts) (h : Above i₀ i) (hend : OwnReturn i) (hs : Step i j)
    (hsuf : i₀.acts <:+ j.acts) : Above i₀ j := by
  cases hs with
  | api => exact h
  | @suCall acts r fn narg =>
      obtain ⟨ext, hacts, hback, -⟩ := h
      have hbelow : Below i₀ r.save acts r.live := ⟨(length_lastFirst ..).symm, ext, hacts, hback⟩
      have hown : Bottom [⟨.closure fn, r.stackTop - (narg + 1), 0xffff⟩] := .one rfl trivial
      exact hbelow.suCall (Regs.live_push r _) hown fun hne => absurd rfl hne
  | @suCallNative acts r ptr narg hin =>
      obtain ⟨ext, rfl, hback, htracks⟩ := h
      refine ⟨.direct r.save :: ext, rfl, ⟨_, r.live, Regs.live_push r _, not_false,
        (length_lastFirst ..).symm, hback⟩, ?_⟩
      rintro ⟨phase, func, saved, hmem⟩
      have hloops := loops_of_inC hin ⟨phase, func, saved, by simpa using hmem⟩
      exact (htracks hloops).push not_false
  | start =>
      obtain ⟨own, rest, hframes, hown, hbelow, -⟩ := h.below hC
      exact hbelow.suCall hframes (Or.inr hown) fun _ => tracks_newest _ rfl
  | within n hinst =>
      obtain ⟨own, rest, hframes, hown, hbelow, htracks⟩ := h.fetching hC hend hinst
      exact hbelow.suCall hframes (Or.inr hown) fun _ => htracks
  | @pushFrame acts r phase func saved a fn hc =>
      obtain ⟨own, rest, hframes, hown, hbelow, -⟩ := h.calling hC hend hc
      refine hbelow.suCall ((Regs.live_push r _).trans (congrArg _ hframes)) (hown.push hc _ _)
        fun _ => tracks_newest _ rfl
  | goInto =>
      obtain ⟨own, rest, hframes, hown, hbelow, htracks⟩ := h.below hC
      exact hbelow.suCall hframes (Or.inr hown) fun _ => htracks nofun
  | @callNative acts r phase func saved a hc =>
      obtain ⟨own, rest, hframes, hown, hbelow, htracks⟩ := h.calling hC hend hc
      obtain ⟨hlen, ext, rfl, hback⟩ := hbelow
      exact ⟨.native _ r.narg :: .suCall .turn func saved :: ext, rfl, ⟨trivial,
        own, rest, hframes, hown.goOn hc, hlen, hback⟩, fun _ => htracks⟩
  | callData hc =>
      obtain ⟨own, rest, hframes, hown, hbelow, htracks⟩ := h.calling hC hend hc
      exact hbelow.suCall hframes (hown.goOn hc) fun _ => htracks
  | dropFrame hinst _ hfn htop =>
      obtain ⟨own, rest, hframes, hown, hbelow, htracks⟩ := h.fetching hC hend hinst
      obtain ⟨own', rfl, hrest⟩ := own_record hframes hown htracks hfn htop
      refine hbelow.suCall hrest ?_ fun _ => tracks_newest _ rfl
      exact hown.pop.imp (fun ⟨hnil, hret⟩ => ⟨hnil, by rw [hret]; rfl⟩) id
  | ret hinst _ hfn htop =>
      obtain ⟨own, rest, hframes, hown, hbelow, htracks⟩ := h.fetching hC hend hinst
      obtain ⟨own', rfl, hrest⟩ := own_record hframes hown htracks hfn htop
      refine hbelow.suCall hrest ?_ fun _ => tracks_newest _ rfl
      exact hown.pop.imp (fun ⟨hnil, hret⟩ => ⟨hnil, by rw [hret]; rfl⟩) id
  | nativeReturn =>
      obtain ⟨ext, hacts, hback, htracks⟩ := h
      cases ext with
      | nil => exact (not_suffix_of_cons hacts hsuf).elim
      | cons act ext =>
          obtain ⟨rfl, rfl⟩ := List.cons.inj hacts
          obtain ⟨func, saved, ext, rfl⟩ := hback.1.shape
          exact ⟨_, rfl, hback.2, fun _ => htracks ⟨_, _, _, .tail _ List.mem_cons_self⟩⟩
  | exit hover =>
      obtain ⟨ext, hacts, hback, htracks⟩ := h
      cases ext with
      | nil => exact (not_suffix_of_cons hacts hsuf).elim
      | cons act ext =>
          obtain ⟨rfl, rfl⟩ := List.cons.inj hacts
          obtain ⟨own, rest, hframes, -, hlen, hback⟩ := hback
          have hlength := congrArg List.length hframes
          rw [Regs.live, length_lastFirst, List.length_append, ← hlen, hend.mp hover] at hlength
          obtain rfl : own = [] := List.eq_nil_of_length_eq_zero (by omega)
          exact ⟨ext, rfl, hframes.symm ▸ hback, fun _ => htracks (loops_cons nofun)⟩
  | @directReturn acts r saved n htop =>
      obtain ⟨ext, hacts, hback, htracks⟩ := h
      cases ext with
      | nil => exact (not_suffix_of_cons hacts hsuf).elim
      | cons act ext =>
          obtain ⟨rfl, rfl⟩ := List.cons.inj hacts
          obtain ⟨fr, rest, hframes, hfr, hlen, hback⟩ := hback
          obtain ⟨rfl, rfl⟩ := List.cons.inj ((Regs.live_pop htop).symm.trans hframes)
          refine ⟨ext, rfl, hback, fun hloops => ?_⟩
          obtain ⟨phase, func, saved, hmem⟩ := hloops.mem
          exact (htracks ⟨phase, func, saved, .tail _ hmem⟩).pop rfl rfl rfl hfr

/-! ## Runs -/

/-- What a move without harm keeps, an error caught included. -/
theorem above_move (hC : InC i₀.acts) (h : Above i₀ i) (hm : Harmless i₀ i j) : Above i₀ j := by
  cases hm with
  | step hs hsuf hend => exact above_step hC h hend hs hsuf
  | error _ hacts =>
      obtain ⟨ext, hext, hback, -⟩ := h
      obtain rfl : ext = [] := List.append_left_eq_self.mp (hext.symm.trans hacts)
      exact ⟨[], rfl, hback, fun ⟨_, _, _, hmem⟩ => nomatch hmem⟩

theorem above_run (hC : InC i₀.acts) (h : ReflTransGen (Harmless i₀) i₀ i) : Above i₀ i := by
  induction h with
  | refl => exact above_refl i₀
  | tail _ hm ih => exact above_move hC ih hm

theorem back_length {r₀ : Regs} : ∀ {ext : List Activation} {frames : List Record} {narg : Nat}
    {pc : Int} {prot : Option Proto}, Back r₀ ext frames narg pc prot →
      r₀.frameTop ≤ frames.length
  | [], _, _, _, _, ⟨h, _⟩ => Nat.le_of_eq (by rw [h, Regs.live, length_lastFirst])
  | .native _ _ :: _, _, _, _, _, ⟨_, h⟩ => back_length h
  | .direct _ :: _, _, _, _, _, ⟨_, _, hframes, _, _, h⟩ => by
      have := back_length h
      rw [hframes, List.length_cons]
      omega
  | .suCall _ _ _ :: _, _, _, _, _, ⟨own, rest, hframes, _, _, h⟩ => by
      have := back_length h
      rw [hframes, List.length_append]
      omega

theorem back_inside {r₀ : Regs} {ext : List Activation} {own rest : List Record}
    {narg : Nat} {pc : Int} {prot : Option Proto} (hframes : r.live = own ++ rest)
    (hback : Back r₀ ext rest narg pc prot) (hne : own ≠ []) : r₀.frameTop < r.frameTop := by
  have := back_length hback
  have := List.length_pos_iff.mpr hne
  have hlength := congrArg List.length hframes
  rw [Regs.live, length_lastFirst, List.length_append] at hlength
  omega

/-- Inside a `su_call` there are more frames, or control is about to leave
its `vm_loop`. -/
theorem inside_of_ext {act : Activation} {ext : List Activation} (hend : OwnReturn i)
    (hraise : ¬ AtExit i) (hacts : i.acts = act :: ext ++ i₀.acts)
    (hback : Back i₀.regs (act :: ext) i.regs.live i.regs.narg i.regs.pc i.regs.prot) :
    i₀.regs.frameTop < i.regs.frameTop ∨ i.regs.pc = 0xfffe := by
  obtain ⟨_, r⟩ := i
  obtain rfl : _ = act :: ext ++ i₀.acts := hacts
  cases act with
  | native tmp narg =>
      obtain ⟨hturn, hback⟩ := hback
      obtain ⟨func, saved, ext, rfl⟩ := hturn.shape
      obtain ⟨own, rest, hframes, ⟨-, hpc⟩ | hb, -, hback⟩ := hback
      · exact Or.inr (add_right_cancel (hpc : r.pc + 1 = 0xfffe + 1))
      · exact Or.inl (back_inside hframes hback hb.ne_nil)
  | direct saved =>
      obtain ⟨fr, rest, hframes, -, -, hback⟩ := hback
      have hframes : r.live = [fr] ++ rest := hframes
      exact Or.inl (back_inside hframes hback nofun)
  | suCall phase func saved =>
      obtain ⟨own, rest, hframes, hown, hlen, hback⟩ := hback
      cases phase with
      | enter => exact Or.inl (back_inside hframes hback (Bottom.ne_nil hown))
      | called => exact Or.inl (back_inside hframes hback (Bottom.ne_nil hown))
      | tailed a => exact hown.symm.imp (fun hb => back_inside hframes hback hb.ne_nil) And.right
      | turn =>
          refine hown.symm.imp (fun hb => back_inside hframes hback hb.ne_nil) ?_
          rintro ⟨rfl, -⟩
          refine absurd (hend.mpr ?_) hraise
          rw [hlen, ← length_lastFirst r.frames r.frameTop]
          exact congrArg List.length hframes

/-- The registers after the recovery are those registered. -/
def Restores (i₀ i : Interp) : Prop := SameRegs (recover i₀ i).regs i₀.regs

/-- **Recovery.** An error takes the registers back to what they were when
the handler was registered if it is raised by the C code that registered it,
and not if it is raised inside a `su_call` of that code. The exception is
code that registers with `0xfffe` in `pc`, the value `OP_TCALL` takes from
the frame of a `su_call`. -/
theorem recovery_restores (hC : InC i₀.acts) (hrun : ReflTransGen (Harmless i₀) i₀ i)
    (hend : OwnReturn i) (hraise : ¬ AtExit i) :
    (i.acts = i₀.acts → Restores i₀ i)
      ∧ (i₀.regs.pc ≠ 0xfffe → Restores i₀ i → i.acts = i₀.acts) := by
  obtain ⟨ext, hacts, hback, -⟩ := above_run hC hrun
  constructor
  · intro h
    obtain rfl : ext = [] := List.append_left_eq_self.mp (hacts.symm.trans h)
    obtain ⟨hframes, hnarg, hpc, hprot⟩ := hback
    have htop := congrArg List.length hframes
    rw [Regs.live, Regs.live, length_lastFirst, length_lastFirst] at htop
    exact ⟨rfl, htop, hnarg, hpc, hprot⟩
  · intro hpc h
    cases ext with
    | nil => exact hacts
    | cons act ext =>
        have htop : i.regs.frameTop = i₀.regs.frameTop := h.frameTop
        have hpc' : i.regs.pc = i₀.regs.pc := h.pc
        rcases inside_of_ext hend hraise hacts hback with hlt | htail
        · exact absurd htop (Nat.ne_of_gt hlt)
        · exact absurd (hpc'.symm.trans htail) hpc

end Recover

/-! ## The interpreter is this machine -/

namespace Vm

/-- The interpreter enters frames of functions only. -/
def record (fr : Frame) : Recover.Record := ⟨.closure fr.func, fr.stackTop, fr.retAddr⟩

/-- The registers of the interpreter, with `s->narg`. -/
def registers (s : Vm) (narg : Nat) : Recover.Regs where
  stackTop := s.stackTop
  frames := fun k => record (s.frames k)
  frameTop := s.frameTop
  frame := s.frameTop
  narg := narg
  pc := s.pc
  prot := some s.func.prot

variable {s s' : Vm} {narg a : Nat} {b : Int} {op : Op} {acts : List Recover.Activation}
  {saved : Recover.Saved}

theorem registers_inst (h : s.fetch = .ok (op, a, b)) : (s.registers narg).inst = some (op, a) := by
  obtain ⟨inst, hinst, h⟩ := Outcome.bind_eq_ok.mp h
  obtain ⟨op', hop, h⟩ := Outcome.bind_eq_ok.mp h
  cases h
  rw [Outcome.ofOption_eq_ok] at hinst hop
  simp only [registers, Recover.Regs.inst, Option.bind_eq_bind, Option.bind_some, Int.toNat_natCast]
  rw [hinst]
  simp [hop]

/-- The registers with `s->pc` at `ret - 1`, from where a call is made. -/
def callRegisters (s : Vm) (narg ret : Nat) : Recover.Regs :=
  { s.registers narg with pc := (ret : Int) - 1 }

theorem callRegisters_pc (ret : Nat) : (s.callRegisters narg ret).pc + 1 = ret :=
  Int.sub_add_cancel ..

/-- The frames with one more. -/
theorem record_update (frames : Nat → Frame) (n : Nat) (fr : Frame) :
    (fun k => record (Function.update frames n fr k))
      = Function.update (fun k => record (frames k)) n (record fr) := by
  funext k
  by_cases h : k = n
  · rw [h, Function.update_self, Function.update_self]
  · rw [Function.update_of_ne h, Function.update_of_ne h]

theorem frameTop_ne_zero {frame : Frame} (h : s.frame = .ok frame) : s.frameTop ≠ 0 := by
  obtain ⟨_, hpos, -⟩ := Outcome.bind_eq_ok.mp h
  exact Nat.ne_of_gt (of_decide_eq_true (Outcome.require_eq_ok.mp hpos))

theorem registers_record {frame : Frame} (h : s.frame = .ok frame) :
    (s.registers narg).record = record frame := by
  obtain ⟨_, -, h⟩ := Outcome.bind_eq_ok.mp h
  cases h
  rfl

/-- Registers of the loop, after steps that lead to them. -/
theorem reaches_registers {i : Recover.Interp} {r : Recover.Regs} {func : FunctionObj}
    (h : ReflTransGen Recover.Step i ⟨.suCall .turn func saved :: acts, r⟩)
    (hregs : s'.registers narg = r) (hfunc : s'.func = func) :
    ReflTransGen Recover.Step i ⟨.suCall .turn s'.func saved :: acts, s'.registers narg⟩ := by
  rw [hregs, hfunc]
  exact h

open Outcome in
/-- The common part of the two calls, with control at `ret` afterwards. -/
theorem call_registers (h : Host) {ret : Nat} {phase : Recover.Phase}
    (hc : Recover.Calling (s.callRegisters narg ret) a phase) :
    Ensures (call h s a ret) fun s' => ReflTransGen Recover.Step
      ⟨.suCall phase s.func saved :: acts, s.callRegisters narg ret⟩
      ⟨.suCall .turn s'.func saved :: acts, s'.registers narg⟩ := by
  refine .bind fun _ hroom => ?_
  have hroom : a + 1 ≤ s.stackTop := of_decide_eq_true (require_eq_ok.mp hroom)
  have htop : s.stackTop - (a + 1) + 1 = s.stackTop - a := by omega
  have hdata : ∀ v, ReflTransGen Recover.Step
      ⟨.suCall phase s.func saved :: acts, s.callRegisters narg ret⟩
      ⟨.suCall .turn (s.callData (s.stackTop - (a + 1)) ret v).func saved :: acts,
        (s.callData (s.stackTop - (a + 1)) ret v).registers narg⟩ := by
    intro v
    refine reaches_registers (.single (.callData hc hroom)) ?_ rfl
    rw [callRegisters_pc, registers, callData, htop]
    rfl
  dsimp only
  split
  · refine .bind fun _ hlt => .bind fun fn _ => .bind fun x _ => .bind fun _ _ => .bind fun _ _ =>
      ensures_ok ?_
    have hlt : (s.callRegisters narg ret).frameTop < maxCalls :=
      of_decide_eq_true (require_eq_ok.mp hlt)
    refine reaches_registers (.tail (.single (.pushFrame hc hroom hlt))
      (.goInto (s.stackTop - (a + 1) + 1 + x.2.length + fn.upvalues.length))) ?_ rfl
    rw [registers]
    dsimp only
    rw [record_update, callRegisters, Recover.Regs.push, registers]
    simp only [Int.sub_add_cancel, Int.toNat_natCast]
    rfl
  · refine .bind fun r _ => ensures_ok ?_
    refine reaches_registers (.tail (.single (.callNative hc hroom)) .nativeReturn) ?_ rfl
    rw [registers]
    exact congrArg (Recover.Regs.mk _ _ _ _ _ · _) (callRegisters_pc ret).symm
  · exact .bind fun v _ => ensures_ok (hdata v)
  · exact .bind fun v _ => ensures_ok (hdata v)
  · exact .bind fun _ _ => ensures_raise

/-- What an instruction that stays in its frame leaves alone. -/
structure StaysIn (s : Vm) (op : Op) (a : Nat) (s' : Vm) : Prop where
  frames : s'.frames = s.frames
  frameTop : s'.frameTop = s.frameTop
  func : s'.func = s.func
  goes : Recover.Goes op a s.pc s'.pc

open Outcome in
theorem exec_within (h : Host) (hcall : op ≠ .call) (htcall : op ≠ .tcall) (hret : op ≠ .return) :
    Ensures (s.exec h op a b) (StaysIn s op a) := by
  have hpush : ∀ {s1 : Vm} (v : Outcome Value), s1.frames = s.frames → s1.frameTop = s.frameTop →
      s1.func = s.func → s1.pc = s.pc →
      Ensures (s1.pushFrom v) fun s' => StaysIn s op a s'.next := by
    intro s1 v hf ht hfn hpc
    refine .bind fun _ _ => .bind fun _ _ => ensures_ok ⟨hf, ht, hfn, Or.inl ?_⟩
    exact congrArg (fun n : Nat => ((n + 1 : Nat) : Int)) hpc
  have hnext : ∀ {s1 : Vm}, s1.frames = s.frames → s1.frameTop = s.frameTop →
      s1.func = s.func → s1.pc = s.pc → StaysIn s op a s1.next := fun hf ht hfn hpc =>
    ⟨hf, ht, hfn, Or.inl (congrArg (fun n : Nat => ((n + 1 : Nat) : Int)) hpc)⟩
  cases op with
  | push => exact .map (hpush _ rfl rfl rfl rfl)
  | load => exact .map (.bind fun _ _ => hpush _ rfl rfl rfl rfl)
  | copy => exact .map (.bind fun _ _ => .bind fun _ _ => hpush _ rfl rfl rfl rfl)
  | getglobal => exact .bind fun _ _ => .map (hpush _ rfl rfl rfl rfl)
  | lambda => exact .map (.bind fun _ _ => .bind fun _ _ => hpush _ rfl rfl rfl rfl)
  | pop => exact .map (.bind fun _ _ => ensures_ok (hnext rfl rfl rfl rfl))
  | setglobal => exact .bind fun _ _ => ensures_ok (hnext rfl rfl rfl rfl)
  | jmp => exact ensures_ok ⟨rfl, rfl, rfl, Or.inr ⟨Or.inr rfl, rfl⟩⟩
  | test =>
      refine .bind fun _ _ => .bind fun s1 h1 => ensures_ok ?_
      obtain ⟨_, _, h1⟩ := bind_eq_ok.mp h1
      cases h1
      split
      · exact ⟨rfl, rfl, rfl, Or.inr ⟨Or.inl rfl, rfl⟩⟩
      · exact hnext rfl rfl rfl rfl
  | call => exact absurd rfl hcall
  | tcall => exact absurd rfl htcall
  | «return» => exact absurd rfl hret
  | unm | not => exact .map (.bind fun _ _ => .bind fun _ _ => ensures_ok (hnext rfl rfl rfl rfl))
  | add | sub | mul | div | mod | pow | eq | less | lequal | and | or =>
      exact .map (.bind fun _ _ => .bind fun _ _ => .bind fun _ _ =>
        ensures_ok (hnext rfl rfl rfl rfl))

/-- **Every turn of the interpreter is a few steps of the registers.** -/
theorem step_registers {h : Host} (hstep : s.step h = .ok s') :
    ReflTransGen Recover.Step ⟨.suCall .turn s.func saved :: acts, s.registers narg⟩
      ⟨.suCall .turn s'.func saved :: acts, s'.registers narg⟩ := by
  obtain ⟨⟨op, a, b⟩, hfetch, hexec⟩ := Outcome.bind_eq_ok.mp hstep
  have hinst : (s.registers narg).inst = some (op, a) := registers_inst hfetch
  change s.exec h op a b = .ok s' at hexec
  by_cases hcall : op = .call
  · subst hcall
    have hregs : s.registers narg = s.callRegisters narg (s.pc + 1) := by
      have hpc : ((s.pc + 1 : Nat) : Int) - 1 = s.pc := by omega
      rw [callRegisters, hpc]
      rfl
    rw [hregs] at hinst ⊢
    exact call_registers h (.call hinst) s' hexec
  by_cases htcall : op = .tcall
  · subst htcall
    obtain ⟨frame, hframe, hexec⟩ := Outcome.bind_eq_ok.mp hexec
    obtain ⟨_, -, hexec⟩ := Outcome.bind_eq_ok.mp hexec
    have hcall : ReflTransGen Recover.Step
        ⟨.suCall (.tailed a) frame.func saved :: acts,
          (s.dropFrame frame a).callRegisters narg frame.retAddr⟩
        ⟨.suCall .turn s'.func saved :: acts, s'.registers narg⟩ :=
      call_registers h .tcall s' hexec
    have hrecord : (s.registers narg).record = record frame := registers_record hframe
    have hdrop := @Recover.Step.dropFrame acts _ s.func saved _ _ hinst
      (frameTop_ne_zero hframe) (congrArg _ hrecord) (frameTop_ne_zero hframe)
    rw [hrecord] at hdrop
    exact .head hdrop hcall
  by_cases hret : op = .return
  · subst hret
    obtain ⟨frame, hframe, hexec⟩ := Outcome.bind_eq_ok.mp hexec
    obtain ⟨_, -, hexec⟩ := Outcome.bind_eq_ok.mp hexec
    obtain ⟨_, -, hexec⟩ := Outcome.bind_eq_ok.mp hexec
    cases hexec
    have hrecord : (s.registers narg).record = record frame := registers_record hframe
    have hret := @Recover.Step.ret acts _ s.func saved _ _ hinst
      (frameTop_ne_zero hframe) (congrArg _ hrecord) (frameTop_ne_zero hframe)
    rw [hrecord] at hret
    exact .single hret
  · obtain ⟨hframes, htop, hfunc, hgoes⟩ := exec_within h hcall htcall hret s' hexec
    refine reaches_registers (.single (.within s'.stackTop hinst hcall htcall hret hgoes)) ?_ hfunc
    rw [registers, hframes, htop, hfunc]
    rfl

end Vm

end Saurus
