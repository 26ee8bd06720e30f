import Saurus.Vm.Acts
import Saurus.Vm.Native
import Saurus.Vm.Recover

/-!
# What `su_call` leaves

A native may use `su_call`, whose loop may call natives again, so the loop,
the natives and `su_call` are one relation, `Runs`: how each of them comes to
its end, errors left out. A native is the list of what it does with the API,
where what comes next may depend on everything it can look at.

`Runs` is meant twice. With `tame` true every step of the run keeps to its
own part of the stack and a loop ends with the return of its own frame; with
`tame` false anything goes.
-/

namespace Saurus

open Basis

/-- `su_state` as C code sees it, with `s->narg`, `s->prot` and `s->frame`,
which is `&s->frames[frame - 1]`. -/
structure Cpu extends Vm where
  narg : Nat
  prot : Option Proto
  frame : Nat

/-- What a native does, up to the number it returns. -/
inductive NativeBody where
  | ret (count : Int)
  | look (k : Vm → NativeBody)
  | world (w : World) (k : NativeBody)
  | push (v : Value) (k : NativeBody)
  | pop (n : Nat) (k : NativeBody)
  | poke (n : Nat) (v : Value) (k : NativeBody)
  | suCall (narg nret : Nat) (k : NativeBody)

/-- What a callee came to: the number it returned, and the stack then. -/
structure Report where
  count : Int
  value : Value
  height : Nat

namespace Vm

def report (s : Vm) (count : Int) : Report := ⟨count, s.stack (s.stackTop - 1), s.stackTop⟩

/-- The next instruction takes no more than there is above its function. -/
def InFrame (s : Vm) : Prop :=
  ∀ op a b, s.fetch = .ok (op, a, b) →
    (s.frames (s.frameTop - 1)).stackTop + (op.effect a).1 ≤ s.stackTop

/-- The next instruction calls a native with `a` arguments, in the state `s1`:
what `OP_TCALL` has moved by then is where it goes. -/
inductive CallsNative (s : Vm) : Vm → Nat → Prop where
  | call {a : Nat} {b : Int} : s.fetch = .ok (.call, a, b) → a + 1 ≤ s.stackTop →
      (s.stack (s.stackTop - (a + 1))).type = .nativefunc → CallsNative s s a
  | tcall {a : Nat} {b : Int} {frame : Frame} : s.fetch = .ok (.tcall, a, b) →
      s.frame = .ok frame → a + 1 ≤ s.stackTop → frame.stackTop + (a + 1) ≤ stackSize →
      ((s.dropFrame frame a).stack frame.stackTop).type = .nativefunc →
      CallsNative s { s.dropFrame frame a with pc := frame.retAddr - 1 } a

/-- `OP_CALL` after its native, whose slot is `tmp`. -/
def afterNative (s : Vm) (tmp : Nat) (count : Int) : Outcome Vm := do
  let v ← if count ≠ 0 then s.stk 1 else pure ⟨.nil, (s.stack tmp).obj⟩
  pure { s with
    stack := Function.update s.stack tmp v
    stackTop := tmp + 1
    pc := s.pc + 1 }

/-- `su_call` after `vm_loop`. -/
def afterLoop (s : Vm) (nret : Nat) : Outcome Vm := if nret = 0 then s.pop 1 else pure s

/-- `su_call` before its native. Whatever `f->obj.func` is of a native, it is
in the frame. -/
def beforeDirect (s : Vm) (narg : Nat) (func : FunctionObj) : Vm :=
  { s with
    frames := Function.update s.frames s.frameTop ⟨func, s.stackTop - narg - 1, 0xffff⟩
    frameTop := s.frameTop + 1 }

/-- `su_call` after its native; `obj` is what the payload of a new nil is. -/
def afterDirect (s : Vm) (top narg nret : Nat) (obj : BitVec 64) (count : Int) : Outcome Vm := do
  let s ←
    if 0 < nret ∧ 0 < count then do
      let v ← s.stk 1
      pop { s with stack := Function.update s.stack top v } narg
    else if 0 < nret then pushValue { s with stackTop := top } ⟨.nil, obj⟩
    else pure { s with stackTop := top }
  pure { s with frameTop := s.frameTop - 1 }

end Vm

namespace Cpu

/-- After an instruction, which moves `s->prot` with `func`. -/
def goes (s : Cpu) (frame : Nat) (s' : Vm) : Cpu :=
  { toVm := s', narg := s.narg, prot := some s'.func.prot, frame }

/-- `s->frame` in the state `s'`: a frame pushed or dropped takes it along. -/
def frameAt (s : Cpu) (s' : Vm) : Nat :=
  if s'.frameTop = s.frameTop then s.frame else s'.frameTop

/-- What `su_call` restores, in the state it has come to. -/
def leave (s : Cpu) (frame : Nat) (s' : Vm) : Cpu :=
  { toVm := s.toVm.suLeave s', narg := s.narg, prot := s.prot, frame }

/-- `*s->frame`, for an instruction that reads it, is the newest frame. It may
be the frame of a native that is back, which has no `func->prot` to read. -/
def ReadsNewest (s : Cpu) : Prop :=
  ∀ op a b, s.toVm.fetch = .ok (op, a, b) → op = .return ∨ op = .tcall → s.frame = s.frameTop

end Cpu

/-- What is run: `vm_loop`, from the level and the slot of its own frame on; a
native, from its own slot on; or `su_call`. -/
inductive Task where
  | loop (level base : Nat)
  | body (base : Nat) (b : NativeBody)
  | suCall (narg nret : Nat)

/-- How a task completes. -/
inductive Runs (h : Host) (natives : BitVec 64 → NativeBody) (tame : Prop) :
    Task → Cpu → Cpu → Report → Prop where
  | halt {level base : Nat} {s : Cpu} : s.toVm.Halted → (tame → s.frameTop = level) →
      Runs h natives tame (.loop level base) s s (s.toVm.report 1)
  | turn {level base : Nat} {s s' : Cpu} {s1 : Vm} {r : Report} : ¬ s.toVm.Halted →
      (tame → level < s.frameTop ∧ s.toVm.InFrame) → s.ReadsNewest →
      (∀ s2 a, ¬ s.toVm.CallsNative s2 a) → s.toVm.step h = .ok s1 →
      Runs h natives tame (.loop level base) (s.goes (s.frameAt s1) s1) s' r →
      Runs h natives tame (.loop level base) s s' r
  | native {level base a : Nat} {s s2 s' : Cpu} {s1 s3 : Vm} {r r' : Report} :
      ¬ s.toVm.Halted → (tame → level < s.frameTop ∧ s.toVm.InFrame) → s.ReadsNewest →
      s.toVm.CallsNative s1 a →
      Runs h natives tame (.body (s1.stackTop - (a + 1))
        (natives (s1.stack (s1.stackTop - (a + 1))).obj))
        ⟨s1, a, some s1.func.prot, s.frameAt s1⟩ s2 r →
      s2.toVm.afterNative (s1.stackTop - (a + 1)) r.count = .ok s3 →
      Runs h natives tame (.loop level base) (s.goes s2.frame s3) s' r' →
      Runs h natives tame (.loop level base) s s' r'
  | ret {base : Nat} {count : Int} {s : Cpu} :
      Runs h natives tame (.body base (.ret count)) s s (s.toVm.report count)
  | look {base : Nat} {k : Vm → NativeBody} {s s' : Cpu} {r : Report} :
      Runs h natives tame (.body base (k s.toVm)) s s' r →
      Runs h natives tame (.body base (.look k)) s s' r
  | world {base : Nat} {w : World} {k : NativeBody} {s s' : Cpu} {r : Report} :
      Runs h natives tame (.body base k) { s with world := w } s' r →
      Runs h natives tame (.body base (.world w k)) s s' r
  | push {base : Nat} {v : Value} {k : NativeBody} {s s' : Cpu} {s1 : Vm} {r : Report} :
      (tame → base ≤ s.stackTop) → s.toVm.pushValue v = .ok s1 →
      Runs h natives tame (.body base k) { s with toVm := s1 } s' r →
      Runs h natives tame (.body base (.push v k)) s s' r
  | pop {base n : Nat} {k : NativeBody} {s s' : Cpu} {s1 : Vm} {r : Report} :
      (tame → base + n ≤ s.stackTop) → s.toVm.pop n = .ok s1 →
      Runs h natives tame (.body base k) { s with toVm := s1 } s' r →
      Runs h natives tame (.body base (.pop n k)) s s' r
  | poke {base n : Nat} {v : Value} {k : NativeBody} {s s' : Cpu} {r : Report} :
      (tame → base + n ≤ s.stackTop) → 1 ≤ n → n ≤ s.stackTop →
      Runs h natives tame (.body base k)
        { s with stack := Function.update s.stack (s.stackTop - n) v } s' r →
      Runs h natives tame (.body base (.poke n v k)) s s' r
  | nested {base narg nret : Nat} {k : NativeBody} {s s1 s' : Cpu} {r r' : Report} :
      (tame → base + (narg + 1) ≤ s.stackTop) → Runs h natives tame (.suCall narg nret) s s1 r →
      Runs h natives tame (.body base k) s1 s' r' →
      Runs h natives tame (.body base (.suCall narg nret k)) s s' r'
  | closure {narg nret : Nat} {s s2 : Cpu} {s1 s3 : Vm} {r : Report} :
      s.toVm.suEnter narg = .ok s1 →
      Runs h natives tame (.loop s.frameTop (s.stackTop - (narg + 1)))
        ⟨s1, narg, some s1.func.prot, s1.frameTop⟩ s2 r →
      s2.toVm.afterLoop nret = .ok s3 →
      Runs h natives tame (.suCall narg nret) s (s.leave s2.frame s3) r
  | direct {narg nret : Nat} {s s1 : Cpu} {s2 : Vm} {r : Report} {func : FunctionObj}
      {obj : BitVec 64} :
      narg + 1 ≤ s.stackTop → s.frameTop < maxCalls →
      (s.stack (s.stackTop - (narg + 1))).type = .nativefunc →
      Runs h natives tame (.body (s.stackTop - (narg + 1))
        (natives (s.stack (s.stackTop - (narg + 1))).obj))
        ⟨s.toVm.beforeDirect narg func, narg, s.prot, s.frame⟩ s1 r →
      s1.toVm.afterDirect (s.stackTop - (narg + 1)) narg nret obj r.count = .ok s2 →
      Runs h natives tame (.suCall narg nret) s (s.leave s1.frame s2) r

/-! ## One turn of a loop -/

namespace Vm

variable {s s' : Vm} {level base tmp : Nat}

open Outcome in
/-- An instruction that stays in its frame writes on top of what it leaves. -/
theorem exec_below (h : Host) {op : Op} {a : Nat} {b : Int} (hcall : op ≠ .call)
    (htcall : op ≠ .tcall) (hret : op ≠ .return) :
    Ensures (s.exec h op a b)
      fun s' => ∀ i < s.stackTop - (op.effect a).1, s'.stack i = s.stack i := by
  have hpush : ∀ {s1 : Vm} (v : Outcome Value), s1.stack = s.stack → s1.stackTop = s.stackTop →
      Ensures (s1.pushFrom v) fun s' => ∀ i < s.stackTop - 0, s'.next.stack i = s.stack i := by
    intro s1 v hs ht
    refine .bind fun _ _ => .bind fun _ _ => ensures_ok fun i hi => ?_
    exact (Function.update_of_ne (by omega) ..).trans (congrFun hs i)
  cases op with
  | push => exact .map (hpush _ rfl rfl)
  | load => exact .map (.bind fun _ _ => hpush _ rfl rfl)
  | copy => exact .map (.bind fun _ _ => .bind fun _ _ => hpush _ rfl rfl)
  | getglobal => exact .bind fun _ _ => .map (hpush _ rfl rfl)
  | lambda => exact .map (.bind fun _ _ => .bind fun _ _ => hpush _ rfl rfl)
  | pop => exact .map (.bind fun _ _ => ensures_ok fun _ _ => rfl)
  | setglobal => exact .bind fun _ _ => ensures_ok fun _ _ => rfl
  | jmp => exact ensures_ok fun _ _ => rfl
  | test =>
      refine .bind fun _ _ => .bind fun s1 h1 => ensures_ok fun i _ => ?_
      obtain ⟨_, _, h1⟩ := bind_eq_ok.mp h1
      cases h1
      split <;> rfl
  | call => exact absurd rfl hcall
  | tcall => exact absurd rfl htcall
  | «return» => exact absurd rfl hret
  | unm | not =>
      exact .map (.bind fun _ _ => .bind fun _ _ => ensures_ok fun i hi =>
        Function.update_of_ne (Nat.ne_of_lt hi) ..)
  | add | sub | mul | div | mod | pow | eq | less | lequal | and | or =>
      exact .map (.bind fun _ _ => .bind fun _ _ => .bind fun _ _ => ensures_ok fun i hi =>
        Function.update_of_ne (Nat.ne_of_lt hi) ..)

/-- A loop that was entered at `level`, for the function in the slot `base`:
its frames lie above that slot, and when they are gone the result is there. -/
structure InLoop (s : Vm) (level base : Nat) : Prop where
  above : level ≤ s.frameTop
  frames : ∀ j, level ≤ j → j < s.frameTop → base ≤ (s.frames j).stackTop
  entry : level < s.frameTop → (s.frames level).stackTop = base
  done : s.frameTop = level → s.stackTop = base + 1

/-- The same, about to call what is in the slot `tmp`. -/
structure InCall (s : Vm) (level base tmp : Nat) : Prop where
  above : level ≤ s.frameTop
  frames : ∀ j, level ≤ j → j < s.frameTop → base ≤ (s.frames j).stackTop
  entry : level < s.frameTop → (s.frames level).stackTop = base
  start : base ≤ tmp
  done : s.frameTop = level → tmp = base

/-- Nothing below the loop is touched. -/
structure Below (s : Vm) (level base : Nat) (s' : Vm) : Prop where
  stack : ∀ i < base, s'.stack i = s.stack i
  frames : ∀ j < level, s'.frames j = s.frames j

theorem Below.trans {s'' : Vm} (h : s.Below level base s') (h' : s'.Below level base s'') :
    s.Below level base s'' where
  stack := fun i hi => (h'.stack i hi).trans (h.stack i hi)
  frames := fun j hj => (h'.frames j hj).trans (h.frames j hj)

/-- The callee and its arguments gave way to one value. -/
theorem InCall.answer (h : s.InCall level base tmp)
    (hframes : ∀ j < s.frameTop, s'.frames j = s.frames j) (htop : s'.frameTop = s.frameTop)
    (hstack : s'.stackTop = tmp + 1) :
    s'.InLoop level base where
  above := htop ▸ h.above
  frames := fun j hj hlt => by
    rw [htop] at hlt
    rw [hframes j hlt]
    exact h.frames j hj hlt
  entry := fun hlt => by
    rw [htop] at hlt
    rw [hframes _ hlt]
    exact h.entry hlt
  done := fun heq => by rw [hstack, h.done (htop.symm.trans heq)]

/-- A function was entered. -/
theorem InCall.enter (h : s.InCall level base tmp) {fr : Frame} (hfr : fr.stackTop = tmp)
    (hframes : s'.frames = Function.update s.frames s.frameTop fr)
    (htop : s'.frameTop = s.frameTop + 1) : s'.InLoop level base where
  above := htop ▸ Nat.le_succ_of_le h.above
  frames := fun j hj hlt => by
    rw [hframes]
    by_cases heq : j = s.frameTop
    · rw [heq, Function.update_self, hfr]
      exact h.start
    · rw [Function.update_of_ne heq]
      exact h.frames j hj (by omega)
  entry := fun _ => by
    rw [hframes]
    by_cases heq : level = s.frameTop
    · rw [heq, Function.update_self, hfr]
      exact h.done heq.symm
    · rw [Function.update_of_ne heq]
      exact h.entry (by have := h.above; omega)
  done := fun heq => by have := h.above; omega

open Outcome in
/-- A call of anything but a native. -/
theorem call_inLoop (h : Host) {a ret : Nat} (hin : s.InCall level base (s.stackTop - (a + 1)))
    (hnot : (s.stack (s.stackTop - (a + 1))).type ≠ .nativefunc) :
    Ensures (call h s a ret) fun s' => s'.InLoop level base ∧ s.Below level base s' := by
  refine .bind fun _ _ => ?_
  have hbase := hin.start
  have hlevel := hin.above
  generalize s.stackTop - (a + 1) = tmp at hin hnot hbase
  have hdata : ∀ v, (s.callData tmp ret v).InLoop level base
      ∧ s.Below level base (s.callData tmp ret v) := fun v =>
    ⟨hin.answer (fun _ _ => rfl) rfl rfl,
      fun i hi => Function.update_of_ne (by omega) .., fun _ _ => rfl⟩
  dsimp only
  split
  · refine .bind fun _ _ => .bind fun fn _ => .bind fun x _ => .bind fun _ _ => .bind fun _ _ =>
      ensures_ok ⟨hin.enter rfl rfl rfl, fun i hi => overwrite_of_lt (by omega), fun j hj => ?_⟩
    exact Function.update_of_ne (by omega) ..
  · rename_i htype
    exact absurd htype hnot
  · exact .bind fun v _ => ensures_ok (hdata v)
  · exact .bind fun v _ => ensures_ok (hdata v)
  · exact .bind fun _ _ => ensures_raise

theorem frame_eq {frame : Frame} (h : s.frame = .ok frame) :
    0 < s.frameTop ∧ frame = s.frames (s.frameTop - 1) := by
  obtain ⟨_, hpos, h⟩ := Outcome.bind_eq_ok.mp h
  exact ⟨of_decide_eq_true (Outcome.require_eq_ok.mp hpos), (Outcome.ok.inj h).symm⟩

/-- The running frame lies above the slot of the loop. -/
theorem InLoop.base_le (hin : s.InLoop level base) (hlt : level < s.frameTop) :
    base ≤ (s.frames (s.frameTop - 1)).stackTop := hin.frames _ (by omega) (by omega)

theorem InLoop.inCall {a : Nat} (hin : s.InLoop level base) (hlt : level < s.frameTop)
    (hroom : (s.frames (s.frameTop - 1)).stackTop + (a + 1) ≤ s.stackTop) :
    s.InCall level base (s.stackTop - (a + 1)) where
  above := hin.above
  frames := hin.frames
  entry := hin.entry
  start := by
    have := hin.base_le hlt
    omega
  done := fun heq => absurd heq (Nat.ne_of_gt hlt)

/-- What `OP_TCALL` moves goes where its frame began. -/
theorem InLoop.dropFrame {a : Nat} {frame : Frame} (hin : s.InLoop level base)
    (hlt : level < s.frameTop) (hframe : s.frame = .ok frame) :
    (s.dropFrame frame a).InCall level base frame.stackTop
      ∧ s.Below level base (s.dropFrame frame a) := by
  obtain ⟨-, rfl⟩ := frame_eq hframe
  have hbase := hin.base_le hlt
  refine ⟨⟨?_, fun j hj hlt' => hin.frames j hj ?_, fun _ => hin.entry hlt, hbase, fun heq => ?_⟩,
    fun i hi => overwrite_of_lt (by omega), fun _ _ => rfl⟩
  · exact Nat.le_sub_one_of_lt hlt
  · exact Nat.lt_of_lt_of_le hlt' (Nat.sub_le ..)
  · rw [show s.frameTop - 1 = level from heq]
    exact hin.entry hlt

/-- **One turn** that calls no native: the loop is kept, and what is below it. -/
theorem step_inLoop {h : Host} (hin : s.InLoop level base) (hlt : level < s.frameTop)
    (hown : s.InFrame) (hnot : ∀ s2 a, ¬ s.CallsNative s2 a) (hstep : s.step h = .ok s') :
    s'.InLoop level base ∧ s.Below level base s' := by
  obtain ⟨⟨op, a, b⟩, hfetch, hexec⟩ := Outcome.bind_eq_ok.mp hstep
  change s.exec h op a b = .ok s' at hexec
  have hbase := hin.base_le hlt
  have hroom := hown op a b hfetch
  by_cases hcall : op = .call
  · subst hcall
    change _ + (a + 1) ≤ _ at hroom
    exact call_inLoop h (hin.inCall hlt hroom)
      (fun htype => hnot _ _ (.call hfetch (by omega) htype)) s' hexec
  by_cases htcall : op = .tcall
  · subst htcall
    obtain ⟨frame, hframe, hexec⟩ := Outcome.bind_eq_ok.mp hexec
    obtain ⟨_, hfits, hexec⟩ := Outcome.bind_eq_ok.mp hexec
    have hfits := of_decide_eq_true (Outcome.require_eq_ok.mp hfits)
    obtain ⟨hincall, hbelow⟩ := hin.dropFrame (a := a) hlt hframe
    have htop : (s.dropFrame frame a).stackTop - (a + 1) = frame.stackTop :=
      Nat.add_sub_cancel ..
    obtain ⟨hin', hbelow'⟩ := call_inLoop h (htop.symm ▸ hincall) (fun htype =>
      hnot _ _ (.tcall hfetch hframe hfits.1 hfits.2 (htop ▸ htype))) s' hexec
    exact ⟨hin', hbelow.trans hbelow'⟩
  by_cases hret : op = .return
  · subst hret
    obtain ⟨frame, hframe, hexec⟩ := Outcome.bind_eq_ok.mp hexec
    obtain ⟨v, -, hexec⟩ := Outcome.bind_eq_ok.mp hexec
    obtain ⟨_, -, hexec⟩ := Outcome.bind_eq_ok.mp hexec
    cases hexec
    obtain ⟨hincall, -⟩ := hin.dropFrame (a := 0) hlt hframe
    obtain ⟨-, rfl⟩ := frame_eq hframe
    exact ⟨hincall.answer (fun _ _ => rfl) rfl rfl,
      fun i hi => Function.update_of_ne (by omega) .., fun _ _ => rfl⟩
  · obtain ⟨hframes, htop, -, -⟩ := exec_within h hcall htcall hret s' hexec
    have hbelow := exec_below h hcall htcall hret s' hexec
    refine ⟨⟨htop ▸ hin.above, ?_, ?_, fun heq => absurd (htop.symm.trans heq) (Nat.ne_of_gt hlt)⟩,
      fun i hi => hbelow i (by omega), fun j _ => by rw [hframes]⟩
    · rw [hframes, htop]
      exact hin.frames
    · rw [hframes, htop]
      exact hin.entry

/-- Before a native that the loop calls. -/
theorem CallsNative.inCall {s1 : Vm} {a : Nat} (hcalls : s.CallsNative s1 a)
    (hin : s.InLoop level base) (hlt : level < s.frameTop) (hown : s.InFrame) :
    s1.InCall level base (s1.stackTop - (a + 1)) ∧ s.Below level base s1 := by
  cases hcalls with
  | call hfetch =>
      exact ⟨hin.inCall hlt (hown _ _ _ hfetch), fun _ _ => rfl, fun _ _ => rfl⟩
  | @tcall a b frame hfetch hframe =>
      obtain ⟨hincall, hbelow⟩ := hin.dropFrame (a := a) hlt hframe
      have htop : frame.stackTop + (a + 1) - (a + 1) = frame.stackTop := Nat.add_sub_cancel ..
      refine ⟨?_, hbelow.stack, hbelow.frames⟩
      change InCall _ level base (frame.stackTop + (a + 1) - (a + 1))
      rw [htop]
      exact ⟨hincall.above, hincall.frames, hincall.entry, hincall.start, hincall.done⟩

end Vm

/-! ## Runs -/

namespace Cpu

/-- Nothing below `base` is touched, and the registers are back. -/
structure Keeps (base : Nat) (s s' : Cpu) : Prop where
  stack : ∀ i < base, s'.stack i = s.stack i
  frames : ∀ j < s.frameTop, s'.frames j = s.frames j
  frameTop : s'.frameTop = s.frameTop
  func : s'.func = s.func
  pc : s'.pc = s.pc
  narg : s'.narg = s.narg
  prot : s'.prot = s.prot

variable {base base' : Nat} {s s' s'' : Cpu}

theorem Keeps.rfl : Keeps base s s := ⟨fun _ _ => .refl _, fun _ _ => .refl _, .refl _, .refl _,
  .refl _, .refl _, .refl _⟩

theorem Keeps.trans (h : Keeps base s s') (h' : Keeps base' s' s'') (hle : base ≤ base') :
    Keeps base s s'' where
  stack := fun i hi => (h'.stack i (Nat.lt_of_lt_of_le hi hle)).trans (h.stack i hi)
  frames := fun j hj => (h'.frames j (h.frameTop ▸ hj)).trans (h.frames j hj)
  frameTop := h'.frameTop.trans h.frameTop
  func := h'.func.trans h.func
  pc := h'.pc.trans h.pc
  narg := h'.narg.trans h.narg
  prot := h'.prot.trans h.prot

/-- A write to the stack at or above `base`. -/
theorem keeps_update {i top : Nat} (v : Value) (hi : base ≤ i) :
    Keeps base s { s with stack := Function.update s.stack i v, stackTop := top } where
  stack := fun j hj => Function.update_of_ne (by omega) ..
  frames := fun _ _ => .refl _
  frameTop := .refl _
  func := .refl _
  pc := .refl _
  narg := .refl _
  prot := .refl _

end Cpu

/-- What a completed task leaves. -/
def Task.Leaves : Task → Cpu → Cpu → Report → Prop
  | .loop level base, s, s', r =>
      s.toVm.InLoop level base → s.toVm.Below level base s'.toVm ∧ s'.frameTop = level
        ∧ s'.stackTop = base + 1 ∧ r = s'.toVm.report 1
  | .body base _, s, s', r => s.Keeps base s' ∧ r = s'.toVm.report r.count
  | .suCall narg _, s, s', _ => s.Keeps (s.stackTop - (narg + 1)) s'

section Runs

variable {h : Host} {natives : BitVec 64 → NativeBody} {s s' : Cpu} {r : Report}

theorem afterNative_ok {s s' : Vm} {tmp : Nat} {count : Int}
    (h : s.afterNative tmp count = .ok s') : ∃ v, s' = { s with
      stack := Function.update s.stack tmp v
      stackTop := tmp + 1
      pc := s.pc + 1 } := by
  unfold Vm.afterNative at h
  split at h
  · obtain ⟨v, -, h⟩ := Outcome.bind_eq_ok.mp h
    exact ⟨v, (Outcome.ok.inj h).symm⟩
  · exact ⟨_, (Outcome.ok.inj h).symm⟩

/-- After its native the loop goes on. -/
theorem afterNative_inLoop {level base tmp : Nat} {s1 : Vm} {count : Int}
    (hin : s.toVm.InCall level base tmp) (hkeeps : s.Keeps tmp s')
    (hafter : s'.toVm.afterNative tmp count = .ok s1) :
    s1.InLoop level base ∧ s.toVm.Below level base s1 := by
  obtain ⟨v, rfl⟩ := afterNative_ok hafter
  have hstart := hin.start
  refine ⟨hin.answer hkeeps.frames hkeeps.frameTop rfl, fun i hi => ?_,
    fun j hj => hkeeps.frames j (Nat.lt_of_lt_of_le hj hin.above)⟩
  exact (Function.update_of_ne (by omega) ..).trans (hkeeps.stack i (by omega))

theorem afterLoop_ok {s s' : Vm} {nret : Nat} (h : s.afterLoop nret = .ok s') :
    s'.stack = s.stack ∧ s'.frames = s.frames ∧ s'.frameTop = s.frameTop := by
  unfold Vm.afterLoop at h
  split at h
  · obtain ⟨_, -, h⟩ := Outcome.bind_eq_ok.mp h
    cases h
    exact ⟨rfl, rfl, rfl⟩
  · cases h
    exact ⟨rfl, rfl, rfl⟩

theorem afterLoop_stackTop {s s' : Vm} {nret top : Nat} (h : s.afterLoop nret = .ok s')
    (hnret : nret ≤ 1) (htop : s.stackTop = top + 1) : s'.stackTop = top + nret := by
  unfold Vm.afterLoop at h
  split at h
  · rename_i hn
    obtain ⟨_, -, h⟩ := Outcome.bind_eq_ok.mp h
    cases h
    dsimp only
    omega
  · cases h
    omega

/-- The loop of a `su_call` is entered. -/
theorem suEnter_inLoop {s s1 : Vm} {narg : Nat} (h : s.suEnter narg = .ok s1) :
    s1.InLoop s.frameTop (s.stackTop - (narg + 1))
      ∧ s.Below s.frameTop (s.stackTop - (narg + 1)) s1 := by
  obtain ⟨_, -, h⟩ := Outcome.bind_eq_ok.mp h
  obtain ⟨_, -, h⟩ := Outcome.bind_eq_ok.mp h
  obtain ⟨fn, -, h⟩ := Outcome.bind_eq_ok.mp h
  obtain ⟨_, -, h⟩ := Outcome.bind_eq_ok.mp h
  cases h
  have hcall : s.InCall s.frameTop (s.stackTop - (narg + 1)) (s.stackTop - (narg + 1)) :=
    ⟨Nat.le_refl _, fun j hj hlt => absurd hj (by omega), fun hlt => absurd hlt (by omega),
      Nat.le_refl _, fun _ => rfl⟩
  exact ⟨hcall.enter rfl rfl rfl, fun _ _ => rfl,
    fun j hj => Function.update_of_ne (Nat.ne_of_lt hj) ..⟩

theorem suEnter_type {s s1 : Vm} {narg : Nat} (h : s.suEnter narg = .ok s1) :
    (s.stack (s.stackTop - narg - 1)).type = .function := by
  obtain ⟨_, -, h⟩ := Outcome.bind_eq_ok.mp h
  obtain ⟨_, htype, -⟩ := Outcome.bind_eq_ok.mp h
  exact of_decide_eq_true (Outcome.require_eq_ok.mp htype)

/-- The three ways out of a native that `su_call` has called. -/
theorem afterDirect_cases {s s' : Vm} {top narg nret : Nat} {obj : BitVec 64} {count : Int}
    (h : s.afterDirect top narg nret obj count = .ok s') :
    (0 < nret ∧ 0 < count ∧ narg ≤ s.stackTop ∧ s' = { s with
        stack := Function.update s.stack top (s.stack (s.stackTop - 1))
        stackTop := s.stackTop - narg
        frameTop := s.frameTop - 1 })
      ∨ (0 < nret ∧ count ≤ 0 ∧ s' = { s with
        stack := Function.update s.stack top ⟨.nil, obj⟩
        stackTop := top + 1
        frameTop := s.frameTop - 1 })
      ∨ (nret = 0 ∧ s' = { s with stackTop := top, frameTop := s.frameTop - 1 }) := by
  unfold Vm.afterDirect at h
  by_cases hnret : 0 < nret
  · by_cases hcount : 0 < count
    · rw [if_pos ⟨hnret, hcount⟩] at h
      obtain ⟨v, hv, h⟩ := Outcome.bind_eq_ok.mp h
      obtain ⟨s1, hpop, h⟩ := Outcome.bind_eq_ok.mp h
      obtain ⟨_, hroom, hpop⟩ := Outcome.bind_eq_ok.mp hpop
      obtain ⟨_, -, hv⟩ := Outcome.bind_eq_ok.mp hv
      cases hpop
      cases hv
      exact Or.inl ⟨hnret, hcount, of_decide_eq_true (Outcome.require_eq_ok.mp hroom),
        (Outcome.ok.inj h).symm⟩
    · rw [if_neg (fun hc => hcount hc.2), if_pos hnret] at h
      obtain ⟨s1, hpush, h⟩ := Outcome.bind_eq_ok.mp h
      obtain ⟨_, -, hpush⟩ := Outcome.bind_eq_ok.mp hpush
      cases hpush
      exact Or.inr (Or.inl ⟨hnret, Int.not_lt.mp hcount, (Outcome.ok.inj h).symm⟩)
  · rw [if_neg (fun hc => hnret hc.1), if_neg hnret] at h
    exact Or.inr (Or.inr ⟨Nat.eq_zero_of_not_pos hnret, (Outcome.ok.inj h).symm⟩)

/-- Of these, none touches what is below the native. -/
theorem afterDirect_ok {s s' : Vm} {top narg nret : Nat} {obj : BitVec 64} {count : Int}
    (h : s.afterDirect top narg nret obj count = .ok s') :
    (∀ i < top, s'.stack i = s.stack i) ∧ s'.frames = s.frames
      ∧ s'.frameTop = s.frameTop - 1 := by
  rcases afterDirect_cases h with ⟨-, -, -, rfl⟩ | ⟨-, -, rfl⟩ | ⟨-, rfl⟩
  · exact ⟨fun i hi => Function.update_of_ne (Nat.ne_of_lt hi) .., rfl, rfl⟩
  · exact ⟨fun i hi => Function.update_of_ne (Nat.ne_of_lt hi) .., rfl, rfl⟩
  · exact ⟨fun _ _ => rfl, rfl, rfl⟩

/-- **What every task leaves**, whatever it calls meanwhile. -/
theorem Runs.leaves {t : Task} (hrun : Runs h natives True t s s' r) : t.Leaves s s' r := by
  induction hrun with
  | @halt level base s _ hdone =>
      exact fun hin => ⟨⟨fun _ _ => rfl, fun _ _ => rfl⟩, hdone trivial, hin.done (hdone trivial),
        rfl⟩
  | turn _ hown _ hnot hstep _ ih =>
      intro hin
      obtain ⟨hlt, hframe⟩ := hown trivial
      obtain ⟨hin', hbelow⟩ := Vm.step_inLoop hin hlt hframe hnot hstep
      obtain ⟨hbelow', hrest⟩ := ih hin'
      exact ⟨hbelow.trans hbelow', hrest⟩
  | native _ hown _ hcalls _ hafter _ ihbody ih =>
      intro hin
      obtain ⟨hlt, hframe⟩ := hown trivial
      obtain ⟨hincall, hbelow⟩ := hcalls.inCall hin hlt hframe
      obtain ⟨hin', hbelow'⟩ := afterNative_inLoop hincall ihbody.1 hafter
      obtain ⟨hbelow'', hrest⟩ := ih hin'
      exact ⟨(hbelow.trans hbelow').trans hbelow'', hrest⟩
  | ret => exact ⟨.rfl, rfl⟩
  | look _ ih => exact ih
  | world _ ih => exact ⟨⟨ih.1.stack, ih.1.frames, ih.1.frameTop, ih.1.func, ih.1.pc, ih.1.narg,
      ih.1.prot⟩, ih.2⟩
  | push hown hpush _ ih =>
      obtain ⟨_, -, hpush⟩ := Outcome.bind_eq_ok.mp hpush
      cases hpush
      exact ⟨(Cpu.keeps_update _ (hown trivial)).trans ih.1 (Nat.le_refl _), ih.2⟩
  | pop hown hpop _ ih =>
      obtain ⟨_, -, hpop⟩ := Outcome.bind_eq_ok.mp hpop
      cases hpop
      exact ⟨⟨ih.1.stack, ih.1.frames, ih.1.frameTop, ih.1.func, ih.1.pc, ih.1.narg, ih.1.prot⟩,
        ih.2⟩
  | poke hown _ _ _ ih =>
      have hroom := hown trivial
      exact ⟨(Cpu.keeps_update _ (by omega)).trans ih.1 (Nat.le_refl _), ih.2⟩
  | nested hown _ _ ihcall ih =>
      have hroom := hown trivial
      exact ⟨.trans (.trans .rfl ihcall (by omega)) ih.1 (Nat.le_refl _), ih.2⟩
  | closure henter _ hafter ih =>
      obtain ⟨hin, hbelow⟩ := suEnter_inLoop henter
      obtain ⟨hbelow', htop, -⟩ := ih hin
      obtain ⟨hstack, hframes, hlevel⟩ := afterLoop_ok hafter
      refine ⟨fun i hi => ?_, fun j hj => ?_, hlevel.trans htop, rfl, rfl, rfl, rfl⟩
      · exact (congrFun hstack i).trans ((hbelow.trans hbelow').stack i hi)
      · exact (congrFun hframes j).trans ((hbelow.trans hbelow').frames j hj)
  | direct _ _ _ _ hafter ih =>
      obtain ⟨hkeeps, -⟩ := ih
      obtain ⟨hstack, hframes, hlevel⟩ := afterDirect_ok hafter
      refine ⟨fun i hi => (hstack i hi).trans (hkeeps.stack i hi), fun j hj => ?_, ?_, rfl, rfl,
        rfl, rfl⟩
      · refine (congrFun hframes j).trans ((hkeeps.frames j (Nat.lt_succ_of_lt hj)).trans ?_)
        exact Function.update_of_ne (Nat.ne_of_lt hj) ..
      · exact hlevel.trans (congrArg (· - 1) hkeeps.frameTop)

/-! ## The contract -/

/-- What `su_call` promises when it returns. -/
structure Contract (s : Cpu) (narg nret : Nat) (r : Report) (s' : Cpu) : Prop where
  stackTop : s'.stackTop = s.stackTop - narg - 1 + nret
  result : nret = 1 → 0 < r.count → s'.stack (s.stackTop - narg - 1) = r.value
  nil : nret = 1 → r.count ≤ 0 → (s'.stack (s.stackTop - narg - 1)).type = .nil
  below : ∀ i < s.stackTop - narg - 1, s'.stack i = s.stack i
  frameTop : s'.frameTop = s.frameTop
  pc : s'.pc = s.pc
  prot : s'.prot = s.prot
  narg : s'.narg = s.narg

/-- **`su_call` keeps its contract** unless a native reports a result, one is
asked for, and the native has not left the stack as high as it was. -/
theorem su_call_contract_iff {narg nret : Nat} (hnret : nret ≤ 1)
    (hrun : Runs h natives True (.suCall narg nret) s s' r) :
    Contract s narg nret r s' ↔ ((s.stack (s.stackTop - narg - 1)).type = .nativefunc →
      nret = 1 → 0 < r.count → r.height = s.stackTop) := by
  have hkeeps : s.Keeps (s.stackTop - (narg + 1)) s' := hrun.leaves
  have hcontract : ∀ {s1 : Vm} {frame : Nat}, s' = s.leave frame s1 →
      s1.stackTop = s.stackTop - narg - 1 + nret →
      (nret = 1 → 0 < r.count → s1.stack (s.stackTop - narg - 1) = r.value) →
      (nret = 1 → r.count ≤ 0 → (s1.stack (s.stackTop - narg - 1)).type = .nil) →
      Contract s narg nret r s' := by
    rintro s1 frame rfl htop hresult hnil
    exact ⟨htop, hresult, hnil, hkeeps.stack, hkeeps.frameTop, rfl, rfl, rfl⟩
  cases hrun with
  | closure henter hloop hafter =>
      obtain ⟨hin, -⟩ := suEnter_inLoop henter
      obtain ⟨-, -, htop, rfl⟩ := hloop.leaves hin
      obtain ⟨hstack, -, -⟩ := afterLoop_ok hafter
      refine ⟨fun _ htype => ?_, fun _ => hcontract rfl ?_ (fun _ _ => ?_) fun _ hcount => ?_⟩
      · rw [suEnter_type henter] at htype
        cases htype
      · exact (afterLoop_stackTop hafter hnret htop).trans (by rw [Nat.sub_sub])
      · rw [hstack, Vm.report, htop]
        rfl
      · exact absurd (show (1 : Int) ≤ 0 from hcount) (by decide)
  | direct hargs _ htype hbody hafter =>
      obtain ⟨-, hr⟩ := hbody.leaves
      have hheight : r.height = _ := congrArg Report.height hr
      have hvalue : r.value = _ := congrArg Report.value hr
      rcases afterDirect_cases hafter with ⟨hn, hcount, hroom, rfl⟩ | ⟨hn, hcount, rfl⟩ | ⟨rfl, rfl⟩
      · obtain rfl : nret = 1 := by omega
        refine ⟨fun hc _ _ _ => ?_, fun hleft => hcontract rfl ?_ (fun _ _ => ?_) fun _ hnil => ?_⟩
        · have htop := hc.stackTop
          change _ - narg = _ at htop
          rw [hheight]
          change _ = s.stackTop
          dsimp only [Vm.report]
          omega
        · have := hleft htype rfl hcount
          rw [hheight] at this
          dsimp only [Vm.report] at this ⊢
          omega
        · exact (Function.update_self ..).trans hvalue.symm
        · omega
      · obtain rfl : nret = 1 := by omega
        refine ⟨fun _ _ _ hpos => absurd hpos (by omega), fun _ => hcontract rfl rfl
          (fun _ hpos => absurd hpos (by omega)) fun _ _ => ?_⟩
        rw [Nat.sub_sub]
        dsimp only
        rw [Function.update_self]
      · exact ⟨fun _ _ h1 => absurd h1 Nat.zero_ne_one, fun _ => hcontract rfl rfl
          (fun h1 => absurd h1 Nat.zero_ne_one) fun h1 => absurd h1 Nat.zero_ne_one⟩

end Runs

/-! ## Natives on their own slot -/

/-- The host with one native on the stack and nothing else. -/
def nativeCpu : Cpu where
  world := ⟨[], mapCreateEmpty, 0, 0, 0⟩
  stack := fun _ => ⟨.nativefunc, 1#64⟩
  stackTop := 1
  frames := fun _ => ⟨Vm.caller 0, 0, 0⟩
  frameTop := 0
  func := Vm.caller 0
  pc := 0
  narg := 0
  prot := none
  frame := 0

/-- Native `1` calls native `2` back, for no result; native `2` does nothing. -/
def callsBack (f : BitVec 64) : NativeBody :=
  if f = 1#64 then .push ⟨.nativefunc, 2#64⟩ (.suCall 0 0 (.ret 0)) else .ret 0

/-- A native that calls `su_call` itself and reports nothing. -/
theorem su_call_contract_nested :
    ∃ s' r, Runs Vm.quietHost callsBack True (.suCall 0 1) nativeCpu s' r
      ∧ Contract nativeCpu 0 1 r s' := by
  have hrun : ∃ s' r, Runs Vm.quietHost callsBack True (.suCall 0 1) nativeCpu s' r
      ∧ r.count = 0 :=
    ⟨_, _, @Runs.direct _ _ _ _ _ _ _ _ _ (Vm.caller 0) 0#64 (by decide) (by decide) rfl
      (.push (fun _ => by decide) rfl
        (.nested (fun _ => by decide)
          (@Runs.direct _ _ _ _ _ _ _ _ _ (Vm.caller 0) 0#64 (by decide) (by decide) rfl .ret rfl)
          .ret)) rfl, rfl⟩
  obtain ⟨s', r, hrun, hcount⟩ := hrun
  refine ⟨s', r, hrun, (su_call_contract_iff (Nat.le_refl 1) hrun).mpr fun _ _ hpos => ?_⟩
  omega

/-- A native that pushes its result and reports it. -/
def pushesResult : NativeBody := .push ⟨.number, 7#64⟩ (.ret 1)

/-- `su_call` pops the arguments of a native from above its result: the result
is in the slot of the callee, and once more on top of it. -/
theorem su_call_stray_value :
    ∃ s' r, Runs Vm.quietHost (fun _ => pushesResult) True (.suCall 0 1) nativeCpu s' r
      ∧ s'.stackTop = 2 ∧ ¬ Contract nativeCpu 0 1 r s' := by
  have hrun : ∃ s' r, Runs Vm.quietHost (fun _ => pushesResult) True (.suCall 0 1) nativeCpu s' r
      ∧ s'.stackTop = 2 :=
    ⟨_, _, @Runs.direct _ _ _ _ _ _ _ _ _ (Vm.caller 0) 0#64 (by decide) (by decide) rfl
      (.push (fun _ => by decide) rfl .ret) rfl, rfl⟩
  obtain ⟨s', r, hrun, htop⟩ := hrun
  refine ⟨s', r, hrun, htop, fun hc => ?_⟩
  have : s'.stackTop = 1 := hc.stackTop
  omega

end Saurus
