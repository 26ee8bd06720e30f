import Saurus.Intern
import Saurus.Vm.Args

/-!
# Natives written in C

`Host.native` takes what a native does as given. Here a native is a C
function on the whole state: it reaches its arguments below `stack_top` with
`STK`, pushes what it makes, and returns how many values it made. `callC` is
the native case of `OP_CALL` for such a function.

A native sees more of the stack than its arguments. `Answers` says that the
caller cannot tell: the callee and its arguments have given way to one value
and nothing else has changed that was there before.
-/

namespace Saurus

open Basis

/-- A native: the state and `narg`, which is `s->narg` as well, to the state
it leaves and the number it returns. -/
abbrev CFunction : Type := Vm → Nat → Outcome (Vm × Nat)

namespace Vm

/-- `OP_CALL` on a native with `a` arguments. -/
def callC (f : CFunction) (s : Vm) (a ret : Nat) : Outcome Vm := do
  Outcome.require (decide (a + 1 ≤ s.stackTop))
  let tmp := s.stackTop - (a + 1)
  let (s', r) ← f s a
  let v ← if r ≠ 0 then s'.stk 1 else pure ⟨.nil, (s'.stack tmp).obj⟩
  pure { s' with
    stack := Function.update s'.stack tmp v
    stackTop := tmp + 1
    pc := ret }

/-- The arguments `vs` are on top of the stack, above their function. -/
structure Called (s : Vm) (vs : List Value) : Prop where
  room : vs.length + 1 ≤ s.stackTop
  args : s.args vs.length = vs
  named : ∀ v ∈ vs, v.type ≠ .inv

theorem Called.calledWith {s : Vm} {vs : List Value} (h : s.Called vs) :
    s.CalledWith vs.length where
  room := Nat.le_of_succ_le h.room
  named := by
    rw [h.args]
    exact h.named

/-- A native and its arguments, and nothing else on the stack. -/
theorem called_of_stack {s : Vm} {func dflt : Value} {vs : List Value}
    (hstack : s.stack = fun i => (func :: vs).getD i dflt) (htop : s.stackTop = vs.length + 1)
    (hnamed : ∀ v ∈ vs, v.type ≠ .inv) : s.Called vs := by
  refine ⟨Nat.le_of_eq htop.symm, List.ext_getElem? fun j => ?_, hnamed⟩
  have hbase : s.stackTop - vs.length = 1 := by omega
  by_cases hj : j < vs.length
  · rw [Vm.args, Vm.window, getElem?_slice hj, hstack, hbase, Nat.add_comm]
    dsimp only
    rw [List.getD_cons_succ, List.getD_eq_getElem?_getD, List.getElem?_eq_getElem hj]
    rfl
  · rw [List.getElem?_eq_none (by simpa [Vm.args, Vm.window] using Nat.not_lt.mp hj),
      List.getElem?_eq_none (Nat.not_lt.mp hj)]

theorem Called.stk {s : Vm} {vs : List Value} (h : s.Called vs) {i : Nat} {v : Value}
    (hi : 1 ≤ i ∧ i ≤ vs.length) (hv : vs[vs.length - i]? = some v) : s.stk i = .ok v := by
  have hroom := h.room
  have hslot : (s.args vs.length)[vs.length - i]? = some (s.stack (s.stackTop - i)) := by
    rw [Vm.args, window, getElem?_slice (by omega)]
    congr 2
    omega
  rw [h.args, hv] at hslot
  rw [Vm.stk, decide_eq_true (by omega), Option.some.inj hslot]
  rfl

/-- With an exact count `su_check_arguments` lets everything through. -/
theorem fits_exact (s : Vm) (n : Nat) (types : List ValType) :
    s.suCheckArguments n n types = .ok () := by
  rw [suCheckArguments, if_neg (not_not.mpr rfl), checkArgs, Nat.sub_self]
  rfl

/-- What `n` arguments and their function came to, seen by their caller. -/
structure Answers (s : Vm) (n ret : Nat) (v : Value) (s' : Vm) : Prop where
  stackTop : s'.stackTop = s.stackTop - n
  value : s'.stack (s.stackTop - (n + 1)) = v
  below : ∀ i < s.stackTop - (n + 1), s'.stack i = s.stack i
  objects : s.world.Extends s'.world
  frames : s'.frames = s.frames
  frameTop : s'.frameTop = s.frameTop
  func : s'.func = s.func
  pc : s'.pc = ret

/-- The native has left `v` on top of the stack, and what it found there. -/
structure Leaves (s s' : Vm) (v : Value) : Prop where
  stackTop : 1 ≤ s'.stackTop
  value : s'.stack (s'.stackTop - 1) = v
  below : ∀ i < s.stackTop, s'.stack i = s.stack i
  objects : s.world.Extends s'.world
  frames : s'.frames = s.frames
  frameTop : s'.frameTop = s.frameTop
  func : s'.func = s.func

/-- The state with `v` on top of the stack. -/
def push (s : Vm) (v : Value) : Vm :=
  { s with stack := Function.update s.stack s.stackTop v, stackTop := s.stackTop + 1 }

theorem stk_push_top (s : Vm) (v : Value) : (s.push v).stk 1 = .ok v := by
  rw [stk, push, decide_eq_true (Nat.le_add_left ..)]
  dsimp only
  rw [Nat.add_sub_cancel, Function.update_self]
  rfl

theorem stk_push {s : Vm} {v : Value} {i : Nat} (hi : 1 ≤ i) :
    (s.push v).stk (i + 1) = s.stk i := by
  rw [stk, stk, push]
  dsimp only
  by_cases h : i ≤ s.stackTop
  · rw [decide_eq_true h, decide_eq_true (Nat.succ_le_succ h), Nat.add_sub_add_right,
      Function.update_of_ne (by omega)]
  · rw [decide_eq_false h, decide_eq_false (by omega)]
    rfl

theorem pushed_push {s : Vm} {w : World} (v : Value) (hw : s.world.Extends w) :
    s.Leaves { s with
      world := w
      stack := Function.update s.stack s.stackTop v
      stackTop := s.stackTop + 1 } v where
  stackTop := Nat.le_add_left ..
  value := Function.update_self ..
  below := fun _ hi => Function.update_of_ne (Nat.ne_of_lt hi) ..
  objects := hw
  frames := rfl
  frameTop := rfl
  func := rfl

/-- A call of `f` on `n` arguments answers with a value that has `P`. -/
def Gives (f : CFunction) (s : Vm) (n : Nat) (P : World → Value → Prop) : Prop :=
  ∀ ret, ∃ s' v, callC f s n ret = .ok s' ∧ s.Answers n ret v s' ∧ P s'.world v

/-- A call of `f` on `n` arguments ends in an error of the program. -/
def CallRaises (f : CFunction) (s : Vm) (n : Nat) : Prop :=
  ∀ ret, (callC f s n ret).Raises

section Calls

variable {f : CFunction} {s : Vm} {n : Nat}

theorem callC_eq (hroom : n + 1 ≤ s.stackTop) (ret : Nat) :
    callC f s n ret = f s n >>= fun x =>
      (if x.2 ≠ 0 then x.1.stk 1 else pure ⟨.nil, (x.1.stack (s.stackTop - (n + 1))).obj⟩)
        >>= fun v => pure { x.1 with
          stack := Function.update x.1.stack (s.stackTop - (n + 1)) v
          stackTop := s.stackTop - (n + 1) + 1
          pc := ret } := by
  rw [callC, decide_eq_true hroom, Outcome.require_true, Outcome.ok_bind]
  refine bind_congr fun ⟨s', r⟩ => ?_
  dsimp only
  split_ifs <;> rfl

theorem pushValue_ok {s : Vm} (h : s.stackTop < stackSize) (v : Value) :
    s.pushValue v = .ok { s with
      stack := Function.update s.stack s.stackTop v, stackTop := s.stackTop + 1 } := by
  rw [pushValue, pushFrom, decide_eq_true h]
  rfl

theorem callC_pushed {s' : Vm} {r : Nat} (hr : r ≠ 0) {v : Value} (hroom : n + 1 ≤ s.stackTop)
    (hf : f s n = .ok (s', r)) (hp : s.Leaves s' v) (ret : Nat) :
    callC f s n ret = .ok { s' with
      stack := Function.update s'.stack (s.stackTop - (n + 1)) v
      stackTop := s.stackTop - (n + 1) + 1
      pc := ret } := by
  rw [callC_eq hroom, hf, Outcome.ok_bind, if_pos hr, stk, decide_eq_true hp.stackTop,
    Outcome.require_true, Outcome.ok_bind, hp.value]
  rfl

/-- A native that leaves its answer on top of the stack. -/
theorem gives_of_pushed {s' : Vm} {r : Nat} (hr : r ≠ 0) {v : Value} {P : World → Value → Prop}
    (hroom : n + 1 ≤ s.stackTop) (hf : f s n = .ok (s', r)) (hp : s.Leaves s' v)
    (hP : P s'.world v) : Gives f s n P := by
  intro ret
  refine ⟨_, v, callC_pushed hr hroom hf hp ret, ⟨?_, Function.update_self .., fun i hi => ?_,
    hp.objects, hp.frames, hp.frameTop, hp.func, rfl⟩, hP⟩
  · dsimp only
    omega
  · exact (Function.update_of_ne (Nat.ne_of_lt hi) ..).trans (hp.below i (by omega))

/-- A native that pushes its answer and returns non-zero. -/
theorem gives_of_push {r : Nat} (hr : r ≠ 0) {w : World} {v : Value} {P : World → Value → Prop}
    (hroom : n + 1 ≤ s.stackTop)
    (hf : f s n = .ok ({ s with
      world := w
      stack := Function.update s.stack s.stackTop v
      stackTop := s.stackTop + 1 }, r))
    (hw : s.world.Extends w) (hP : P w v) : Gives f s n P :=
  gives_of_pushed hr hroom hf (pushed_push v hw) hP

/-- A native that returns zero. -/
theorem gives_nil {P : World → Value → Prop} (hroom : n + 1 ≤ s.stackTop) (hf : f s n = .ok (s, 0))
    (hP : ∀ obj, P s.world ⟨.nil, obj⟩) : Gives f s n P := by
  intro ret
  have hcall : callC f s n ret = .ok { s with
      stack := Function.update s.stack (s.stackTop - (n + 1))
        ⟨.nil, (s.stack (s.stackTop - (n + 1))).obj⟩
      stackTop := s.stackTop - (n + 1) + 1
      pc := ret } := by
    rw [callC_eq hroom, hf, Outcome.ok_bind, if_neg (not_not.mpr rfl)]
    rfl
  refine ⟨_, _, hcall, ⟨?_, Function.update_self .., fun i hi => ?_, fun _ _ h => h, rfl, rfl,
    rfl, rfl⟩, hP _⟩
  · dsimp only
    omega
  · exact Function.update_of_ne (Nat.ne_of_lt hi) ..

theorem callRaises_of (hroom : n + 1 ≤ s.stackTop) (hf : (f s n).Raises) : CallRaises f s n := by
  intro ret
  obtain ⟨msg, hmsg⟩ := hf
  exact ⟨msg, by rw [callC_eq hroom, hmsg]; rfl⟩

/-- An answer is the work of a call that completes. -/
theorem Gives.ok {P : World → Value → Prop} (h : Gives f s n P) : ∃ s' r, f s n = .ok (s', r) := by
  obtain ⟨s', v, hcall, -⟩ := h 0
  obtain ⟨_, -, hcall⟩ := Outcome.bind_eq_ok.mp hcall
  obtain ⟨⟨s1, r⟩, hf, -⟩ := Outcome.bind_eq_ok.mp hcall
  exact ⟨s1, r, hf⟩

/-- An answer is no error. -/
theorem Gives.not_raises {P : World → Value → Prop} (h : Gives f s n P) : ¬ CallRaises f s n := by
  intro hr
  obtain ⟨s', v, hok, -⟩ := h 0
  obtain ⟨msg, hmsg⟩ := hr 0
  rw [hok] at hmsg
  cases hmsg

theorem CallRaises.raises (hroom : n + 1 ≤ s.stackTop) (h : CallRaises f s n) :
    ¬ ∃ s' r, f s n = .ok (s', r) ∧ (r = 0 ∨ 1 ≤ s'.stackTop) := by
  rintro ⟨s', r, hf, hr⟩
  obtain ⟨msg, hmsg⟩ := h 0
  rw [callC_eq hroom, hf, Outcome.ok_bind] at hmsg
  by_cases h0 : r = 0
  · rw [if_neg (not_not.mpr h0)] at hmsg
    cases hmsg
  · rw [if_pos h0, stk, decide_eq_true (hr.resolve_left h0)] at hmsg
    cases hmsg

/-- A native without meaning neither answers nor raises. -/
theorem not_gives_of_fault {P : World → Value → Prop} (hroom : n + 1 ≤ s.stackTop)
    (hf : f s n = .fault) : ¬ Gives f s n P ∧ ¬ CallRaises f s n := by
  refine ⟨fun h => ?_, fun h => ?_⟩
  · obtain ⟨s', r, hok⟩ := h.ok
    rw [hf] at hok
    cases hok
  · obtain ⟨msg, hmsg⟩ := h 0
    rw [callC_eq hroom, hf] at hmsg
    cases hmsg

/-- What the answer on top of the stack is. -/
theorem Gives.pushed {s' : Vm} {r : Nat} (hr : r ≠ 0) {v : Value} {P : World → Value → Prop}
    (hroom : n + 1 ≤ s.stackTop) (hf : f s n = .ok (s', r)) (hp : s.Leaves s' v)
    (h : Gives f s n P) : P s'.world v := by
  obtain ⟨s1, v', hcall, hanswer, hP⟩ := h 0
  rw [callC_pushed hr hroom hf hp] at hcall
  obtain rfl := Outcome.ok.inj hcall
  obtain rfl : v = v' := (Function.update_self ..).symm.trans hanswer.value
  exact hP

end Calls

end Vm

end Saurus
