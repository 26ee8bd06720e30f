import Saurus.Vm.Acts

/-!
# The interpreter is the structured machine

`Flat` says how activations lie on the stack of the interpreter: one on top
of the other, each from its function's slot on, with a frame that knows
where it starts and where its caller goes on. One step of the interpreter is
one step of the structured machine whenever the instruction stays within its
activation and the fixed arrays have room (`step_refines`).
-/

namespace Saurus

open Basis

/-! ## Layout -/

/-- Where the outermost activation lies, what lies below it, and what it
returns to. -/
structure Ground where
  base : Nat
  below : Nat → Value
  level : Nat
  func : FunctionObj
  pc : Nat

/-- The function and the position control goes back to. -/
def Ground.caller (g : Ground) : List Act → FunctionObj × Nat
  | [] => (g.func, g.pc)
  | act :: _ => (act.func, act.pc)

/-- The activations fill the stack from the ground up to `top`. -/
def Laid (g : Ground) (stack : Nat → Value) (frames : Nat → Frame) : List Act → Nat → Prop
  | [], top => top = g.base ∧ ∀ i < g.base, stack i = g.below i
  | act :: rest, top =>
      ∃ base, Laid g stack frames rest base ∧ top = base + act.slots.length
        ∧ slice stack base act.slots.length = act.slots.reverse
        ∧ frames (g.level + rest.length) = ⟨(g.caller rest).1, base, (g.caller rest).2⟩

/-- The interpreter state that a configuration describes. -/
inductive Flat (g : Ground) (s : Vm) : Conf → Prop where
  | run {act : Act} {rest : List Act} :
      s.func = act.func → s.pc = act.pc → s.frameTop = g.level + rest.length + 1 →
      Laid g s.stack s.frames (act :: rest) s.stackTop → Flat g s (.run s.world act rest)
  | done {v : Value} :
      s.func = g.func → s.pc = g.pc → s.frameTop = g.level →
      s.stackTop = g.base + 1 → (∀ i < g.base, s.stack i = g.below i) → s.stack g.base = v →
      Flat g s (.done s.world v)

theorem Laid.congr {g : Ground} {stack stack' : Nat → Value} {frames frames' : Nat → Frame} :
    ∀ {acts : List Act} {top : Nat}, Laid g stack frames acts top →
      (∀ i < top, stack' i = stack i) →
      (∀ j < g.level + acts.length, frames' j = frames j) → Laid g stack' frames' acts top
  | [], _, ⟨htop, hbelow⟩, hstack, _ =>
      ⟨htop, fun i hi => (hstack i (htop ▸ hi)).trans (hbelow i hi)⟩
  | act :: rest, top, ⟨base, hrest, htop, hslice, hframe⟩, hstack, hframes => by
      have hlen : (act :: rest).length = rest.length + 1 := rfl
      refine ⟨base, hrest.congr (fun i hi => hstack i (by omega))
        (fun j hj => hframes j (by omega)), htop, ?_, ?_⟩
      · rw [← hslice]
        exact slice_congr fun j _ hj => hstack j (by omega)
      · rw [hframes _ (by omega), hframe]

/-- Instructions that stay in the running frame. -/
def Op.IsLocal (op : Op) : Prop := op ≠ .call ∧ op ≠ .tcall ∧ op ≠ .return

namespace Vm

/-- What the running frame of a state reads by position. -/
def view (s : Vm) : View where
  slot := fun i => s.slot ((s.frames (s.frameTop - 1)).stackTop + i)
  capture := s.capture

/-- The `n` values on top of the stack, the top one first. -/
def topValues (s : Vm) (n : Nat) : List Value := (s.window (s.stackTop - n) n).reverse

/-- The state after `n` values on the stack gave way to others. -/
def replace (s : Vm) (n : Nat) (r : World × List Value × Nat) : Vm :=
  { s with
    world := r.1
    stack := overwrite s.stack (s.stackTop - n) r.2.1.reverse
    stackTop := s.stackTop - n + r.2.1.length
    pc := r.2.2 }

/-! ## Instructions within a frame -/

variable {s : Vm}

theorem stk_ok {n : Nat} (h : n ≤ s.stackTop) : s.stk n = .ok (s.stack (s.stackTop - n)) := by
  rw [stk, decide_eq_true h]
  rfl

theorem topValues_one : s.topValues 1 = [s.stack (s.stackTop - 1)] := rfl

theorem topValues_two (h : 2 ≤ s.stackTop) :
    s.topValues 2 = [s.stack (s.stackTop - 1), s.stack (s.stackTop - 2)] := by
  have : s.stackTop - 2 + 1 = s.stackTop - 1 := by omega
  simp [topValues, window, slice, List.range_succ, this]

/-- An instruction that pushes what `v` yields. -/
theorem pushFrom_ok (v : Outcome Value) (hroom : s.stackTop < stackSize) :
    next <$> s.pushFrom v = (do let v ← v; pure (s.replace 0 (s.world, [v], s.pc + 1))) := by
  rw [pushFrom, decide_eq_true hroom]
  cases v with
  | ok v =>
      simp [replace, next, overwrite_singleton]
  | raise m => rfl
  | fault => rfl

theorem binary_ok (f : Value → Value → Outcome Value) (h : 2 ≤ s.stackTop) :
    next <$> s.binary f = (do
      let v ← f (s.stack (s.stackTop - 2)) (s.stack (s.stackTop - 1))
      pure (s.replace 2 (s.world, [v], s.pc + 1))) := by
  have htop : s.stackTop - 2 + 1 = s.stackTop - 1 := by omega
  rw [binary, stk_ok h, stk_ok (by omega)]
  simp only [Outcome.ok_bind]
  cases f (s.stack (s.stackTop - 2)) (s.stack (s.stackTop - 1)) with
  | ok v => simp [replace, next, overwrite_singleton, htop]
  | raise m => rfl
  | fault => rfl

theorem unary_ok (f : Value → Outcome Value) (h : 1 ≤ s.stackTop) :
    next <$> s.unary f = (do
      let v ← f (s.stack (s.stackTop - 1))
      pure (s.replace 1 (s.world, [v], s.pc + 1))) := by
  have htop : s.stackTop - 1 + 1 = s.stackTop := by omega
  rw [unary, stk_ok h]
  simp only [Outcome.ok_bind]
  cases f (s.stack (s.stackTop - 1)) with
  | ok v => simp [replace, next, overwrite_singleton, htop]
  | raise m => rfl
  | fault => rfl

/-- An instruction that puts one value. -/
theorem replace_put (s : Vm) (n : Nat) (w : World) (pc : Nat) (v : Outcome Value) :
    (do let v ← v; pure (s.replace n (w, [v], pc)) : Outcome Vm)
      = (do
        let r ← (do pure (w, [← v], pc) : Outcome (World × List Value × Nat))
        pure (s.replace n r)) := by
  cases v <;> rfl

theorem frame_ok (h : 0 < s.frameTop) : s.frame = .ok (s.frames (s.frameTop - 1)) := by
  rw [frame, decide_eq_true h]
  rfl

/-- **Local instructions.** With enough values on the stack and room for one
more, an instruction takes its values and puts what `localOp` says. -/
theorem exec_local (h : Host) {op : Op} {a : Nat} {b : Int} (hop : op.IsLocal)
    (hframe : 0 < s.frameTop) (hn : (op.effect a).1 ≤ s.stackTop)
    (hroom : (op.effect a).1 < (op.effect a).2 → s.stackTop < stackSize) :
    s.exec h op a b = (do
      let r ← localOp h s.view s.world s.func s.pc op a b (s.topValues (op.effect a).1)
      pure (s.replace (op.effect a).1 r)) := by
  obtain ⟨hcall, htcall, hret⟩ := hop
  cases op with
  | call => exact absurd rfl hcall
  | tcall => exact absurd rfl htcall
  | «return» => exact absurd rfl hret
  | push => exact (pushFrom_ok _ (hroom Nat.zero_lt_one)).trans (replace_put ..)
  | copy =>
      have htop := hroom Nat.zero_lt_one
      rw [exec, copy, decide_eq_true htop, frame_ok hframe]
      exact (pushFrom_ok _ htop).trans (replace_put ..)
  | load =>
      have hslot : (s.frames (s.frameTop - 1)).stackTop + 1 + a
          = (s.frames (s.frameTop - 1)).stackTop + (a + 1) := by omega
      rw [exec, load, frame_ok hframe, Outcome.ok_bind, hslot]
      exact (pushFrom_ok _ (hroom Nat.zero_lt_one)).trans (replace_put ..)
  | getglobal =>
      have hpush := fun v => pushFrom_ok (s := s) (.ok v) (hroom Nat.zero_lt_one)
      simp only [exec, localOp, pushValue, hpush, Outcome.ok_bind, bind_assoc,
        Outcome.pure_eq]
      rfl
  | lambda =>
      have hpush := fun w v =>
        pushFrom_ok (s := { s with world := w }) (.ok v) (hroom Nat.zero_lt_one)
      simp only [exec, localOp, makeLambda, pushValue, map_bind, hpush, Outcome.ok_bind,
        bind_assoc, Outcome.pure_eq]
      rfl
  | pop =>
      rw [exec, pop, decide_eq_true (show a ≤ s.stackTop from hn)]
      simp [localOp, replace, next, Op.effect]
  | jmp => simp [exec, localOp, replace, jump, Op.effect]
  | test =>
      have h1 : 1 ≤ s.stackTop := hn
      rw [exec, test, stk_ok h1, pop, decide_eq_true h1]
      change _ = (do
        let r ← localOp h s.view s.world s.func s.pc .test a b (s.topValues 1)
        pure (s.replace 1 r))
      rw [topValues_one]
      simp only [localOp, Outcome.ok_bind, Outcome.pure_eq, Outcome.require_true]
      split <;> simp [replace, jump, next]
  | setglobal =>
      have h1 : 1 ≤ s.stackTop := hn
      have htop : s.stackTop - 1 + 1 = s.stackTop := by omega
      rw [exec, stk_ok h1]
      change _ = (do
        let r ← localOp h s.view s.world s.func s.pc .setglobal a b (s.topValues 1)
        pure (s.replace 1 r))
      rw [topValues_one]
      simp [localOp, replace, next, bind_assoc, overwrite_singleton, htop]
  | unm | not =>
      rw [exec, unary_ok _ hn]
      exact (replace_put ..)
  | add | sub | mul | div | mod | pow | eq | less | lequal | and | or =>
      rw [exec, binary_ok _ hn]
      change _ = (do
        let r ← localOp h s.view s.world s.func s.pc _ a b (s.topValues 2)
        pure (s.replace 2 r))
      rw [topValues_two hn]
      exact (replace_put ..)

end Vm

/-! ## Activations on the stack -/

variable {g : Ground} {stack : Nat → Value} {frames : Nat → Frame} {act : Act} {rest : List Act}

/-- The values on top of the stack are those of the running activation. -/
theorem topValues_laid {s : Vm} (hl : Laid g s.stack frames (act :: rest) s.stackTop) {n : Nat}
    (hn : n ≤ act.slots.length) : s.topValues n = act.slots.take n := by
  obtain ⟨base, -, htop, hslice, -⟩ := hl
  have hsplit : act.slots.reverse = (act.slots.drop n).reverse ++ (act.slots.take n).reverse := by
    rw [← List.reverse_append, List.take_append_drop]
  rw [hsplit] at hslice
  have hupper := (slice_eq_append hslice).2
  rw [List.length_reverse, List.length_reverse, List.length_drop, List.length_take,
    Nat.min_eq_left hn] at hupper
  have hbase : base + (act.slots.length - n) = s.stackTop - n := by omega
  rw [hbase] at hupper
  rw [Vm.topValues, Vm.window, hupper, List.reverse_reverse]

/-- What is below the values that are taken. -/
theorem slice_drop {base n : Nat} {slots : List Value}
    (h : slice stack base slots.length = slots.reverse) :
    slice stack base (slots.length - n) = (slots.drop n).reverse := by
  have hsplit : slots.reverse = (slots.drop n).reverse ++ (slots.take n).reverse := by
    rw [← List.reverse_append, List.take_append_drop]
  rw [hsplit] at h
  have hlower := (slice_eq_append h).1
  rwa [List.length_reverse, List.length_drop] at hlower

theorem laid_replace {s : Vm} (hl : Laid g s.stack s.frames (act :: rest) s.stackTop) {n : Nat}
    (hn : n ≤ act.slots.length) (r : World × List Value × Nat) :
    Laid g (s.replace n r).stack s.frames
      ({ act with pc := r.2.2, slots := r.2.1 ++ act.slots.drop n } :: rest)
      (s.replace n r).stackTop := by
  obtain ⟨base, hrest, htop, hslice, hframe⟩ := hl
  have hbase : s.stackTop - n = base + (act.slots.length - n) := by omega
  refine ⟨base, hrest.congr (fun i hi => overwrite_of_lt (by omega)) (fun _ _ => rfl), ?_, ?_,
    hframe⟩
  · simp only [Vm.replace, List.length_append, List.length_drop]
    omega
  · simp only [Vm.replace, List.length_append, List.length_drop, List.reverse_append]
    rw [hbase, Nat.add_comm r.2.1.length, ← @List.length_reverse _ r.2.1,
      slice_overwrite_append, slice_drop hslice]

/-- A value goes back to the caller. -/
theorem flat_giveBack {s : Vm} {callers : List Act} {top : Nat}
    (hl : Laid g stack frames callers top) (hstack : ∀ i < top, s.stack i = stack i)
    (hframes : ∀ j < g.level + callers.length, s.frames j = frames j)
    (htop : s.stackTop = top + 1) (hlevel : s.frameTop = g.level + callers.length)
    (hfunc : s.func = (g.caller callers).1) (hpc : s.pc = (g.caller callers).2) :
    Flat g s (giveBack s.world (s.stack top) callers) := by
  have hl' := hl.congr hstack hframes
  cases callers with
  | nil =>
      obtain ⟨rfl, hbelow⟩ := hl'
      exact .done hfunc hpc hlevel htop hbelow rfl
  | cons act rest =>
      obtain ⟨base, hrest, htop', hslice, hframe⟩ := hl'
      refine .run hfunc hpc hlevel ⟨base, hrest, ?_, ?_, hframe⟩
      · simp only [List.length_cons]
        omega
      · simp only [List.length_cons, List.reverse_cons]
        rw [slice_add, hslice, ← htop']
        rfl

/-- There is a frame for the callee and room for its slots. -/
def CalleeRoom (s : Vm) (tmp a : Nat) : Prop :=
  (s.stack tmp).type = .function → s.frameTop < maxCalls
    ∧ ∀ fn, functionAt s.world (s.stack tmp) = .ok fn →
      tmp + 1 + (if fn.narg < 0 then 1 else a) + fn.upvalues.length ≤ stackSize

theorem callClosure_refines {s : Vm} {callers : List Act} {tmp a ret : Nat}
    (hl : Laid g s.stack s.frames callers tmp) (hlevel : s.frameTop = g.level + callers.length)
    (hcaller : g.caller callers = (s.func, ret)) (htype : (s.stack tmp).type = .function)
    (hroom : CalleeRoom s tmp a) :
    Outcome.Rel (Flat g) (s.callClosure tmp a ret (s.stack tmp)) (do
      let fn ← functionAt s.world (s.stack tmp)
      let (w, args) ← enterArgs s.world fn (s.window (tmp + 1) a)
      pure (.run w ⟨fn, 0, fn.upvalues.reverse ++ args.reverse ++ [s.stack tmp]⟩ callers)) := by
  obtain ⟨hframe, hfits⟩ := hroom htype
  rw [Vm.callClosure, decide_eq_true hframe, Outcome.require_true, Outcome.ok_bind]
  cases hfn : functionAt s.world (s.stack tmp) with
  | raise m => exact .raise m
  | fault => exact .fault
  | ok fn =>
      have hroom := hfits fn hfn
      simp only [Outcome.ok_bind]
      cases henter : enterArgs s.world fn (s.window (tmp + 1) a) with
      | raise m => exact .raise m
      | fault => exact .fault
      | ok r =>
          obtain ⟨w, args⟩ := r
          have hargs : args.length = if fn.narg < 0 then 1 else a := by
            rw [enterArgs_length henter, Vm.window, length_slice]
          rw [← hargs] at hroom
          have hpush : 0 ≤ fn.narg ∨ tmp + 1 < stackSize := by
            by_cases hneg : fn.narg < 0
            · rw [hargs, if_pos hneg] at hroom
              exact Or.inr (by omega)
            · exact Or.inl (by omega)
          simp only [Outcome.ok_bind, decide_eq_true hpush, decide_eq_true hroom,
            Outcome.check_true, Outcome.require_true, Outcome.pure_eq]
          refine .ok (.run rfl rfl (congrArg (· + 1) hlevel) ⟨tmp, ?_, ?_, ?_, ?_⟩)
          · exact hl.congr (fun i hi => overwrite_of_lt (by omega))
              (fun j hj => Function.update_of_ne (by omega) ..)
          · simp only [List.length_append, List.length_reverse, List.length_singleton]
            omega
          · have hlen : (fn.upvalues.reverse ++ args.reverse ++ [s.stack tmp]).length
                = 1 + (args ++ fn.upvalues).length := by
              simp only [List.length_append, List.length_reverse, List.length_singleton]
              omega
            rw [hlen, slice_overwrite_append, slice_one]
            simp
          · rw [hcaller, ← hlevel]
            exact Function.update_self ..

/-- **Calls.** Whoever is to be called back, the interpreter and the
structured machine do the same with a callee and its arguments. -/
theorem call_refines (h : Host) {s : Vm} {callers : List Act} {a ret : Nat}
    (ha : a + 1 ≤ s.stackTop) (hl : Laid g s.stack s.frames callers (s.stackTop - (a + 1)))
    (hlevel : s.frameTop = g.level + callers.length)
    (hcaller : g.caller callers = (s.func, ret))
    (hroom : CalleeRoom s (s.stackTop - (a + 1)) a) :
    Outcome.Rel (Flat g) (Vm.call h s a ret) (enterCall h s.world (s.stack (s.stackTop - (a + 1)))
      (s.window (s.stackTop - (a + 1) + 1) a) callers) := by
  rw [Vm.call, decide_eq_true ha, Outcome.require_true, Outcome.ok_bind]
  generalize s.stackTop - (a + 1) = tmp at hl hroom ⊢
  have hdata : ∀ x : Outcome Value, Outcome.Rel (Flat g)
      (do pure (s.callData tmp ret (← x))) (do pure (giveBack s.world (← x) callers)) := by
    intro x
    refine Outcome.Rel.rfl.bind ?_
    rintro v _ rfl
    have hback := flat_giveBack (s := s.callData tmp ret v) hl
      (fun i hi => Function.update_of_ne (Nat.ne_of_lt hi) ..) (fun _ _ => rfl) rfl hlevel
      (congrArg Prod.fst hcaller).symm (congrArg Prod.snd hcaller).symm
    rw [show (s.callData tmp ret v).stack tmp = v from Function.update_self ..] at hback
    exact .ok hback
  unfold enterCall
  dsimp only
  cases htype : (s.stack tmp).type with
  | function => exact callClosure_refines hl hlevel hcaller htype hroom
  | nativefunc =>
      have hwindow : s.window tmp (a + 1) = s.stack tmp :: s.window (tmp + 1) a := by
        rw [Vm.window, Nat.add_comm a 1, slice_add]
        rfl
      simp only [Vm.callNative, hwindow]
      refine Outcome.Rel.rfl.bind ?_
      rintro r _ rfl
      have hback := flat_giveBack (s := { s with
          world := r.world
          stack := fun i => if i < tmp then s.stack i
            else if i = tmp then r.ret.getD ⟨.nil, (r.left 0).obj⟩ else r.left (i - tmp)
          stackTop := tmp + 1
          pc := ret }) hl (fun i hi => if_pos hi) (fun _ _ => rfl) rfl hlevel
        (congrArg Prod.fst hcaller).symm (congrArg Prod.snd hcaller).symm
      dsimp only at hback
      rw [if_neg (Nat.lt_irrefl tmp), if_pos rfl] at hback
      exact .ok hback
  | vector => exact hdata _
  | map => exact hdata _
  | _ =>
      refine Outcome.Rel.rfl.bind ?_
      rintro name _ rfl
      exact .raise _

/-! ## Steps -/

/-- The next instruction has room in the stack and in the frames. -/
structure Roomy (s : Vm) : Prop where
  top : s.stackTop ≤ stackSize
  push : ∀ op a b, s.fetch = .ok (op, a, b) → (op.effect a).1 < (op.effect a).2 →
    s.stackTop < stackSize
  call : ∀ a b, s.fetch = .ok (.call, a, b) → CalleeRoom s (s.stackTop - (a + 1)) a
  tcall : ∀ a b frame, s.fetch = .ok (.tcall, a, b) → s.frame = .ok frame →
    CalleeRoom (s.dropFrame frame a) frame.stackTop a

/-- The next instruction takes no more than its activation has. -/
def Act.Fits (act : Act) : Prop :=
  ∀ op a b, act.fetch = .ok (op, a, b) → (op.effect a).1 ≤ act.slots.length

/-- The callee and its arguments on top of an activation. -/
theorem callee_laid {s : Vm} (hl : Laid g s.stack frames (act :: rest) s.stackTop) {a : Nat}
    (ha : a + 1 ≤ act.slots.length) :
    ∃ r, act.slots.drop a = s.stack (s.stackTop - (a + 1)) :: r ∧ act.slots.drop (a + 1) = r
      ∧ (act.slots.take a).reverse = s.window (s.stackTop - (a + 1) + 1) a := by
  have htop := topValues_laid hl ha
  have hwindow : s.topValues (a + 1) = (s.window (s.stackTop - (a + 1) + 1) a).reverse
      ++ [s.stack (s.stackTop - (a + 1))] := by
    rw [Vm.topValues, Vm.window, Nat.add_comm a 1, slice_add, slice_one, List.reverse_append]
    rfl
  obtain ⟨f, hf⟩ : ∃ f, act.slots[a]? = some f := ⟨_, List.getElem?_eq_getElem ha⟩
  have htake : act.slots.take (a + 1) = act.slots.take a ++ [f] := by
    rw [List.take_add_one, hf]
    rfl
  rw [hwindow, htake] at htop
  obtain ⟨hargs, hcallee⟩ := List.append_inj htop (by
    rw [List.length_reverse, Vm.window, length_slice, List.length_take,
      Nat.min_eq_left (Nat.le_of_succ_le ha)])
  obtain rfl : s.stack (s.stackTop - (a + 1)) = f := by simpa using hcallee
  refine ⟨act.slots.drop (a + 1), ?_, rfl, ?_⟩
  · obtain ⟨_, hget⟩ := List.getElem?_eq_some_iff.mp hf
    rw [← List.getElem_cons_drop ha, hget]
  · rw [← hargs, List.reverse_reverse]

/-- A running activation and the frame it has. -/
structure Running (g : Ground) (s : Vm) (act : Act) (rest : List Act) (base : Nat) : Prop where
  func : s.func = act.func
  pc : s.pc = act.pc
  level : s.frameTop = g.level + rest.length + 1
  laid : Laid g s.stack s.frames (act :: rest) s.stackTop
  below : Laid g s.stack s.frames rest base
  top : s.stackTop = base + act.slots.length
  read : slice s.stack base act.slots.length = act.slots.reverse
  frame : s.frame = .ok ⟨(g.caller rest).1, base, (g.caller rest).2⟩

theorem Flat.running {s : Vm} (hf : Flat g s (.run s.world act rest)) :
    ∃ base, Running g s act rest base := by
  cases hf with
  | run hfunc hpc hlevel hl =>
    obtain ⟨base, hrest, htop, hslice, hframe⟩ := hl
    have hlast : s.frameTop - 1 = g.level + rest.length := by omega
    refine ⟨base, hfunc, hpc, hlevel, ⟨base, hrest, htop, hslice, hframe⟩, hrest, htop, hslice, ?_⟩
    rw [Vm.frame_ok (by omega), hlast, hframe]

variable {s : Vm} {base : Nat}

theorem Running.fetch (hr : Running g s act rest base) : s.fetch = act.fetch := by
  rw [Vm.fetch, Act.fetch, hr.func, hr.pc]

theorem execAct_local (h : Host) {op : Op} (hlocal : op.IsLocal) {view : View} {w : World}
    {act : Act} {rest : List Act} {a : Nat} {b : Int} :
    execAct h view w act rest op a b = (do
      let (w, vs, pc) ← localOp h view w act.func act.pc op a b
        (act.slots.take (op.effect a).1)
      pure (.run w { act with pc := pc, slots := vs ++ act.slots.drop (op.effect a).1 } rest)) := by
  obtain ⟨hcall, htcall, hret⟩ := hlocal
  cases op <;> first | contradiction | rfl

theorem local_refines (h : Host) (hr : Running g s act rest base) {op : Op} {a : Nat} {b : Int}
    (hlocal : op.IsLocal) (hfit : (op.effect a).1 ≤ act.slots.length)
    (hroom : (op.effect a).1 < (op.effect a).2 → s.stackTop < stackSize) :
    Outcome.Rel (Flat g) (s.exec h op a b) (execAct h s.view s.world act rest op a b) := by
  have hlevel := hr.level
  have htop := hr.top
  rw [Vm.exec_local h hlocal (by omega) (by omega) hroom, topValues_laid hr.laid hfit, hr.func,
    hr.pc]
  rw [execAct_local h hlocal]
  refine Outcome.Rel.rfl.bind ?_
  rintro r _ rfl
  exact .ok (.run hr.func rfl hlevel (laid_replace hr.laid hfit r))

theorem return_refines (hr : Running g s act rest base) (hfit : 1 ≤ act.slots.length)
    (htop : s.stackTop ≤ stackSize) (h : Host) (view : View) (a : Nat) (b : Int) :
    Outcome.Rel (Flat g) s.ret (execAct h view s.world act rest .return a b) := by
  have hheight := hr.top
  have hvalue := topValues_laid hr.laid hfit
  cases hslots : act.slots with
  | nil =>
      rw [hslots] at hfit
      cases hfit
  | cons v slots =>
      rw [Vm.topValues_one, hslots] at hvalue
      obtain rfl : s.stack (s.stackTop - 1) = v := by simpa using hvalue
      rw [Vm.ret, hr.frame, Vm.stk_ok (by omega)]
      simp only [Outcome.ok_bind, decide_eq_true (show base < stackSize by omega),
        Outcome.require_true, execAct, hslots]
      have hback := flat_giveBack (s := { s with
          stack := Function.update s.stack base (s.stack (s.stackTop - 1))
          stackTop := base + 1
          frameTop := s.frameTop - 1
          func := (g.caller rest).1
          pc := (g.caller rest).2 }) hr.below
        (fun i hi => Function.update_of_ne (Nat.ne_of_lt hi) ..) (fun _ _ => rfl) rfl
        (by have := hr.level; dsimp only; omega) rfl rfl
      dsimp only at hback
      rw [Function.update_self] at hback
      exact .ok hback

theorem callAct_refines (h : Host) (hr : Running g s act rest base) {a : Nat} {b : Int}
    (hfit : a + 1 ≤ act.slots.length) (hroom : CalleeRoom s (s.stackTop - (a + 1)) a)
    (view : View) :
    Outcome.Rel (Flat g) (Vm.call h s a (s.pc + 1))
      (execAct h view s.world act rest .call a b) := by
  have htop := hr.top
  obtain ⟨r, hcallee, hdrop, hargs⟩ := callee_laid hr.laid hfit
  have hlaid : Laid g s.stack s.frames (act.waiting a :: rest) (s.stackTop - (a + 1)) := by
    obtain ⟨base', hrest, htop', hslice, hframe⟩ := hr.laid
    have hlen : (act.waiting a).slots.length = act.slots.length - (a + 1) := List.length_drop ..
    refine ⟨base', hrest, by omega, ?_, hframe⟩
    rw [hlen, slice_drop hslice]
    rfl
  simp only [execAct, hcallee, hargs]
  exact call_refines h (by omega) hlaid hr.level
    (by rw [Ground.caller, hr.func, hr.pc]; rfl) hroom

theorem tcallAct_refines (h : Host) (hr : Running g s act rest base) {a : Nat} {b : Int}
    (hfit : a + 1 ≤ act.slots.length) (htop : s.stackTop ≤ stackSize) {frame : Frame}
    (hframe : s.frame = .ok frame)
    (hroom : CalleeRoom (s.dropFrame frame a) frame.stackTop a) (view : View) :
    Outcome.Rel (Flat g) (Vm.tcall h s a) (execAct h view s.world act rest .tcall a b) := by
  have hheight := hr.top
  have hlevel := hr.level
  have hcur : frame = ⟨(g.caller rest).1, base, (g.caller rest).2⟩ :=
    Outcome.ok.inj (hframe.symm.trans hr.frame)
  have hbase : frame.stackTop = base := by rw [hcur]
  have hcaller : g.caller rest = (frame.func, frame.retAddr) := by rw [hcur]
  obtain ⟨r, hcallee, -, hargs⟩ := callee_laid hr.laid hfit
  -- the callee and its arguments are where the frame was
  have hmoved : slice (s.dropFrame frame a).stack frame.stackTop (a + 1)
      = slice s.stack (s.stackTop - (a + 1)) (a + 1) := by
    have := slice_overwrite s.stack frame.stackTop (s.window (s.stackTop - (a + 1)) (a + 1))
    rwa [Vm.window, length_slice] at this
  rw [slice_succ, slice_succ] at hmoved
  obtain ⟨hslot, hwindow⟩ := List.cons_eq_cons.mp hmoved
  have htmp : (s.dropFrame frame a).stackTop - (a + 1) = frame.stackTop := Nat.add_sub_cancel ..
  have hlaid : Laid g (s.dropFrame frame a).stack (s.dropFrame frame a).frames rest
      frame.stackTop := by
    rw [hbase]
    exact hr.below.congr (fun i hi => overwrite_of_lt (by omega)) fun _ _ => rfl
  have hcall := call_refines h (s := s.dropFrame frame a) (a := a)
    (Nat.le_add_left ..) (htmp.symm ▸ hlaid) (by change s.frameTop - 1 = _; omega) hcaller
    (htmp.symm ▸ hroom)
  rw [htmp, hslot, Vm.window, hwindow] at hcall
  rw [Vm.tcall, hframe, Outcome.ok_bind, decide_eq_true
    (show a + 1 ≤ s.stackTop ∧ frame.stackTop + (a + 1) ≤ stackSize by omega)]
  simp only [execAct, hcallee, hargs]
  exact hcall

/-- **The interpreter refines the structured machine**, one step at a time. -/
theorem step_refines (h : Host) (hf : Flat g s (.run s.world act rest)) (hfits : act.Fits)
    (hroom : Roomy s) :
    Outcome.Rel (Flat g) (s.step h) (stepAct h s.view s.world act rest) := by
  obtain ⟨base, hr⟩ := hf.running
  rw [Vm.step, stepAct, ← hr.fetch]
  cases hinst : s.fetch with
  | raise m => exact .raise m
  | fault => exact .fault
  | ok inst =>
      obtain ⟨op, a, b⟩ := inst
      have hfit := hfits op a b (hr.fetch ▸ hinst)
      change Outcome.Rel (Flat g) (s.exec h op a b) (execAct h s.view s.world act rest op a b)
      cases op with
      | «return» => exact return_refines hr hfit hroom.top h _ a b
      | call => exact callAct_refines h hr hfit (hroom.call a b hinst) _
      | tcall =>
          exact tcallAct_refines h hr hfit hroom.top hr.frame (hroom.tcall a b _ hinst hr.frame) _
      | _ =>
          exact local_refines h hr (by simp [Op.IsLocal]) hfit (hroom.push _ a b hinst)

/-! ## A completed step had room -/

theorem room_of_pushFrom {v : Outcome Value} {s' : Vm} (h : s.pushFrom v = .ok s') :
    s.stackTop < stackSize ∧ s'.stackTop = s.stackTop + 1 := by
  obtain ⟨_, hcheck, h⟩ := Outcome.bind_eq_ok.mp h
  obtain ⟨v, -, h⟩ := Outcome.bind_eq_ok.mp h
  cases h
  exact ⟨of_decide_eq_true (Outcome.check_eq_ok.mp hcheck), rfl⟩

theorem room_of_call {h : Host} {a ret : Nat} {s' : Vm} (hcall : Vm.call h s a ret = .ok s') :
    CalleeRoom s (s.stackTop - (a + 1)) a := by
  intro htype
  obtain ⟨_, -, hcall⟩ := Outcome.bind_eq_ok.mp hcall
  dsimp only at hcall
  rw [htype] at hcall
  obtain ⟨_, hframe, hcall⟩ := Outcome.bind_eq_ok.mp hcall
  obtain ⟨fn, hfn, hcall⟩ := Outcome.bind_eq_ok.mp hcall
  obtain ⟨r, henter, hcall⟩ := Outcome.bind_eq_ok.mp hcall
  obtain ⟨_, -, hcall⟩ := Outcome.bind_eq_ok.mp hcall
  obtain ⟨_, hfits, -⟩ := Outcome.bind_eq_ok.mp hcall
  refine ⟨of_decide_eq_true (Outcome.require_eq_ok.mp hframe), fun fn' hfn' => ?_⟩
  obtain rfl : fn = fn' := Outcome.ok.inj (hfn.symm.trans hfn')
  have hargs := enterArgs_length henter
  rw [Vm.window, length_slice] at hargs
  rw [← hargs]
  exact of_decide_eq_true (Outcome.require_eq_ok.mp hfits)

/-- The instructions that make the stack higher. -/
theorem room_of_push {h : Host} {op : Op} {a : Nat} {b : Int} {s' : Vm}
    (heffect : (op.effect a).1 < (op.effect a).2) (hexec : s.exec h op a b = .ok s') :
    s.stackTop < stackSize := by
  have hnext : ∀ {x : Outcome Vm} {s' : Vm}, Vm.next <$> x = .ok s' → ∃ s1, x = .ok s1 := by
    intro x s' hx
    cases x with
    | ok s1 => exact ⟨s1, rfl⟩
    | raise m => cases hx
    | fault => cases hx
  cases op with
  | push => exact (room_of_pushFrom (hnext hexec).choose_spec).1
  | copy =>
      obtain ⟨s1, h1⟩ := hnext hexec
      obtain ⟨_, -, h1⟩ := Outcome.bind_eq_ok.mp h1
      obtain ⟨_, -, h1⟩ := Outcome.bind_eq_ok.mp h1
      exact (room_of_pushFrom h1).1
  | load =>
      obtain ⟨s1, h1⟩ := hnext hexec
      obtain ⟨_, -, h1⟩ := Outcome.bind_eq_ok.mp h1
      exact (room_of_pushFrom h1).1
  | getglobal =>
      obtain ⟨_, -, hexec⟩ := Outcome.bind_eq_ok.mp hexec
      exact (room_of_pushFrom (hnext hexec).choose_spec).1
  | lambda =>
      obtain ⟨s1, h1⟩ := hnext hexec
      obtain ⟨_, -, h1⟩ := Outcome.bind_eq_ok.mp h1
      obtain ⟨x, -, h1⟩ := Outcome.bind_eq_ok.mp h1
      exact (room_of_pushFrom (s := { s with world := x.1 }) h1).1
  | _ => simp [Op.effect] at heffect

theorem roomy_of_step {h : Host} {s' : Vm} (htop : s.stackTop ≤ stackSize)
    (hstep : s.step h = .ok s') : Roomy s := by
  have hexec : ∀ op a b, s.fetch = .ok (op, a, b) → s.exec h op a b = .ok s' := by
    intro op a b hfetch
    rwa [Vm.step, hfetch] at hstep
  refine ⟨htop, fun op a b hfetch heffect => room_of_push heffect (hexec op a b hfetch),
    fun a b hfetch => room_of_call (hexec _ a b hfetch), fun a b frame hfetch hframe => ?_⟩
  have htcall : Vm.tcall h s a = .ok s' := hexec _ a b hfetch
  rw [Vm.tcall, hframe, Outcome.ok_bind] at htcall
  obtain ⟨_, -, hcall⟩ := Outcome.bind_eq_ok.mp htcall
  have hroom := room_of_call hcall
  rwa [show (s.dropFrame frame a).stackTop - (a + 1) = frame.stackTop from
    Nat.add_sub_cancel ..] at hroom

open Outcome in
theorem call_top {h : Host} {a ret : Nat} (htop : s.stackTop ≤ stackSize) :
    Ensures (Vm.call h s a ret) fun s' => s'.stackTop ≤ stackSize := by
  refine .bind fun _ ha => ?_
  have ha := of_decide_eq_true (require_eq_ok.mp ha)
  have htmp : s.stackTop - (a + 1) + 1 ≤ stackSize := by omega
  dsimp only
  split
  · exact .bind fun _ _ => .bind fun _ _ => .bind fun _ _ => .bind fun _ _ => .bind fun _ hfits =>
      ensures_ok (of_decide_eq_true (require_eq_ok.mp hfits))
  · exact .bind fun _ _ => ensures_ok htmp
  · exact .bind fun _ _ => ensures_ok htmp
  · exact .bind fun _ _ => ensures_ok htmp
  · exact .bind fun _ _ => ensures_raise

open Outcome in
/-- The stack never grows past its array. -/
theorem step_top {h : Host} (htop : s.stackTop ≤ stackSize) :
    Ensures (s.step h) fun s' => s'.stackTop ≤ stackSize := by
  refine .bind fun inst _ => ?_
  obtain ⟨op, a, b⟩ := inst
  change Ensures (s.exec h op a b) _
  have hpush : ∀ {s : Vm} (v : Outcome Value), Ensures (s.pushFrom v)
      fun s' => s'.stackTop ≤ stackSize := by
    intro s v s' h'
    obtain ⟨hlt, heq⟩ := room_of_pushFrom h'
    omega
  cases op with
  | push => exact .map (hpush _)
  | load => exact .map (.bind fun _ _ => hpush _)
  | copy => exact .map (.bind fun _ _ => .bind fun _ _ => hpush _)
  | getglobal => exact .bind fun _ _ => .map (hpush _)
  | lambda => exact .map (.bind fun _ _ => .bind fun _ _ => hpush _)
  | pop => exact .map (.bind fun _ _ => ensures_ok (Nat.le_trans (Nat.sub_le ..) htop))
  | setglobal => exact .bind fun _ _ => ensures_ok htop
  | jmp => exact ensures_ok htop
  | test =>
      refine .bind fun _ _ => .bind fun s1 h1 => ensures_ok ?_
      obtain ⟨_, _, h1⟩ := bind_eq_ok.mp h1
      cases h1
      split <;> exact Nat.le_trans (Nat.sub_le ..) htop
  | call => exact call_top htop
  | tcall =>
      refine .bind fun frame _ => .bind fun _ hfits => call_top ?_
      exact (of_decide_eq_true (require_eq_ok.mp hfits)).2
  | «return» =>
      exact .bind fun _ _ => .bind fun _ _ => .bind fun _ hfits =>
        ensures_ok (of_decide_eq_true (require_eq_ok.mp hfits))
  | unm | not => exact .map (.bind fun _ _ => .bind fun _ _ => ensures_ok htop)
  | add | sub | mul | div | mod | pow | eq | less | lequal | and | or =>
      exact .map (.bind fun _ _ => .bind fun _ _ => .bind fun _ _ =>
        ensures_ok (Nat.le_trans (Nat.sub_le ..) htop))

end Saurus
