import Saurus.Vm.Entry
import Saurus.Vm.Refine

/-!
# Tail calls

`OP_TCALL` moves the callee and its arguments over the frame it is in and
calls them from the frame below. Against `OP_CALL` followed by `OP_RETURN`
everything the callee does is then `gap` slots lower on the stack and one
frame lower. `Tied` is that relation between the two runs; an instruction
keeps it that takes no value below the callee's slot and reads by position
only slots the stack holds (`tied_step`), and where the callee is back the two
are at the end of the same call (`tcall_is_call_return`).

Reading by position is not checked. What `OP_COPY`, `OP_LOAD` and the captures
of `OP_LAMBDA` find above `stack_top` is left over from earlier calls, and not
the same `gap` slots lower.
-/

namespace Saurus

open Basis

namespace Vm

/-! ## The two runs -/

/-- A tail call and what it is compared with: the frame that makes it is
number `level`, starts at `base` and goes back to `retAddr` of `caller`; the
callee of the `OP_CALL` lies `gap` slots above that base and comes back to `pc`
of `func`. Below are `stack` and `frames`. -/
structure Site where
  level : Nat
  base : Nat
  gap : Nat
  caller : FunctionObj
  retAddr : Nat
  func : FunctionObj
  pc : Nat
  stack : Nat → Value
  frames : Nat → Frame

variable {t : Site} {s s' : Vm}

/-- Where control goes on in the two runs, with `n` frames in the second. -/
def Site.Resumes (t : Site) (n : Nat) (func : FunctionObj) (pc : Nat) (func' : FunctionObj)
    (pc' : Nat) : Prop :=
  (n = t.level ∧ func = t.func ∧ pc = t.pc ∧ func' = t.caller ∧ pc' = t.retAddr)
    ∨ (t.level < n ∧ func' = func ∧ pc' = pc)

/-- Frame `n` of the second run, and the frame above it of the first. -/
structure Site.FrameTied (t : Site) (n : Nat) (fr fr' : Frame) : Prop where
  resumes : t.Resumes n fr.func fr.retAddr fr'.func fr'.retAddr
  stackTop : fr.stackTop = fr'.stackTop + t.gap
  ground : t.base ≤ fr'.stackTop
  room : fr.stackTop < stackSize
  bottom : n = t.level → fr'.stackTop = t.base

/-- The frames of the two runs, none of them above `top`. -/
structure Site.FramesTied (t : Site) (top : Nat) (s s' : Vm) : Prop where
  frameTop : s.frameTop = s'.frameTop + 1
  level : t.level ≤ s'.frameTop
  above : ∀ n, t.level ≤ n → n < s'.frameTop → t.FrameTied n (s.frames (n + 1)) (s'.frames n)
  reach : ∀ n, t.level ≤ n → n < s'.frameTop → (s'.frames n).stackTop ≤ top
  below : ∀ n ≤ t.level, s.frames n = t.frames n
  below' : ∀ n < t.level, s'.frames n = t.frames n

/-- The stacks of the two runs, up to the highest slot `top` either has
written since the call. -/
structure Site.StackTied (t : Site) (top : Nat) (s s' : Vm) : Prop where
  world : s'.world = s.world
  stackTop : s.stackTop = s'.stackTop + t.gap
  ground : t.base ≤ s'.stackTop
  reach : s'.stackTop ≤ top
  above : ∀ i, t.base ≤ i → i < top → s'.stack i = s.stack (i + t.gap)
  below : ∀ i < t.base, s.stack i = t.stack i
  below' : ∀ i < t.base, s'.stack i = t.stack i

/-- The first run, with a frame and `gap` slots more than the second. At the
level of the site the callee is back. -/
structure Tied (t : Site) (top : Nat) (s s' : Vm) : Prop where
  stack : t.StackTied top s s'
  frames : t.FramesTied top s s'
  resumes : t.Resumes s'.frameTop s.func s.pc s'.func s'.pc
  done : s'.frameTop = t.level → s'.stackTop = t.base + 1

/-- The two runs are tied, however high they have been. -/
def TiedSome (t : Site) (s s' : Vm) : Prop := ∃ top, Tied t top s s'

/-! ## Slots and frames -/

variable {top : Nat}

theorem Site.StackTied.window (hs : t.StackTied top s s') {i n : Nat} (hi : t.base ≤ i)
    (hn : i + n ≤ top) : s.window (i + t.gap) n = s'.window i n := by
  refine List.map_congr_left fun j hj => ?_
  have hj := List.mem_range.mp hj
  rw [hs.above _ (by omega) (by omega)]
  congr 1
  omega

theorem Site.StackTied.topValues (hs : t.StackTied top s s') {n : Nat}
    (hn : t.base + n ≤ s'.stackTop) : s'.topValues n = s.topValues n := by
  have htop := hs.stackTop
  have hreach := hs.reach
  rw [Vm.topValues, Vm.topValues, ← hs.window (by omega) (by omega)]
  congr 2
  omega

/-- Both runs write from slot `n` on, the first `gap` slots further up, and
leave `len` values there. -/
theorem Site.StackTied.grow (hs : t.StackTied top s s') {u u' : Vm} {n len : Nat}
    (hn : t.base ≤ n) (hworld : u'.world = u.world)
    (hlow : ∀ i < n + t.gap, u.stack i = s.stack i) (hlow' : ∀ i < n, u'.stack i = s'.stack i)
    (hle : n ≤ top)
    (hnew : ∀ j, j < len ∨ n + j < top → u'.stack (n + j) = u.stack (n + t.gap + j))
    (htop : u.stackTop = n + t.gap + len) (htop' : u'.stackTop = n + len) :
    t.StackTied (max top (n + len)) u u' where
  world := hworld
  stackTop := by omega
  ground := by omega
  reach := by omega
  above := by
    intro i hi hlt
    by_cases hin : i < n
    · rw [hlow' i hin, hlow _ (by omega), hs.above i hi (by omega)]
    · have := hnew (i - n) (by omega)
      rwa [show n + (i - n) = i by omega, show n + t.gap + (i - n) = i + t.gap by omega] at this
  below := by
    intro i hi
    rw [hlow i (by omega), hs.below i hi]
  below' := by
    intro i hi
    rw [hlow' i (by omega), hs.below' i hi]

theorem Site.StackTied.write (hs : t.StackTied top s s') (vs : List Value) {u u' : Vm} {n : Nat}
    (hn : t.base ≤ n) (hle : n ≤ top) (hworld : u'.world = u.world)
    (hstack : u.stack = overwrite s.stack (n + t.gap) vs)
    (hstack' : u'.stack = overwrite s'.stack n vs)
    (htop : u.stackTop = n + t.gap + vs.length) (htop' : u'.stackTop = n + vs.length) :
    t.StackTied (max top (n + vs.length)) u u' := by
  refine hs.grow hn hworld (fun i hi => ?_) (fun i hi => ?_) hle (fun j hj => ?_) htop htop'
  · rw [hstack, overwrite_of_lt hi]
  · rw [hstack', overwrite_of_lt hi]
  · rw [hstack, hstack', overwrite, overwrite, if_pos (Nat.le_add_right ..),
      if_pos (Nat.le_add_right ..), Nat.add_sub_cancel_left, Nat.add_sub_cancel_left]
    by_cases hlt : j < vs.length
    · rw [List.getElem?_eq_getElem hlt, Option.getD_some, Option.getD_some]
    · rw [List.getElem?_eq_none (by omega), Option.getD_none, Option.getD_none,
        hs.above _ (by omega) (by omega)]
      congr 1
      omega

/-- The running frame of each run. -/
theorem Site.FramesTied.running (hf : t.FramesTied top s s') (hlt : t.level < s'.frameTop) :
    ∃ fr fr', s.frame = .ok fr ∧ s'.frame = .ok fr' ∧ t.FrameTied (s'.frameTop - 1) fr fr'
      ∧ fr'.stackTop ≤ top := by
  have htop := hf.frameTop
  refine ⟨s.frames (s.frameTop - 1), s'.frames (s'.frameTop - 1), frame_ok (by omega),
    frame_ok (by omega), ?_, hf.reach _ (by omega) (by omega)⟩
  have := hf.above (s'.frameTop - 1) (by omega) (by omega)
  rwa [show s'.frameTop - 1 + 1 = s.frameTop - 1 by omega] at this

theorem Site.FramesTied.push (hf : t.FramesTied top s s') {u u' : Vm} {fr fr' : Frame}
    {top' : Nat} (hfr : t.FrameTied s'.frameTop fr fr') (hle : top ≤ top')
    (hreach : fr'.stackTop ≤ top') (hframes : u.frames = Function.update s.frames s.frameTop fr)
    (htop : u.frameTop = s.frameTop + 1)
    (hframes' : u'.frames = Function.update s'.frames s'.frameTop fr')
    (htop' : u'.frameTop = s'.frameTop + 1) : t.FramesTied top' u u' where
  frameTop := by rw [htop, htop', hf.frameTop]
  level := by have := hf.level; omega
  above := by
    intro n hn hlt
    have htops := hf.frameTop
    rw [hframes, hframes', htops]
    by_cases heq : n = s'.frameTop
    · subst heq
      rw [Function.update_self, Function.update_self]
      exact hfr
    · rw [Function.update_of_ne (by omega), Function.update_of_ne heq]
      exact hf.above n hn (by omega)
  reach := by
    intro n hn hlt
    rw [hframes']
    by_cases heq : n = s'.frameTop
    · subst heq
      rwa [Function.update_self]
    · rw [Function.update_of_ne heq]
      exact Nat.le_trans (hf.reach n hn (by omega)) hle
  below := by
    intro n hn
    have := hf.level
    have htops := hf.frameTop
    rw [hframes, Function.update_of_ne (by omega)]
    exact hf.below n hn
  below' := by
    intro n hn
    have := hf.level
    rw [hframes', Function.update_of_ne (by omega)]
    exact hf.below' n hn

/-- Both runs go `n` frames down, or stay. -/
theorem Site.FramesTied.pop (hf : t.FramesTied top s s') {u u' : Vm} {n top' : Nat}
    (hlt : t.level + n ≤ s'.frameTop) (hle : top ≤ top') (hframes : u.frames = s.frames)
    (htop : u.frameTop = s.frameTop - n) (hframes' : u'.frames = s'.frames)
    (htop' : u'.frameTop = s'.frameTop - n) : t.FramesTied top' u u' where
  frameTop := by have := hf.frameTop; omega
  level := by omega
  above := by
    intro n hn hlt'
    rw [hframes, hframes']
    exact hf.above n hn (by omega)
  reach := by
    intro n hn hlt'
    rw [hframes']
    exact Nat.le_trans (hf.reach n hn (by omega)) hle
  below := by
    rw [hframes]
    exact hf.below
  below' := by
    rw [hframes']
    exact hf.below'

/-! ## What the callee's run keeps to -/

/-- The next instruction takes no value below `base`, captures from no frame
further down than its own, and has room. -/
structure Modest (base : Nat) (s : Vm) : Prop where
  takes : ∀ op a b, s.fetch = .ok (op, a, b) → base + (op.effect a).1 ≤ s.stackTop
  levels : ∀ a b prot, s.fetch = .ok (.lambda, a, b) → s.func.prot.prot[a]? = some prot →
    ∀ u ∈ prot.upvalues, u.lv.toNat ≤ 1
  room : Roomy s
  calls : s.frameTop ≤ maxCalls
  moves : ∀ a b frame, s.fetch = .ok (.tcall, a, b) → s.frame = .ok frame →
    frame.stackTop + (a + 1) ≤ stackSize

/-- What the next instruction reads by position is on the stack, and what it
captures is its own frame's. -/
structure ReadsStack (s : Vm) : Prop where
  copy : ∀ a b frame, s.fetch = .ok (.copy, a, b) → s.frame = .ok frame →
    frame.stackTop + a < s.stackTop
  load : ∀ a b frame, s.fetch = .ok (.load, a, b) → s.frame = .ok frame →
    frame.stackTop + 1 + a < s.stackTop
  capture : ∀ a b frame prot, s.fetch = .ok (.lambda, a, b) → s.frame = .ok frame →
    s.func.prot.prot[a]? = some prot →
    ∀ u ∈ prot.upvalues, u.lv.toNat = 1 ∧ frame.stackTop + u.idx.toNat + 1 < s.stackTop

/-! ## Instructions within a frame -/

theorem captureAll_congr {c c' : Upvalue → Outcome Value} :
    ∀ {us : List Upvalue}, (∀ u ∈ us, c u = c' u) → captureAll c us = captureAll c' us
  | [], _ => rfl
  | u :: us, hu => by
      rw [captureAll, captureAll, hu u List.mem_cons_self,
        captureAll_congr fun v hv => hu v (List.mem_cons_of_mem u hv)]

/-- An instruction does the same where it reads the same. -/
theorem localOp_congr (h : Host) {view view' : View} (w : World) (func : FunctionObj) (pc : Nat)
    {op : Op} {a : Nat} (b : Int) (args : List Value)
    (hcopy : op = .copy → view.slot a = view'.slot a)
    (hload : op = .load → view.slot (a + 1) = view'.slot (a + 1))
    (hlambda : op = .lambda → ∀ prot, func.prot.prot[a]? = some prot →
      ∀ u ∈ prot.upvalues, view.capture u = view'.capture u) :
    localOp h view w func pc op a b args = localOp h view' w func pc op a b args := by
  cases op with
  | copy => simp only [localOp, hcopy rfl]
  | load => simp only [localOp, hload rfl]
  | lambda =>
      simp only [localOp]
      cases hprot : func.prot.prot[a]? with
      | none => rfl
      | some prot =>
          simp only [Outcome.ofOption_some, Outcome.ok_bind, lambda,
            captureAll_congr (hlambda rfl prot hprot)]
  | _ => rcases args with _ | ⟨x, _ | ⟨y, _ | ⟨z, args⟩⟩⟩ <;> rfl

theorem slot_ok {i : Nat} (hi : i < stackSize) : s.slot i = .ok (s.stack i) := by
  rw [slot, decide_eq_true hi]
  rfl

/-- A slot of the running frame that the stack holds reads the same. -/
theorem Site.StackTied.slot (hs : t.StackTied top s s') {i : Nat} (hi : t.base ≤ i)
    (hlt : i + t.gap < s.stackTop) (htop : s.stackTop ≤ stackSize) :
    s.slot (i + t.gap) = s'.slot i := by
  have := hs.stackTop
  have := hs.reach
  rw [slot_ok (by omega), slot_ok (by omega), hs.above i hi (by omega)]

theorem tied_local (h : Host) (ht : Tied t top s s') (hlt : t.level < s'.frameTop) {op : Op}
    {a : Nat} {b : Int} (hop : op.IsLocal) (hfetch : s.fetch = .ok (op, a, b))
    (hm : Modest (t.base + t.gap) s) (hr : ReadsStack s) :
    Outcome.Rel (TiedSome t) (s.exec h op a b) (s'.exec h op a b) := by
  obtain ⟨hfunc, hpc⟩ : s'.func = s.func ∧ s'.pc = s.pc := by
    rcases ht.resumes with ⟨heq, -⟩ | ⟨-, hfunc, hpc⟩
    · omega
    · exact ⟨hfunc, hpc⟩
  obtain ⟨fr, fr', hframe, hframe', hfr, -⟩ := ht.frames.running hlt
  have hbase := hfr.stackTop
  have hground := hfr.ground
  have htop := ht.stack.stackTop
  have hroom := hm.room.top
  have htakes := hm.takes op a b hfetch
  have hlevel := ht.frames.frameTop
  have hcalls := hm.calls
  have hfr1 : s.frames (s.frameTop - 1) = fr :=
    Outcome.ok.inj ((frame_ok (by omega)).symm.trans hframe)
  have hfr2 : s'.frames (s'.frameTop - 1) = fr' :=
    Outcome.ok.inj ((frame_ok (by omega)).symm.trans hframe')
  rw [exec_local h hop (by omega) (by omega) (hm.room.push op a b hfetch),
    exec_local h hop (by omega) (by omega) fun heffect => by
      have := hm.room.push op a b hfetch heffect
      omega]
  have hsame : localOp h s.view s.world s.func s.pc op a b (s.topValues (op.effect a).1)
      = localOp h s'.view s'.world s'.func s'.pc op a b (s'.topValues (op.effect a).1) := by
    rw [ht.stack.topValues (by omega), ht.stack.world, hfunc, hpc]
    refine localOp_congr h _ _ _ _ _ (fun hcopy => ?_) (fun hload => ?_)
      (fun hlambda prot hprot u hu => ?_)
    · subst hcopy
      have hin := hr.copy a b fr hfetch hframe
      have := ht.stack.slot (i := fr'.stackTop + a) (by omega) (by omega) hroom
      simp only [view, hfr1, hfr2, ← this, hbase]
      congr 1
      omega
    · subst hload
      have hin := hr.load a b fr hfetch hframe
      have := ht.stack.slot (i := fr'.stackTop + (a + 1)) (by omega) (by omega) hroom
      simp only [view, hfr1, hfr2, ← this, hbase]
      congr 1
      omega
    · subst hlambda
      obtain ⟨hlv, hin⟩ := hr.capture a b fr prot hfetch hframe hprot u hu
      have := ht.stack.slot (i := fr'.stackTop + u.idx.toNat + 1) (by omega) (by omega) hroom
      simp only [view, capture, hlv, hfr1, hfr2, hbase]
      rw [decide_eq_true (show 1 ≤ s.frameTop ∧ s.frameTop - 1 < maxCalls by omega),
        decide_eq_true (show 1 ≤ s'.frameTop ∧ s'.frameTop - 1 < maxCalls by omega),
        Outcome.require_true, Outcome.ok_bind, Outcome.ok_bind, ← this]
      congr 1
      omega
  rw [← hsame]
  refine Outcome.Rel.rfl.bind ?_
  rintro r _ rfl
  have hsub : s.stackTop - (op.effect a).1 = s'.stackTop - (op.effect a).1 + t.gap := by omega
  have hreach := ht.stack.reach
  have hstack : t.StackTied (max top (s'.stackTop - (op.effect a).1 + r.2.1.reverse.length))
      (s.replace (op.effect a).1 r) (s'.replace (op.effect a).1 r) :=
    ht.stack.write r.2.1.reverse (n := s'.stackTop - (op.effect a).1) (by omega) (by omega) rfl
      (congrArg (fun i => overwrite s.stack i _) hsub) rfl
      (by simp only [replace, List.length_reverse, hsub])
      (by simp only [replace, List.length_reverse])
  exact .ok ⟨_, hstack, ht.frames.pop (n := 0) (Nat.le_of_lt hlt) (Nat.le_max_left ..) rfl rfl rfl
    rfl, Or.inr ⟨hlt, hfunc, rfl⟩, fun heq => absurd heq (Nat.ne_of_gt hlt)⟩

/-! ## Calls and returns -/

/-- A call of anything but a closure: one value takes the place of the callee
and its arguments. -/
theorem tied_answer (hs : t.StackTied top s s') (hf : t.FramesTied top s s') {tmp ret ret' : Nat}
    (hres : t.Resumes s'.frameTop s.func ret s'.func ret') (htmp : t.base ≤ tmp)
    (hle : tmp < top) (hbottom : s'.frameTop = t.level → tmp = t.base) {u u' : Vm}
    (hworld : u'.world = u.world) (hlow : ∀ i < tmp + t.gap, u.stack i = s.stack i)
    (hlow' : ∀ i < tmp, u'.stack i = s'.stack i)
    (hnew : ∀ j, tmp + j < top → u'.stack (tmp + j) = u.stack (tmp + t.gap + j))
    (htop : u.stackTop = tmp + t.gap + 1) (htop' : u'.stackTop = tmp + 1)
    (hframes : u.frames = s.frames ∧ u.frameTop = s.frameTop ∧ u.func = s.func ∧ u.pc = ret)
    (hframes' : u'.frames = s'.frames ∧ u'.frameTop = s'.frameTop ∧ u'.func = s'.func
      ∧ u'.pc = ret') : TiedSome t u u' := by
  obtain ⟨hfr, hft, hfunc, hpc⟩ := hframes
  obtain ⟨hfr', hft', hfunc', hpc'⟩ := hframes'
  refine ⟨_, hs.grow htmp hworld hlow hlow' (by omega) (fun j hj => hnew j (by omega)) htop htop',
    hf.pop (n := 0) hf.level (Nat.le_max_left ..) hfr hft hfr' hft', ?_, fun heq => ?_⟩
  · rw [hft', hfunc, hpc, hfunc', hpc']
    exact hres
  · rw [htop', hbottom (hft' ▸ heq)]

theorem tied_callClosure (hs : t.StackTied top s s') (hf : t.FramesTied top s s')
    {tmp a ret ret' : Nat} {f : Value} (hres : t.Resumes s'.frameTop s.func ret s'.func ret')
    (htmp : t.base ≤ tmp) (hle : tmp + (a + 1) ≤ top)
    (hbottom : s'.frameTop = t.level → tmp = t.base) (hf1 : s.stack (tmp + t.gap) = f)
    (htype : f.type = .function) (hroom : CalleeRoom s (tmp + t.gap) a) :
    Outcome.Rel (TiedSome t) (s.callClosure (tmp + t.gap) a ret f)
      (s'.callClosure tmp a ret' f) := by
  subst hf1
  obtain ⟨hcalls, hfits⟩ := hroom htype
  have hlevel := hf.frameTop
  have hwindow := hs.window (i := tmp + 1) (n := a) (by omega) (by omega)
  unfold callClosure
  rw [decide_eq_true hcalls, decide_eq_true (show s'.frameTop < maxCalls by omega),
    Outcome.require_true, Outcome.ok_bind, Outcome.ok_bind, hs.world]
  cases hfn : functionAt s.world (s.stack (tmp + t.gap)) with
  | raise m => exact .raise m
  | fault => exact .fault
  | ok fn =>
      have hfits := hfits fn hfn
      rw [Outcome.ok_bind, Outcome.ok_bind, ← hwindow,
        show tmp + t.gap + 1 = tmp + 1 + t.gap by omega]
      cases henter : enterArgs s.world fn (s.window (tmp + 1 + t.gap) a) with
      | raise m => exact .raise m
      | fault => exact .fault
      | ok r =>
          obtain ⟨w, args⟩ := r
          have hargs := enterArgs_length henter
          rw [length_window] at hargs
          rw [← hargs] at hfits
          have hpush : 0 ≤ fn.narg ∨ tmp + 1 + t.gap < stackSize := by
            by_cases hneg : fn.narg < 0
            · rw [hargs, if_pos hneg] at hfits
              exact Or.inr (by omega)
            · exact Or.inl (by omega)
          rw [Outcome.ok_bind, Outcome.ok_bind]
          dsimp only
          rw [decide_eq_true hpush, decide_eq_true (hpush.imp_right (by omega)),
            decide_eq_true (show tmp + 1 + t.gap + args.length + fn.upvalues.length ≤ stackSize by
              omega),
            decide_eq_true (show tmp + 1 + args.length + fn.upvalues.length ≤ stackSize by omega)]
          refine .ok ⟨_, hs.write (args ++ fn.upvalues) (n := tmp + 1) (by omega) (by omega)
            rfl rfl rfl ?_ ?_, hf.push ⟨hres, rfl, htmp, ?_, hbottom⟩ (Nat.le_max_left ..) ?_ rfl
              rfl rfl rfl, Or.inr ⟨Nat.lt_succ_of_le hf.level, rfl, rfl⟩, fun heq => ?_⟩
          · rw [List.length_append]
            exact Nat.add_assoc ..
          · rw [List.length_append]
            exact Nat.add_assoc ..
          · dsimp only
            omega
          · dsimp only
            omega
          · exact absurd heq (Nat.ne_of_gt (Nat.lt_succ_of_le hf.level))

/-- A call in both runs, of the same callee on the same arguments. -/
theorem tied_call (h : Host) (hs : t.StackTied top s s') (hf : t.FramesTied top s s')
    {a ret ret' : Nat} (hres : t.Resumes s'.frameTop s.func ret s'.func ret')
    (ha : t.base + (a + 1) ≤ s'.stackTop)
    (hbottom : s'.frameTop = t.level → s'.stackTop = t.base + (a + 1))
    (hroom : CalleeRoom s (s.stackTop - (a + 1)) a) :
    Outcome.Rel (TiedSome t) (call h s a ret) (call h s' a ret') := by
  have htop := hs.stackTop
  have hreach := hs.reach
  have htmp : s.stackTop - (a + 1) = s'.stackTop - (a + 1) + t.gap := by omega
  rw [htmp] at hroom
  rw [call, call, decide_eq_true (show a + 1 ≤ s.stackTop by omega),
    decide_eq_true (show a + 1 ≤ s'.stackTop by omega), Outcome.require_true, Outcome.ok_bind,
    Outcome.ok_bind, htmp]
  have hbase : t.base ≤ s'.stackTop - (a + 1) := by omega
  have hlast : s'.stackTop - (a + 1) + (a + 1) ≤ top := by omega
  have hbottom : s'.frameTop = t.level → s'.stackTop - (a + 1) = t.base := fun heq => by
    have := hbottom heq
    omega
  generalize s'.stackTop - (a + 1) = tmp at hbase hlast hbottom hroom
  have hslot : s'.stack tmp = s.stack (tmp + t.gap) := hs.above tmp hbase (by omega)
  have hargs : s'.window (tmp + 1) a = s.window (tmp + t.gap + 1) a := by
    rw [← hs.window (by omega) (by omega)]
    congr 1
    omega
  have hdata : ∀ x : Outcome Value, Outcome.Rel (TiedSome t)
      (do pure (s.callData (tmp + t.gap) ret (← x))) (do pure (s'.callData tmp ret' (← x))) := by
    intro x
    refine Outcome.Rel.rfl.bind ?_
    rintro v _ rfl
    refine .ok (tied_answer hs hf hres hbase (by omega) hbottom hs.world
      (fun i hi => Function.update_of_ne (Nat.ne_of_lt hi) ..)
      (fun i hi => Function.update_of_ne (Nat.ne_of_lt hi) ..) (fun j hj => ?_) rfl rfl
      ⟨rfl, rfl, rfl, rfl⟩ ⟨rfl, rfl, rfl, rfl⟩)
    simp only [callData]
    cases j with
    | zero => rw [Nat.add_zero, Nat.add_zero, Function.update_self, Function.update_self]
    | succ j =>
        rw [Function.update_of_ne (by omega), Function.update_of_ne (by omega),
          hs.above _ (by omega) hj]
        congr 1
        omega
  dsimp only
  rw [hslot, hs.world, hargs]
  cases htype : (s.stack (tmp + t.gap)).type with
  | function => exact tied_callClosure hs hf hres hbase hlast hbottom rfl htype hroom
  | nativefunc =>
      rw [callNative, callNative, hs.world, hs.window hbase hlast]
      refine Outcome.Rel.rfl.bind ?_
      rintro r _ rfl
      refine .ok (tied_answer hs hf hres hbase (by omega) hbottom rfl (fun i hi => if_pos hi)
        (fun i hi => if_pos hi) (fun j _ => ?_) rfl rfl ⟨rfl, rfl, rfl, rfl⟩
        ⟨rfl, rfl, rfl, rfl⟩)
      have hlt : ∀ x : Nat, ¬ x + j < x := by omega
      have heq : ∀ x : Nat, x + j = x ↔ j = 0 := by omega
      simp only [hlt, heq, if_false, Nat.add_sub_cancel_left]
  | vector => exact hdata _
  | map => exact hdata _
  | _ =>
      refine Outcome.Rel.rfl.bind ?_
      rintro name _ rfl
      exact .raise _

theorem tied_ret (ht : Tied t top s s') (hlt : t.level < s'.frameTop)
    (htakes : t.base + t.gap + 1 ≤ s.stackTop) : Outcome.Rel (TiedSome t) s.ret s'.ret := by
  obtain ⟨fr, fr', hframe, hframe', hfr, hle⟩ := ht.frames.running hlt
  have hroom := hfr.room
  have hbase := hfr.stackTop
  have htop := ht.stack.stackTop
  have hreach := ht.stack.reach
  have hv : s'.stack (s'.stackTop - 1) = s.stack (s.stackTop - 1) := by
    rw [ht.stack.above _ (by omega) (by omega)]
    congr 1
    omega
  rw [ret, ret, hframe, hframe', stk_ok (by omega), stk_ok (by omega), hv]
  simp only [Outcome.ok_bind]
  rw [decide_eq_true hroom, decide_eq_true (show fr'.stackTop < stackSize by omega)]
  have hlevel : s'.frameTop - 1 + 1 = s'.frameTop := by omega
  refine .ok ⟨_, ht.stack.write [s.stack (s.stackTop - 1)] (n := fr'.stackTop) hfr.ground
    hle ht.stack.world ?_ (overwrite_singleton ..).symm ?_ rfl, ht.frames.pop (n := 1) (by omega)
    (Nat.le_max_left ..) rfl rfl rfl rfl, hfr.resumes, fun heq => ?_⟩
  · rw [← hbase, overwrite_singleton]
  · dsimp only
    rw [hbase]
    rfl
  · exact congrArg (· + 1) (hfr.bottom heq)

/-- A tail call within the run of the callee, or by the callee itself. -/
theorem tied_tcall (h : Host) (ht : Tied t top s s') (hlt : t.level < s'.frameTop) {a : Nat}
    (htakes : t.base + t.gap + (a + 1) ≤ s.stackTop)
    (hmoves : ∀ frame, s.frame = .ok frame → frame.stackTop + (a + 1) ≤ stackSize)
    (hroom : ∀ frame, s.frame = .ok frame →
      CalleeRoom (s.dropFrame frame a) frame.stackTop a) :
    Outcome.Rel (TiedSome t) (tcall h s a) (tcall h s' a) := by
  obtain ⟨fr, fr', hframe, hframe', hfr, hle⟩ := ht.frames.running hlt
  have hbase := hfr.stackTop
  have htop := ht.stack.stackTop
  have hreach := ht.stack.reach
  have hmoves := hmoves fr hframe
  rw [tcall, tcall, hframe, hframe', Outcome.ok_bind, Outcome.ok_bind,
    decide_eq_true (show a + 1 ≤ s.stackTop ∧ fr.stackTop + (a + 1) ≤ stackSize by omega),
    decide_eq_true (show a + 1 ≤ s'.stackTop ∧ fr'.stackTop + (a + 1) ≤ stackSize by omega),
    Outcome.require_true, Outcome.ok_bind, Outcome.ok_bind]
  have hmoved : s'.window (s'.stackTop - (a + 1)) (a + 1)
      = s.window (s.stackTop - (a + 1)) (a + 1) := by
    rw [← ht.stack.window (by omega) (by omega)]
    congr 1
    omega
  have hlen : (s.window (s.stackTop - (a + 1)) (a + 1)).length = a + 1 := length_window ..
  have hstack : t.StackTied
      (max top (fr'.stackTop + (s.window (s.stackTop - (a + 1)) (a + 1)).length)) (s.dropFrame fr a)
      (s'.dropFrame fr' a) :=
    ht.stack.write (s.window (s.stackTop - (a + 1)) (a + 1)) (n := fr'.stackTop) hfr.ground hle
      ht.stack.world (by rw [dropFrame, hbase]) (by rw [dropFrame, hmoved])
      (by rw [dropFrame, hlen, hbase]) (by rw [dropFrame, hlen])
  have hframes : t.FramesTied
      (max top (fr'.stackTop + (s.window (s.stackTop - (a + 1)) (a + 1)).length)) (s.dropFrame fr a)
      (s'.dropFrame fr' a) :=
    ht.frames.pop (n := 1) (by omega) (Nat.le_max_left ..) rfl rfl rfl rfl
  have htop' : (s.dropFrame fr a).stackTop - (a + 1) = fr.stackTop := Nat.add_sub_cancel ..
  refine tied_call h hstack hframes hfr.resumes ?_ (fun heq => ?_) (htop'.symm ▸ hroom fr hframe)
  · have := hfr.ground
    change _ ≤ fr'.stackTop + (a + 1)
    omega
  · exact congrArg (· + (a + 1)) (hfr.bottom heq)

/-- **One turn of the loop** in both runs. -/
theorem tied_step (h : Host) (ht : Tied t top s s') (hlt : t.level < s'.frameTop)
    (hm : Modest (t.base + t.gap) s) (hr : ReadsStack s) :
    Outcome.Rel (TiedSome t) (step h s) (step h s') := by
  obtain ⟨hfunc, hpc⟩ : s'.func = s.func ∧ s'.pc = s.pc := by
    rcases ht.resumes with ⟨heq, -⟩ | ⟨-, hfunc, hpc⟩
    · omega
    · exact ⟨hfunc, hpc⟩
  have hsame : s'.fetch = s.fetch := by rw [fetch, fetch, hfunc, hpc]
  rw [step, step, hsame]
  cases hfetch : s.fetch with
  | raise m => exact .raise m
  | fault => exact .fault
  | ok inst =>
      obtain ⟨op, a, b⟩ := inst
      change Outcome.Rel (TiedSome t) (s.exec h op a b) (s'.exec h op a b)
      have htakes := hm.takes op a b hfetch
      have htop := ht.stack.stackTop
      cases op with
      | «return» => exact tied_ret ht hlt htakes
      | tcall =>
          exact tied_tcall h ht hlt htakes (fun frame hf => hm.moves a b frame hfetch hf)
            fun frame hf => hm.room.tcall a b frame hfetch hf
      | call =>
          have htakes : t.base + t.gap + (a + 1) ≤ s.stackTop := htakes
          refine tied_call h ht.stack ht.frames (Or.inr ⟨hlt, hfunc, by rw [hpc]⟩) (by omega)
            (fun heq => absurd heq (Nat.ne_of_gt hlt)) (hm.room.call a b hfetch)
      | _ => exact tied_local h ht hlt (by simp [Op.IsLocal]) hfetch hm hr

/-! ## The call and what comes of it -/

/-- `s` is about to execute `OP_TCALL a` in `frame`; `s1` is the same state
with a function that has `OP_CALL a` and `OP_RETURN` there. -/
structure TailCall (s s1 : Vm) (a : Nat) (frame : Frame) : Prop where
  tcall : ∃ b, s.fetch = .ok (.tcall, a, b)
  call : ∃ b, s1.fetch = .ok (.call, a, b)
  «return» : ∃ x b, s1.next.fetch = .ok (.return, x, b)
  same : s1 = { s with func := s1.func, pc := s1.pc }
  frame : s.frame = .ok frame

/-- The loop up to where the frame `s` runs in is gone. -/
def FrameRun (h : Host) (s : Vm) (o : Outcome Vm) : Prop :=
  (callLoop h (s.frameTop - 1)).RunsFrom (step h s) o

/-- `frame`, which `s` ran in, has returned `v` in the world `w`. -/
structure Returned (s : Vm) (frame : Frame) (w : World) (v : Value) (u : Vm) : Prop where
  world : u.world = w
  stackTop : u.stackTop = frame.stackTop + 1
  value : u.stack frame.stackTop = v
  below : ∀ i < frame.stackTop, u.stack i = s.stack i
  frameTop : u.frameTop = s.frameTop - 1
  frames : ∀ j < s.frameTop - 1, u.frames j = s.frames j
  func : u.func = frame.func
  pc : u.pc = frame.retAddr

/-- `P` holds in every state in which the callee of the `OP_CALL` at `s->pc`,
or what it calls, is about to execute an instruction. -/
def CalleeKeeps (h : Host) (s : Vm) (P : Vm → Prop) : Prop :=
  ∀ s0 x, step h s = .ok s0 → (callLoop h s.frameTop).Steps s0 x →
    ¬ (callLoop h s.frameTop).halted x → P x

/-- The tail call as the two runs are compared at it. -/
def siteOf (s s1 : Vm) (a : Nat) (frame : Frame) : Site where
  level := s.frameTop - 1
  base := frame.stackTop
  gap := s.stackTop - (a + 1) - frame.stackTop
  caller := frame.func
  retAddr := frame.retAddr
  func := s1.func
  pc := s1.pc + 1
  stack := s.stack
  frames := s.frames

section Compare

variable {h : Host} {s1 x y : Vm} {a : Nat} {frame : Frame}

/-- Both calls are made. -/
theorem tied_first (hs : TailCall s s1 a frame) (hm : Modest frame.stackTop s1) :
    Outcome.Rel (TiedSome (siteOf s s1 a frame)) (step h s1) (step h s) := by
  obtain ⟨b, htcall⟩ := hs.tcall
  obtain ⟨b1, hcall⟩ := hs.call
  have hframe := hs.frame
  have hpos : 0 < s.frameTop := by
    obtain ⟨_, hpos, -⟩ := Outcome.bind_eq_ok.mp hframe
    exact of_decide_eq_true (Outcome.require_eq_ok.mp hpos)
  have htakes : frame.stackTop + (a + 1) ≤ s1.stackTop := hm.takes _ _ _ hcall
  have hroom := hm.room.top
  have hcallee := hm.room.call a b1 hcall
  have htop : s1.stackTop = s.stackTop := by rw [hs.same]
  have hlevel : s1.frameTop = s.frameTop := by rw [hs.same]
  have hframes : s1.frames = s.frames := by rw [hs.same]
  have hstack : s1.stack = s.stack := by rw [hs.same]
  have hworld : s1.world = s.world := by rw [hs.same]
  rw [step, hcall, step, htcall]
  change Outcome.Rel _ (Vm.call h s1 a (s1.pc + 1)) (Vm.tcall h s a)
  rw [Vm.tcall, hframe, Outcome.ok_bind, decide_eq_true
    (show a + 1 ≤ s.stackTop ∧ frame.stackTop + (a + 1) ≤ stackSize by omega), Outcome.require_true,
    Outcome.ok_bind]
  refine @tied_call _ _ _ (frame.stackTop + (a + 1)) h ?_ ?_ _ _ _
    (Or.inl ⟨rfl, rfl, rfl, rfl, rfl⟩) (Nat.le_refl _) (fun _ => rfl) hcallee
  · refine ⟨hworld.symm, ?_, Nat.le_add_right .., Nat.le_refl _, fun i hi hlt => ?_, fun i _ => ?_,
      fun i hi => overwrite_of_lt hi⟩
    · simp only [dropFrame, siteOf]
      omega
    · simp only [dropFrame, siteOf] at hi hlt ⊢
      have hslot := getElem?_slice (f := s.stack) (i := s.stackTop - (a + 1))
        (show i - frame.stackTop < a + 1 by omega)
      rw [overwrite, if_pos hi, window, hslot, Option.getD_some, hstack]
      congr 1
      omega
    · exact congrFun hstack i
  · refine ⟨?_, Nat.le_refl _, fun n hn hlt => absurd hlt (Nat.not_lt.mpr hn),
      fun n hn hlt => absurd hlt (Nat.not_lt.mpr hn), fun n _ => congrFun hframes n,
      fun n _ => rfl⟩
    simp only [dropFrame]
    omega

/-- The loops stop together: where the callee is back, or where one falls off
the end of its code. -/
theorem tied_halted (hpos : 0 < s.frameTop) (ht : TiedSome (siteOf s s1 a frame) x y) :
    (callLoop h s.frameTop).halted x ↔ (callLoop h (s.frameTop - 1)).halted y := by
  obtain ⟨top, ht⟩ := ht
  have hlevel := ht.frames.frameTop
  have hsite : (siteOf s s1 a frame).level = s.frameTop - 1 := rfl
  change x.Halted ∨ x.frameTop ≤ s.frameTop ↔ y.Halted ∨ y.frameTop ≤ s.frameTop - 1
  rcases ht.resumes with ⟨heq, -⟩ | ⟨hlt, hfunc, hpc⟩
  · exact ⟨fun _ => Or.inr (by omega), fun _ => Or.inr (by omega)⟩
  · rw [Halted, Halted, hfunc, hpc]
    exact or_congr_right (by omega)

/-- The callee is back: `OP_RETURN` gives on what it returned. -/
theorem tied_back (hs : TailCall s s1 a frame) (hm : Modest frame.stackTop s1)
    (ht : TiedSome (siteOf s s1 a frame) x y) (hy : y.frameTop = s.frameTop - 1) :
    Returned s frame y.world (y.stack frame.stackTop) y
      ∧ ¬ (callLoop h (s.frameTop - 1)).halted x
      ∧ ∃ u, step h x = .ok u ∧ Returned s frame y.world (y.stack frame.stackTop) u := by
  obtain ⟨top, ht⟩ := ht
  obtain ⟨b1, hcall⟩ := hs.call
  obtain ⟨c, b, hreturn⟩ := hs.return
  have hframe := hs.frame
  obtain ⟨_, hpos, hlast⟩ := Outcome.bind_eq_ok.mp hframe
  have hpos : 0 < s.frameTop := of_decide_eq_true (Outcome.require_eq_ok.mp hpos)
  have hlast : s.frames (s.frameTop - 1) = frame := Outcome.ok.inj hlast
  have htakes : frame.stackTop + (a + 1) ≤ s1.stackTop := hm.takes _ _ _ hcall
  have hroom := hm.room.top
  obtain ⟨hfunc, hpc, hfunc', hpc'⟩ : x.func = s1.func ∧ x.pc = s1.pc + 1 ∧ y.func = frame.func
      ∧ y.pc = frame.retAddr := by
    rcases ht.resumes with ⟨-, hres⟩ | ⟨hlt, -⟩
    · exact hres
    · exact absurd hy (Nat.ne_of_gt hlt)
  have hytop : y.stackTop = frame.stackTop + 1 := ht.done hy
  have hxtop := ht.stack.stackTop
  have hreach := ht.stack.reach
  have hlevel := ht.frames.frameTop
  have hxframe : x.frame = .ok frame := by
    have hbelow : x.frames (s.frameTop - 1) = s.frames (s.frameTop - 1) :=
      ht.frames.below _ (Nat.le_refl _)
    rw [frame_ok (by omega), show x.frameTop - 1 = s.frameTop - 1 by omega, hbelow, hlast]
  have hv : x.stack (x.stackTop - 1) = y.stack frame.stackTop := by
    have habove := ht.stack.above frame.stackTop (Nat.le_refl _) (by omega)
    rw [habove]
    congr 1
    omega
  have hxfetch : x.fetch = .ok (.return, c, b) := by
    rw [← hreturn, fetch, fetch, hfunc, hpc]
    rfl
  refine ⟨⟨rfl, hytop, rfl, ht.stack.below', hy, ht.frames.below', hfunc', hpc'⟩, ?_,
    { x with
      stack := Function.update x.stack frame.stackTop (y.stack frame.stackTop)
      stackTop := frame.stackTop + 1
      frameTop := x.frameTop - 1
      func := frame.func
      pc := frame.retAddr }, ?_, ⟨ht.stack.world.symm, rfl, Function.update_self .., ?_, ?_, ?_,
      rfl, rfl⟩⟩
  · rintro (hhalted | hle)
    · obtain ⟨inst, hinst, -⟩ := Outcome.bind_eq_ok.mp hxfetch
      have := (List.getElem?_eq_some_iff.mp (Outcome.ofOption_eq_ok.mp hinst)).1
      exact absurd hhalted (Nat.not_le.mpr this)
    · omega
  · rw [step, hxfetch]
    change x.ret = _
    rw [ret, hxframe, stk_ok (by omega), hv]
    simp only [Outcome.ok_bind]
    rw [decide_eq_true (show frame.stackTop < stackSize by omega)]
    rfl
  · intro i hi
    exact (Function.update_of_ne (Nat.ne_of_lt hi) ..).trans (ht.stack.below i hi)
  · dsimp only
    omega
  · intro j hj
    exact ht.frames.below j (Nat.le_of_lt hj)

/-- The two runs until the callee is back, in lockstep. -/
theorem tied_runs (hs : TailCall s s1 a frame) (hm : Modest frame.stackTop s1)
    (hcallee : CalleeKeeps h s1 fun x => Modest (s1.stackTop - (a + 1)) x ∧ ReadsStack x) :
    (∀ o, (callLoop h s.frameTop).RunsFrom (step h s1) o →
      ∃ o', FrameRun h s o' ∧ Outcome.Rel (TiedSome (siteOf s s1 a frame)) o o')
    ∧ ∀ o', FrameRun h s o' → ∃ o, (callLoop h s.frameTop).RunsFrom (step h s1) o
      ∧ Outcome.Rel (TiedSome (siteOf s s1 a frame)) o o' := by
  have hpos : 0 < s.frameTop := by
    obtain ⟨_, hpos, -⟩ := Outcome.bind_eq_ok.mp hs.frame
    exact of_decide_eq_true (Outcome.require_eq_ok.mp hpos)
  obtain ⟨b1, hcall⟩ := hs.call
  have htakes : frame.stackTop + (a + 1) ≤ s1.stackTop := hm.takes _ _ _ hcall
  have htop : s1.stackTop = s.stackTop := by rw [hs.same]
  have hlevel : s1.frameTop = s.frameTop := by rw [hs.same]
  -- tied, and reached by the first run
  let R (x y : Vm) : Prop := TiedSome (siteOf s s1 a frame) x y
    ∧ ∃ s0, step h s1 = .ok s0 ∧ (callLoop h s.frameTop).Steps s0 x
  have hentry : Outcome.Rel R (step h s1) (step h s) := by
    exact (tied_first hs hm).imp fun x y hx _ ht => ⟨ht, x, hx, .refl⟩
  have hhalt : ∀ x y, R x y →
      ((callLoop h s.frameTop).halted x ↔ (callLoop h (s.frameTop - 1)).halted y) :=
    fun x y hR => tied_halted hpos hR.1
  have hturn : ∀ x y, R x y → ¬ (callLoop h s.frameTop).halted x →
      Outcome.Rel R (step h x) (step h y) := by
    rintro x y ⟨⟨top, ht⟩, s0, hs0, hsteps⟩ hno
    obtain ⟨hmodest, hreads⟩ := hcallee s0 x hs0 (hlevel ▸ hsteps) (hlevel ▸ hno)
    have hlt : (siteOf s s1 a frame).level < y.frameTop := by
      have hge := ht.frames.level
      refine Nat.lt_of_le_of_ne hge fun heq => hno (Or.inr ?_)
      have := ht.frames.frameTop
      have hsite : (siteOf s s1 a frame).level = s.frameTop - 1 := rfl
      omega
    have hbase : (siteOf s s1 a frame).base + (siteOf s s1 a frame).gap
        = s1.stackTop - (a + 1) := by
      simp only [siteOf]
      omega
    exact (tied_step h ht hlt (hbase ▸ hmodest) hreads).imp fun x' y' hx _ ht' =>
      ⟨ht', s0, hs0, hsteps.tail ⟨hno, hx⟩⟩
  have hweak : ∀ {o o' : Outcome Vm}, Outcome.Rel R o o' →
      Outcome.Rel (TiedSome (siteOf s s1 a frame)) o o' :=
    fun hrel => hrel.imp fun _ _ _ _ hR => hR.1
  constructor
  · intro o ho
    obtain ⟨o', ho', hrel⟩ := Machine.lockstep_from (n := callLoop h (s.frameTop - 1)) hhalt hturn
      hentry ho
    exact ⟨o', ho', hweak hrel⟩
  · intro o' ho'
    obtain ⟨o, ho, hrel⟩ := Machine.lockstep_from (m := callLoop h (s.frameTop - 1))
      (n := callLoop h s.frameTop) (R := fun y x => R x y) (fun y x hR => (hhalt x y hR).symm)
      (fun y x hR hno => (hturn x y hR fun hh => hno ((hhalt x y hR).mp hh)).symm)
      hentry.symm ho'
    exact ⟨o, ho, hweak hrel.symm⟩

/-- A run of `OP_CALL` and `OP_RETURN` returns what the run of `OP_TCALL` does. -/
theorem returned_iff (hs : TailCall s s1 a frame) (hm : Modest frame.stackTop s1)
    (hcallee : CalleeKeeps h s1 fun x => Modest (s1.stackTop - (a + 1)) x ∧ ReadsStack x)
    (w : World) (v : Value) :
    (∃ u, FrameRun h s1 (.ok u) ∧ Returned s frame w v u)
      ↔ ∃ u, FrameRun h s (.ok u) ∧ Returned s frame w v u := by
  obtain ⟨hforth, hback⟩ := tied_runs hs hm hcallee
  have hpos : 0 < s.frameTop := by
    obtain ⟨_, hpos, -⟩ := Outcome.bind_eq_ok.mp hs.frame
    exact of_decide_eq_true (Outcome.require_eq_ok.mp hpos)
  have hlevel : s1.frameTop = s.frameTop := by rw [hs.same]
  have hsooner : ∀ x, (callLoop h (s1.frameTop - 1)).halted x → (callLoop h s.frameTop).halted x :=
    fun x hh => hh.imp_right fun hle => by omega
  constructor
  · rintro ⟨u, hrun, hu⟩
    obtain ⟨o, ho, hrest⟩ := Machine.RunsFrom.split (m := callLoop h (s1.frameTop - 1))
      (n := callLoop h s.frameTop) rfl hsooner hrun
    obtain ⟨o', ho', hrel⟩ := hforth o ho
    cases hrel with
    | raise m => cases hrest
    | fault => cases hrest
    | @ok x y ht =>
        by_cases hy : y.frameTop = s.frameTop - 1
        · obtain ⟨hyret, hno, u', hstep, hu'⟩ := tied_back (h := h) hs hm ht hy
          have hend : (callLoop h (s1.frameTop - 1)).Runs x (.ok u') :=
            .step ⟨hlevel ▸ hno, hstep⟩
              (.halt (Or.inr (Nat.le_of_eq (by rw [hu'.frameTop, hlevel]))))
          obtain rfl := Outcome.ok.inj (Machine.Runs.unique hrest hend)
          refine ⟨y, ho', ?_⟩
          rwa [← hu.world, hu'.world, ← hu.value, hu'.value]
        · -- the callee fell off the end of its code, and the loop is over
          have hxlt : s.frameTop < x.frameTop := by
            obtain ⟨top, ht⟩ := ht
            have h1 := ht.frames.level
            have h2 := ht.frames.frameTop
            have hsite : (siteOf s s1 a frame).level = s.frameTop - 1 := rfl
            omega
          have hx : x.Halted := ho.halted.resolve_right (by omega)
          obtain rfl := Outcome.ok.inj (Machine.Runs.unique hrest (.halt (Or.inl hx)))
          have := hu.frameTop
          omega
  · rintro ⟨y, hrun, hy⟩
    obtain ⟨o, ho, hrel⟩ := hback _ hrun
    cases hrel with
    | @ok x _ ht =>
        obtain ⟨hyret, hno, u, hstep, hu⟩ := tied_back (h := h) hs hm ht hy.frameTop
        have hend : (callLoop h (s1.frameTop - 1)).Runs x (.ok u) :=
          .step ⟨hlevel ▸ hno, hstep⟩ (.halt (Or.inr (Nat.le_of_eq (by rw [hu.frameTop, hlevel]))))
        refine ⟨u, Machine.RunsFrom.append (m := callLoop h (s1.frameTop - 1))
          (n := callLoop h s.frameTop) rfl hsooner ho hend, ?_⟩
        rwa [hy.world, hy.value] at hu

end Compare

/-! ## How many frames tail calls take -/

/-- What a function does in its frame: an instruction of its own, a call that
is back, or a tail call of a closure, which goes on in its place. -/
inductive FrameStep (h : Host) (s : Vm) : Vm → Prop where
  | own {op : Op} {a : Nat} {b : Int} {s' : Vm} : s.fetch = .ok (op, a, b) → op.IsLocal →
      step h s = .ok s' → FrameStep h s s'
  | call {a : Nat} {b : Int} {s' : Vm} : s.fetch = .ok (.call, a, b) → OpCall h s (.ok s') →
      s'.frameTop ≤ s.frameTop → FrameStep h s s'
  | tcall {a : Nat} {b : Int} {s' : Vm} : s.fetch = .ok (.tcall, a, b) →
      (s.stack (s.stackTop - (a + 1))).type = .function → step h s = .ok s' → FrameStep h s s'

section Frames

variable {h : Host} {a : Nat} {b : Int}

open Outcome in
theorem local_frameTop {op : Op} (hop : op.IsLocal) :
    Ensures (s.exec h op a b) fun s' => s'.frameTop = s.frameTop := by
  have hbinary : ∀ f, Ensures (s.binary f) fun s' => s'.frameTop = s.frameTop :=
    fun f => .bind fun _ _ => .bind fun _ _ => .bind fun _ _ => ensures_ok rfl
  have hunary : ∀ f, Ensures (s.unary f) fun s' => s'.frameTop = s.frameTop :=
    fun f => .bind fun _ _ => .bind fun _ _ => ensures_ok rfl
  obtain ⟨hcall, htcall, hret⟩ := hop
  cases op with
  | call => exact absurd rfl hcall
  | tcall => exact absurd rfl htcall
  | «return» => exact absurd rfl hret
  | push => exact .map (pushFrom_frameTop s _)
  | load => exact .map (.bind fun _ _ => pushFrom_frameTop s _)
  | copy => exact .map (.bind fun _ _ => .bind fun _ _ => pushFrom_frameTop s _)
  | getglobal => exact .bind fun _ _ => .map (pushFrom_frameTop s _)
  | lambda =>
      exact .map (.bind fun _ _ => .bind fun x _ => pushFrom_frameTop { s with world := x.1 } _)
  | pop => exact .map (.bind fun _ _ => ensures_ok rfl)
  | setglobal => exact .bind fun _ _ => ensures_ok rfl
  | jmp => exact ensures_ok rfl
  | test =>
      refine .bind fun _ _ => .bind fun s1 h1 => ensures_ok ?_
      obtain ⟨_, _, h1⟩ := bind_eq_ok.mp h1
      cases h1
      split <;> rfl
  | add | sub | mul | div | mod | pow | eq | less | lequal | and | or => exact .map (hbinary _)
  | unm | not => exact .map (hunary _)

theorem call_function_frameTop {ret : Nat} {u : Vm}
    (htype : (s.stack (s.stackTop - (a + 1))).type = .function)
    (hcall : Vm.call h s a ret = .ok u) : u.frameTop = s.frameTop + 1 := by
  obtain ⟨_, -, hcall⟩ := Outcome.bind_eq_ok.mp hcall
  dsimp only at hcall
  rw [htype] at hcall
  obtain ⟨_, -, hcall⟩ := Outcome.bind_eq_ok.mp hcall
  obtain ⟨_, -, hcall⟩ := Outcome.bind_eq_ok.mp hcall
  obtain ⟨_, -, hcall⟩ := Outcome.bind_eq_ok.mp hcall
  obtain ⟨_, -, hcall⟩ := Outcome.bind_eq_ok.mp hcall
  obtain ⟨_, -, hcall⟩ := Outcome.bind_eq_ok.mp hcall
  obtain rfl := Outcome.ok.inj hcall
  rfl

/-- A closure entered by a tail call has the frame of the one it replaces. -/
theorem tcall_frameTop {u : Vm} (hfetch : s.fetch = .ok (.tcall, a, b))
    (htype : (s.stack (s.stackTop - (a + 1))).type = .function) (hstep : step h s = .ok u) :
    u.frameTop = s.frameTop := by
  rw [step, hfetch] at hstep
  change Vm.tcall h s a = .ok u at hstep
  obtain ⟨frame, hframe, hstep⟩ := Outcome.bind_eq_ok.mp hstep
  obtain ⟨_, hpos, -⟩ := Outcome.bind_eq_ok.mp hframe
  have hpos : 0 < s.frameTop := of_decide_eq_true (Outcome.require_eq_ok.mp hpos)
  obtain ⟨_, -, hcall⟩ := Outcome.bind_eq_ok.mp hstep
  have hmoved : (s.dropFrame frame a).stack ((s.dropFrame frame a).stackTop - (a + 1))
      = s.stack (s.stackTop - (a + 1)) := by
    have hslot : s.window (s.stackTop - (a + 1)) (a + 1)
        = s.stack (s.stackTop - (a + 1)) :: slice s.stack (s.stackTop - (a + 1) + 1) a :=
      slice_succ ..
    rw [show (s.dropFrame frame a).stackTop - (a + 1) = frame.stackTop from
      Nat.add_sub_cancel .., dropFrame, hslot]
    simp [overwrite]
  have := call_function_frameTop (hmoved ▸ htype) hcall
  rw [this]
  exact Nat.sub_add_cancel hpos

/-- A call that is back has popped no frame but its own. -/
theorem callLoop_frameTop {k : Nat} {s : Vm} {o : Outcome Vm} (hrun : (callLoop h k).Runs s o) :
    k ≤ s.frameTop → ∀ u, o = .ok u → k ≤ u.frameTop := by
  induction hrun with
  | halt =>
      rintro hk u hu
      cases hu
      exact hk
  | @step s s' o hn _ ih =>
      intro hk u hu
      refine ih ?_ u hu
      have hlt : k < s.frameTop := by
        by_contra hle
        exact hn.1 (Or.inr (by omega))
      have hstep : step h s = .ok s' := hn.2
      obtain ⟨inst, -, hexec⟩ := Outcome.bind_eq_ok.mp hstep
      have := exec_frameTop h s _ _ _ s' hexec
      split at this <;> omega
  | raise =>
      intro _ u hu
      cases hu
  | fault =>
      intro _ u hu
      cases hu

theorem frameStep_frameTop {u : Vm} (hstep : FrameStep h s u) : u.frameTop = s.frameTop := by
  cases hstep with
  | @own op a b _ hfetch hlocal hstep =>
      rw [step, hfetch] at hstep
      exact local_frameTop hlocal u hstep
  | @call a b _ hfetch hcall hle =>
      refine Nat.le_antisymm hle ?_
      cases hstep : step h s with
      | raise m =>
          rw [OpCall, hstep] at hcall
          cases hcall
      | fault =>
          rw [OpCall, hstep] at hcall
          cases hcall
      | ok s0 =>
          rw [OpCall, hstep] at hcall
          rw [step, hfetch] at hstep
          exact callLoop_frameTop hcall (call_frameTop h s a _ s0 hstep) u rfl
  | tcall hfetch htype hstep => exact tcall_frameTop hfetch htype hstep

/-- Any number of tail calls, with whatever is done in between. -/
theorem frameSteps_frameTop {u : Vm} (hsteps : Relation.ReflTransGen (FrameStep h) s u) :
    u.frameTop = s.frameTop := by
  induction hsteps with
  | refl => rfl
  | tail _ hstep ih => rw [frameStep_frameTop hstep, ih]

end Frames

/-- **`OP_TCALL` is `OP_CALL` and `OP_RETURN`**, for a callee whose run keeps
above its own slot, captures from the frames that make the closures, and reads
by position what the stack holds: the frame that makes the call returns the
same, in the same world, or not at all. And tail calls of closures take no
frames, however many there are. -/
theorem tcall_is_call_return (h : Host) :
    (∀ {s s1 : Vm} {a : Nat} {frame : Frame}, TailCall s s1 a frame → Modest frame.stackTop s1 →
      CalleeKeeps h s1 (fun x => Modest (s1.stackTop - (a + 1)) x ∧ ReadsStack x) →
      ∀ w v, (∃ u, FrameRun h s1 (.ok u) ∧ Returned s frame w v u)
        ↔ ∃ u, FrameRun h s (.ok u) ∧ Returned s frame w v u)
    ∧ ∀ s u, Relation.ReflTransGen (FrameStep h) s u → u.frameTop = s.frameTop :=
  ⟨fun hs hm hcallee w v => returned_iff hs hm hcallee w v,
    fun _ _ hsteps => frameSteps_frameTop hsteps⟩

/-! ## A callee that reads a slot of its frame -/

/-- `copy n` and return: slot `n` of the frame, whether it is on the stack or
above it. -/
def copier (n : Nat) : FunctionObj :=
  ⟨0, .mk [⟨2#8, BitVec.ofNat 8 n, 0#16⟩, ⟨18#8, 0#8, 0#16⟩] [] [] [] [] [], [], []⟩

/-- `OP_TCALL 0` -/
def tailCaller : FunctionObj := ⟨0, .mk [⟨20#8, 0#8, 0#16⟩] [] [] [] [] [], [], []⟩

/-- `OP_CALL 0`, `OP_RETURN` -/
def callReturner : FunctionObj :=
  ⟨0, .mk [⟨19#8, 0#8, 0#16⟩, ⟨18#8, 0#8, 0#16⟩] [] [] [] [] [], [], []⟩

/-- A function about to call `copier n` from the bottom frame, with one value
on the stack beneath it and numbers all over the array. -/
def aboutToCall (func : FunctionObj) (n : Nat) : Vm where
  world := ⟨[.function (copier n)], mapCreateEmpty, 0, 0, 0⟩
  stack := fun i => if i = 2 then objValue .function 1 else ⟨.number, BitVec.ofNat 64 i⟩
  stackTop := 3
  frames := fun _ => ⟨callReturner, 0, 0xffff⟩
  frameTop := 1
  func := func
  pc := 0

theorem tailCall_aboutTo (n : Nat) :
    TailCall (aboutToCall tailCaller n) (aboutToCall callReturner n) 0
      ⟨callReturner, 0, 0xffff⟩ :=
  ⟨⟨0, rfl⟩, ⟨0, rfl⟩, ⟨0, 0, rfl⟩, rfl, rfl⟩

/-- `copier n` entered by `OP_CALL`. -/
def copierEntered (n : Nat) : Vm :=
  { aboutToCall (copier n) n with
    stack := overwrite (aboutToCall (copier n) n).stack 3 []
    frames := Function.update (aboutToCall (copier n) n).frames 1 ⟨callReturner, 2, 1⟩
    frameTop := 2 }

/-- About to return. -/
def copierCopied (n : Nat) : Vm :=
  { copierEntered n with
    stack := Function.update (copierEntered n).stack 3 ((copierEntered n).stack (2 + n))
    stackTop := 4
    pc := 1 }

/-- Back in the caller. -/
def copierBack (n : Nat) : Vm :=
  { copierCopied n with
    stack := Function.update (copierCopied n).stack 2 ((copierCopied n).stack 3)
    stackTop := 3
    frameTop := 1
    func := callReturner }

section Copier

variable (h : Host)

theorem step_aboutToCall (n : Nat) :
    step h (aboutToCall callReturner n) = .ok (copierEntered n) := rfl

theorem step_copierCopied (n : Nat) : step h (copierCopied n) = .ok (copierBack n) := rfl

theorem fetch_copierEntered {n : Nat} (hn : n < 256) :
    (copierEntered n).fetch = .ok (.copy, n, 0) := by
  change Outcome.ok (_, (BitVec.ofNat 8 n).toNat, _) = _
  rw [BitVec.toNat_ofNat, Nat.mod_eq_of_lt hn]
  rfl

theorem step_copierEntered {n : Nat} (hn : n < 256) :
    step h (copierEntered n) = .ok (copierCopied n) := by
  have hslot : (copierEntered n).slot (2 + n) = .ok ((copierEntered n).stack (2 + n)) :=
    slot_ok (by rw [stackSize]; omega)
  rw [step, fetch_copierEntered hn]
  change next <$> (copierEntered n).pushFrom ((copierEntered n).slot (2 + n)) = _
  rw [hslot]
  rfl

/-- The states the loop of the call comes through. -/
theorem copier_steps {n : Nat} (hn : n < 256) {x : Vm}
    (hsteps : (callLoop h 1).Steps (copierEntered n) x) (hno : ¬ (callLoop h 1).halted x) :
    x = copierEntered n ∨ x = copierCopied n := by
  rcases hsteps.cases_head with heq | ⟨y, hy, hsteps⟩
  · exact Or.inl heq.symm
  · obtain rfl : y = copierCopied n := Outcome.ok.inj (hy.2.symm.trans (step_copierEntered h hn))
    rcases hsteps.cases_head with heq | ⟨z, hz, hsteps⟩
    · exact Or.inr heq.symm
    · obtain rfl : z = copierBack n := Outcome.ok.inj (hz.2.symm.trans (step_copierCopied h n))
      rcases hsteps.cases_head with heq | ⟨_, hnext, -⟩
      · exact absurd (heq ▸ Or.inr (Nat.le_refl 1)) hno
      · exact absurd (Or.inr (Nat.le_refl 1)) hnext.1

/-- What a state keeps to that is at `op`. -/
theorem Modest.of_fetch {base : Nat} {s : Vm} {op : Op} {a : Nat} {b : Int}
    (hfetch : s.fetch = .ok (op, a, b)) (hop : op ≠ .lambda ∧ op ≠ .tcall)
    (htakes : base + (op.effect a).1 ≤ s.stackTop) (htop : s.stackTop < stackSize)
    (hcalls : s.frameTop ≤ maxCalls)
    (hcall : op = .call → CalleeRoom s (s.stackTop - (a + 1)) a) : Modest base s := by
  refine ⟨?_, ?_, ⟨Nat.le_of_lt htop, fun _ _ _ _ _ => htop, ?_, ?_⟩, hcalls, ?_⟩
  · intro op' a' b' h
    cases hfetch.symm.trans h
    exact htakes
  · intro a' b' prot h
    cases hfetch.symm.trans h
    exact absurd rfl hop.1
  · intro a' b' h
    cases hfetch.symm.trans h
    exact hcall rfl
  · intro a' b' frame h
    cases hfetch.symm.trans h
    exact absurd rfl hop.2
  · intro a' b' frame h
    cases hfetch.symm.trans h
    exact absurd rfl hop.2

theorem modest_aboutToCall (n : Nat) : Modest 0 (aboutToCall callReturner n) := by
  have hfetch : (aboutToCall callReturner n).fetch = .ok (.call, 0, 0) := rfl
  refine .of_fetch hfetch (by simp) (by simp [Op.effect, aboutToCall])
    (by simp [aboutToCall, stackSize]) (by simp [aboutToCall, maxCalls]) fun _ _ => ?_
  refine ⟨by simp [aboutToCall, maxCalls], fun fn hfn => ?_⟩
  cases hfn
  simp [aboutToCall, copier, stackSize]

theorem modest_copierEntered {n : Nat} (hn : n < 256) : Modest 2 (copierEntered n) :=
  .of_fetch (fetch_copierEntered hn) (by simp) (by simp [Op.effect, copierEntered, aboutToCall])
    (by simp [copierEntered, aboutToCall, stackSize]) (by simp [copierEntered, maxCalls]) (by simp)

theorem modest_copierCopied (n : Nat) : Modest 2 (copierCopied n) :=
  @Modest.of_fetch 2 _ .return 0 0 rfl (by simp) (by simp [Op.effect, copierCopied])
    (by simp [copierCopied, stackSize]) (by simp [copierCopied, copierEntered, maxCalls]) (by simp)

theorem callee_modest {n : Nat} (hn : n < 256) :
    CalleeKeeps h (aboutToCall callReturner n) (Modest 2) := by
  intro s0 x hs0 hsteps hno
  obtain rfl := Outcome.ok.inj (hs0.symm.trans (step_aboutToCall h n))
  rcases copier_steps h hn hsteps hno with rfl | rfl
  · exact modest_copierEntered hn
  · exact modest_copierCopied n

theorem callee_reads : CalleeKeeps h (aboutToCall callReturner 0) ReadsStack := by
  intro s0 x hs0 hsteps hno
  obtain rfl := Outcome.ok.inj (hs0.symm.trans (step_aboutToCall h 0))
  rcases copier_steps h (by simp) hsteps hno with rfl | rfl
  · refine ⟨?_, ?_, ?_⟩
    · intro a b frame h hf
      cases (fetch_copierEntered (n := 0) (by simp)).symm.trans h
      cases hf
      simp [copierEntered, aboutToCall]
    · intro a b frame h
      cases (fetch_copierEntered (n := 0) (by simp)).symm.trans h
    · intro a b frame prot h
      cases (fetch_copierEntered (n := 0) (by simp)).symm.trans h
  · have hfetch : (copierCopied 0).fetch = .ok (.return, 0, 0) := rfl
    refine ⟨?_, ?_, ?_⟩
    · intro a b frame h
      cases hfetch.symm.trans h
    · intro a b frame h
      cases hfetch.symm.trans h
    · intro a b frame prot h
      cases hfetch.symm.trans h

/-- After the `OP_RETURN` of the caller. -/
def callReturned (n : Nat) : Vm :=
  { copierBack n with
    stack := Function.update (copierBack n).stack 0 ((copierBack n).stack 2)
    stackTop := 1
    frameTop := 0
    pc := 0xffff }

theorem goes_on {s : Vm} (hpc : s.pc < s.func.prot.inst.length) (hlevel : 0 < s.frameTop) :
    ¬ (callLoop h 0).halted s := by
  rintro (hhalted | hle)
  · exact absurd hhalted (Nat.not_le.mpr hpc)
  · omega

/-- The run of `OP_CALL` and `OP_RETURN`. -/
theorem callRun {n : Nat} (hn : n < 256) :
    FrameRun h (aboutToCall callReturner n) (.ok (callReturned n)) := by
  change (callLoop h 0).Runs (copierEntered n) _
  exact .step ⟨goes_on h Nat.zero_lt_two Nat.zero_lt_two, step_copierEntered h hn⟩
    (.step ⟨goes_on h Nat.one_lt_two Nat.zero_lt_two, step_copierCopied h n⟩
      (@Machine.Runs.step _ _ _ (callReturned n) _ ⟨goes_on h Nat.one_lt_two Nat.zero_lt_one, rfl⟩
        (.halt (Or.inr (Nat.le_refl 0)))))

/-- `copier n` in the frame of its caller. -/
def tailEntered (n : Nat) : Vm :=
  { aboutToCall (copier n) n with
    stack := overwrite (overwrite (aboutToCall (copier n) n).stack 0 [objValue .function 1]) 1 []
    stackTop := 1
    frames := Function.update (aboutToCall (copier n) n).frames 0 ⟨callReturner, 0, 0xffff⟩ }

def tailCopied (n : Nat) : Vm :=
  { tailEntered n with
    stack := Function.update (tailEntered n).stack 1 ((tailEntered n).stack (0 + n))
    stackTop := 2
    pc := 1 }

def tailReturned (n : Nat) : Vm :=
  { tailCopied n with
    stack := Function.update (tailCopied n).stack 0 ((tailCopied n).stack 1)
    stackTop := 1
    frameTop := 0
    func := callReturner
    pc := 0xffff }

/-- The run of `OP_TCALL`. -/
theorem tailRun {n : Nat} (hn : n < 256) :
    FrameRun h (aboutToCall tailCaller n) (.ok (tailReturned n)) := by
  change (callLoop h 0).Runs (tailEntered n) _
  have hstep : step h (tailEntered n) = .ok (tailCopied n) := by
    rw [step, show (tailEntered n).fetch = .ok (.copy, n, 0) from fetch_copierEntered hn]
    change next <$> (tailEntered n).pushFrom ((tailEntered n).slot (0 + n)) = _
    rw [slot_ok (by rw [stackSize]; omega)]
    rfl
  exact .step ⟨goes_on h Nat.zero_lt_two Nat.zero_lt_one, hstep⟩
    (@Machine.Runs.step _ _ _ (tailReturned n) _ ⟨goes_on h Nat.one_lt_two Nat.zero_lt_one, rfl⟩
      (.halt (Or.inr (Nat.le_refl 0))))

theorem callReturned_returned (n : Nat) :
    Returned (aboutToCall tailCaller n) ⟨callReturner, 0, 0xffff⟩
      (aboutToCall tailCaller n).world ((copierEntered n).stack (2 + n)) (callReturned n) :=
  ⟨rfl, rfl, rfl, fun _ h => absurd h (Nat.not_lt_zero _), rfl,
    fun _ h => absurd h (Nat.not_lt_zero _), rfl, rfl⟩

end Copier

/-- The callee copies slot 5 of its frame, where only its own slot is on the
stack, and by a tail call another value than by a call. -/
theorem tail_call_copies_elsewhere :
    TailCall (aboutToCall tailCaller 5) (aboutToCall callReturner 5) 0 ⟨callReturner, 0, 0xffff⟩
      ∧ Modest 0 (aboutToCall callReturner 5)
      ∧ CalleeKeeps idleHost (aboutToCall callReturner 5) (Modest 2)
      ∧ (∃ u, FrameRun idleHost (aboutToCall callReturner 5) (.ok u) ∧ u.stack 0 = ⟨.number, 7#64⟩)
      ∧ ∃ u, FrameRun idleHost (aboutToCall tailCaller 5) (.ok u)
        ∧ u.stack 0 = ⟨.number, 5#64⟩ := by
  refine ⟨tailCall_aboutTo 5, modest_aboutToCall 5, callee_modest idleHost (by simp),
    ⟨_, callRun idleHost (by simp), rfl⟩, _, tailRun idleHost (by simp), rfl⟩

theorem copier_tail_call_returns :
    TailCall (aboutToCall tailCaller 0) (aboutToCall callReturner 0) 0 ⟨callReturner, 0, 0xffff⟩
      ∧ Modest 0 (aboutToCall callReturner 0)
      ∧ CalleeKeeps idleHost (aboutToCall callReturner 0) (fun x => Modest 2 x ∧ ReadsStack x)
      ∧ ∃ u, FrameRun idleHost (aboutToCall tailCaller 0) (.ok u)
        ∧ Returned (aboutToCall tailCaller 0) ⟨callReturner, 0, 0xffff⟩
          (aboutToCall tailCaller 0).world (objValue .function 1) u := by
  have hkeeps : CalleeKeeps idleHost (aboutToCall callReturner 0)
      fun x => Modest 2 x ∧ ReadsStack x := fun s0 x hs0 hsteps hno =>
    ⟨callee_modest idleHost (by simp) s0 x hs0 hsteps hno,
      callee_reads idleHost s0 x hs0 hsteps hno⟩
  refine ⟨tailCall_aboutTo 0, modest_aboutToCall 0, hkeeps, ?_⟩
  exact ((tcall_is_call_return idleHost).1 (tailCall_aboutTo 0) (modest_aboutToCall 0) hkeeps
    _ _).mp ⟨_, callRun idleHost (by simp), callReturned_returned 0⟩

end Vm

end Saurus
