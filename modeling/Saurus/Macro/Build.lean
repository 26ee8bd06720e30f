import Saurus.Macro.Quote

/-!
# Running the code of a quote

`list` makes a chain of cells in the order of its arguments. The code of a
quote pushes the atoms and calls `list` on the elements of every list, so it
leaves the datum on the stack (`QuoteAt.run`), as long as there is room for
it and the atoms are among the constants of the function.
-/

namespace Saurus

open Basis

/-! ## Lists -/

/-- `list` and `su_list`: what is at `STK(-1)` if it returns 1. -/
def listNative (junk : Nat → BitVec 64) (w : World) (args : List Value) :
    Outcome (World × Option Value) :=
  if 0 < args.length then do
    let (w, v) ← cellCreateArray junk w args
    pure (w, some v)
  else pure (w, none)

/-- The pointer is that of `list`. -/
def RunsList (h : Host) (p : BitVec 64) : Prop :=
  ∀ w f args, (fun r : Reply => (r.world, r.ret)) <$> h.native p w (f :: args)
    = listNative h.junk w args

theorem Datum.showsAll_of_chained {w w' : World} (hw : w.Extends w') :
    ∀ {ds : List Datum} {vs : List Value} {v : Value},
      List.Forall₂ (fun d v => d.Shows w v) ds vs → Chained w' v vs → ShowsAll w' ds v
  | [], _, _, .nil, h => h
  | _ :: _, _ :: _, _, .cons hx hxs, ⟨htype, rest, hobj, hrest⟩ =>
      ⟨htype, _, rest, hobj, hx.extends hw, showsAll_of_chained hw hxs hrest⟩

/-! ## Turns of the loop -/

namespace Vm

/-- `n` turns of the loop. -/
def turns (h : Host) : Nat → Vm → Outcome Vm
  | 0, s => .ok s
  | n + 1, s => do
      let s ← step h s
      turns h n s

theorem turns_bind {h : Host} (m n : Nat) (s : Vm) :
    turns h (m + n) s = turns h m s >>= turns h n := by
  induction m generalizing s with
  | zero =>
      rw [Nat.zero_add]
      rfl
  | succ m ih =>
      rw [Nat.succ_add_eq_add_succ, Nat.add_succ, turns, turns, Outcome.bind_assoc]
      exact congrArg (step h s >>= ·) (funext ih)

theorem turns_add {h : Host} {s s' : Vm} {m : Nat} (n : Nat) (hm : turns h m s = .ok s') :
    turns h (m + n) s = turns h n s' := by
  rw [turns_bind, hm, Outcome.ok_bind]

theorem not_halted_of_step {h : Host} {s s' : Vm} (hstep : step h s = .ok s') : ¬ s.Halted := by
  obtain ⟨_, hfetch, -⟩ := Outcome.bind_eq_ok.mp hstep
  obtain ⟨i, hi, -⟩ := Outcome.bind_eq_ok.mp hfetch
  exact Nat.not_le.mpr (List.getElem?_eq_some_iff.mp (Outcome.ofOption_eq_ok.mp hi)).1

theorem steps_of_turns {h : Host} {n : Nat} {s s' : Vm} (hturns : turns h n s = .ok s') :
    (loop h).Steps s s' := by
  induction n generalizing s with
  | zero =>
      cases hturns
      exact .refl
  | succ n ih =>
      obtain ⟨s1, hstep, hrest⟩ := Outcome.bind_eq_ok.mp hturns
      exact .head ⟨not_halted_of_step hstep, hstep⟩ (ih hrest)

/-- `n` values are on top of the stack, `m` objects are new, and `pc` is the
next instruction of the function. -/
structure Pushed (s s' : Vm) (n m pc : Nat) : Prop where
  world : s.world.Adds s'.world m
  func : s'.func = s.func
  frames : s'.frames = s.frames
  frameTop : s'.frameTop = s.frameTop
  pc : s'.pc = pc
  stackTop : s'.stackTop = s.stackTop + n
  stack : ∀ i < s.stackTop, s'.stack i = s.stack i

variable {s s' s'' : Vm} {m n m' n' pc pc' : Nat}

theorem Pushed.trans (h : s.Pushed s' n m pc) (h' : s'.Pushed s'' n' m' pc') :
    s.Pushed s'' (n + n') (m + m') pc' where
  world := h.world.trans h'.world
  func := h'.func.trans h.func
  frames := h'.frames.trans h.frames
  frameTop := h'.frameTop.trans h.frameTop
  pc := h'.pc
  stackTop := by rw [h'.stackTop, h.stackTop, Nat.add_assoc]
  stack := fun i hi => (h'.stack i (by rw [h.stackTop]; omega)).trans (h.stack i hi)

/-- What is at an instruction of the generator. -/
theorem fetch_asInst {op : Op} {a : Nat}
    (hat : s.func.prot.inst[s.pc]? = some (asInst { op := op, a := a })) :
    s.fetch = .ok (op, a % 256, 0) := by
  rw [fetch, hat, Outcome.ofOption_some, Outcome.ok_bind]
  cases op <;> rfl

theorem pushed_update {v : Value} : s.Pushed { s with
    stack := Function.update s.stack s.stackTop v, stackTop := s.stackTop + 1,
    pc := s.pc + 1 } 1 0 (s.pc + 1) where
  world := .rfl
  func := rfl
  frames := rfl
  frameTop := rfl
  pc := rfl
  stackTop := rfl
  stack := fun _ hi => Function.update_of_ne (Nat.ne_of_lt hi) ..

theorem pushFrom_next {v : Value} (htop : s.stackTop < stackSize) :
    next <$> s.pushFrom (.ok v) = .ok { s with
      stack := Function.update s.stack s.stackTop v, stackTop := s.stackTop + 1,
      pc := s.pc + 1 } := by
  rw [pushFrom, decide_eq_true htop]
  rfl

theorem step_pushConst {h : Host} {a : Nat} {v : Value}
    (hat : s.func.prot.inst[s.pc]? = some (asInst { op := .push, a := a }))
    (hv : s.func.constants[a % 256]? = some v) (htop : s.stackTop < stackSize) :
    ∃ s', s.step h = .ok s' ∧ s.Pushed s' 1 0 (s.pc + 1)
      ∧ s'.stack = Function.update s.stack s.stackTop v := by
  refine ⟨_, ?_, pushed_update, rfl⟩
  rw [step, fetch_asInst hat, Outcome.ok_bind]
  change next <$> s.pushFrom (Outcome.ofOption s.func.constants[a % 256]?) = _
  rw [hv]
  exact pushFrom_next htop

theorem step_getglobal {h : Host} {a : Nat} {v : Value}
    (hat : s.func.prot.inst[s.pc]? = some (asInst { op := .getglobal, a := a }))
    (hv : getGlobal s.world s.func (a % 256) = .ok v) (htop : s.stackTop < stackSize) :
    ∃ s', s.step h = .ok s' ∧ s.Pushed s' 1 0 (s.pc + 1)
      ∧ s'.stack = Function.update s.stack s.stackTop v := by
  refine ⟨_, ?_, pushed_update, rfl⟩
  rw [step, fetch_asInst hat, Outcome.ok_bind]
  change (getGlobal s.world s.func (a % 256) >>= fun v => next <$> s.pushValue v) = _
  rw [hv, Outcome.ok_bind]
  exact pushFrom_next htop

/-- What `list` leaves at the place `tmp` of its function, which it was called
from with the elements above. -/
theorem callNative_chain {h : Host} (tmp ret : Nat) {f : Value} {n : Nat} (hn : 0 < n)
    (hlist : RunsList h f.obj) (hmem : s.world.objects.length + n < 2 ^ 64) :
    ∃ s', callNative h s tmp n ret f = .ok s' ∧ s.world.Adds s'.world n
      ∧ s'.func = s.func ∧ s'.frames = s.frames ∧ s'.frameTop = s.frameTop ∧ s'.pc = ret
      ∧ s'.stackTop = tmp + 1 ∧ (∀ i < tmp, s'.stack i = s.stack i)
      ∧ Chained s'.world (s'.stack tmp) (s.window (tmp + 1) n) := by
  have hlen : (s.window (tmp + 1) n).length = n := length_slice ..
  obtain ⟨w, v, hcells, hadds, hv⟩ :=
    cellCreateArray_chained h.junk (s.window (tmp + 1) n) (by rw [hlen]; exact hmem)
  rw [hlen] at hadds
  have hwindow : s.window tmp (n + 1) = s.stack tmp :: s.window (tmp + 1) n := slice_succ ..
  have hnative := hlist s.world (s.stack tmp) (s.window (tmp + 1) n)
  rw [listNative, hlen, if_pos hn, hcells] at hnative
  obtain ⟨r, hr, hreply⟩ : ∃ r, h.native f.obj s.world (s.window tmp (n + 1)) = .ok r
      ∧ (r.world, r.ret) = (w, some v) := by
    rw [hwindow]
    exact Outcome.map_eq_ok.mp hnative
  obtain ⟨rfl, hret⟩ := Prod.mk.inj hreply
  have hrun : callNative h s tmp n ret f = .ok { s with
      world := r.world
      stack := fun i => if i < tmp then s.stack i else if i = tmp then v else r.left (i - tmp)
      stackTop := tmp + 1
      pc := ret } := by
    rw [callNative, hr, Outcome.ok_bind, hret]
    rfl
  refine ⟨_, hrun, hadds, rfl, rfl, rfl, rfl, rfl, fun i hi => if_pos hi, ?_⟩
  dsimp only
  rw [if_neg (Nat.lt_irrefl _), if_pos rfl]
  exact hv

/-- A `CALL` of `list`. -/
theorem step_callChain {h : Host} {n : Nat} (hn : 0 < n) (hlen : n ≤ 255)
    (hat : s.func.prot.inst[s.pc]? = some (asInst { op := .call, a := n }))
    {tmp : Nat} (htmp : s.stackTop = tmp + (n + 1))
    (htype : (s.stack tmp).type = .nativefunc) (hlist : RunsList h (s.stack tmp).obj)
    (hmem : s.world.objects.length + n < 2 ^ 64) :
    ∃ s', s.step h = .ok s' ∧ s.world.Adds s'.world n
      ∧ s'.func = s.func ∧ s'.frames = s.frames ∧ s'.frameTop = s.frameTop ∧ s'.pc = s.pc + 1
      ∧ s'.stackTop = tmp + 1 ∧ (∀ i < tmp, s'.stack i = s.stack i)
      ∧ Chained s'.world (s'.stack tmp) (s.window (tmp + 1) n) := by
  obtain ⟨s', hrun, hrest⟩ := callNative_chain tmp (s.pc + 1) hn hlist hmem
  refine ⟨s', ?_, hrest⟩
  rw [step, fetch_asInst hat, Outcome.ok_bind, Nat.mod_eq_of_lt (by omega)]
  change call h s n (s.pc + 1) = _
  rw [call, decide_eq_true (by omega), Outcome.require_true, Outcome.ok_bind,
    show s.stackTop - (n + 1) = tmp by omega]
  simp only [htype]
  exact hrun

/-- The callee and its arguments, where `TCALL` has moved them. -/
theorem window_dropFrame (s : Vm) (frame : Frame) (a : Nat) :
    (s.dropFrame frame a).window frame.stackTop (a + 1)
      = s.window (s.stackTop - (a + 1)) (a + 1) := by
  have hover := slice_overwrite s.stack frame.stackTop (s.window (s.stackTop - (a + 1)) (a + 1))
  rwa [window, length_slice] at hover

/-- A `TCALL` of `list`, made from the frame below. -/
theorem step_tcallChain {h : Host} {n : Nat} (hn : 0 < n) (hlen : n ≤ 255)
    (hat : s.func.prot.inst[s.pc]? = some (asInst { op := .tcall, a := n }))
    {frame : Frame} (hframe : s.frame = .ok frame) {tmp : Nat} (hle : frame.stackTop ≤ tmp)
    (htmp : s.stackTop = tmp + (n + 1)) (htop : s.stackTop ≤ stackSize)
    (htype : (s.stack tmp).type = .nativefunc) (hlist : RunsList h (s.stack tmp).obj)
    (hmem : s.world.objects.length + n < 2 ^ 64) :
    ∃ s', s.step h = .ok s' ∧ s.world.Adds s'.world n ∧ s'.stackTop = frame.stackTop + 1
      ∧ Chained s'.world (s'.stack frame.stackTop) (s.window (tmp + 1) n) := by
  have hsub : s.stackTop - (n + 1) = tmp := by omega
  have hmoved := s.window_dropFrame frame n
  rw [hsub] at hmoved
  simp only [window, slice_succ, List.cons.injEq] at hmoved
  obtain ⟨hf, hargs⟩ := hmoved
  obtain ⟨s', hrun, hadds, hfunc, hframes, hframeTop, hpc, htop', hstack, hlast⟩ :=
    callNative_chain (s := s.dropFrame frame n) frame.stackTop frame.retAddr hn
      (hf.symm ▸ hlist) hmem
  refine ⟨s', ?_, hadds, htop', ?_⟩
  · rw [step, fetch_asInst hat, Outcome.ok_bind, Nat.mod_eq_of_lt (by omega)]
    change tcall h s n = _
    rw [tcall, hframe, Outcome.ok_bind, decide_eq_true (by omega), Outcome.require_true,
      Outcome.ok_bind, call, decide_eq_true (by simp [dropFrame]), Outcome.require_true,
      Outcome.ok_bind]
    have hdrop : (s.dropFrame frame n).stackTop - (n + 1) = frame.stackTop := by
      simp [dropFrame]
    rw [hdrop]
    simp only [hf, htype]
    rw [← hf]
    exact hrun
  · rw [window, ← hargs]
    exact hlast

end Vm

/-! ## What a quote needs -/

namespace Datum

mutual

/-- The atoms, as literals. -/
def literals : Datum → List Literal
  | .number n => [.number n]
  | .symbol a => [symbolLiteral a]
  | .list ds => literalsAll ds

def literalsAll : List Datum → List Literal
  | [] => []
  | d :: ds => d.literals ++ literalsAll ds

end

mutual

/-- How many slots it takes to build the datum. For a list that is one for
`list` itself and, next to the elements, one that `list` pushes its value on. -/
def height : Datum → Nat
  | .number _ => 1
  | .symbol _ => 1
  | .list ds => heightAll ds + 1

def heightAll : List Datum → Nat
  | [] => 1
  | d :: ds => max d.height (heightAll ds + 1)

end

theorem length_lt_height : ∀ ds : List Datum, ds.length < heightAll ds
  | [] => Nat.zero_lt_one
  | _ :: ds => by
      have := length_lt_height ds
      rw [List.length_cons, heightAll]
      omega

mutual

/-- How many cells the datum has. -/
def cells : Datum → Nat
  | .number _ => 0
  | .symbol _ => 0
  | .list ds => cellsAll ds + ds.length

def cellsAll : List Datum → Nat
  | [] => 0
  | d :: ds => d.cells + cellsAll ds

end

mutual

/-- No list has more elements than the operand of `CALL` can count. -/
def Narrow : Datum → Prop
  | .number _ => True
  | .symbol _ => True
  | .list ds => ds.length ≤ 255 ∧ NarrowAll ds

def NarrowAll : List Datum → Prop
  | [] => True
  | d :: ds => d.Narrow ∧ NarrowAll ds

end

/-- A list, of which the code calls `list`. -/
def IsList : Datum → Prop
  | .list _ => True
  | _ => False

end Datum

theorem Datum.const_symbolLiteral (a : Atom) : (symbolLiteral a).const = .string a := by
  unfold symbolLiteral
  split
  · rename_i ha
    rw [ha]
    rfl
  · rfl

/-- The state can run code of a quote: the constants that its instructions
pick are the atoms, the global `list` is the native, and there is room. -/
structure Ready (h : Host) (K : List Const) (code : List Instr) (s : Vm) (lits : List Literal)
    (height cells : Nat) : Prop where
  code : ∀ (pc : Nat) (i : Instr), code[pc]? = some i → s.func.prot.inst[pc]? = some (asInst i)
  held : ∀ lit ∈ lits, ∀ a, Picks K lit.const a →
    ∃ v, s.func.constants[a % 256]? = some v ∧ lit.Denotes s.world v
  list : ∀ a, Picks K (.string listAtom) a →
    ∃ f, getGlobal s.world s.func (a % 256) = .ok f ∧ f.type = .nativefunc ∧ RunsList h f.obj
  room : s.stackTop + height ≤ stackSize
  memory : s.world.objects.length + cells < 2 ^ 64

/-- A global stays what it is. -/
theorem getGlobal_adds {w w' : World} {n : Nat} (hw : w.Adds w' n) {func : FunctionObj} {a : Nat}
    {v : Value} (h : getGlobal w func a = .ok v) : getGlobal w' func a = .ok v := by
  obtain ⟨⟨key, hash⟩, hkey, h⟩ := Outcome.bind_eq_ok.mp h
  obtain ⟨m, hm, h⟩ := Outcome.bind_eq_ok.mp h
  obtain ⟨x, hx, h⟩ := Outcome.bind_eq_ok.mp h
  have hkey' : globalKey w' func a = .ok (key, hash) := by
    obtain ⟨k, hk, hkey⟩ := Outcome.bind_eq_ok.mp hkey
    obtain ⟨_, hcheck, hkey⟩ := Outcome.bind_eq_ok.mp hkey
    obtain ⟨hash', hhash, hkey⟩ := Outcome.bind_eq_ok.mp hkey
    rw [globalKey, hk, Outcome.ok_bind, hcheck, Outcome.ok_bind,
      hashValue_extends hw.objects hhash]
    exact hkey
  have hm' : globalsMap w' = .ok m := by
    obtain ⟨o, hobj, hm⟩ := Outcome.bind_eq_ok.mp hm
    rw [globalsMap, hw.globals, hw.objects _ _ hobj]
    exact hm
  rw [getGlobal, hkey', Outcome.ok_bind]
  dsimp only
  rw [hm', Outcome.ok_bind, hx, Outcome.ok_bind]
  split at h
  · obtain ⟨o, hobj, h⟩ := Outcome.bind_eq_ok.mp h
    cases o <;> cases h
  · rename_i hinv
    rw [if_neg hinv]
    exact h

theorem Ready.pushed {h : Host} {K : List Const} {code : List Instr} {s s' : Vm}
    {lits lits' : List Literal} {height height' cells cells' n m pc : Nat}
    (hr : Ready h K code s lits height cells) (hp : s.Pushed s' n m pc)
    (hlits : ∀ lit ∈ lits', lit ∈ lits) (hheight : n + height' ≤ height)
    (hcells : m + cells' ≤ cells) : Ready h K code s' lits' height' cells' where
  code := by
    rw [hp.func]
    exact hr.code
  held := fun lit hlit a ha => by
    obtain ⟨v, hv, hden⟩ := hr.held lit (hlits lit hlit) a ha
    exact ⟨v, by rw [hp.func, hv], hden.extends hp.world.objects⟩
  list := fun a ha => by
    obtain ⟨f, hf, hrest⟩ := hr.list a ha
    exact ⟨f, by rw [hp.func]; exact getGlobal_adds hp.world hf, hrest⟩
  room := by
    have := hr.room
    rw [hp.stackTop]
    omega
  memory := by
    have := hr.memory
    rw [hp.world.length]
    omega

section Elements

variable {h : Host} {K : List Const} {code : List Instr} {s s' : Vm} {d : Datum} {ds : List Datum}
  {pc : Nat}

/-- The first of some elements is built. -/
theorem Ready.first (hr : Ready h K code s (Datum.literalsAll (d :: ds)) (Datum.heightAll (d :: ds))
    (Datum.cellsAll (d :: ds))) : Ready h K code s d.literals d.height d.cells where
  code := hr.code
  held := fun lit hlit => hr.held lit (List.mem_append_left _ hlit)
  list := hr.list
  room := Nat.le_trans (Nat.add_le_add_left (Nat.le_max_left ..) _) hr.room
  memory := Nat.lt_of_le_of_lt (Nat.add_le_add_left (Nat.le_add_right ..) _) hr.memory

/-- The others are built behind it. -/
theorem Ready.rest (hr : Ready h K code s (Datum.literalsAll (d :: ds)) (Datum.heightAll (d :: ds))
    (Datum.cellsAll (d :: ds))) (hp : s.Pushed s' 1 d.cells pc) :
    Ready h K code s' (Datum.literalsAll ds) (Datum.heightAll ds) (Datum.cellsAll ds) :=
  hr.pushed hp (fun _ hlit => List.mem_append_right _ hlit)
    (Nat.add_comm .. ▸ Nat.le_max_right ..) (Nat.le_refl _)

/-- The elements of a list are built behind its function. -/
theorem Ready.elements (hr : Ready h K code s (Datum.list ds).literals (Datum.list ds).height
    (Datum.list ds).cells) (hp : s.Pushed s' 1 0 pc) :
    Ready h K code s' (Datum.literalsAll ds) (Datum.heightAll ds) (Datum.cellsAll ds) :=
  hr.pushed hp (fun _ hlit => hlit) (Nat.add_comm .. ▸ Nat.le_refl (Datum.heightAll ds + 1))
    (Nat.zero_add _ ▸ Nat.le_add_right ..)

end Elements

/-! ## The run -/

section Run

variable {h : Host} {K : List Const} {code : List Instr}

/-- An atom is pushed. -/
theorem push_run (lit : Literal) {s : Vm} {a : Nat}
    (hat : code[s.pc]? = some { op := .push, a := a }) (hpicks : Picks K lit.const a)
    (hr : Ready h K code s [lit] 1 0) :
    ∃ s' v, Vm.turns h 1 s = .ok s' ∧ s.Pushed s' 1 0 (s.pc + 1)
      ∧ s'.stack = Function.update s.stack s.stackTop v ∧ lit.Denotes s'.world v := by
  obtain ⟨v, hv, hden⟩ := hr.held lit (List.mem_singleton_self _) a hpicks
  obtain ⟨s', hstep, hp, hstack⟩ :=
    Vm.step_pushConst (h := h) (hr.code _ _ hat) hv (Nat.lt_of_succ_le hr.room)
  refine ⟨s', v, ?_, hp, hstack, hden.extends hp.world.objects⟩
  rw [Vm.turns, hstep]
  rfl

/-- So is every datum that is not a list. -/
theorem QuoteAt.push {d : Datum} (hd : ¬ d.IsList) {op : Op} {lo hi : Nat} {s : Vm}
    (hat : QuoteAt code K op d lo hi) (hr : Ready h K code s d.literals d.height d.cells)
    (hpc : s.pc = lo) :
    ∃ s' v, Vm.turns h d.codeLength s = .ok s' ∧ s.Pushed s' 1 0 hi
      ∧ s'.stack = Function.update s.stack s.stackTop v ∧ d.Shows s'.world v := by
  cases d with
  | number n =>
      obtain ⟨hhi, a, hpicks, hat⟩ := hat
      subst hpc hhi
      exact push_run (.number n) hat hpicks hr
  | symbol sym =>
      obtain ⟨hhi, a, hpicks, hat⟩ := hat
      subst hpc hhi
      rw [← Datum.const_symbolLiteral] at hpicks
      exact push_run _ hat hpicks hr
  | list ds => exact absurd trivial hd

/-- The function `list` and the elements are pushed, given that the elements
are. -/
theorem elements_run {ds : List Datum} {s : Vm} {a mid : Nat}
    (hat : code[s.pc]? = some { op := .getglobal, a := a }) (hpicks : Picks K (.string listAtom) a)
    (hr : Ready h K code s (Datum.literalsAll ds) (Datum.heightAll ds + 1)
      (Datum.cellsAll ds + ds.length))
    (hall : ∀ s1 : Vm, s1.pc = s.pc + 1 →
      Ready h K code s1 (Datum.literalsAll ds) (Datum.heightAll ds) (Datum.cellsAll ds) →
      ∃ s2, Vm.turns h (Datum.codeLengthAll ds) s1 = .ok s2
        ∧ s1.Pushed s2 ds.length (Datum.cellsAll ds) mid
        ∧ List.Forall₂ (fun d v => d.Shows s2.world v) ds (s2.window s1.stackTop ds.length)) :
    ∃ s2, Vm.turns h (Datum.codeLengthAll ds + 1) s = .ok s2
      ∧ s.Pushed s2 (ds.length + 1) (Datum.cellsAll ds) mid
      ∧ (s2.stack s.stackTop).type = .nativefunc ∧ RunsList h (s2.stack s.stackTop).obj
      ∧ List.Forall₂ (fun d v => d.Shows s2.world v) ds
        (s2.window (s.stackTop + 1) ds.length) := by
  obtain ⟨f, hf, htype, hlist⟩ := hr.list a hpicks
  have hroom := hr.room
  obtain ⟨s1, hstep, hp1, hstack⟩ :=
    Vm.step_getglobal (h := h) (hr.code _ _ hat) hf (by omega)
  obtain ⟨s2, hrun, hp2, hshows⟩ := hall s1 hp1.pc
    (hr.pushed hp1 (fun _ h => h) (by omega) (by omega))
  have hf2 : s2.stack s.stackTop = f := by
    rw [hp2.stack _ (by rw [hp1.stackTop]; exact Nat.lt_succ_self _), hstack,
      Function.update_self]
  rw [hp1.stackTop] at hshows
  refine ⟨s2, ?_, ?_, hf2 ▸ htype, hf2 ▸ hlist, hshows⟩
  · rw [Vm.turns, hstep]
    exact hrun
  · have hp := hp1.trans hp2
    rwa [Nat.add_comm 1, Nat.zero_add] at hp

theorem QuoteAt.atom {d : Datum} (hd : ¬ d.IsList) {op : Op} {lo hi : Nat} {s : Vm}
    (hat : QuoteAt code K op d lo hi) (hr : Ready h K code s d.literals d.height d.cells)
    (hpc : s.pc = lo) :
    ∃ s', Vm.turns h d.codeLength s = .ok s' ∧ s.Pushed s' 1 0 hi
      ∧ d.Shows s'.world (s'.stack s.stackTop) := by
  obtain ⟨s', v, hrun, hp, hstack, hshows⟩ := hat.push hd hr hpc
  exact ⟨s', hrun, hp, by rwa [hstack, Function.update_self]⟩

mutual

/-- **Running a quote.** The code of a datum leaves the datum on the stack. -/
theorem QuoteAt.run : ∀ {d : Datum} {lo hi : Nat} {s : Vm}, QuoteAt code K .call d lo hi →
    d.Quotable → d.Narrow → Ready h K code s d.literals d.height d.cells → s.pc = lo →
    ∃ s', Vm.turns h d.codeLength s = .ok s' ∧ s.Pushed s' 1 d.cells hi
      ∧ d.Shows s'.world (s'.stack s.stackTop)
  | .number n, _, _, _, hat, _, _, hr, hpc => hat.atom id hr hpc
  | .symbol a, _, _, _, hat, _, _, hr, hpc => hat.atom id hr hpc
  | .list ds, lo, hi, s, ⟨a, mid, hhi, hpicks, hat, hall, hcall⟩, hq, hn, hr, hpc => by
      subst hpc hhi
      obtain ⟨s2, hrun, hp, htype, hlist, hshows⟩ := elements_run hat hpicks hr
        fun s1 hpc1 hr1 => quoteAllAt_run hall hq.2.2 hn.2 hr1 hpc1
      have hmem := hr.memory
      rw [Datum.cells] at hmem
      obtain ⟨s3, hstep, hadds, hfunc, hframes, hframeTop, hpc3, htop, hstack, hchain⟩ :=
        Vm.step_callChain (h := h) (List.length_pos_of_ne_nil hq.1) hn.1
          (by rw [hp.func, hp.pc]; exact hr.code _ _ hcall) hp.stackTop htype hlist
          (by rw [hp.world.length]; omega)
      refine ⟨s3, ?_, ?_, hq.1, Datum.showsAll_of_chained hadds.objects hshows hchain⟩
      · rw [Datum.codeLength,
          show Datum.codeLengthAll ds + 2 = Datum.codeLengthAll ds + 1 + 1 from rfl,
          Vm.turns_add 1 hrun, Vm.turns, hstep]
        rfl
      · exact ⟨hp.world.trans hadds, hfunc.trans hp.func, hframes.trans hp.frames,
          hframeTop.trans hp.frameTop, hpc3.trans (by rw [hp.pc]), htop,
          fun i hi => (hstack i hi).trans (hp.stack i hi)⟩

theorem quoteAllAt_run : ∀ {ds : List Datum} {lo hi : Nat} {s : Vm}, QuoteAllAt code K ds lo hi →
    Datum.QuotableAll ds → Datum.NarrowAll ds →
    Ready h K code s (Datum.literalsAll ds) (Datum.heightAll ds) (Datum.cellsAll ds) → s.pc = lo →
    ∃ s', Vm.turns h (Datum.codeLengthAll ds) s = .ok s'
      ∧ s.Pushed s' ds.length (Datum.cellsAll ds) hi
      ∧ List.Forall₂ (fun d v => d.Shows s'.world v) ds (s'.window s.stackTop ds.length)
  | [], lo, hi, s, hhi, _, _, _, hpc => by
      obtain rfl : hi = lo := hhi
      exact ⟨s, rfl, ⟨.rfl, rfl, rfl, rfl, hpc, rfl, fun _ _ => rfl⟩, .nil⟩
  | d :: ds, lo, hi, s, ⟨mid, hd, hds⟩, hq, hn, hr, hpc => by
      obtain ⟨s1, hrun1, hp1, hshows1⟩ := hd.run hq.1 hn.1 hr.first hpc
      obtain ⟨s2, hrun2, hp2, hshows2⟩ := quoteAllAt_run hds hq.2 hn.2 (hr.rest hp1) hp1.pc
      refine ⟨s2, ?_, ?_, ?_⟩
      · rw [Datum.codeLengthAll, Vm.turns_add _ hrun1, hrun2]
      · have hp := hp1.trans hp2
        rwa [Nat.add_comm 1] at hp
      · rw [List.length_cons, Vm.window, slice_succ]
        rw [hp1.stackTop] at hshows2
        refine .cons ?_ hshows2
        rw [hp2.stack _ (by rw [hp1.stackTop]; exact Nat.lt_succ_self _)]
        exact hshows1.extends hp2.world.objects

end

end Run

end Saurus
