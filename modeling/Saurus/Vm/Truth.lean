import Saurus.Vm.Refine

/-!
# Truth

Four instructions ask whether a value is true, each with a test of its own.
`OP_TEST` is taken as the one that says what truth is, and the three that
make a boolean of it are compared with it. `OP_AND` agrees on every pair of
values. `OP_NOT` negates a boolean but turns nil into false and every other
value into true, and `OP_OR` has `||` where its test needs `&&`, so that it
is true of everything.
-/

namespace Saurus

open Basis

namespace Vm

variable {h : Host} {s : Vm} {x y : Value} {a : Nat} {b : Int}

/-! ## Statements -/

/-- The instruction at `s->pc` is `op`. -/
def At (s : Vm) (op : Op) : Prop := ∃ a b, s.fetch = .ok (op, a, b)

/-- `xs` are the topmost values, the last one at `STK(-1)`. -/
def Tops (s : Vm) (xs : List Value) : Prop :=
  xs.length ≤ s.stackTop ∧ s.window (s.stackTop - xs.length) xs.length = xs

/-- `OP_TEST` takes its jump on `x`: wherever it leads, the loop goes on there. -/
def TestJumps (h : Host) (x : Value) : Prop :=
  ∀ (s : Vm) (a : Nat) (b : Int), s.fetch = .ok (.test, a, b) → s.Tops [x] →
    step h s = .ok ({ s with stackTop := s.stackTop - 1 }.jump a)

/-- The `n` topmost values give way to the boolean that says `P`; nothing
else changes but `s->pc`. -/
def Decides (h : Host) (s : Vm) (n : Nat) (P : Prop) : Prop :=
  ∃ v : Value, v.type = .boolean ∧ (objB v = true ↔ P) ∧
    step h s = .ok { s with
      stack := Function.update s.stack (s.stackTop - n) v
      stackTop := s.stackTop - n + 1
      pc := s.pc + 1 }

/-- `OP_NOT`, `OP_AND` and `OP_OR` mean by true what `OP_TEST` does. -/
structure OneTruth (h : Host) (x y : Value) : Prop where
  not : ∀ s : Vm, s.At .not → s.Tops [x] → Decides h s 1 (¬ TestJumps h x)
  and : ∀ s : Vm, s.At .and → s.Tops [x, y] → Decides h s 2 (TestJumps h x ∧ TestJumps h y)
  or : ∀ s : Vm, s.At .or → s.Tops [x, y] → Decides h s 2 (TestJumps h x ∨ TestJumps h y)

/-! ## Operands -/

theorem Tops.one (hx : s.Tops [x]) : 1 ≤ s.stackTop ∧ s.stack (s.stackTop - 1) = x := by
  obtain ⟨hn, hwin⟩ := hx
  exact ⟨hn, List.head_eq_of_cons_eq hwin⟩

theorem Tops.two (hxy : s.Tops [x, y]) :
    2 ≤ s.stackTop ∧ s.stack (s.stackTop - 2) = x ∧ s.stack (s.stackTop - 1) = y := by
  obtain ⟨hn, hwin⟩ := hxy
  have hn : 2 ≤ s.stackTop := hn
  have htop : s.stackTop - 2 + 1 = s.stackTop - 1 := by omega
  simp only [window, slice, List.length_cons, List.length_nil, List.range_succ, List.range_zero,
    List.nil_append, List.cons_append, List.map_cons, List.map_nil, Nat.zero_add, Nat.add_zero,
    htop, List.cons.injEq, and_true] at hwin
  exact ⟨hn, hwin⟩

/-! ## Instructions -/

/-- One turn of the loop at `OP_TEST`. -/
theorem step_test (hf : s.fetch = .ok (.test, a, b)) (hx : s.Tops [x]) :
    step h s = .ok (if truthy x then { s with stackTop := s.stackTop - 1 }.jump a
      else { s with stackTop := s.stackTop - 1 }.next) := by
  obtain ⟨hn, hx⟩ := hx.one
  simp [step, hf, exec, test, stk_ok hn, hx, pop, hn]

theorem step_unary {op : Op} {f : Value → Outcome Value} {v : Value} (hs : s.At op)
    (hexec : ∀ a b, exec h s op a b = next <$> s.unary f) (hx : s.Tops [x]) (hv : f x = .ok v) :
    step h s = .ok { s with
      stack := Function.update s.stack (s.stackTop - 1) v
      stackTop := s.stackTop - 1 + 1
      pc := s.pc + 1 } := by
  obtain ⟨a, b, hf⟩ := hs
  obtain ⟨hn, hx⟩ := hx.one
  have htop : s.stackTop - 1 + 1 = s.stackTop := by omega
  simp [step, hf, hexec, unary, stk_ok hn, hx, hv, next, htop]

theorem step_binary {op : Op} {f : Value → Value → Outcome Value} {v : Value} (hs : s.At op)
    (hexec : ∀ a b, exec h s op a b = next <$> s.binary f) (hxy : s.Tops [x, y])
    (hv : f x y = .ok v) :
    step h s = .ok { s with
      stack := Function.update s.stack (s.stackTop - 2) v
      stackTop := s.stackTop - 2 + 1
      pc := s.pc + 1 } := by
  obtain ⟨a, b, hf⟩ := hs
  obtain ⟨hn, hx, hy⟩ := hxy.two
  have htop : s.stackTop - 2 + 1 = s.stackTop - 1 := by omega
  simp [step, hf, hexec, binary, stk_ok hn, stk_ok (show 1 ≤ s.stackTop by omega), hx, hy, hv,
    next, htop]

/-- A boolean that an instruction computes decides exactly what it is true for. -/
theorem decides_iff {n : Nat} {P : Prop} {z : Value} {c : Bool}
    (hstep : step h s = .ok { s with
      stack := Function.update s.stack (s.stackTop - n) (asBoolean z c)
      stackTop := s.stackTop - n + 1
      pc := s.pc + 1 }) :
    Decides h s n P ↔ (c = true ↔ P) := by
  constructor
  · rintro ⟨v, -, hP, hv⟩
    rw [hstep] at hv
    have hstack := congrFun (congrArg Vm.stack (Outcome.ok.inj hv)) (s.stackTop - n)
    dsimp only at hstack
    rw [Function.update_self, Function.update_self] at hstack
    rw [← hP, ← hstack, asBoolean, objB_setObjB]
  · intro hc
    refine ⟨asBoolean z c, rfl, ?_, hstep⟩
    rw [asBoolean, objB_setObjB]
    exact hc

/-! ## A state for every instruction -/

/-- A function of one instruction. -/
def oneInst (op : Op) (a : Nat) : FunctionObj :=
  ⟨0, .mk [⟨BitVec.ofNat 8 op.code, BitVec.ofNat 8 a, 0⟩] [] [] [] [] [], [], []⟩

/-- The loop about to execute `op` on `xs`. -/
def aboutTo (op : Op) (a : Nat) (xs : List Value) : Vm where
  world := ⟨[], mapCreateEmpty, 0, 0, 0⟩
  stack := fun i => xs.getD i ⟨.nil, 0⟩
  stackTop := xs.length
  frames := fun _ => ⟨oneInst op a, 0, 0xffff⟩
  frameTop := 1
  func := oneInst op a
  pc := 0

theorem fetch_aboutTo (op : Op) (a : Nat) (xs : List Value) :
    (aboutTo op a xs).fetch = .ok (op, (BitVec.ofNat 8 a).toNat, 0) := by
  have hcode : (BitVec.ofNat 8 op.code).toNat = op.code := by
    rw [BitVec.toNat_ofNat, Nat.mod_eq_of_lt op.code_lt]
  simp [fetch, aboutTo, oneInst, Proto.inst, hcode]

theorem at_aboutTo (op : Op) (a : Nat) (xs : List Value) : (aboutTo op a xs).At op :=
  ⟨_, _, fetch_aboutTo op a xs⟩

theorem tops_one (op : Op) (a : Nat) (x : Value) : (aboutTo op a [x]).Tops [x] :=
  ⟨Nat.le_refl _, rfl⟩

theorem tops_two (op : Op) (a : Nat) (x y : Value) : (aboutTo op a [x, y]).Tops [x, y] :=
  ⟨Nat.le_refl _, rfl⟩

/-! ## Truth, instruction by instruction -/

/-- What is true: every value but nil and the boolean false. -/
theorem testJumps_iff : TestJumps h x ↔ truthy x = true := by
  constructor
  · intro hjumps
    have hstep := hjumps (aboutTo .test 7 [x]) _ _ (fetch_aboutTo ..) (tops_one ..)
    rw [step_test (fetch_aboutTo ..) (tops_one ..)] at hstep
    by_contra hx
    rw [if_neg hx] at hstep
    have hpc : 0 + 1 = 7 := congrArg Vm.pc (Outcome.ok.inj hstep)
    omega
  · intro hx s a b hf hs
    rw [step_test hf hs, if_pos hx]

theorem decides_not {P : Prop} (hs : s.At .not) (hx : s.Tops [x]) :
    Decides h s 1 P ↔ ((if x.type = .boolean then !objB x else x.type ≠ .nil) = true ↔ P) :=
  decides_iff (step_unary hs (fun _ _ => rfl) hx rfl)

theorem decides_and {P : Prop} (hs : s.At .and) (hxy : s.Tops [x, y]) :
    Decides h s 2 P ↔ ((truthy x && truthy y) = true ↔ P) :=
  decides_iff (step_binary hs (fun _ _ => rfl) hxy rfl)

/-- Nil passes the first half of the test of `OP_OR`, and what is not nil
the second. -/
theorem orTest_true (v : Value) : orTest v = true := by
  rw [orTest]
  by_cases hnil : v.type = .nil
  · simp [hnil]
  · simp [hnil]

theorem decides_or {P : Prop} (hs : s.At .or) (hxy : s.Tops [x, y]) : Decides h s 2 P ↔ P := by
  rw [decides_iff (step_binary hs (fun _ _ => rfl) hxy rfl)]
  simp [orTest_true]

/-- Only of a boolean does `OP_NOT` make the negation of its truth. -/
theorem not_test_iff :
    ((if x.type = .boolean then !objB x else x.type ≠ .nil) = true ↔ ¬ truthy x = true) ↔
      x.type = .boolean := by
  rw [truthy]
  by_cases hbool : x.type = .boolean
  · simp [hbool]
  · by_cases hnil : x.type = .nil
    · simp [hnil]
    · simp [hnil, hbool]

/-- **One notion of truth.** The four instructions agree on `x` and `y`
exactly when `x`, which `OP_NOT` is given, is a boolean, and one of the two,
which `OP_OR` calls true whatever they are, is true. -/
theorem one_truth_iff (h : Host) (x y : Value) :
    OneTruth h x y ↔ x.type = .boolean ∧ (truthy x = true ∨ truthy y = true) := by
  constructor
  · intro hone
    have hnot := hone.not _ (at_aboutTo .not 0 [x]) (tops_one ..)
    have hor := hone.or _ (at_aboutTo .or 0 [x, y]) (tops_two ..)
    rw [decides_not (at_aboutTo ..) (tops_one ..), testJumps_iff, not_test_iff] at hnot
    rw [decides_or (at_aboutTo ..) (tops_two ..), testJumps_iff, testJumps_iff] at hor
    exact ⟨hnot, hor⟩
  · rintro ⟨hbool, hor⟩
    refine ⟨fun s hs hx => ?_, fun s hs hxy => ?_, fun s hs hxy => ?_⟩
    · rw [decides_not hs hx, testJumps_iff, not_test_iff]
      exact hbool
    · rw [decides_and hs hxy, testJumps_iff, testJumps_iff, Bool.and_eq_true]
    · rw [decides_or hs hxy, testJumps_iff, testJumps_iff]
      exact hor

/-- `OP_NOT` of nil is false, though `OP_TEST` does not jump on nil. The
generator refuses `(not nil)`; `(not x nil)` is what comes to `OP_NOT` on nil. -/
theorem not_nil_not_one_truth : ¬ OneTruth idleHost ⟨.nil, 0⟩ ⟨.nil, 0⟩ := by
  intro hone
  have hnot := hone.not _ (at_aboutTo .not 0 [⟨.nil, 0⟩]) (tops_one ..)
  rw [decides_not (at_aboutTo ..) (tops_one ..), testJumps_iff] at hnot
  simp [truthy] at hnot

end Vm

end Saurus
